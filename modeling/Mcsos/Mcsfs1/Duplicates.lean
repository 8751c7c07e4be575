import Mcsos.Mcsfs1.DeviceSteps
import Mcsos.Mcsfs1.Names

set_option autoImplicit false

/-! # Creating a name on a flaky device

`mcsfs1_create` reads the directory twice: `find_dirent` reads it to see whether the name is there,
and then it is read again for a free entry. When the first of these reads fails, the name counts as
not found.
-/

namespace Mcsos.Mcsfs1

open Prog

/-- An entry in use carries the name. -/
def Carried (dir name : Bytes) : Prop := ∃ i, InUse dir i ∧ slotKey dir i = key name

/-- An entry is in use that was not before. -/
def AddsEntry (dir dir' : Bytes) : Prop := ∃ i, ¬InUse dir i ∧ InUse dir' i

/-- What a create with this result has done: it says so, or there is a new entry. -/
def Makes (dir : Bytes) (r : Except Mcsfs1Err Unit × Blkdev) : Prop :=
  r.1 = .ok () ∨ AddsEntry dir (r.2.blocks rootDirLba)

theorem addsEntry_irrefl (dir : Bytes) : ¬AddsEntry dir dir := fun ⟨_, hnot, hi⟩ => hnot hi

theorem not_makes {dir : Bytes} {e : Mcsfs1Err} {dev : Blkdev} (h : dev.blocks rootDirLba = dir) :
    ¬Makes dir (.error e, dev) := by
  rintro (hok | hadds)
  · cases hok
  · exact addsEntry_irrefl dir (h ▸ hadds)

/-- A short name that an entry carries is found. -/
theorem findSlot_isSome_iff {name : Bytes} {n : Nat} (hv : validName name = .ok n)
    (hn : n < maxName) (dir : Bytes) (past : UInt8) :
    (findSlot (withPast dir past) name n).isSome = true ↔ Carried dir name := by
  rw [Option.isSome_iff_exists]
  constructor
  · rintro ⟨i, hi⟩
    obtain ⟨-, hlt, hmatch, -⟩ := Loop.findFrom_some_iff.mp hi
    have hi16 : i < direntCount := by omega
    obtain ⟨hino, hkey, -⟩ := (direntMatches_iff hv hi16 past).mp hmatch
    exact ⟨i, ⟨hi16, hino⟩, hkey⟩
  · rintro ⟨i, ⟨hlt, hino⟩, hkey⟩
    by_contra hnone
    rw [← Option.isSome_iff_exists, Option.not_isSome_iff_eq_none] at hnone
    have hfalse := Loop.findFrom_none_iff.mp hnone i (Nat.zero_le i) (by omega)
    -- a name of 27 bytes has no NUL in its entry, but this one is shorter
    have hends : EndsAt dir past i := fun hfull => by
      rw [hkey, (key_length hv).1] at hfull
      omega
    rw [(direntMatches_iff hv hlt past).mpr ⟨hino, hkey, hends⟩] at hfalse
    cases hfalse

/-- The entry that is written is in use. -/
theorem inUse_setDirent {dir name : Bytes} {i ino n : Nat} (hi : i < direntCount) (hpos : ino ≠ 0)
    (hino : ino ≤ maxInodes) (hn : n ≤ maxName) :
    InUse (Bytes.clip blockSize (setDirent dir i ino name n)) i := by
  refine ⟨hi, ?_⟩
  have hentry : entriesOf (Bytes.clip blockSize (setDirent dir i ino name n)) i =
      ⟨ino, modeFile⟩ := by
    rw [entriesOf_congr (Bytes.clip_agreeOn _ _),
      entriesOf_setDirent hi (lt_of_le_of_lt hino (by decide)) hn, Function.update_self]
  rw [entriesOf, if_pos hi] at hentry
  have hsame : deIno (Bytes.clip blockSize (setDirent dir i ino name n)) i = ino :=
    congrArg Entry.ino hentry
  rwa [hsame]

section

variable {dev : Blkdev} {name : Bytes} {n : Nat} (h8 : 8 < dev.blockCount)
  (hv : validName name = .ok n) (hn : n < maxName) (past : UInt8)

include h8 hv hn

/-- The duplicate check finds the name if it is there and the directory could be read. -/
theorem attempt_findDirent : ∃ r, attempt (findDirent name past) dev = (.ok r, dev.asked rootDirLba) ∧
    (r.isOk = true ↔ dev.ReadWorks 0 ∧ Carried (dev.blocks rootDirLba) name) := by
  have hlba : rootDirLba < dev.blockCount := show 7 < _ by omega
  have hname : (ofExcept (validName name) : M15 Nat) dev = (.ok n, dev) := by
    rw [hv]
    rfl
  have hrun : findDirent name past dev = (devRead rootDirLba >>= fun block =>
      (ofOption (findSlot (withPast block past) name n) .noent : M15 Nat) >>= fun slot =>
        pure (slot, deIno (withPast block past) slot)) dev := bind_ok hname
  by_cases hread : dev.ReadWorks 0
  · rw [bind_ok (devRead_ok hlba hread)] at hrun
    rw [and_iff_right hread, ← findSlot_isSome_iff hv hn _ past]
    cases hslot : findSlot (withPast (dev.blocks rootDirLba) past) name n with
    | none =>
        rw [hslot, bind_error (ofOption_none _ _)] at hrun
        refine ⟨.error .noent, ?_, iff_of_false nofun nofun⟩
        rw [attempt, hrun]
    | some slot =>
        rw [hslot, bind_ok (ofOption_some _ _ _)] at hrun
        refine ⟨.ok (slot, deIno (withPast (dev.blocks rootDirLba) past) slot), ?_,
          iff_of_true rfl rfl⟩
        rw [attempt, hrun]
        rfl
  · rw [bind_error (devRead_error hlba hread)] at hrun
    refine ⟨.error .io, ?_, iff_of_false nofun fun h => hread h.1⟩
    rw [attempt, hrun]

end

/-- After its first read the call gets through: the four reads and the four writes that follow
succeed. -/
def GetsThrough (dev : Blkdev) : Prop :=
  (∀ k, k < 4 → dev.ReadWorks (k + 1)) ∧ ∀ k, k < 4 → dev.WriteWorks k

/-- There are a free entry, a free inode and a free block. -/
structure RoomForOne (dev : Blkdev) : Prop where
  slot : ∃ s, findFreeDirent (dev.blocks rootDirLba) = some s
  ino : ∃ i, findFreeInode (dev.blocks inodeBmapLba) = some i
  block : ∃ b, findFreeBlock (dev.blocks blockBmapLba) dev.blockCount = some b

theorem findFreeInode_le {ib : Bytes} {ino : Nat} (h : findFreeInode ib = some ino) :
    2 ≤ ino ∧ ino ≤ maxInodes := by
  obtain ⟨hge, hlt, -⟩ := Loop.findFrom_some_iff.mp h
  have hmax : maxInodes = 32 := rfl
  exact ⟨hge, by omega⟩

theorem findFreeDirent_lt {dir : Bytes} {i : Nat} (h : findFreeDirent dir = some i) :
    i < direntCount ∧ deIno dir i = 0 := by
  obtain ⟨-, hlt, hfree, -⟩ := Loop.findFrom_some_iff.mp h
  exact ⟨by omega, of_decide_eq_true hfree⟩

/-- The last two steps of a create: with the write there is an entry, whether the flush succeeds or
not. -/
theorem enterDirent_makes {dev : Blkdev} {dir name : Bytes} {slot ino n : Nat}
    (hlba : rootDirLba < dev.blockCount) (hdir : dev.blocks rootDirLba = dir)
    (hslot : findFreeDirent dir = some slot) (hino : 2 ≤ ino ∧ ino ≤ maxInodes) (hn : n ≤ maxName) :
    Makes dir ((devWrite rootDirLba (setDirent dir slot ino name n) >>= fun _ => devFlush) dev) ↔
      dev.WriteWorks 0 := by
  obtain ⟨hlt, hfree⟩ := findFreeDirent_lt hslot
  refine (bind_write_iff hlba (not_makes hdir)).trans (and_iff_left ?_)
  have hadds : AddsEntry dir ((dev.stored rootDirLba (setDirent dir slot ino name n)).blocks
      rootDirLba) := by
    refine ⟨slot, fun huse => huse.2 hfree, ?_⟩
    rw [stored_blocks, put_same]
    exact inUse_setDirent hlt (by omega) hino.2 hn
  -- with an error of the flush the entry is there all the same
  refine Or.inr ?_
  rw [devFlush]
  split
  · exact hadds
  · exact hadds

/-- The device behind `alloc_inode_block`. -/
def allocated (dev : Blkdev) (ino lba : Nat) : Blkdev :=
  (((dev.asked inodeBmapLba).asked blockBmapLba).stored inodeBmapLba
    (Bitmap.set (dev.blocks inodeBmapLba) ino)).stored blockBmapLba
      (Bitmap.set (dev.blocks blockBmapLba) lba)

theorem allocated_dir (dev : Blkdev) (ino lba : Nat) :
    (allocated dev ino lba).blocks rootDirLba = dev.blocks rootDirLba := by
  rw [allocated, stored_blocks, put_ne (by decide), stored_blocks, put_ne (by decide)]
  rfl

theorem bind_allocInodeBlock_iff {β : Type} {dev : Blkdev} {P : Except Mcsfs1Err β × Blkdev → Prop}
    {f : Nat × Nat → M15 β} (h8 : 8 < dev.blockCount)
    (h : ∀ e dev', dev'.blocks rootDirLba = dev.blocks rootDirLba → ¬P (.error e, dev')) :
    P ((allocInodeBlock >>= f) dev) ↔ dev.ReadWorks 0 ∧ dev.ReadWorks 1 ∧
      ∃ ino, findFreeInode (dev.blocks inodeBmapLba) = some ino ∧
        ∃ lba, findFreeBlock (dev.blocks blockBmapLba) dev.blockCount = some lba ∧
          dev.WriteWorks 0 ∧ dev.WriteWorks 1 ∧ P (f (ino, lba) (allocated dev ino lba)) := by
  have h1 : inodeBmapLba < dev.blockCount := show 1 < _ by omega
  have h2 : blockBmapLba < (dev.asked inodeBmapLba).blockCount := show 2 < dev.blockCount by omega
  have hfull : ∀ e, ¬P (.error e, (dev.asked inodeBmapLba).asked blockBmapLba) :=
    fun e => h _ _ rfl
  rw [allocInodeBlock, Prog.bind_assoc]
  refine (bind_read_iff h1 (h _ _ rfl)).trans (and_congr_right fun _ => ?_)
  rw [Prog.bind_assoc]
  refine (bind_read_iff h2 (h _ _ rfl)).trans
    (and_congr (asked_readWorks dev inodeBmapLba 0) ?_)
  rw [Prog.bind_assoc, bind_ok (asks_apply _ _), Prog.bind_assoc]
  refine (bind_ofOption_iff (hfull _)).trans (exists_congr fun ino => and_congr_right fun _ => ?_)
  rw [Prog.bind_assoc]
  refine (bind_ofOption_iff (hfull _)).trans (exists_congr fun lba => and_congr_right fun _ => ?_)
  rw [Prog.bind_assoc]
  have h8' : 8 < ((dev.asked inodeBmapLba).asked blockBmapLba).blockCount := h8
  refine bind_storeBmaps_iff h8' (h _ _ rfl) (h _ _ ?_)
  rw [refused_blocks, stored_blocks, put_ne (by decide)]
  rfl

/-- What a create does with a free entry, from the allocation on. -/
theorem fillDirent_makes {dev : Blkdev} {name : Bytes} {slot n : Nat} (h8 : 8 < dev.blockCount)
    (hslot : findFreeDirent (dev.blocks rootDirLba) = some slot) (hn : n ≤ maxName) :
    Makes (dev.blocks rootDirLba) ((allocInodeBlock >>= fun r =>
        writeInode r.1 (mkInode modeFile 0 r.2) >>= fun _ =>
          devWrite rootDirLba (setDirent (dev.blocks rootDirLba) slot r.1 name n) >>= fun _ =>
            devFlush) dev) ↔
      ((∀ k, k < 3 → dev.ReadWorks k) ∧ ∀ k, k < 4 → dev.WriteWorks k) ∧
        (∃ ino, findFreeInode (dev.blocks inodeBmapLba) = some ino) ∧
          ∃ lba, findFreeBlock (dev.blocks blockBmapLba) dev.blockCount = some lba := by
  refine (bind_allocInodeBlock_iff h8 fun e dev' hdir => not_makes hdir).trans ?_
  -- from here on only the calls of the device decide
  have hrest : ∀ ino lba, findFreeInode (dev.blocks inodeBmapLba) = some ino →
      (Makes (dev.blocks rootDirLba) ((writeInode ino (mkInode modeFile 0 lba) >>= fun _ =>
        devWrite rootDirLba (setDirent (dev.blocks rootDirLba) slot ino name n) >>= fun _ =>
          devFlush) (allocated dev ino lba)) ↔
        dev.ReadWorks 2 ∧ dev.WriteWorks 2 ∧ dev.WriteWorks 3) := by
    intro ino lba hfree
    obtain ⟨hge, hle⟩ := findFreeInode_le hfree
    have hino : InoOk ino := ⟨by omega, hle⟩
    have hlba := inodeLba_lt hino
    have h8' : 8 < (allocated dev ino lba).blockCount := h8
    have h7 : rootDirLba < dev.blockCount := show 7 < _ by omega
    have hdir := allocated_dir dev ino lba
    refine (bind_writeInode_iff h8' hino (not_makes hdir) (not_makes hdir)).trans ?_
    refine and_congr ?_ (and_congr ?_ ((enterDirent_makes (by exact h7) ?_ hslot ⟨hge, hle⟩ hn).trans
      ?_))
    · simp [allocated]
    · simp [allocated]
    · exact (put_ne (Nat.ne_of_gt hlba) _).trans hdir
    · simp [allocated]
  constructor
  · rintro ⟨hr0, hr1, ino, hfree, lba, hblock, hw0, hw1, hmakes⟩
    obtain ⟨hr2, hw2, hw3⟩ := (hrest ino lba hfree).mp hmakes
    refine ⟨⟨fun k hk => ?_, fun k hk => ?_⟩, ⟨ino, hfree⟩, lba, hblock⟩
    · interval_cases k <;> assumption
    · interval_cases k <;> assumption
  · rintro ⟨⟨hr, hw⟩, ⟨ino, hfree⟩, lba, hblock⟩
    exact ⟨hr 0 (by decide), hr 1 (by decide), ino, hfree, lba, hblock, hw 0 (by decide),
      hw 1 (by decide), (hrest ino lba hfree).mpr ⟨hr 2 (by decide), hw 2 (by decide),
        hw 3 (by decide)⟩⟩

/-- A create makes an entry exactly when the duplicate check does not find the name, everything
behind the first read gets through, and there is room. -/
theorem create_makes_iff {dev : Blkdev} {name : Bytes} {n : Nat} (h8 : 8 < dev.blockCount)
    (hv : validName name = .ok n) (hn : n < maxName) (past : UInt8) :
    Makes (dev.blocks rootDirLba) (create name past dev) ↔
      ¬(dev.ReadWorks 0 ∧ Carried (dev.blocks rootDirLba) name) ∧ GetsThrough dev ∧
        RoomForOne dev := by
  have hname : (ofExcept (validName name) : M15 Nat) dev = (.ok n, dev) := by
    rw [hv]
    rfl
  obtain ⟨r, hfound, hr⟩ := attempt_findDirent h8 hv hn past
  rw [create, bind_ok hname, bind_ok hfound]
  refine (bind_failIf_iff (not_makes rfl)).trans (and_congr (not_congr hr) ?_)
  -- the directory is read again, for a free entry
  have h0 : rootDirLba < (dev.asked rootDirLba).blockCount := show 7 < dev.blockCount by omega
  have h8' : 8 < ((dev.asked rootDirLba).asked rootDirLba).blockCount := h8
  refine (bind_read_iff h0 (not_makes rfl)).trans ?_
  refine (and_congr_right fun _ => (bind_ofOption_iff (not_makes rfl)).trans
    (exists_congr fun slot => and_congr_right fun hslot =>
      fillDirent_makes h8' hslot (le_of_lt hn))).trans ?_
  simp only [asked_readWorks, asked_writeWorks, asked_blocks, asked_blockCount]
  constructor
  · rintro ⟨hr1, slot, hslot, ⟨hr, hw⟩, hino, hblock⟩
    refine ⟨⟨fun k hk => ?_, hw⟩, ⟨slot, hslot⟩, hino, hblock⟩
    -- the second read of the directory, and the three behind it
    cases k with
    | zero => exact hr1
    | succ k => exact hr k (by omega)
  · rintro ⟨⟨hr, hw⟩, ⟨slot, hslot⟩, hino, hblock⟩
    exact ⟨hr 0 (by decide), slot, hslot, ⟨fun k hk => hr (k + 1) (by omega), hw⟩, hino, hblock⟩

/-! ## Duplicates -/

/-- The name is there, the read that would have found it fails, and the rest of the create gets
through. -/
def LostLookup (dev : Blkdev) (name : Bytes) : Prop :=
  Carried (dev.blocks rootDirLba) name ∧ ¬dev.ReadWorks 0 ∧ GetsThrough dev ∧ RoomForOne dev

/-- **Names stay unique.** Whatever reads and writes of the call fail: a create that succeeds or
makes an entry has found no entry with the name, unless the lookup is lost. -/
theorem create_unique_iff {dev : Blkdev} {name : Bytes} {n : Nat}
    (hcount : minBlocks ≤ dev.blockCount ∧ dev.blockCount ≤ 4096) (hv : validName name = .ok n)
    (hn : n < maxName) (past : UInt8) :
    ((create name past dev).1 = .ok () ∨
        AddsEntry (dev.blocks rootDirLba) ((create name past dev).2.blocks rootDirLba) →
      ¬Carried (dev.blocks rootDirLba) name) ↔ ¬LostLookup dev name := by
  have h8 : 8 < dev.blockCount := lt_of_lt_of_le (by decide) hcount.1
  have hmakes := create_makes_iff h8 hv hn past
  rw [Makes] at hmakes
  rw [hmakes]
  constructor
  · rintro hunique ⟨hcarried, hread, hthrough⟩
    exact hunique ⟨fun h => hread h.1, hthrough⟩ hcarried
  · rintro hlost ⟨hcheck, hthrough⟩ hcarried
    exact hlost ⟨hcarried, fun hread => hcheck ⟨hread, hcarried⟩, hthrough⟩

/-- Two files on a device of 16 blocks where the first and the fifth read that follow fail. -/
def flakyFiles : Blkdev :=
  (create nameB 0 (create nameA 0 (format
    ⟨16, fun _ => Bytes.zero, fun _ => false, 0, fun k => k == 11 || k == 15, []⟩).2).2).2

/-- The lookup of one of the two names is lost, but the inode table cannot be read either. -/
theorem create_unique_lost : Carried (flakyFiles.blocks rootDirLba) nameA ∧
    ¬((create nameA 0 flakyFiles).1 = .ok () ∨
      AddsEntry (flakyFiles.blocks rootDirLba) ((create nameA 0 flakyFiles).2.blocks rootDirLba)) := by
  have hcarried : Carried (flakyFiles.blocks rootDirLba) nameA :=
    ⟨0, by decide +kernel, by decide +kernel⟩
  have hread : ¬flakyFiles.ReadWorks 4 := by decide +kernel
  refine ⟨hcarried, fun hmakes => ?_⟩
  exact (create_unique_iff (by decide +kernel) (show validName nameA = .ok 1 by decide +kernel)
    (by decide) 0).mpr (fun hlost => hread (hlost.2.2.1.1 3 (by decide))) hmakes hcarried

/-- A device of 16 blocks whose seventh read fails: the first one after a format and a create. -/
def flakyDevice : Blkdev := ⟨16, fun _ => Bytes.zero, fun _ => false, 0, fun k => k == 6, []⟩

/-- The same name is created twice. -/
theorem create_twice : ∃ dev',
    CallRun ⟨16, 8⟩ (fun _ _ => True) (format flakyDevice).2 [(.create nameA 0, .ok [])] dev' ∧
    validName nameA = .ok 1 ∧ Carried (dev'.blocks rootDirLba) nameA ∧
    (create nameA 0 dev').1 = .ok () ∧
    AddsEntry (dev'.blocks rootDirLba) ((create nameA 0 dev').2.blocks rootDirLba) := by
  have hcreate : (Call.exec ⟨16, 8⟩ (.create nameA 0) (format flakyDevice).2).1 = .ok [] := by
    decide +kernel
  have hstart : CallRun ⟨16, 8⟩ (fun _ _ => True) (format flakyDevice).2 [] _ := .start
  have hrun := hstart.call (.create nameA 0) trivial
  rw [hcreate] at hrun
  refine ⟨_, hrun, by decide +kernel, ⟨0, by decide +kernel, by decide +kernel⟩, by decide +kernel,
    ⟨1, by decide +kernel, by decide +kernel⟩⟩

end Mcsos.Mcsfs1
