import Mcsos.Lib.ProgSpec
import Mcsos.Mcsfs1j.FsRuns
import Mcsos.Mcsfs1j.JournalReplay

set_option autoImplicit false

/-! # Reading from any image

`m16_read_file` on a device whose blocks hold anything. Its mount may first put records of the
journal in place, wherever they point to, and it looks at the super block but not at the inodes.
What the read then does with an inode is followed here on the blocks that this leads to.
-/

namespace Mcsos.Mcsfs1j

open Prog WriteLog

/-- A device of full size that takes every write. -/
structure Steady (dev : Blockdev) : Prop where
  total : dev.totalBlocks = maxBlocks
  reliable : dev.failAfter < 0

theorem Steady.valid {dev : Blockdev} (hd : Steady dev) {lba : Nat} (hlba : lba < maxBlocks) :
    validLba dev lba := validLba_of_total hd.total hlba

/-! ## The blocks after a recovery -/

/-- The journal is empty, or asks for a replay and has no bad record. -/
def Recovers (dev : Blockdev) : Prop :=
  JournalEmpty dev ∨ (HeaderOk (dev.blocks journalStart) ∧
    hCount (dev.blocks journalStart) ≤ (journalRecords dev).length)

/-- The blocks that a recovery leaves if nothing stops it. -/
def recovered (dev : Blockdev) : Nat → Bytes :=
  if JournalEmpty dev then dev.blocks
  else Function.update (applyWrites (stored (journalRecords dev)) dev.blocks) journalStart Bytes.zero

theorem HeaderOk.dataLba_valid {dev : Blockdev} (hd : Steady dev)
    (hh : HeaderOk (dev.blocks journalStart)) :
    ∀ k, k < hCount (dev.blocks journalStart) → validLba dev (dataLba k) := by
  intro k hk
  refine hd.valid ?_
  exact lt_trans (inJournal_data (lt_of_lt_of_le hk hh.2)).2 (by decide)

/-- A recovery that finds no bad record is a list of writes. -/
theorem journalRecover_eq {dev : Blockdev} (hd : Steady dev)
    (hh : HeaderOk (dev.blocks journalStart))
    (hall : hCount (dev.blocks journalStart) ≤ (journalRecords dev).length) :
    journalRecover dev = writeAll (journalRecords dev ++ [(journalStart, Bytes.zero)]) dev := by
  -- no record stops the loop, so it is the writes of all records, and the clearing is one more
  have hclear : writeAll [(journalStart, Bytes.zero)] = journalClear :=
    Prog.bind_pure (writeBlock journalStart Bytes.zero)
  have hloop : replay 0 (hCount (dev.blocks journalStart)) dev =
      (writeAll (journalRecords dev) >>= fun _ => failIf
        ((journalRecords dev).length < hCount (dev.blocks journalStart)) .corrupt) dev :=
    replay_any fun k _ hk => hh.dataLba_valid hd k (by omega)
  rw [journalRecover_accepted (hd.valid (by decide)) hh, writeAll_append, hclear]
  rcases hw : writeAll (journalRecords dev) dev with ⟨e | u, dev'⟩
  · rw [bind_error hw] at hloop
    rw [bind_error hloop, bind_error hw]
  · rw [bind_ok hw, failIf_neg (not_lt.mpr hall)] at hloop
    rw [bind_ok hloop, bind_ok hw]

theorem journalRecover_recovers {dev : Blockdev} (hd : Steady dev) (h : Recovers dev) :
    journalRecover dev = (.ok (), (journalRecover dev).2) ∧
      (journalRecover dev).2.blocks = recovered dev ∧
      (journalRecover dev).2.totalBlocks = maxBlocks := by
  have hstart : validLba dev journalStart := hd.valid (by decide)
  by_cases he : JournalEmpty dev
  · rw [journalRecover_empty hstart he, recovered, if_pos he]
    exact ⟨rfl, rfl, hd.total⟩
  · obtain ⟨hh, hall⟩ := h.resolve_left he
    rw [journalRecover_eq hd hh hall]
    obtain ⟨j, hj⟩ := writeAll_outcome (journalRecords dev ++ [(journalStart, Bytes.zero)]) dev
    have hok := hj.ok (fun w hw => by
      rcases List.mem_append.mp hw with hw | hw
      · exact goodRecords_valid w hw
      · rw [List.mem_singleton.mp hw]
        exact hstart) (Or.inl hd.reliable)
    have hblocks := hj.blocks
    rw [hj.ok_iff.mp hok, List.take_length, stored_append, applyWrites_append] at hblocks
    refine ⟨Prod.ext hok rfl, hblocks.trans ?_, hj.total.trans hd.total⟩
    have hclear : stored [(journalStart, Bytes.zero)] = [(journalStart, Bytes.zero)] :=
      congrArg (fun b => [(journalStart, b)]) (Bytes.clip_zero blockSize)
    rw [hclear, recovered, if_neg he]
    rfl

theorem journalRecover_not_recovers {dev : Blockdev} (hd : Steady dev) (h : ¬Recovers dev) :
    (journalRecover dev).1 = .error .corrupt := by
  obtain ⟨hne, hbad⟩ := not_or.mp h
  by_cases hh : HeaderOk (dev.blocks journalStart)
  · exact (journalRecover_corrupt hd.total).2 hh (not_le.mp fun hle => hbad ⟨hh, hle⟩)
      (Or.inl hd.reliable)
  · rw [journalRecover_rejected (hd.valid (by decide)) hne hh]

/-! ## Mounting and opening -/

/-- A mount of the device succeeds. -/
def Mounts (dev : Blockdev) : Prop := Recovers dev ∧ SuperOk (recovered dev 0)

/-- The name leads to this inode. -/
def Leads (c : Nat → Bytes) (name : Bytes) (ino : Nat) : Prop :=
  ∃ slot, findDirent (c rootDirLba) name = some slot ∧ dIno (c rootDirLba) slot = ino

theorem Leads.unique {c : Nat → Bytes} {name : Bytes} {ino ino' : Nat} (h : Leads c name ino)
    (h' : Leads c name ino') : ino = ino' := by
  obtain ⟨slot, hslot, rfl⟩ := h
  obtain ⟨slot', hslot', rfl⟩ := h'
  rw [Option.some.inj (hslot.symm.trans hslot')]

/-- The inode is that of a file, its size fits the buffer and its block is one of the device. -/
structure Opens (c : Nat → Bytes) (outCap ino : Nat) : Prop where
  ino_lt : ino < maxInodes
  used : iUsed (inodesOf c) ino ≠ 0
  kind : iKind (inodesOf c) ino = 1
  size : iSize (inodesOf c) ino ≤ outCap
  direct : iDirect0 (inodesOf c) ino < maxBlocks

/-- What the copy at the end of a read gives. -/
def copyOut (c : Nat → Bytes) (ino : Nat) : Except M16Err (List UInt8) :=
  if blockSize < iSize (inodesOf c) ino then .error .wild
  else .ok ((c (iDirect0 (inodesOf c) ino)).slice 0 (iSize (inodesOf c) ino))

section

variable {β : Type} {dev : Blockdev} {P : Except M16Err β × Blockdev → Prop}

theorem bind_mount_iff (hd : Steady dev) {f : Bytes → M16 β}
    (h : ∀ e dev', e ≠ .wild → ¬P (.error e, dev')) :
    P ((mount >>= f) dev) ↔ Mounts dev ∧ P (f (recovered dev 0) (journalRecover dev).2) := by
  rw [mount, Prog.bind_assoc]
  by_cases hr : Recovers dev
  · obtain ⟨hrun, hblocks, htotal⟩ := journalRecover_recovers hd hr
    have hzero : validLba (journalRecover dev).2 0 := ⟨by rw [htotal]; decide, by decide⟩
    have hread := readBlock_valid hzero
    rw [hblocks] at hread
    -- what is left are the five checks of `m16_mount`, all of them errors of the same code
    have hcorrupt := h .corrupt (journalRecover dev).2 (by decide)
    rw [bind_ok hrun, Prog.bind_assoc, bind_ok hread, Prog.bind_assoc, bind_failIf_iff hcorrupt,
      Prog.bind_assoc, bind_failIf_iff hcorrupt, Prog.pure_bind]
    simp only [not_or, not_not]
    constructor
    · rintro ⟨⟨h1, h2, h3⟩, ⟨h4, h5⟩, hp⟩
      exact ⟨⟨hr, h1, h2, h3, h4, h5⟩, hp⟩
    · rintro ⟨⟨-, hs⟩, hp⟩
      exact ⟨⟨hs.magic, hs.version, hs.blockSize⟩, ⟨hs.dataStart, hs.rootDir⟩, hp⟩
  · rcases hrun : journalRecover dev with ⟨r, dev'⟩
    have hcorrupt := journalRecover_not_recovers hd hr
    rw [hrun] at hcorrupt
    rw [bind_error (hrun.trans (Prod.ext hcorrupt rfl))]
    exact iff_of_false (h _ _ (by decide)) fun hp => hr hp.1.1

end

section

variable {dev : Blockdev} {P : Except M16Err (List UInt8) × Blockdev → Prop}
  (h : ∀ e dev', e ≠ .wild → ¬P (.error e, dev')) {outCap : Nat}

include h

theorem readInode_iff (htotal : dev.totalBlocks = maxBlocks) {ino : Nat} :
    P (readInode (inodesOf dev.blocks) outCap ino dev) ↔
      Opens dev.blocks outCap ino ∧ P (copyOut dev.blocks ino, dev) := by
  rw [readInode, bind_failIf_iff (h _ _ (by decide)), bind_ok (asks_totalBlocks htotal),
    bind_failIf_iff (h _ _ (by decide))]
  simp only [not_or, not_not, not_le, not_lt]
  by_cases hdirect : iDirect0 (inodesOf dev.blocks) ino < maxBlocks
  · have hvalid := validLba_of_total htotal hdirect
    have hcopy : (readBlock (iDirect0 (inodesOf dev.blocks) ino) >>= fun blk =>
        failIf (blockSize < iSize (inodesOf dev.blocks) ino) .wild >>= fun _ =>
          pure (blk.slice 0 (iSize (inodesOf dev.blocks) ino))) dev =
        (copyOut dev.blocks ino, dev) := by
      rw [bind_ok (readBlock_valid hvalid), copyOut]
      by_cases hlong : blockSize < iSize (inodesOf dev.blocks) ino
      · rw [bind_error (failIf_pos hlong _ _), if_pos hlong]
      · rw [bind_ok (failIf_neg hlong _ _), if_neg hlong, pure_apply]
    rw [hcopy]
    constructor
    · rintro ⟨⟨h1, h2, h3⟩, ⟨h4, h5⟩, hp⟩
      exact ⟨⟨h1, h2, h3, h4, h5⟩, hp⟩
    · rintro ⟨hopens, hp⟩
      exact ⟨⟨hopens.ino_lt, hopens.used, hopens.kind⟩, ⟨hopens.size, hdirect⟩, hp⟩
  · exact iff_of_false (fun hp => hdirect hp.2.1.2) fun hp => hdirect hp.1.direct

theorem readMounted_iff (htotal : dev.totalBlocks = maxBlocks) {name : Bytes} :
    P (readMounted name outCap dev) ↔ ∃ ino, Leads dev.blocks name ino ∧
      Opens dev.blocks outCap ino ∧ P (copyOut dev.blocks ino, dev) := by
  have hvalid : ∀ lba, lba < maxBlocks → validLba dev lba := fun _ => validLba_of_total htotal
  have hinodes : loadInodeTable dev = (.ok (inodesOf dev.blocks), dev) :=
    loadInodeTable_valid fun i hi =>
      hvalid _ (lt_trans (Nat.add_lt_add_left hi inodeTableLba) (by decide))
  rw [readMounted, bind_ok hinodes, bind_ok (readBlock_valid (hvalid rootDirLba (by decide))),
    bind_ofOption_iff (h _ _ (by decide))]
  constructor
  · rintro ⟨slot, hslot, hp⟩
    exact ⟨_, ⟨slot, hslot, rfl⟩, (readInode_iff h htotal).mp hp⟩
  · rintro ⟨ino, ⟨slot, hslot, rfl⟩, hp⟩
    exact ⟨slot, hslot, (readInode_iff h htotal).mpr hp⟩

/-- What a read comes to, but for the errors on the way to the copy. -/
theorem readFile_iff (hd : Steady dev) {name : Bytes} : P (readFile name outCap dev) ↔
    Mounts dev ∧ ∃ ino, Leads (recovered dev) name ino ∧ Opens (recovered dev) outCap ino ∧
      P (copyOut (recovered dev) ino, (journalRecover dev).2) := by
  rw [readFile_eq, bind_mount_iff hd h]
  apply and_congr_right
  intro hm
  obtain ⟨-, hblocks, htotal⟩ := journalRecover_recovers hd hm.1
  have hmounted : P (readMounted name outCap (journalRecover dev).2) ↔ _ :=
    readMounted_iff h htotal
  rwa [hblocks] at hmounted

end

/-! ## What a read may do -/

/-- The bytes are those of a file: as many as its size, which fit the buffer, from the front of its
block, which is a data block. -/
structure Copied (c : Nat → Bytes) (outCap ino : Nat) (bytes : List UInt8) : Prop where
  length : bytes.length = iSize (inodesOf c) ino
  fits : bytes.length ≤ outCap
  inside : bytes.length ≤ blockSize
  front : bytes = (c (iDirect0 (inodesOf c) ino)).slice 0 bytes.length
  data : bytes ≠ [] → dataStartLba ≤ iDirect0 (inodesOf c) ino ∧
    iDirect0 (inodesOf c) ino < maxBlocks

/-- A read of the name with this result has taken no byte from behind the block that it has read,
and if it succeeds it has copied the bytes of the file. -/
def ReadSafe (name : Bytes) (outCap : Nat) (r : Except M16Err (List UInt8) × Blockdev) : Prop :=
  r.1 ≠ .error .wild ∧ ∀ bytes, r.1 = .ok bytes →
    ∃ ino, Leads r.2.blocks name ino ∧ Copied r.2.blocks outCap ino bytes

/-- The size of the inode is none that a file has, or its block is not a data block. -/
def BadInode (inodes : Bytes) (ino : Nat) : Prop :=
  blockSize < iSize inodes ino ∨ (0 < iSize inodes ino ∧ iDirect0 inodes ino < dataStartLba)

instance (inodes : Bytes) (ino : Nat) : Decidable (BadInode inodes ino) :=
  inferInstanceAs (Decidable (_ ∨ _))

/-- A copy gives the bytes of the file exactly if its inode is a good one. -/
theorem copyOut_safe_iff {dev : Blockdev} {name : Bytes} {outCap ino : Nat}
    (hl : Leads dev.blocks name ino) (ho : Opens dev.blocks outCap ino) :
    ReadSafe name outCap (copyOut dev.blocks ino, dev) ↔ ¬BadInode (inodesOf dev.blocks) ino := by
  unfold copyOut BadInode
  by_cases hlong : blockSize < iSize (inodesOf dev.blocks) ino
  · rw [if_pos hlong]
    exact iff_of_false (fun hs => hs.1 rfl) fun hn => hn (Or.inl hlong)
  · rw [if_neg hlong]
    have hlen := Bytes.slice_length (dev.blocks (iDirect0 (inodesOf dev.blocks) ino)) 0
      (iSize (inodesOf dev.blocks) ino)
    constructor
    · rintro ⟨-, hok⟩ (hsize | ⟨hpos, hlow⟩)
      · exact hlong hsize
      -- bytes of a block in front of the data
      · obtain ⟨ino', hl', hcopied⟩ := hok _ rfl
        obtain rfl := hl.unique hl'
        have hne : (dev.blocks (iDirect0 (inodesOf dev.blocks) ino)).slice 0
            (iSize (inodesOf dev.blocks) ino) ≠ [] := List.ne_nil_of_length_pos (by omega)
        exact absurd (hcopied.data hne).1 (not_le.mpr hlow)
    · intro hgood
      refine ⟨nofun, fun bytes hbytes => ⟨ino, hl, ?_⟩⟩
      obtain rfl := Except.ok.inj hbytes
      refine ⟨hlen, hlen.trans_le ho.size, hlen.trans_le (not_lt.mp hlong), by rw [hlen],
        fun hne => ⟨not_lt.mp fun hlow => hgood (Or.inr ⟨?_, hlow⟩), ho.direct⟩⟩
      have hpos := List.length_pos_of_ne_nil hne
      omega

/-- A read on a device that holds anything is safe exactly when the name does not lead to an inode
whose size is more than a block, or whose bytes would come from a block of the file system. -/
theorem readFile_safe_iff {dev : Blockdev} (hd : Steady dev) (name : Bytes) (outCap : Nat) :
    ReadSafe name outCap (readFile name outCap dev) ↔
      ¬(Mounts dev ∧ ∃ ino, Leads (recovered dev) name ino ∧ Opens (recovered dev) outCap ino ∧
        BadInode (inodesOf (recovered dev)) ino) := by
  by_cases hopens : Mounts dev ∧ ∃ ino, Leads (recovered dev) name ino ∧
      Opens (recovered dev) outCap ino
  · obtain ⟨hm, ino, hl, ho⟩ := hopens
    obtain ⟨-, hblocks, -⟩ := journalRecover_recovers hd hm.1
    -- the copy is reached
    let R : Except M16Err (List UInt8) × Blockdev → Prop := fun r =>
      r = (copyOut (recovered dev) ino, (journalRecover dev).2)
    have herr : ∀ e dev', e ≠ .wild → ¬R (.error e, dev') := by
      intro e dev' he heq
      obtain ⟨hcopy, -⟩ := Prod.mk.inj heq
      unfold copyOut at hcopy
      split at hcopy
      · exact he (Except.error.inj hcopy)
      · cases hcopy
    have hrun : R (readFile name outCap dev) := (readFile_iff herr hd).mpr ⟨hm, ino, hl, ho, rfl⟩
    have hsafe := copyOut_safe_iff (hblocks ▸ hl) (hblocks ▸ ho)
    rw [hblocks] at hsafe
    rw [show readFile name outCap dev = _ from hrun, hsafe]
    refine not_congr ⟨fun hbad => ⟨hm, ino, hl, ho, hbad⟩, ?_⟩
    rintro ⟨-, ino', hl', -, hbad⟩
    rwa [hl.unique hl']
  · -- the read stops at an error
    let R : Except M16Err (List UInt8) × Blockdev → Prop := fun r =>
      r.1 = .error .wild ∨ ∃ bytes, r.1 = .ok bytes
    have herr : ∀ e dev', e ≠ .wild → ¬R (.error e, dev') := by
      rintro e dev' he (heq | ⟨bytes, heq⟩)
      · exact he (Except.error.inj heq)
      · cases heq
    have hstops : ¬R (readFile name outCap dev) := fun hrun => by
      obtain ⟨hm, ino, hl, ho, -⟩ := (readFile_iff herr hd).mp hrun
      exact hopens ⟨hm, ino, hl, ho⟩
    refine iff_of_true ⟨fun hwild => hstops (Or.inl hwild), fun bytes hok =>
      absurd (Or.inr ⟨bytes, hok⟩) hstops⟩ ?_
    rintro ⟨hm, ino, hl, ho, -⟩
    exact hopens ⟨hm, ino, hl, ho⟩

/-- A formatted device with the file `a`, whose inode says that it has `size` bytes. -/
def withFile (size direct0 : Nat) : Blockdev :=
  { devInit with
    blocks := Function.update (Function.update (Function.update (fun _ => Bytes.zero) 0
      (mkSuper maxBlocks)) inodeTableLba (setInode Bytes.zero 1 1 size direct0))
      rootDirLba (setDirent Bytes.zero 0 1 nameA 1) }

theorem withFile_steady (size direct0 : Nat) : Steady (withFile size direct0) :=
  ⟨rfl, Int.negSucc_lt_zero 0⟩

/-- The read of a file of 600 bytes. -/
theorem readFile_beyond_block : ¬∀ dev : Blockdev, Steady dev → ∀ name outCap,
    ReadSafe name outCap (readFile name outCap dev) := by
  intro h
  have hwild : (readFile nameA 1024 (withFile 600 25)).1 = .error .wild := by decide +kernel
  exact (h _ (withFile_steady 600 25) nameA 1024).1 hwild

theorem recovered_withFile (size direct0 : Nat) :
    recovered (withFile size direct0) = (withFile size direct0).blocks := by
  have hempty : JournalEmpty (withFile size direct0) := by
    refine journalEmpty_of_zero ?_
    have h1 : journalStart ≠ rootDirLba := by decide
    have h2 : journalStart ≠ inodeTableLba := by decide
    have h3 : journalStart ≠ 0 := by decide
    simp [withFile, h1, h2, h3]
  rw [recovered, if_pos hempty]

/-- The read of a file of three bytes. -/
theorem readFile_safe_three : ReadSafe nameA 64 (readFile nameA 64 (withFile 3 25)) := by
  refine (readFile_safe_iff (withFile_steady 3 25) nameA 64).mpr ?_
  rintro ⟨-, ino, hl, -, hbad⟩
  rw [recovered_withFile] at hl hbad
  have hentry : findDirent ((withFile 3 25).blocks rootDirLba) nameA = some 0 ∧
      dIno ((withFile 3 25).blocks rootDirLba) 0 = 1 := by decide +kernel
  have hgood : ¬BadInode (inodesOf (withFile 3 25).blocks) 1 := by decide +kernel
  obtain rfl := hl.unique ⟨0, hentry⟩
  exact hgood hbad

end Mcsos.Mcsfs1j
