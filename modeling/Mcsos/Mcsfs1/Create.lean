import Mcsos.Mcsfs1.Steps

set_option autoImplicit false

/-! # Looking up and creating (`fs/mcsfs1/mcsfs1.c`)

`mcsfs1_create` writes the two bitmaps, the inode and the directory, in this order. Cut off anywhere
before the last, it leaves a marked inode and a marked block that nobody has; the entry comes when
all that it refers to is there.
-/

namespace Mcsos.Mcsfs1

variable {D : Disk} {c : Blocks}

/-! ## How an operation fails -/

/-- An operation that fails: the image is sound and the other files are kept; `IO` comes from the
device, and any other error, but for a `NOSPC` of an operation that `leaks`, from blocks that are
as they were. An operation that `leaks` leaves the directory alone. -/
structure Cut (D : Disk) (leaks : Prop) (t : Option Nat) (c : Blocks) (e : Mcsfs1Err)
    (c' : Blocks) : Prop where
  good : Good D.blockCount t c c'
  faulty : e = .io → D.Faulty
  same : e ≠ .io → ¬(leaks ∧ e = .nospc) → c' = c
  dir : leaks → c' rootDirLba = c rootDirLba

theorem Cut.unchanged (h : Inv D.blockCount c) {leaks : Prop} {t : Option Nat} {e : Mcsfs1Err}
    (he : e ≠ .io) : Cut D leaks t c e c :=
  ⟨Good.refl h t, fun hio => absurd hio he, fun _ _ => rfl, fun _ => rfl⟩

theorem Cut.io {c' : Blocks} {leaks : Prop} {t : Option Nat} (g : Good D.blockCount t c c')
    (hdir : leaks → c' rootDirLba = c rootDirLba) (hf : D.Faulty) : Cut D leaks t c .io c' :=
  ⟨g, fun _ => hf, fun h => absurd rfl h, hdir⟩

/-! ## Names -/

theorem validName_error {name : Bytes} {e : Mcsfs1Err} (h : validName name = .error e) :
    e = .inval ∨ e = .nametoolong := by
  unfold validName at h
  dsimp only at h
  split_ifs at h <;> cases h
  · exact Or.inl rfl
  · exact Or.inr rfl
  · exact Or.inl rfl

theorem validName_ok {name : Bytes} {n : Nat} (h : validName name = .ok n) :
    n = strlenBound name (maxName + 1) ∧ 0 < n ∧ n ≤ maxName := by
  unfold validName at h
  dsimp only at h
  split_ifs at h with h1 h2 h3
  cases h
  exact ⟨rfl, Nat.pos_of_ne_zero h1, not_lt.mp h2⟩

/-- The slot in which `find_dirent` finds the name. -/
def target (c : Blocks) (name : Bytes) (past : UInt8) : Option Nat :=
  match validName name with
  | .ok n => findSlot (withPast (c rootDirLba) past) name n
  | .error _ => none

/-- What `find_dirent` returns where it does not find the name. -/
def findError (name : Bytes) : Mcsfs1Err :=
  match validName name with
  | .ok _ => .noent
  | .error e => e

theorem findError_cases (name : Bytes) :
    findError name = .noent ∨ findError name = .inval ∨ findError name = .nametoolong := by
  unfold findError
  cases h : validName name with
  | ok n => exact Or.inl rfl
  | error e => exact Or.inr (validName_error h)

theorem findError_ne_io (name : Bytes) : findError name ≠ .io := by
  rcases findError_cases name with h | h | h <;> rw [h] <;> decide

theorem withPast_agreeOn (block : Bytes) (past : UInt8) :
    Bytes.AgreeOn (withPast block past) block 0 blockSize := fun _ _ hk => if_pos hk

theorem deIno_withPast {i : Nat} (hi : i < direntCount) (block : Bytes) (past : UInt8) :
    deIno (withPast block past) i = deIno block i := by
  have hin := slot_inside hi
  have hsize : direntSize = 32 := rfl
  exact Bytes.load_congr ((withPast_agreeOn block past).mono (Nat.zero_le _) (by omega))

theorem entry_eq (c : Blocks) {i : Nat} (hi : i < direntCount) :
    ((metaOf c).entry i).ino = deIno (c rootDirLba) i := by
  show (entriesOf (c rootDirLba) i).ino = _
  rw [entriesOf, if_pos hi]

/-- An entry in use is one of the directory. -/
theorem used_lt {i : Nat} (hi : (metaOf c).Used i) : i < direntCount := by
  by_contra hge
  exact hi (congrArg Entry.ino (if_neg hge : (metaOf c).entry i = ⟨0, 0⟩))

theorem findSlot_used {name : Bytes} {past : UInt8} {n s : Nat}
    (h : findSlot (withPast (c rootDirLba) past) name n = some s) :
    s < direntCount ∧ (metaOf c).Used s := by
  obtain ⟨-, hlt, hmatch, -⟩ := Loop.findFrom_some_iff.mp h
  have hs : s < direntCount := by omega
  refine ⟨hs, ?_⟩
  unfold direntMatches at hmatch
  rw [Bool.and_eq_true, Bool.and_eq_true, decide_eq_true_iff, deIno_withPast hs] at hmatch
  unfold Meta.Used
  rw [entry_eq c hs]
  exact hmatch.1.1

theorem target_used {name : Bytes} {past : UInt8} {s : Nat} (h : target c name past = some s) :
    s < direntCount ∧ (metaOf c).Used s := by
  unfold target at h
  cases hv : validName name with
  | ok n =>
      rw [hv] at h
      exact findSlot_used h
  | error e =>
      rw [hv] at h
      cases h

theorem does_findDirent (hbc : 8 < D.blockCount) (name : Bytes) (past : UInt8) :
    Does D (findDirent name past) c
      (fun r c' => c = c' ∧ target c name past = some r.1 ∧ r.2 = ((metaOf c).entry r.1).ino)
      (fun e c' => c = c' ∧ target c name past = none ∧ e = findError name) := by
  refine bind_ofExcept (fun e he => ?_) fun n hn => ?_
  · refine ⟨rfl, ?_, ?_⟩
    · unfold target
      rw [he]
    · unfold findError
      rw [he]
  have htarget : target c name past = findSlot (withPast (c rootDirLba) past) name n := by
    unfold target
    rw [hn]
  refine bind_read (show 7 < _ by omega) ?_
  refine bind_ofOption (fun hnone => ?_) fun s hs => does_pure ?_
  · refine ⟨rfl, htarget.trans hnone, ?_⟩
    unfold findError
    rw [hn]
  · have hlt := (findSlot_used hs).1
    refine ⟨rfl, htarget.trans hs, ?_⟩
    rw [entry_eq c hlt, deIno_withPast hlt]

theorem bind_findDirent {β : Type} {S : β → Blocks → Prop} {E : Mcsfs1Err → Blocks → Prop}
    {name : Bytes} {past : UInt8} {f : Nat × Nat → M15 β} (hbc : 8 < D.blockCount)
    (he : target c name past = none → E (findError name) c)
    (h : ∀ s, target c name past = some s → Does D (f (s, ((metaOf c).entry s).ino)) c S E) :
    Does D (findDirent name past >>= f) c S E := by
  refine ((does_findDirent hbc name past).mono (fun _ _ hq => hq) fun e c' hq => ?_).bind
    fun r c' hq => ?_
  · obtain ⟨rfl, hnone, rfl⟩ := hq
    exact he hnone
  · obtain ⟨rfl, hsome, hino⟩ := hq
    obtain ⟨s, ino⟩ := r
    obtain rfl : ino = ((metaOf c).entry s).ino := hino
    exact h s hsome

/-! ## Free inodes and blocks -/

/-- An inode number that is not marked. -/
structure FreeInode (c : Blocks) (ino : Nat) : Prop where
  ge : 2 ≤ ino
  le : ino ≤ maxInodes
  bit : (metaOf c).ib ino = false

/-- A data block that is not marked. -/
structure FreeBlock (blockCount : Nat) (c : Blocks) (lba : Nat) : Prop where
  ge : dataStartLba ≤ lba
  lt : lba < blockCount
  bit : (metaOf c).bb lba = false

theorem findFreeInode_some {ino : Nat} (h : findFreeInode (c inodeBmapLba) = some ino) :
    FreeInode c ino := by
  obtain ⟨hge, hlt, hbit, -⟩ := Loop.findFrom_some_iff.mp h
  have hmax : maxInodes = 32 := rfl
  have hblock : blockSize = 512 := rfl
  refine ⟨hge, by omega, ?_⟩
  show bits (c inodeBmapLba) ino = false
  rw [bits_of_lt (by omega)]
  simpa using hbit

theorem findFreeBlock_some {lba blockCount : Nat}
    (h : findFreeBlock (c blockBmapLba) blockCount = some lba) : FreeBlock blockCount c lba := by
  obtain ⟨hge, hlt, hbit, -⟩ := Loop.findFrom_some_iff.mp h
  have hbits : bitmapBits = blockSize * 8 := rfl
  refine ⟨hge, by omega, ?_⟩
  show bits (c blockBmapLba) lba = false
  rw [bits_of_lt (by omega)]
  simpa using hbit

theorem findFreeBlock_none {blockCount : Nat} (hbc : blockCount ≤ 4096)
    (h : findFreeBlock (c blockBmapLba) blockCount = none) (lba : Nat) :
    ¬FreeBlock blockCount c lba := fun hfree => by
  have h8 := hfree.ge
  have hlt := hfree.lt
  have hbits : bitmapBits = 4096 := rfl
  have htest := Loop.findFrom_none_iff.mp h lba h8 (by omega)
  have hbit : bits (c blockBmapLba) lba = false := hfree.bit
  rw [bits_of_lt (show lba < 4096 by omega)] at hbit
  rw [hbit] at htest
  cases htest

/-- On a device that a format takes, a full bitmap is an error of its own. -/
theorem noBlock_eq {blockCount : Nat} (hbc : blockCount ≤ 4096) : noBlock blockCount = .nospc :=
  if_neg (not_lt.mpr hbc)

theorem FreeInode.inoOk {ino : Nat} (h : FreeInode c ino) : InoOk ino :=
  ⟨le_trans (by decide) h.ge, h.le⟩

theorem FreeInode.ne_root {ino : Nat} (h : FreeInode c ino) : ino ≠ rootIno := fun he =>
  absurd (he ▸ h.ge) (by decide)

theorem FreeInode.not_used {blockCount ino : Nat} (h : FreeInode c ino) (hc : Inv blockCount c)
    {i : Nat} (hi : (metaOf c).Used i) : ((metaOf c).entry i).ino ≠ ino := fun he => by
  have hbit := hc.data.bit i hi
  rw [he, h.bit] at hbit
  cases hbit

theorem FreeBlock.not_used {blockCount lba : Nat} (h : FreeBlock blockCount c lba)
    (hc : Inv blockCount c) {i : Nat} (hi : (metaOf c).Used i) (j : Nat) :
    ((metaOf c).file i).direct j ≠ lba := fun he => by
  have hne : ((metaOf c).file i).direct j ≠ 0 := by
    rw [he]
    exact fun hzero => absurd (hzero ▸ h.ge) (by decide)
  have hbit := (hc.data.file i hi).bit j hne
  rw [he, h.bit] at hbit
  cases hbit

theorem FreeBlock.ne_zero {blockCount lba : Nat} (h : FreeBlock blockCount c lba) : lba ≠ 0 :=
  fun hzero => absurd (hzero ▸ h.ge) (by decide)

/-- Marking one more inode. -/
theorem Good.markInode {t : Option Nat} {c' : Blocks} (g : Good D.blockCount t c c') {ino : Nat}
    (hino : ino ≤ maxInodes) :
    Good D.blockCount t c (put c' inodeBmapLba (Bitmap.set (c' inodeBmapLba) ino)) := by
  have hlt : ino < blockSize * 8 := lt_of_le_of_lt hino (by decide)
  refine g.putIb ?_ fun i hi => ?_
  · rw [bits_set hlt, Function.update_apply]
    have hbit : bits (c' inodeBmapLba) rootIno = true := g.inv.data.root_bit
    rw [hbit, ite_self]
  · rw [bits_set hlt, Function.update_apply]
    have hbit : bits (c' inodeBmapLba) ((metaOf c').entry i).ino = true := g.inv.data.bit i hi
    rw [hbit, ite_self]

/-- Marking one more block. -/
theorem Good.markBlock {t : Option Nat} {c' : Blocks} (g : Good D.blockCount t c c') {lba : Nat}
    (hlba : lba < blockSize * 8) :
    Good D.blockCount t c (put c' blockBmapLba (Bitmap.set (c' blockBmapLba) lba)) := by
  refine g.putBb (fun b hb => ?_) fun i hi j hj => ?_
  · rw [bits_set hlba, Function.update_apply]
    have hbit : bits (c' blockBmapLba) b = true := g.inv.data.system b hb
    rw [hbit, ite_self]
  · rw [bits_set hlba, Function.update_apply]
    have hbit : bits (c' blockBmapLba) (((metaOf c').file i).direct j) = true :=
      (g.inv.data.file i hi).bit j hj
    rw [hbit, ite_self]

/-! ## `mcsfs1_create` -/

/-- The blocks after inode `ino` and block `lba` have been marked. -/
def marked (c : Blocks) (ino lba : Nat) : Blocks :=
  put (put c inodeBmapLba (Bitmap.set (c inodeBmapLba) ino)) blockBmapLba
    (Bitmap.set (c blockBmapLba) lba)

/-- The blocks after all writes of `mcsfs1_create`. -/
def created (c : Blocks) (s ino lba : Nat) (name : Bytes) (nameLen : Nat) : Blocks :=
  put (putInode (marked c ino lba) ino (mkInode modeFile 0 lba)) rootDirLba
    (setDirent (c rootDirLba) s ino name nameLen)

/-- What `mcsfs1_create` has done: a file in a free slot, with a free inode and a free block. -/
structure Created (blockCount : Nat) (name : Bytes) (past : UInt8) (c : Blocks)
    (s ino lba nameLen : Nat) : Prop where
  valid : validName name = .ok nameLen
  missing : target c name past = none
  slot : s < direntCount
  free : ¬(metaOf c).Used s
  inode : FreeInode c ino
  block : FreeBlock blockCount c lba

theorem metaOf_marked {ino lba : Nat} (hino : ino < blockSize * 8) (hlba : lba < blockSize * 8)
    (c : Blocks) : metaOf (marked c ino lba) =
      { metaOf c with ib := Function.update (metaOf c).ib ino true,
                      bb := Function.update (metaOf c).bb lba true } := by
  unfold marked
  rw [metaOf_put_bb, metaOf_put_ib, bits_set hino, bits_set hlba]
  rfl

theorem marked_dir (c : Blocks) (ino lba : Nat) : marked c ino lba rootDirLba = c rootDirLba := by
  unfold marked
  rw [put_ne (by decide), put_ne (by decide)]

/-- The inode of a new file. -/
theorem inodeOk_new {blockCount lba : Nat} {bb : Nat → Bool} (hge : dataStartLba ≤ lba)
    (hlt : lba < blockCount) (hbc : blockCount ≤ 4096) (hbit : bb lba = true) :
    InodeOk blockCount bb (inodeView (mkInode modeFile 0 lba)) := by
  have h8 : dataStartLba = 8 := rfl
  rw [inodeView_mkInode (by decide) (by decide) (by omega)]
  have hdirect : ∀ j, Function.update (fun _ => 0) 0 lba j ≠ 0 → j = 0 := fun j hj => by
    by_contra hne
    exact hj (Function.update_of_ne hne ..)
  refine ⟨rfl, Nat.zero_le _, fun j hj => ?_, fun j hj => ?_, fun j hj => ?_, fun j hj => ?_,
    fun j k hj he => ?_⟩
  · dsimp only at hj ⊢
    rw [needed_zero] at hj
    obtain rfl : j = 0 := by omega
    rw [Function.update_self]
    omega
  all_goals obtain rfl := hdirect j hj
  · exact hge
  · exact hlt
  · exact hbit
  · dsimp only at hj he
    rw [he] at hj
    exact (hdirect k hj).symm

/-- Where the files of an image do not have block `lba`, they have nothing in common with a new
file. -/
theorem apart_new {lba : Nat} (hlba : lba < 256 ^ 4) {x : Inode} (h : ∀ j, x.direct j ≠ lba) :
    Apart (inodeView (mkInode modeFile 0 lba)) x := by
  intro j k hj
  rw [inodeView_mkInode (by decide) (by decide) hlba] at hj ⊢
  by_cases hj0 : j = 0
  · subst hj0
    show Function.update (fun _ => 0) 0 lba 0 ≠ _
    rw [Function.update_self]
    exact Ne.symm (h k)
  · exact absurd (Function.update_of_ne hj0 lba fun _ => 0) hj

section

variable {name : Bytes} {past : UInt8} {s ino lba nameLen : Nat}

theorem Created.ino_lt (w : Created D.blockCount name past c s ino lba nameLen) :
    ino < blockSize * 8 := lt_of_le_of_lt w.inode.le (by decide)

theorem Created.lba_lt (w : Created D.blockCount name past c s ino lba nameLen)
    (hbc : D.blockCount ≤ 4096) : lba < blockSize * 8 := by
  have hlt := w.block.lt
  show lba < 4096
  omega

theorem Created.meta_eq (w : Created D.blockCount name past c s ino lba nameLen)
    (hbc : D.blockCount ≤ 4096) : metaOf (created c s ino lba name nameLen) =
      { ib := Function.update (metaOf c).ib ino true
        bb := Function.update (metaOf c).bb lba true
        inode := Function.update (metaOf c).inode ino
          (inodeView (mkInode modeFile 0 lba))
        entry := Function.update (metaOf c).entry s ⟨ino, modeFile⟩ } := by
  have hino : ino < 256 ^ 4 := lt_of_le_of_lt w.inode.le (by decide)
  unfold created
  rw [metaOf_put_dir, metaOf_putInode w.inode.inoOk, metaOf_marked w.ino_lt (w.lba_lt hbc),
    entriesOf_setDirent w.slot hino (validName_ok w.valid).2.2]
  rfl

/-- The blocks after the bitmaps: an inode and a block are marked that nobody has. -/
theorem Created.good_marked (w : Created D.blockCount name past c s ino lba nameLen)
    (hbc : D.blockCount ≤ 4096) (h : Inv D.blockCount c) :
    Good D.blockCount none c (marked c ino lba) := by
  have hbb : put c inodeBmapLba (Bitmap.set (c inodeBmapLba) ino) blockBmapLba = c blockBmapLba :=
    put_ne (by decide) _
  have g := ((Good.refl h none).markInode w.inode.le).markBlock (w.lba_lt hbc)
  rwa [hbb] at g

/-- The blocks before the directory is written: all is there but the entry. -/
theorem Created.good_inode (w : Created D.blockCount name past c s ino lba nameLen)
    (hbc : D.blockCount ≤ 4096) (h : Inv D.blockCount c) :
    Good D.blockCount none c (putInode (marked c ino lba) ino (mkInode modeFile 0 lba)) := by
  refine (w.good_marked hbc h).putInodeFree w.inode.inoOk w.inode.ne_root (fun i hi => ?_) _
  rw [metaOf_marked w.ino_lt (w.lba_lt hbc)] at hi ⊢
  exact w.inode.not_used h hi

theorem Created.good (w : Created D.blockCount name past c s ino lba nameLen)
    (hbc : D.blockCount ≤ 4096) (h : Inv D.blockCount c) :
    Good D.blockCount none c (created c s ino lba name nameLen) := by
  have g := w.good_inode hbc h
  have hdir : putInode (marked c ino lba) ino (mkInode modeFile 0 lba) rootDirLba = c rootDirLba := by
    rw [putInode_dir w.inode.inoOk, marked_dir]
  have hm : metaOf (putInode (marked c ino lba) ino (mkInode modeFile 0 lba)) =
      { ib := Function.update (metaOf c).ib ino true
        bb := Function.update (metaOf c).bb lba true
        inode := Function.update (metaOf c).inode ino
          (inodeView (mkInode modeFile 0 lba))
        entry := (metaOf c).entry } := by
    rw [metaOf_putInode w.inode.inoOk, metaOf_marked w.ino_lt (w.lba_lt hbc)]
  have hlba4 : lba < 256 ^ 4 := lt_trans (w.lba_lt hbc) (by decide)
  have hfile : ∀ i, (metaOf c).Used i →
      Function.update (metaOf c).inode ino (inodeView (mkInode modeFile 0 lba))
        ((metaOf c).entry i).ino = (metaOf c).file i :=
    fun i hi => Function.update_of_ne (w.inode.not_used h hi) ..
  have hput := g.putEntry name w.slot
    (by rw [hm]; exact w.free) w.inode.ge w.inode.le (validName_ok w.valid).2.2
    (by rw [hm]; exact Function.update_self ..) (fun i hi => by
      rw [hm] at hi ⊢
      exact w.inode.not_used h hi)
    (by
      rw [hm]
      dsimp only
      rw [Function.update_self]
      exact inodeOk_new w.block.ge w.block.lt hbc (Function.update_self ..))
    (fun i hi => by
      rw [hm] at hi ⊢
      dsimp only [Meta.file]
      rw [Function.update_self, hfile i hi]
      exact apart_new hlba4 (w.block.not_used h hi))
  rwa [hdir] at hput

end

/-- The writes of `mcsfs1_create`, on any image, and what it finds where it stops before them. -/
theorem does_create_of {E : Mcsfs1Err → Blocks → Prop} (h8 : 8 < D.blockCount)
    (hbc : D.blockCount ≤ 4096) (name : Bytes) (past : UInt8)
    (hname : ∀ e, validName name = .error e → E e c)
    (hexist : ∀ n s, validName name = .ok n → target c name past = some s → E .exist c)
    (hnospc : ∀ n, validName name = .ok n → target c name past = none →
      findFreeDirent (c rootDirLba) = none ∨ findFreeInode (c inodeBmapLba) = none ∨
        findFreeBlock (c blockBmapLba) D.blockCount = none → E .nospc c)
    (hcut : D.Faulty → ∀ s ino lba n, Created D.blockCount name past c s ino lba n → E .io c ∧
      E .io (put c inodeBmapLba (Bitmap.set (c inodeBmapLba) ino)) ∧ E .io (marked c ino lba) ∧
      E .io (putInode (marked c ino lba) ino (mkInode modeFile 0 lba)) ∧
      E .io (created c s ino lba name n)) :
    Does D (create name past) c
      (fun _ c' => ∃ s ino lba nameLen, Created D.blockCount name past c s ino lba nameLen ∧
        c' = created c s ino lba name nameLen) E := by
  refine bind_ofExcept hname fun n hn => ?_
  -- the lookup is expected to fail: its result is looked at, not passed on
  have hfind := does_attempt (S := fun r c' => c = c' ∧ if r.isOk = true then
      ∃ s, target c name past = some s else target c name past = none)
    (E := E) ((does_findDirent (c := c) h8 name past).mono
      (fun r _ hq => ⟨hq.1, r.1, hq.2.1⟩) fun _ _ hq => ⟨hq.1, hq.2.1⟩)
  apply hfind.bind
  intro r c' hr
  obtain ⟨rfl, hr⟩ := hr
  apply bind_failIf
  · intro hok
    rw [if_pos hok] at hr
    obtain ⟨s, hs⟩ := hr
    exact hexist n s hn hs
  intro hnot
  rw [if_neg hnot] at hr
  refine bind_read (show 7 < _ by omega) ?_
  apply bind_ofOption fun hnone => hnospc n hn hr (Or.inl hnone)
  intro s hs
  obtain ⟨-, hlt, hfree, -⟩ := Loop.findFrom_some_iff.mp hs
  have hslot : s < direntCount := by omega
  have hunused : ¬(metaOf c).Used s := by
    unfold Meta.Used
    rw [entry_eq c hslot]
    simpa using hfree
  have halloc : Does D allocInodeBlock c
      (fun r c' => ∃ ino lba, Created D.blockCount name past c s ino lba n ∧ r = (ino, lba) ∧
        marked c ino lba = c') E := by
    refine bind_read (show 1 < _ by omega) (bind_read (show 2 < _ by omega) ?_)
    refine bind_blockCount ?_
    apply bind_ofOption fun hnone => hnospc n hn hr (Or.inr (Or.inl hnone))
    intro ino hino
    apply bind_ofOption fun hnone => noBlock_eq hbc ▸ hnospc n hn hr (Or.inr (Or.inr hnone))
    intro lba hlba
    have w : Created D.blockCount name past c s ino lba n :=
      ⟨hn, hr, hslot, hunused, findFreeInode_some hino, findFreeBlock_some hlba⟩
    refine bind_storeBmaps h8 (fun hf => (hcut hf s ino lba n w).1)
      (fun hf => (hcut hf s ino lba n w).2.1) ?_
    exact does_pure ⟨ino, lba, w, rfl, rfl⟩
  apply halloc.bind
  intro r c' hr
  obtain ⟨ino, lba, w, rfl, rfl⟩ := hr
  -- the inode comes before the entry, so a cut in between leaves an inode that no entry has
  refine bind_writeInode h8 w.inode.inoOk (fun hf => (hcut hf s ino lba n w).2.2.1) ?_
  refine bind_write (show 7 < _ by omega) (fun hf => (hcut hf s ino lba n w).2.2.2.1) ?_
  exact does_flush ⟨s, ino, lba, n, w, rfl⟩ fun hf => (hcut hf s ino lba n w).2.2.2.2

theorem does_create_cuts {E : Mcsfs1Err → Blocks → Prop} (h8 : 8 < D.blockCount)
    (hbc : D.blockCount ≤ 4096) (name : Bytes) (past : UInt8) (hcheck : ∀ e, e ≠ .io → E e c)
    (hcut : D.Faulty → ∀ s ino lba n, Created D.blockCount name past c s ino lba n → E .io c ∧
      E .io (put c inodeBmapLba (Bitmap.set (c inodeBmapLba) ino)) ∧ E .io (marked c ino lba) ∧
      E .io (putInode (marked c ino lba) ino (mkInode modeFile 0 lba)) ∧
      E .io (created c s ino lba name n)) :
    Does D (create name past) c
      (fun _ c' => ∃ s ino lba nameLen, Created D.blockCount name past c s ino lba nameLen ∧
        c' = created c s ino lba name nameLen) E := by
  refine does_create_of h8 hbc name past (fun e he => hcheck e ?_)
    (fun _ _ _ _ => hcheck _ (by decide)) (fun _ _ _ _ => hcheck _ (by decide)) hcut
  rcases validName_error he with rfl | rfl <;> decide

theorem does_create (h8 : 8 < D.blockCount) (hbc : D.blockCount ≤ 4096) (h : Inv D.blockCount c)
    (name : Bytes) (past : UInt8) :
    Does D (create name past) c
      (fun _ c' => ∃ s ino lba nameLen, Created D.blockCount name past c s ino lba nameLen ∧
        c' = created c s ino lba name nameLen)
      (Cut D False none c) :=
  does_create_cuts h8 hbc name past (fun _ he => Cut.unchanged h he) fun hf _ _ _ _ w =>
    ⟨Cut.io (Good.refl h none) False.elim hf,
      Cut.io ((Good.refl h none).markInode w.inode.le) False.elim hf,
      Cut.io (w.good_marked hbc h) False.elim hf, Cut.io (w.good_inode hbc h) False.elim hf,
      Cut.io (w.good hbc h) False.elim hf⟩

end Mcsos.Mcsfs1
