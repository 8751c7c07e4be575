import Mcsos.Mcsfs1.Owner

set_option autoImplicit false

/-! # One write at a time

`Good t c c'` says that the blocks `c'`, which came out of `c`, are a sound image, and that all
files of `c` are still there as they were, but for the one in slot `t`. There is one lemma for each
kind of write that the operations make.
-/

namespace Mcsos.Mcsfs1

/-! ## Sound images -/

/-- What `load_super` checks. -/
structure SuperOk (blockCount : Nat) (sb : Bytes) : Prop where
  magic : sMagic sb = fsMagic
  version : sVersion sb = version
  blockSize : sBlockSize sb = blockSize
  blockCount : sBlockCount sb = blockCount
  inodeCount : sInodeCount sb = maxInodes
  inodeBmapLba : sInodeBmapLba sb = inodeBmapLba
  blockBmapLba : sBlockBmapLba sb = blockBmapLba
  inodeTableLba : sInodeTableLba sb = inodeTableLba
  rootIno : sRootIno sb = rootIno
  rootDirLba : sRootDirLba sb = rootDirLba
  dataStartLba : sDataStartLba sb = dataStartLba

/-- A sound image. -/
structure Inv (blockCount : Nat) (c : Blocks) : Prop where
  super : SuperOk blockCount (c sbLba)
  data : MetaInv blockCount (metaOf c)

/-! ## Files that are kept -/

/-- The bytes of slot `i` of the directory are the same. -/
def SameSlot (c c' : Blocks) (i : Nat) : Prop :=
  Bytes.AgreeOn (c' rootDirLba) (c rootDirLba) (i * direntSize) (i * direntSize + direntSize)

theorem SameSlot.of_eq {c c' : Blocks} (h : c' rootDirLba = c rootDirLba) (i : Nat) :
    SameSlot c c' i := by
  unfold SameSlot
  rw [h]
  exact Bytes.AgreeOn.refl _ _ _

theorem SameSlot.entry {c c' : Blocks} {i : Nat} (h : SameSlot c c' i) :
    (metaOf c').entry i = (metaOf c).entry i := entriesOf_of_agreeOn h

theorem putInode_dir {ino : Nat} (hino : InoOk ino) (c : Blocks) (inode : Bytes) :
    putInode c ino inode rootDirLba = c rootDirLba := by
  have hlt := inodeLba_lt hino
  have h7 : rootDirLba = 7 := rfl
  exact put_ne (by omega) _

/-- The files of `c`, but for the one in slot `t`, are in `c'` too: slot, inode and data. -/
structure Kept (t : Option Nat) (c c' : Blocks) : Prop where
  slot : ∀ i, (metaOf c).Used i → t ≠ some i → SameSlot c c' i
  file : ∀ i, (metaOf c).Used i → t ≠ some i → (metaOf c').file i = (metaOf c).file i
  data : ∀ i, (metaOf c).Used i → t ≠ some i → ∀ j, ((metaOf c).file i).direct j ≠ 0 →
    c' (((metaOf c).file i).direct j) = c (((metaOf c).file i).direct j)

theorem Kept.refl (t : Option Nat) (c : Blocks) : Kept t c c :=
  ⟨fun i _ _ => SameSlot.of_eq rfl i, fun _ _ _ => rfl, fun _ _ _ _ _ => rfl⟩

theorem Kept.entry {t : Option Nat} {c c' : Blocks} (h : Kept t c c') {i : Nat}
    (hi : (metaOf c).Used i) (ht : t ≠ some i) : (metaOf c').entry i = (metaOf c).entry i :=
  (h.slot i hi ht).entry

theorem Kept.used {t : Option Nat} {c c' : Blocks} (h : Kept t c c') {i : Nat}
    (hi : (metaOf c).Used i) (ht : t ≠ some i) : (metaOf c').Used i := by
  unfold Meta.Used
  rw [h.entry hi ht]
  exact hi

theorem Kept.trans {t : Option Nat} {c c' c'' : Blocks} (h : Kept t c c') (h' : Kept t c' c'') :
    Kept t c c'' := by
  refine ⟨fun i hi ht => (h'.slot i (h.used hi ht) ht).trans (h.slot i hi ht),
    fun i hi ht => (h'.file i (h.used hi ht) ht).trans (h.file i hi ht), fun i hi ht j hj => ?_⟩
  have hfile := h.file i hi ht
  have hdata := h'.data i (h.used hi ht) ht j (by rw [hfile]; exact hj)
  rw [hfile] at hdata
  rw [hdata, h.data i hi ht j hj]

/-- `c'` is a sound image that came out of `c`; the file in slot `t` may be another one. -/
structure Good (blockCount : Nat) (t : Option Nat) (c c' : Blocks) : Prop where
  inv : Inv blockCount c'
  kept : Kept t c c'

namespace Good

variable {blockCount : Nat} {t : Option Nat} {c c' : Blocks}

theorem refl (h : Inv blockCount c) (t : Option Nat) : Good blockCount t c c := ⟨h, Kept.refl t c⟩

/-- A write that leaves the data alone and of the files changes at most the one in slot `t`. -/
theorem step (g : Good blockCount t c c') {c'' : Blocks} (hsuper : c'' sbLba = c' sbLba)
    (hmeta : MetaInv blockCount (metaOf c''))
    (hslot : ∀ i, (metaOf c').Used i → t ≠ some i → SameSlot c' c'' i)
    (hfile : ∀ i, (metaOf c').Used i → t ≠ some i → (metaOf c'').file i = (metaOf c').file i)
    (hdata : ∀ b, dataStartLba ≤ b → c'' b = c' b) : Good blockCount t c c'' := by
  refine ⟨⟨hsuper ▸ g.inv.super, hmeta⟩, g.kept.trans ⟨hslot, hfile, fun i hi _ j hj => ?_⟩⟩
  exact hdata _ ((g.inv.data.file i hi).direct_ge j hj)

theorem putIb (g : Good blockCount t c c') {ib : Bytes} (hroot : bits ib rootIno = true)
    (hused : ∀ i, (metaOf c').Used i → bits ib ((metaOf c').entry i).ino = true) :
    Good blockCount t c (put c' inodeBmapLba ib) := by
  have hm := metaOf_put_ib c' ib
  refine g.step (put_ne (by decide) ib) ?_ (fun i _ _ => SameSlot.of_eq (put_ne (by decide) ib) i)
    (fun i _ _ => ?_) fun b hb => ?_
  · rw [hm]
    exact g.inv.data.setIb hroot hused
  · rw [hm]
    rfl
  · exact put_ne (fun he => absurd (he ▸ hb) (by decide)) ib

theorem putBb (g : Good blockCount t c c') {bb : Bytes}
    (hsystem : ∀ b, b < dataStartLba → bits bb b = true)
    (hused : ∀ i, (metaOf c').Used i → ∀ j, ((metaOf c').file i).direct j ≠ 0 →
      bits bb (((metaOf c').file i).direct j) = true) :
    Good blockCount t c (put c' blockBmapLba bb) := by
  have hm := metaOf_put_bb c' bb
  refine g.step (put_ne (by decide) bb) ?_ (fun i _ _ => SameSlot.of_eq (put_ne (by decide) bb) i)
    (fun i _ _ => ?_) fun b hb => ?_
  · rw [hm]
    exact g.inv.data.setBb hsystem hused
  · rw [hm]
    rfl
  · exact put_ne (fun he => absurd (he ▸ hb) (by decide)) bb

theorem putInode_data {ino b : Nat} (hino : InoOk ino) (hb : dataStartLba ≤ b) (c : Blocks)
    (inode : Bytes) : putInode c ino inode b = c b := by
  have hlt := inodeLba_lt hino
  have h8 : 8 ≤ b := hb
  exact put_ne (by omega) _

theorem putInode_super {ino : Nat} (c : Blocks) (inode : Bytes) :
    putInode c ino inode sbLba = c sbLba := by
  have hge := inodeLba_ge ino
  have h0 : sbLba = 0 := rfl
  exact put_ne (by omega) _

/-- An inode that no entry refers to is written. -/
theorem putInodeFree (g : Good blockCount t c c') {ino : Nat} (hino : InoOk ino)
    (hroot : ino ≠ rootIno) (hfree : ∀ i, (metaOf c').Used i → ((metaOf c').entry i).ino ≠ ino)
    (inode : Bytes) : Good blockCount t c (putInode c' ino inode) := by
  have hm := metaOf_putInode hino c' inode
  refine g.step (putInode_super c' inode) ?_
    (fun i _ _ => SameSlot.of_eq (putInode_dir hino c' inode) i) (fun i hi _ => ?_)
    fun b hb => putInode_data hino hb c' inode
  · rw [hm]
    exact g.inv.data.setInode hroot hfree _
  · rw [hm]
    exact Function.update_of_ne (hfree i hi) ..

/-- The inode of the file in slot `s` is written. -/
theorem putInodeFile {s : Nat} (g : Good blockCount (some s) c c') (hs : (metaOf c').Used s)
    {inode : Bytes} (hx : InodeOk blockCount (metaOf c').bb (inodeView inode))
    (hapart : ∀ i, (metaOf c').Used i → i ≠ s → Apart (inodeView inode) ((metaOf c').file i)) :
    Good blockCount (some s) c (putInode c' ((metaOf c').entry s).ino inode) := by
  have hino := g.inv.data.inoOk hs
  have hm := metaOf_putInode hino c' inode
  refine g.step (putInode_super c' inode) ?_
    (fun i _ _ => SameSlot.of_eq (putInode_dir hino c' inode) i) (fun i hi hne => ?_)
    fun b hb => putInode_data hino hb c' inode
  · rw [hm]
    exact g.inv.data.setFile hs hx hapart
  · rw [hm]
    exact Function.update_of_ne (fun he => hne (congrArg some (g.inv.data.inos s i hs hi he.symm))) ..

/-- A slot that another directory has the same bytes for. -/
theorem putDir_slot {c : Blocks} {dir : Bytes} {i : Nat} (hi : i < direntCount)
    (h : Bytes.AgreeOn dir (c rootDirLba) (i * direntSize) (i * direntSize + direntSize)) :
    SameSlot c (put c rootDirLba dir) i := by
  unfold SameSlot
  rw [put_same]
  exact ((Bytes.clip_agreeOn blockSize dir).mono (Nat.zero_le _) (slot_inside hi)).trans h

/-- A new entry is written into a free slot. -/
theorem putEntry (g : Good blockCount t c c') {s ino nameLen : Nat} (name : Bytes)
    (hs : s < direntCount) (hslot : ¬(metaOf c').Used s) (hge : 2 ≤ ino) (hle : ino ≤ maxInodes)
    (hlen : nameLen ≤ maxName) (hbit : (metaOf c').ib ino = true)
    (hfree : ∀ i, (metaOf c').Used i → ((metaOf c').entry i).ino ≠ ino)
    (hx : InodeOk blockCount (metaOf c').bb ((metaOf c').inode ino))
    (hapart : ∀ i, (metaOf c').Used i → Apart ((metaOf c').inode ino) ((metaOf c').file i)) :
    Good blockCount t c (put c' rootDirLba (setDirent (c' rootDirLba) s ino name nameLen)) := by
  have hino : ino < 256 ^ 4 := lt_of_le_of_lt hle (by decide)
  have hm := metaOf_put_dir c' (setDirent (c' rootDirLba) s ino name nameLen)
  rw [entriesOf_setDirent hs hino hlen] at hm
  have hentry : ∀ i, (metaOf c').Used i →
      Function.update (metaOf c').entry s ⟨ino, modeFile⟩ i = (metaOf c').entry i :=
    fun i hi => Function.update_of_ne (show i ≠ s from fun he => hslot (he ▸ hi)) ..
  refine g.step (put_ne (by decide) _) ?_ (fun i hi _ => ?_) (fun i hi _ => ?_) fun b hb => ?_
  · rw [hm]
    exact g.inv.data.addEntry hs hge hle hbit hfree hx hapart
  · exact putDir_slot (g.inv.data.slot i hi)
      (setDirent_agreeOn hlen (slots_apart fun he => hslot (he ▸ hi)))
  · rw [hm]
    exact congrArg (fun e : Entry => (metaOf c').inode e.ino) (hentry i hi)
  · exact put_ne (fun he => absurd (he ▸ hb) (by decide)) _

/-- The entry in slot `s` is cleared. -/
theorem clearEntry {s : Nat} (g : Good blockCount (some s) c c') (hs : s < direntCount) :
    Good blockCount (some s) c
      (put c' rootDirLba ((c' rootDirLba).fill (s * direntSize) direntSize 0)) := by
  have hm := metaOf_put_dir c' ((c' rootDirLba).fill (s * direntSize) direntSize 0)
  rw [entriesOf_fill _ hs] at hm
  have hentry : ∀ i, some s ≠ some i →
      Function.update (metaOf c').entry s ⟨0, 0⟩ i = (metaOf c').entry i :=
    fun i hne => Function.update_of_ne (fun he => hne (congrArg some he.symm)) ..
  refine g.step (put_ne (by decide) _) ?_ (fun i hi hne => ?_) (fun i _ hne => ?_) fun b hb => ?_
  · rw [hm]
    exact g.inv.data.clearEntry s
  · exact putDir_slot (g.inv.data.slot i hi)
      (Bytes.fill_agreeOn (slots_apart fun he => hne (congrArg some he.symm)))
  · rw [hm]
    exact congrArg (fun e : Entry => (metaOf c').inode e.ino) (hentry i hne)
  · exact put_ne (fun he => absurd (he ▸ hb) (by decide)) _

/-- A data block that no other file has is written. -/
theorem putData (g : Good blockCount t c c') {lba : Nat} (hlba : dataStartLba ≤ lba)
    (hother : ∀ i, (metaOf c').Used i → t ≠ some i → ∀ j, ((metaOf c').file i).direct j ≠ lba)
    (buf : Bytes) : Good blockCount t c (put c' lba buf) := by
  have hm := metaOf_put_data hlba c' buf
  have hsuper : put c' lba buf sbLba = c' sbLba :=
    put_ne (fun he => absurd (he ▸ hlba) (by decide)) buf
  refine ⟨⟨hsuper ▸ g.inv.super, hm ▸ g.inv.data⟩, g.kept.trans
    ⟨fun i _ _ => SameSlot.of_eq (put_ne (fun he => absurd (he ▸ hlba) (by decide)) buf) i,
      fun i _ _ => by rw [hm], fun i hi hne j _ => ?_⟩⟩
  exact put_ne (hother i hi hne j) buf

end Good

end Mcsos.Mcsfs1
