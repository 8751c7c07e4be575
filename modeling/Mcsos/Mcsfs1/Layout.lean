import Mcsos.Mcsfs1.Device

set_option autoImplicit false

/-! # What the blocks say

`metaOf c` is the metadata that the blocks `c` hold: the two bitmaps as sets of bits, the inodes and
the directory entries. Each write to a metadata block is one change of it, and writing a data block
changes nothing.
-/

namespace Mcsos.Mcsfs1

/-! ## Metadata -/

/-- What an inode says; entries of `direct` from 8 on are 0. -/
structure Inode where
  mode : Nat
  size : Nat
  direct : Nat → Nat

/-- What a directory entry says, but for its name. -/
structure Entry where
  ino : Nat
  type : Nat

structure Meta where
  ib : Nat → Bool
  bb : Nat → Bool
  inode : Nat → Inode
  entry : Nat → Entry

/-- The bits of a bitmap block. -/
def bits (b : Bytes) : Nat → Bool := fun i => decide (i < blockSize * 8) && Bitmap.test b i

def inodeView (inode : Bytes) : Inode :=
  ⟨iMode inode, iSize inode, fun j => if j < directBlocks then iDirect inode j else 0⟩

def inodesOf (c : Blocks) (ino : Nat) : Inode :=
  if InoOk ino then inodeView (inodeOf c ino) else ⟨0, 0, fun _ => 0⟩

/-- The entries of a directory block. -/
def entriesOf (dir : Bytes) (i : Nat) : Entry :=
  if i < direntCount then ⟨deIno dir i, deType dir i⟩ else ⟨0, 0⟩

def metaOf (c : Blocks) : Meta where
  ib := bits (c inodeBmapLba)
  bb := bits (c blockBmapLba)
  inode := inodesOf c
  entry := entriesOf (c rootDirLba)

/-! ## Bitmaps -/

theorem bits_congr {a b : Bytes} (h : Bytes.AgreeOn a b 0 blockSize) : bits a = bits b := by
  funext i
  unfold bits
  by_cases hi : i < blockSize * 8
  · rw [Bitmap.test_agreeOn h (by omega)]
  · rw [decide_eq_false hi, Bool.false_and, Bool.false_and]

theorem bits_clip (b : Bytes) : bits (Bytes.clip blockSize b) = bits b :=
  bits_congr (Bytes.clip_agreeOn blockSize b)

theorem bits_set {i : Nat} (h : i < blockSize * 8) (b : Bytes) :
    bits (Bitmap.set b i) = Function.update (bits b) i true := by
  funext j
  unfold bits
  by_cases hj : j = i
  · subst hj
    rw [Function.update_self, Bitmap.test_set_self, decide_eq_true h, Bool.true_and]
  · rw [Function.update_of_ne hj, Bitmap.test_set_ne _ hj]

theorem bits_clear (b : Bytes) (i : Nat) :
    bits (Bitmap.clear b i) = Function.update (bits b) i false := by
  funext j
  unfold bits
  by_cases hj : j = i
  · subst hj
    rw [Function.update_self, Bitmap.test_clear_self, Bool.and_false]
  · rw [Function.update_of_ne hj, Bitmap.test_clear_ne _ hj]

theorem bits_of_lt {i : Nat} (h : i < blockSize * 8) (b : Bytes) :
    bits b i = Bitmap.test b i := by
  unfold bits
  rw [decide_eq_true h, Bool.true_and]

/-! ## Inodes -/

theorem inodeView_congr {a b : Bytes} (h : Bytes.AgreeOn a b 0 inodeSize) :
    inodeView a = inodeView b := by
  have hsize : inodeSize = 60 := rfl
  have hdirect : (fun j => if j < directBlocks then iDirect a j else 0) =
      fun j => if j < directBlocks then iDirect b j else 0 := by
    funext j
    by_cases hj : j < directBlocks
    · have hj8 : j < 8 := hj
      rw [if_pos hj, if_pos hj]
      exact Bytes.load_congr (h.mono (by omega) (by omega))
    · rw [if_neg hj, if_neg hj]
  unfold inodeView iMode iSize
  rw [hdirect, Bytes.load_congr (h.mono (by omega) (by omega)),
    Bytes.load_congr (h.mono (by omega) (by omega))]

/-- Two places in the inode table are the same block and overlap only for one inode. -/
theorem inode_places {i j : Nat} (hi : InoOk i) (hj : InoOk j) (hne : j ≠ i)
    (hlba : inodeLba j = inodeLba i) :
    inodeOff j + inodeSize ≤ inodeOff i ∨ inodeOff i + inodeSize ≤ inodeOff j := by
  have h1 := hi.1
  have h2 := hj.1
  have hdiv : (j - 1) / 8 = (i - 1) / 8 := Nat.add_left_cancel hlba
  show (j - 1) % 8 * 60 + 60 ≤ (i - 1) % 8 * 60 ∨ (i - 1) % 8 * 60 + 60 ≤ (j - 1) % 8 * 60
  omega

theorem inodeOff_le (ino : Nat) : inodeOff ino + inodeSize ≤ blockSize := by
  show (ino - 1) % 8 * 60 + 60 ≤ 512
  omega

theorem inodeOf_apply {c : Blocks} {ino k : Nat} (hk : k < inodeSize) :
    inodeOf c ino k = c (inodeLba ino) (inodeOff ino + k) := by
  unfold inodeOf
  rw [Bytes.copy_apply_of_mem (Nat.zero_le k) (by omega)]
  congr 1

/-- The inode that has been written. -/
theorem inodeOf_putInode (c : Blocks) (ino : Nat) (inode : Bytes) :
    Bytes.AgreeOn (inodeOf (putInode c ino inode) ino) inode 0 inodeSize := by
  intro k _ hk
  have hoff := inodeOff_le ino
  rw [inodeOf_apply hk, putInode, put_same, Bytes.clip_agreeOn _ _ _ (Nat.zero_le _) (by omega),
    Bytes.copy_apply_of_mem (by omega) (by omega)]
  congr 1
  omega

theorem inodeOf_putInode_ne {c : Blocks} {ino j : Nat} (hi : InoOk ino) (hj : InoOk j)
    (hne : j ≠ ino) (inode : Bytes) :
    Bytes.AgreeOn (inodeOf (putInode c ino inode) j) (inodeOf c j) 0 inodeSize := by
  intro k _ hk
  have hoff := inodeOff_le j
  rw [inodeOf_apply hk, inodeOf_apply hk, putInode]
  by_cases hlba : inodeLba j = inodeLba ino
  · have hplaces := inode_places hi hj hne hlba
    have hcopy : Bytes.AgreeOn ((c (inodeLba ino)).copy (inodeOff ino) inode 0 inodeSize)
        (c (inodeLba ino)) (inodeOff j) (inodeOff j + inodeSize) :=
      Bytes.copy_agreeOn (by omega)
    rw [hlba, put_same, Bytes.clip_agreeOn _ _ _ (Nat.zero_le _) (by omega)]
    exact hcopy _ (by omega) (by omega)
  · rw [put_ne hlba]

/-- The entries of `direct` after one has been set. -/
theorem inodeView_store_direct {inode : Bytes} {i lba : Nat} (hi : i < directBlocks)
    (hlba : lba < 256 ^ 4) :
    inodeView (inode.store (8 + 4 * i) 4 lba) =
      { inodeView inode with direct := Function.update (inodeView inode).direct i lba } := by
  have hdirect : (fun j => if j < directBlocks then iDirect (inode.store (8 + 4 * i) 4 lba) j
      else 0) = Function.update (fun j => if j < directBlocks then iDirect inode j else 0) i lba := by
    funext j
    by_cases hj : j = i
    · subst hj
      rw [Function.update_self, if_pos hi]
      exact Bytes.load_store_same hlba
    · rw [Function.update_of_ne hj]
      unfold iDirect
      rw [Bytes.load_store_ne (by omega)]
  unfold inodeView iMode iSize
  rw [hdirect, Bytes.load_store_ne (by omega), Bytes.load_store_ne (by omega)]

theorem inodeView_store_size {inode : Bytes} {len : Nat} (hlen : len < 256 ^ 4) :
    inodeView (inode.store 4 4 len) = { inodeView inode with size := len } := by
  have hdirect : (fun j => if j < directBlocks then iDirect (inode.store 4 4 len) j else 0) =
      fun j => if j < directBlocks then iDirect inode j else 0 := by
    funext j
    unfold iDirect
    rw [Bytes.load_store_ne (by omega)]
  unfold inodeView iMode iSize
  rw [hdirect, Bytes.load_store_ne (by omega), Bytes.load_store_same hlen]

theorem inodeView_mkInode {mode size direct0 : Nat} (hm : mode < 256 ^ 2) (hs : size < 256 ^ 4)
    (hd : direct0 < 256 ^ 4) :
    inodeView (mkInode mode size direct0) =
      ⟨mode, size, Function.update (fun _ => 0) 0 direct0⟩ := by
  have hdirect : (fun j => if j < directBlocks then iDirect (mkInode mode size direct0) j else 0) =
      Function.update (fun _ => 0) 0 direct0 := by
    funext j
    unfold iDirect mkInode
    by_cases hj : j = 0
    · subst hj
      rw [Function.update_self, if_pos (by decide), Bytes.load_store_same hd]
    · rw [Function.update_of_ne hj, Bytes.load_store_ne (by omega), Bytes.load_store_ne (by omega),
        Bytes.load_store_ne (by omega), Bytes.load_store_ne (by omega), Bytes.load_zero, ite_self]
  unfold inodeView
  rw [hdirect]
  unfold iMode iSize mkInode
  rw [Bytes.load_store_ne (by omega), Bytes.load_store_ne (by omega), Bytes.load_store_ne (by omega),
    Bytes.load_store_same hm, Bytes.load_store_ne (by omega), Bytes.load_store_same hs]

/-! ## Directory entries -/

theorem slot_inside {i : Nat} (hi : i < direntCount) :
    i * direntSize + direntSize ≤ blockSize := by
  have hi16 : i < 16 := hi
  show i * 32 + 32 ≤ 512
  omega

theorem slots_apart {i j : Nat} (h : j ≠ i) :
    j * direntSize + direntSize ≤ i * direntSize ∨
      i * direntSize + direntSize ≤ j * direntSize := by
  show j * 32 + 32 ≤ i * 32 ∨ i * 32 + 32 ≤ j * 32
  omega

theorem entriesOf_congr {a b : Bytes} (h : Bytes.AgreeOn a b 0 blockSize) :
    entriesOf a = entriesOf b := by
  funext i
  unfold entriesOf
  by_cases hi : i < direntCount
  · have hin := slot_inside hi
    have hsize : direntSize = 32 := rfl
    rw [if_pos hi, if_pos hi]
    unfold deIno deType
    rw [Bytes.load_congr (h.mono (by omega) (by omega)), h _ (by omega) (by omega)]
  · rw [if_neg hi, if_neg hi]

theorem setDirent_agreeOn {dir name : Bytes} {i ino nameLen lo hi : Nat} (hlen : nameLen ≤ maxName)
    (h : hi ≤ i * direntSize ∨ i * direntSize + direntSize ≤ lo) :
    Bytes.AgreeOn (setDirent dir i ino name nameLen) dir lo hi := by
  have hsize : direntSize = 5 + maxName := rfl
  unfold setDirent
  refine (Bytes.copy_agreeOn (by omega)).trans ((Bytes.fill_agreeOn (by omega)).trans
    ((Bytes.store_agreeOn (by omega)).trans (Bytes.store_agreeOn (by omega))))

theorem entriesOf_of_agreeOn {a b : Bytes} {i : Nat}
    (h : Bytes.AgreeOn a b (i * direntSize) (i * direntSize + direntSize)) :
    entriesOf a i = entriesOf b i := by
  have hsize : direntSize = 32 := rfl
  unfold entriesOf deIno deType
  rw [Bytes.load_congr (h.mono (le_refl _) (by omega)), h _ (by omega) (by omega)]

theorem entriesOf_setDirent {dir name : Bytes} {i ino nameLen : Nat} (hi : i < direntCount)
    (hino : ino < 256 ^ 4) (hlen : nameLen ≤ maxName) :
    entriesOf (setDirent dir i ino name nameLen) =
      Function.update (entriesOf dir) i ⟨ino, modeFile⟩ := by
  funext j
  by_cases hj : j = i
  · subst hj
    have hino' : deIno (setDirent dir j ino name nameLen) j = ino := by
      unfold deIno setDirent
      rw [Bytes.load_copy_ne (by omega), Bytes.load_fill_ne (by omega),
        Bytes.load_store_ne (by omega), Bytes.load_store_same hino]
    have htype : deType (setDirent dir j ino name nameLen) j = modeFile := by
      have hbyte : (setDirent dir j ino name nameLen).load (j * direntSize + 4) 1 = modeFile := by
        unfold setDirent
        rw [Bytes.load_copy_ne (by omega), Bytes.load_fill_ne (by omega),
          Bytes.load_store_same (by decide)]
      rw [Bytes.load_succ, Bytes.load_zero_width] at hbyte
      exact hbyte
    rw [Function.update_self, entriesOf, if_pos hi, hino', htype]
  · rw [Function.update_of_ne hj]
    exact entriesOf_of_agreeOn (setDirent_agreeOn hlen (slots_apart hj))

theorem entriesOf_fill (dir : Bytes) {i : Nat} (hi : i < direntCount) :
    entriesOf (dir.fill (i * direntSize) direntSize 0) =
      Function.update (entriesOf dir) i ⟨0, 0⟩ := by
  have hsize : direntSize = 32 := rfl
  funext j
  by_cases hj : j = i
  · subst hj
    rw [Function.update_self, entriesOf, if_pos hi]
    unfold deIno deType
    rw [Bytes.load_fill_zero (by omega) (by omega), Bytes.fill_apply_of_mem (by omega) (by omega)]
    rfl
  · rw [Function.update_of_ne hj]
    exact entriesOf_of_agreeOn (Bytes.fill_agreeOn (slots_apart hj))

/-! ## Writes -/

theorem inodesOf_put {c : Blocks} {lba : Nat} (h : lba < 3 ∨ 7 ≤ lba) (buf : Bytes) :
    inodesOf (put c lba buf) = inodesOf c := by
  funext ino
  unfold inodesOf
  by_cases hino : InoOk ino
  · have hlt := inodeLba_lt hino
    have hge := inodeLba_ge ino
    rw [if_pos hino, if_pos hino, inodeOf, put_ne (by omega)]
    rfl
  · rw [if_neg hino, if_neg hino]

theorem metaOf_put_ib (c : Blocks) (ib : Bytes) :
    metaOf (put c inodeBmapLba ib) = { metaOf c with ib := bits ib } := by
  unfold metaOf
  rw [inodesOf_put (by decide), put_same, put_ne (by decide), put_ne (by decide), bits_clip]

theorem metaOf_put_bb (c : Blocks) (bb : Bytes) :
    metaOf (put c blockBmapLba bb) = { metaOf c with bb := bits bb } := by
  unfold metaOf
  rw [inodesOf_put (by decide), put_same, put_ne (by decide), put_ne (by decide), bits_clip]

theorem metaOf_put_dir (c : Blocks) (dir : Bytes) :
    metaOf (put c rootDirLba dir) = { metaOf c with entry := entriesOf dir } := by
  unfold metaOf
  rw [inodesOf_put (by decide), put_same, put_ne (by decide), put_ne (by decide),
    entriesOf_congr (Bytes.clip_agreeOn blockSize dir)]

theorem metaOf_put_data {lba : Nat} (h : dataStartLba ≤ lba) (c : Blocks) (buf : Bytes) :
    metaOf (put c lba buf) = metaOf c := by
  have h8 : 8 ≤ lba := h
  have h1 : inodeBmapLba = 1 := rfl
  have h2 : blockBmapLba = 2 := rfl
  have h7 : rootDirLba = 7 := rfl
  unfold metaOf
  rw [inodesOf_put (by omega), put_ne (by omega), put_ne (by omega), put_ne (by omega)]

theorem metaOf_putInode {ino : Nat} (hino : InoOk ino) (c : Blocks) (inode : Bytes) :
    metaOf (putInode c ino inode) =
      { metaOf c with inode := Function.update (metaOf c).inode ino (inodeView inode) } := by
  have hlt := inodeLba_lt hino
  have hge := inodeLba_ge ino
  have h1 : inodeBmapLba = 1 := rfl
  have h2 : blockBmapLba = 2 := rfl
  have h7 : rootDirLba = 7 := rfl
  have hinodes : inodesOf (putInode c ino inode) =
      Function.update (inodesOf c) ino (inodeView inode) := by
    funext j
    by_cases hj : j = ino
    · subst hj
      rw [Function.update_self, inodesOf, if_pos hino]
      exact inodeView_congr (inodeOf_putInode c j inode)
    · rw [Function.update_of_ne hj]
      unfold inodesOf
      by_cases hjok : InoOk j
      · rw [if_pos hjok, if_pos hjok]
        exact inodeView_congr (inodeOf_putInode_ne hino hjok hj inode)
      · rw [if_neg hjok, if_neg hjok]
  unfold metaOf
  rw [hinodes, putInode, put_ne (by omega), put_ne (by omega), put_ne (by omega)]

end Mcsos.Mcsfs1
