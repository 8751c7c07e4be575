import Mcsos.Mcsfs1.Fsck

set_option autoImplicit false

/-! # Formatting (`fs/mcsfs1/mcsfs1.c`)

A format that ends well leaves a sound image: the system blocks and the inodes 0 and 1 are marked,
and the directory is empty.
-/

namespace Mcsos.Mcsfs1

variable {D : Disk} {c : Blocks}

/-- The inode bitmap of an empty image. -/
def formatInodeBmap : Bytes := Bitmap.set (Bitmap.set Bytes.zero 0) rootIno

/-- The inode of the directory. -/
def rootInode : Bytes := mkInode modeDir blockSize rootDirLba

/-- The blocks after all writes of `mcsfs1_format` but the zeros. -/
def formatted (blockCount : Nat) (c : Blocks) : Blocks :=
  putInode (put (put (put c sbLba (mkSuper blockCount)) inodeBmapLba formatInodeBmap) blockBmapLba
    (Bitmap.set (formatBlockBmap dataStartLba) rootDirLba)) rootIno rootInode

/-! ## The writes -/

theorem does_zeroBlocks {E : Mcsfs1Err → Blocks → Prop} (he : D.Faulty → ∀ c', E .io c')
    (n lba : Nat) (hin : lba + n ≤ D.blockCount) :
    Does D (zeroBlocks lba n) c (fun _ c' => (∀ b, b < lba → c' b = c b) ∧
      ∀ b, lba ≤ b → b < lba + n → c' b = Bytes.zero) E := by
  induction n generalizing lba c with
  | zero => exact does_pure ⟨fun _ _ => rfl, fun b h1 h2 => absurd h2 (not_lt.mpr h1)⟩
  | succ n ih =>
      rw [zeroBlocks]
      refine bind_write (by omega) (fun hf => he hf c) ?_
      refine (ih (lba + 1) (by omega)).mono (fun _ c' hq => ?_) fun _ _ hq => hq
      obtain ⟨hbelow, hzero⟩ := hq
      refine ⟨fun b hb => ?_, fun b h1 h2 => ?_⟩
      · rw [hbelow b (by omega), put_ne (by omega)]
      · by_cases hb : b = lba
        · rw [hb, hbelow lba (by omega), put_same, Bytes.clip_zero]
        · exact hzero b (by omega) (by omega)

/-- A format that ends well has made an empty image; one that does not has met a bad size or a bad
device. -/
theorem does_format (D : Disk) (c : Blocks) :
    Does D format c
      (fun _ c' => minBlocks ≤ D.blockCount ∧ D.blockCount ≤ blockSize * 8 ∧
        ∃ c₀, (∀ b, b < D.blockCount → c₀ b = Bytes.zero) ∧ c' = formatted D.blockCount c₀)
      (fun _ _ => D.Faulty ∨ D.blockCount < minBlocks ∨ blockSize * 8 < D.blockCount) := by
  refine bind_blockCount (bind_failIf Or.inr fun hsize => ?_)
  obtain ⟨hmin, hmax⟩ := not_or.mp hsize
  have hge : 16 ≤ D.blockCount := not_lt.mp hmin
  refine (does_zeroBlocks (fun hf _ => Or.inl hf) D.blockCount 0
    (Nat.zero_add D.blockCount).le).bind fun _ c₀ hq => ?_
  refine bind_write (show 0 < _ by omega) Or.inl ?_
  refine bind_storeBmaps (by omega) Or.inl Or.inl ?_
  refine bind_writeInode (by omega) rootIno_ok Or.inl (does_flush ?_ Or.inl)
  exact ⟨not_lt.mp hmin, not_lt.mp hmax, c₀,
    fun b hb => hq.2 b (Nat.zero_le b) (by omega), rfl⟩

/-! ## The image -/

theorem formatBlockBmap_test (n b : Nat) :
    Bitmap.test (formatBlockBmap n) b = decide (b < n) := by
  induction n with
  | zero =>
      rw [formatBlockBmap, Bitmap.test_zero]
      exact (decide_eq_false (Nat.not_lt_zero b)).symm
  | succ n ih =>
      rw [formatBlockBmap, Bitmap.test_set, ih, ← Bool.decide_or]
      congr 1
      rw [eq_iff_iff]
      omega

theorem superOk_mkSuper {blockCount : Nat} (h : blockCount ≤ blockSize * 8) :
    SuperOk blockCount (Bytes.clip blockSize (mkSuper blockCount)) := by
  have hcount : blockCount < 256 ^ 4 := lt_of_le_of_lt h (by decide)
  constructor
  case blockCount =>
    unfold sBlockCount mkSuper
    rw [Bytes.load_clip (by decide)]
    repeat rw [Bytes.load_store_ne (by omega)]
    rw [Bytes.load_store_same hcount]
  all_goals
    simp only [sMagic, sVersion, sBlockSize, sInodeCount, sInodeBmapLba, sBlockBmapLba,
      sInodeTableLba, sRootIno, sRootDirLba, sDataStartLba, mkSuper]
    rw [Bytes.load_clip (by decide)]
    repeat rw [Bytes.load_store_ne (by omega)]
    rw [Bytes.load_store_same (by decide)]

theorem formatted_super (blockCount : Nat) (c : Blocks) :
    formatted blockCount c sbLba = Bytes.clip blockSize (mkSuper blockCount) := by
  unfold formatted
  rw [Good.putInode_super, put_ne (by decide), put_ne (by decide), put_same]

theorem formatted_inodes (i : Nat) :
    bits formatInodeBmap i = true ↔ i = 0 ∨ i = rootIno := by
  unfold formatInodeBmap
  rw [bits_set (by decide), bits_set (by decide), Function.update_apply, Function.update_apply]
  have hzero : bits Bytes.zero i = false := by
    unfold bits
    rw [Bitmap.test_zero, Bool.and_false]
  rw [hzero]
  by_cases h1 : i = rootIno
  · simp [h1]
  · by_cases h0 : i = 0
    · simp [h0, rootIno]
    · simp [h0, h1]

theorem formatted_blocks (b : Nat) :
    bits (Bitmap.set (formatBlockBmap dataStartLba) rootDirLba) b = true ↔ b < dataStartLba := by
  rw [bits_set (by decide), Function.update_apply]
  by_cases hb : b = rootDirLba
  · rw [if_pos hb, hb]
    decide
  · rw [if_neg hb]
    unfold bits
    rw [formatBlockBmap_test, ← Bool.decide_and, decide_eq_true_iff]
    exact ⟨fun h => h.2, fun h => ⟨lt_trans h (by decide), h⟩⟩

theorem metaOf_formatted (blockCount : Nat) (c : Blocks) : metaOf (formatted blockCount c) =
    { ib := bits formatInodeBmap
      bb := bits (Bitmap.set (formatBlockBmap dataStartLba) rootDirLba)
      inode := Function.update (inodesOf c) rootIno (inodeView rootInode)
      entry := entriesOf (c rootDirLba) } := by
  unfold formatted
  rw [metaOf_putInode rootIno_ok, metaOf_put_bb, metaOf_put_ib]
  unfold metaOf
  dsimp only
  rw [inodesOf_put (by decide), put_ne (by decide)]

section

variable {blockCount : Nat}

theorem formatted_not_used (h : c rootDirLba = Bytes.zero) (i : Nat) :
    ¬(metaOf (formatted blockCount c)).Used i := by
  rw [metaOf_formatted, h]
  unfold Meta.Used
  dsimp only [entriesOf]
  split_ifs
  · exact fun hne => hne (Bytes.load_zero _ _)
  · exact fun hne => hne rfl

theorem formatted_inv (hcount : blockCount ≤ blockSize * 8) (h : c rootDirLba = Bytes.zero) :
    Inv blockCount (formatted blockCount c) := by
  have hnone : ∀ i, ¬(metaOf (formatted blockCount c)).Used i := formatted_not_used h
  have hroot : (metaOf (formatted blockCount c)).inode rootIno =
      ⟨modeDir, blockSize, Function.update (fun _ => 0) 0 rootDirLba⟩ := by
    rw [metaOf_formatted]
    dsimp only
    rw [Function.update_self, rootInode]
    exact inodeView_mkInode (by decide) (by decide) (by decide)
  refine ⟨?_, ?_, fun b hb => ?_, ?_, ?_, fun i hi => absurd hi (hnone i),
    fun i hi => absurd hi (hnone i), fun i hi => absurd hi (hnone i),
    fun i hi => absurd hi (hnone i), fun i hi => absurd hi (hnone i),
    fun i hi => absurd hi (hnone i), fun i _ hi => absurd hi (hnone i),
    fun i _ hi => absurd hi (hnone i)⟩
  · rw [formatted_super]
    exact superOk_mkSuper hcount
  · rw [metaOf_formatted]
    exact (formatted_inodes rootIno).mpr (Or.inr rfl)
  · rw [metaOf_formatted]
    exact (formatted_blocks b).mpr hb
  · rw [hroot]
  · rw [hroot]
    show Function.update (fun _ => 0) 0 rootDirLba 0 = rootDirLba
    rw [Function.update_self]

end

end Mcsos.Mcsfs1
