import Mcsos.Mcsfs1j.FsWrite

set_option autoImplicit false

/-! # The image that format makes -/

namespace Mcsos.Mcsfs1j

open WriteLog

theorem formatBitmap_test (n b : Nat) : Bitmap.test (formatBitmap n) b = decide (b < n) := by
  induction n with
  | zero =>
      rw [formatBitmap, Bitmap.test_zero]
      exact (decide_eq_false (Nat.not_lt_zero b)).symm
  | succ n ih =>
      rw [formatBitmap, Bitmap.test_set, ih, ← Bool.decide_or]
      congr 1
      rw [eq_iff_iff]
      omega

/-- The metadata of an image without files. -/
def formatMeta : Meta :=
  ⟨Bitmap.set Bytes.zero 0, formatBitmap dataStartLba, formatInodes, Bytes.zero⟩

theorem formatMeta_dUsed (i : Nat) : dUsed formatMeta.dir i = 0 := Bytes.load_zero _ _

theorem formatMeta_inv : MetaInv formatMeta := by
  have hroot : inodeView formatMeta.inodes 0 = (1, 2, 0, rootDirLba) :=
    inodeView_setInode (by decide) (by decide) (by decide)
  obtain ⟨hused, hkind, -, hdirect⟩ := inodeView_eq_mk.mp hroot
  refine ⟨Bitmap.test_set_self _ _, hused, hkind, hdirect, fun b hb => ?_, fun i _ hu => ?_,
    fun i _ _ _ hu => ?_⟩
  · show Bitmap.test (formatBitmap dataStartLba) b = true
    rw [formatBitmap_test, decide_eq_true_iff]
    exact hb
  · exact absurd (formatMeta_dUsed i) hu
  · exact absurd (formatMeta_dUsed i) hu

theorem formatMeta_files (blocks : Nat → Bytes) : metaFiles formatMeta blocks = fun _ => none := by
  funext key
  exact metaFiles_eq_none_iff.mpr fun i _ hu => absurd (formatMeta_dUsed i) hu

theorem superOk_mkSuper (totalBlocks : Nat) :
    SuperOk (Bytes.clip blockSize (mkSuper totalBlocks)) where
  magic := by
    unfold sMagic mkSuper
    rw [Bytes.load_clip (by decide)]
    repeat rw [Bytes.load_store_ne (by omega)]
    rw [Bytes.load_store_same (by decide)]
  version := by
    unfold sVersion mkSuper
    rw [Bytes.load_clip (by decide)]
    repeat rw [Bytes.load_store_ne (by omega)]
    rw [Bytes.load_store_same (by decide)]
  blockSize := by
    unfold sBlockSize mkSuper
    rw [Bytes.load_clip (by decide)]
    repeat rw [Bytes.load_store_ne (by omega)]
    rw [Bytes.load_store_same (by decide)]
  dataStart := by
    unfold sDataStartLba mkSuper
    rw [Bytes.load_clip (by decide), Bytes.load_store_ne (by omega),
      Bytes.load_store_same (by decide)]
  rootDir := by
    unfold sRootDirLba mkSuper
    rw [Bytes.load_clip (by decide), Bytes.load_store_ne (by omega),
      Bytes.load_store_ne (by omega), Bytes.load_store_same (by decide)]

/-! ## The writes of a format -/

/-- All block writes of `m16_format`. -/
def formatWrites (totalBlocks : Nat) : List (Nat × Bytes) :=
  (0, mkSuper totalBlocks) :: metaWrites formatMeta ++
    [(rootDirLba, Bytes.zero), (journalStart, Bytes.zero)]

/-- The blocks after a format that nothing has cut. -/
def formatImage (totalBlocks : Nat) : Nat → Bytes :=
  applyWrites (stored (formatWrites totalBlocks)) (fun _ => Bytes.zero)

theorem formatImage_eq (totalBlocks : Nat) : formatImage totalBlocks =
    Function.update (Function.update (metaImage (Function.update (fun _ => Bytes.zero) 0
      (Bytes.clip blockSize (mkSuper totalBlocks))) formatMeta) rootDirLba
      (Bytes.clip blockSize Bytes.zero)) journalStart (Bytes.clip blockSize Bytes.zero) := rfl

theorem format_eq (dev : Blockdev) : format dev =
    writeAll (formatWrites dev.totalBlocks) { dev with blocks := fun _ => Bytes.zero } := by
  have hclear : writeAll [(journalStart, Bytes.zero)] = journalClear :=
    Prog.bind_pure (writeBlock journalStart Bytes.zero)
  have hroot : writeAll [(rootDirLba, Bytes.zero), (journalStart, Bytes.zero)] =
      (writeBlock rootDirLba Bytes.zero >>= fun _ => journalClear) := by
    rw [← hclear]
    rfl
  have hinodes : writeInodes formatInodes 0 inodeTableBlocks = writeAll
      [(inodeTableLba, inodeBlock formatMeta.inodes 0),
        (inodeTableLba + 1, inodeBlock formatMeta.inodes 1),
        (inodeTableLba + 2, inodeBlock formatMeta.inodes 2),
        (inodeTableLba + 3, inodeBlock formatMeta.inodes 3)] := rfl
  have hrest : writeAll ([(inodeTableLba, inodeBlock formatMeta.inodes 0),
      (inodeTableLba + 1, inodeBlock formatMeta.inodes 1),
      (inodeTableLba + 2, inodeBlock formatMeta.inodes 2),
      (inodeTableLba + 3, inodeBlock formatMeta.inodes 3)] ++
      [(rootDirLba, Bytes.zero), (journalStart, Bytes.zero)]) =
      (writeInodes formatInodes 0 inodeTableBlocks >>= fun _ =>
        writeBlock rootDirLba Bytes.zero >>= fun _ => journalClear) := by
    rw [writeAll_append, hroot, hinodes]
  show _ = (writeBlock 0 (mkSuper dev.totalBlocks) >>= fun _ =>
    writeBlock inodeBitmapLba formatMeta.ib >>= fun _ =>
    writeBlock blockBitmapLba formatMeta.bb >>= fun _ => writeAll (_ ++ _)) _
  rw [hrest]
  rfl

theorem formatImage_block {totalBlocks lba : Nat} (h : lba ≠ rootDirLba) (h' : lba ≠ journalStart) :
    formatImage totalBlocks lba = metaImage (Function.update (fun _ => Bytes.zero) 0
      (Bytes.clip blockSize (mkSuper totalBlocks))) formatMeta lba := by
  rw [formatImage_eq, Function.update_of_ne h', Function.update_of_ne h]

/-- What has been formatted is the metadata on the blocks. -/
theorem sameMeta_formatImage (totalBlocks : Nat) :
    SameMeta formatMeta (metaOf (formatImage totalBlocks)) := by
  have hdir : formatImage totalBlocks rootDirLba = Bytes.zero := by
    rw [formatImage_eq, Function.update_of_ne (by decide), Function.update_self, Bytes.clip_zero]
  have hinodes : Bytes.AgreeOn (inodesOf (formatImage totalBlocks)) formatMeta.inodes 0
      (inodeTableBlocks * blockSize) := by
    rw [inodesOf_congr fun i hi => formatImage_block ?_ ?_]
    · exact inodesOf_metaImage
    · exact ne_of_lt (Nat.add_lt_add_left hi inodeTableLba)
    · have : journalStart < inodeTableLba := by decide
      omega
  refine sameMeta_of_agreeOn ?_ ?_ hinodes ?_
  · show Bytes.AgreeOn (formatImage totalBlocks inodeBitmapLba) _ _ _
    rw [formatImage_block (by decide) (by decide), metaImage_ib]
    exact Bytes.clip_agreeOn _ _
  · show Bytes.AgreeOn (formatImage totalBlocks blockBitmapLba) _ _ _
    rw [formatImage_block (by decide) (by decide), metaImage_bb]
    exact Bytes.clip_agreeOn _ _
  · show Bytes.AgreeOn (formatImage totalBlocks rootDirLba) _ _ _
    rw [hdir]
    exact Bytes.AgreeOn.refl _ _ _

theorem formatImage_inv (totalBlocks : Nat) : ImageInv (formatImage totalBlocks) ∧
    filesOf (formatImage totalBlocks) = fun _ => none := by
  have hg := (sameMeta_formatImage totalBlocks).grows
  refine ⟨⟨?_, formatMeta_inv.grows hg⟩, ?_⟩
  · rw [formatImage_block (by decide) (by decide), metaImage_other (by decide), Function.update_self]
    exact superOk_mkSuper totalBlocks
  · rw [← formatMeta_files (formatImage totalBlocks)]
    exact metaFiles_grows formatMeta_inv hg fun _ _ _ => rfl

/-- What a format that succeeds leaves, on a device of any size that has room for it. -/
theorem format_written {dev dev0 : Blockdev} (hok : format dev = (.ok (), dev0)) :
    dataStartLba ≤ dev.totalBlocks ∧ dev0.totalBlocks = dev.totalBlocks ∧
      dev0.blocks = formatImage dev.totalBlocks ∧ JournalEmpty dev0 := by
  rw [format_eq] at hok
  obtain ⟨j, hj⟩ := writeAll_outcome (formatWrites dev.totalBlocks)
    { dev with blocks := fun _ => Bytes.zero }
  rw [hok] at hj
  have hall := hj.ok_iff.mp rfl
  have hblocks : dev0.blocks = formatImage dev.totalBlocks := by
    have hb := hj.blocks
    rw [hall, List.take_length] at hb
    exact hb
  -- the root directory has been written, so its block exists
  have hroot : (rootDirLba, Bytes.zero) ∈ formatWrites dev.totalBlocks :=
    List.mem_append_right _ List.mem_cons_self
  have hvalid := ((hj.reach _ (le_refl _)).mp hall.ge).1 (rootDirLba, Bytes.zero)
  rw [List.take_length] at hvalid
  refine ⟨(hvalid hroot).1, hj.total, hblocks, journalEmpty_of_zero ?_⟩
  rw [hblocks, formatImage_eq, Function.update_self, Bytes.clip_zero]

/-- A format that succeeds leaves a sound image without files. -/
theorem format_spec {dev dev0 : Blockdev} (htotal : dev.totalBlocks = maxBlocks)
    (hok : format dev = (.ok (), dev0)) :
    Held dev0 (formatImage maxBlocks) ∧ JournalEmpty dev0 := by
  obtain ⟨-, hsame, hblocks, hempty⟩ := format_written hok
  have htotal0 : dev0.totalBlocks = maxBlocks := hsame.trans htotal
  rw [htotal] at hblocks
  refine ⟨⟨⟨⟨by rw [htotal0]; decide, by decide⟩, Or.inl ⟨hempty, ?_⟩⟩, htotal0,
    (formatImage_inv maxBlocks).1⟩, hempty⟩
  rw [hblocks]
  exact HomeEq.refl _

/-- A device that does not fail can be formatted. -/
theorem format_ok {dev : Blockdev} (htotal : dev.totalBlocks = maxBlocks) (hf : dev.failAfter < 0) :
    format dev = (.ok (), (format dev).2) := by
  refine Prod.ext ?_ rfl
  show (format dev).1 = .ok ()
  rw [format_eq]
  obtain ⟨j, hj⟩ := writeAll_outcome (formatWrites dev.totalBlocks)
    { dev with blocks := fun _ => Bytes.zero }
  refine hj.ok (fun w hw => ?_) (Or.inl hf)
  have hlba : w.1 < maxBlocks := by
    unfold formatWrites at hw
    rcases List.mem_append.mp hw with hw | hw
    · rcases List.mem_cons.mp hw with rfl | hw
      · exact (by decide : 0 < maxBlocks)
      · exact (metaWrites_targets formatMeta w hw).1
    · rcases List.mem_cons.mp hw with rfl | hw
      · exact (by decide : rootDirLba < maxBlocks)
      · rw [List.mem_singleton.mp hw]
        exact (by decide : journalStart < maxBlocks)
  exact validLba_of_total htotal hlba

end Mcsos.Mcsfs1j
