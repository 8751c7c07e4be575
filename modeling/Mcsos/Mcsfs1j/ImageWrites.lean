import Mcsos.Mcsfs1j.Image
import Mcsos.Mcsfs1j.JournalRuns

set_option autoImplicit false

/-! # What the two transactions of a write make of an image

The first transaction leaves the image sound and its files as they are, the second one adds the
file. So both cuts between the two, and after the first, are harmless.
-/

namespace Mcsos.Mcsfs1j

open WriteLog

/-! ## The metadata on the blocks -/

/-- The inode table, from its blocks. -/
def inodesOf (blocks : Nat → Bytes) : Bytes :=
  Bytes.clip (inodeTableBlocks * blockSize)
    (fun k => blocks (inodeTableLba + k / blockSize) (k % blockSize))

theorem inodesOf_congr {a b : Nat → Bytes}
    (h : ∀ i, i < inodeTableBlocks → a (inodeTableLba + i) = b (inodeTableLba + i)) :
    inodesOf a = inodesOf b := by
  refine Bytes.clip_eq_iff.mpr fun k _ hk => ?_
  rw [h (k / blockSize) (Nat.div_lt_of_lt_mul (by rwa [Nat.mul_comm]))]

/-- The metadata, from its blocks. -/
def metaOf (blocks : Nat → Bytes) : Meta :=
  ⟨blocks inodeBitmapLba, blocks blockBitmapLba, inodesOf blocks, blocks rootDirLba⟩

/-- The files of an image. -/
def filesOf (blocks : Nat → Bytes) : Files := metaFiles (metaOf blocks) blocks

/-- What `m16_mount` checks of the super block. -/
structure SuperOk (sb : Bytes) : Prop where
  magic : sMagic sb = fsMagic
  version : sVersion sb = version
  blockSize : sBlockSize sb = blockSize
  dataStart : sDataStartLba sb = dataStartLba
  rootDir : sRootDirLba sb = rootDirLba

/-- A sound image. -/
structure ImageInv (blocks : Nat → Bytes) : Prop where
  super : SuperOk (blocks 0)
  inv : MetaInv (metaOf blocks)

/-- `a` says what `b` says. -/
structure SameMeta (b a : Meta) : Prop where
  ib : ∀ i, i < maxInodes → Bitmap.test a.ib i = Bitmap.test b.ib i
  bb : ∀ i, i < maxBlocks → Bitmap.test a.bb i = Bitmap.test b.bb i
  inodes : ∀ i, i < maxInodes → inodeView a.inodes i = inodeView b.inodes i
  dir : ∀ i, i < dirCount → direntView a.dir i = direntView b.dir i

theorem SameMeta.grows {b a : Meta} (h : SameMeta b a) : Grows b a where
  ib := fun i hi hb => (h.ib i hi).trans hb
  bb := fun i hi hb => (h.bb i hi).trans hb
  inodes := fun i hi _ => h.inodes i hi
  dir := h.dir

/-- Metadata that agrees byte by byte says the same. -/
theorem sameMeta_of_agreeOn {b a : Meta} (hib : Bytes.AgreeOn a.ib b.ib 0 blockSize)
    (hbb : Bytes.AgreeOn a.bb b.bb 0 blockSize)
    (hinodes : Bytes.AgreeOn a.inodes b.inodes 0 (inodeTableBlocks * blockSize))
    (hdir : Bytes.AgreeOn a.dir b.dir 0 blockSize) : SameMeta b a where
  ib := fun i hi => Bitmap.test_agreeOn hib (by unfold maxInodes at hi; unfold blockSize; omega)
  bb := fun i hi => Bitmap.test_agreeOn hbb (by unfold maxBlocks at hi; unfold blockSize; omega)
  inodes := fun i hi => by
    refine inodeView_congr (hinodes.mono (Nat.zero_le _) ?_)
    unfold maxInodes at hi
    unfold inodeSize inodeTableBlocks blockSize
    omega
  dir := fun i hi => by
    refine direntView_congr (hdir.mono (Nat.zero_le _) ?_)
    unfold dirCount blockSize direntSize at hi
    unfold blockSize direntSize
    omega

theorem Grows.refl (m : Meta) : Grows m m :=
  ⟨fun _ _ h => h, fun _ _ h => h, fun _ _ _ => rfl, fun _ _ => rfl⟩

theorem Grows.trans {a b c : Meta} (h : Grows a b) (h' : Grows b c) : Grows a c where
  ib := fun i hi hb => h'.ib i hi (h.ib i hi hb)
  bb := fun i hi hb => h'.bb i hi (h.bb i hi hb)
  inodes := fun i hi hb => (h'.inodes i hi (h.ib i hi hb)).trans (h.inodes i hi hb)
  dir := fun i hi => (h'.dir i hi).trans (h.dir i hi)

theorem not_inJournal_of_ge {lba : Nat} (h : inodeBitmapLba ≤ lba) : ¬InJournal lba := by
  unfold inodeBitmapLba at h
  unfold InJournal
  omega

/-- Metadata and files are in the home blocks. -/
theorem metaOf_congr {a b : Nat → Bytes} (h : HomeEq a b) : metaOf a = metaOf b := by
  have hinodes : inodesOf a = inodesOf b := inodesOf_congr fun i _ =>
    h _ (not_inJournal_of_ge (le_trans (by decide) (Nat.le_add_right inodeTableLba i)))
  unfold metaOf
  rw [h _ (not_inJournal_of_ge (le_refl _)), h _ (not_inJournal_of_ge (by decide)), hinodes,
    h _ (not_inJournal_of_ge (by decide))]

/-! ## The transactions as writes -/

/-- The home writes of the first transaction. -/
def metaWrites (m : Meta) : List (Nat × Bytes) :=
  [(inodeBitmapLba, m.ib), (blockBitmapLba, m.bb), (inodeTableLba, inodeBlock m.inodes 0),
    (inodeTableLba + 1, inodeBlock m.inodes 1), (inodeTableLba + 2, inodeBlock m.inodes 2),
    (inodeTableLba + 3, inodeBlock m.inodes 3)]

/-- The home writes of the second transaction. -/
def fileWrites (m : Meta) (dataBlock : Nat) (dataBlk : Bytes) : List (Nat × Bytes) :=
  [(rootDirLba, m.dir), (dataBlock, dataBlk)]

theorem metaTx_ok (m : Meta) : ∃ tx, metaTx m = .ok tx ∧ tx.count = 6 ∧
    homeWrites tx 0 tx.count = metaWrites m := ⟨_, rfl, rfl, rfl⟩

theorem fileTx_ok (m : Meta) (dataBlock : Nat) (dataBlk : Bytes) :
    ∃ tx, fileTx m dataBlock dataBlk = .ok tx ∧ tx.count = 2 ∧
      homeWrites tx 0 tx.count = fileWrites m dataBlock dataBlk := ⟨_, rfl, rfl, rfl⟩

/-- Targets read off the list of home writes. -/
theorem targetsOk_of_homeWrites {dev : Blockdev} {tx : Tx}
    (h : ∀ w ∈ homeWrites tx 0 tx.count, validLba dev w.1 ∧ ¬InJournal w.1) :
    TargetsOk dev tx := by
  intro i hi
  refine h ((tx.recs i).targetLba, (tx.recs i).payload) (List.mem_map.mpr ⟨i, ?_, rfl⟩)
  exact List.mem_range'_1.mpr (by omega)

section Transactions

variable {c : Nat → Bytes} {m : Meta} {dataBlock : Nat} {dataBlk : Bytes}

/-- The image after the first transaction. -/
def metaImage (c : Nat → Bytes) (m : Meta) : Nat → Bytes := applyWrites (stored (metaWrites m)) c

theorem metaImage_eq (c : Nat → Bytes) (m : Meta) : metaImage c m =
    Function.update (Function.update (Function.update (Function.update (Function.update
      (Function.update c 18 (Bytes.clip blockSize m.ib)) 19 (Bytes.clip blockSize m.bb))
      20 (Bytes.clip blockSize (inodeBlock m.inodes 0)))
      21 (Bytes.clip blockSize (inodeBlock m.inodes 1)))
      22 (Bytes.clip blockSize (inodeBlock m.inodes 2)))
      23 (Bytes.clip blockSize (inodeBlock m.inodes 3)) := rfl

theorem metaImage_other {lba : Nat} (h : lba < 18 ∨ 24 ≤ lba) : metaImage c m lba = c lba := by
  rw [metaImage_eq, Function.update_of_ne (by omega), Function.update_of_ne (by omega),
    Function.update_of_ne (by omega), Function.update_of_ne (by omega),
    Function.update_of_ne (by omega), Function.update_of_ne (by omega)]

theorem metaImage_ib : metaImage c m inodeBitmapLba = Bytes.clip blockSize m.ib := rfl

theorem metaImage_bb : metaImage c m blockBitmapLba = Bytes.clip blockSize m.bb := rfl

theorem metaImage_inodes {i : Nat} (hi : i < inodeTableBlocks) :
    metaImage c m (inodeTableLba + i) = Bytes.clip blockSize (inodeBlock m.inodes i) := by
  have hi' : i < 4 := hi
  interval_cases i <;> rfl

theorem inodesOf_metaImage :
    Bytes.AgreeOn (inodesOf (metaImage c m)) m.inodes 0 (inodeTableBlocks * blockSize) := by
  intro k _ hk
  have hblock : k / blockSize < inodeTableBlocks := Nat.div_lt_of_lt_mul (by rwa [Nat.mul_comm])
  unfold inodesOf
  rw [Bytes.clip, if_pos hk, metaImage_inodes hblock, Bytes.clip,
    if_pos (Nat.mod_lt k (by decide))]
  unfold inodeBlock
  rw [Nat.div_add_mod']

/-- The metadata that has been written is the metadata on the blocks, but for the directory. -/
theorem sameMeta_metaImage (c : Nat → Bytes) (m : Meta) :
    SameMeta { m with dir := c rootDirLba } (metaOf (metaImage c m)) := by
  refine sameMeta_of_agreeOn ?_ ?_ inodesOf_metaImage ?_
  · exact Bytes.clip_agreeOn blockSize m.ib
  · exact Bytes.clip_agreeOn blockSize m.bb
  · show Bytes.AgreeOn (metaImage c m rootDirLba) _ _ _
    rw [metaImage_other (by decide)]
    exact Bytes.AgreeOn.refl _ _ _

/-- The image after the second transaction. -/
def fileImage (c : Nat → Bytes) (m : Meta) (dataBlock : Nat) (dataBlk : Bytes) : Nat → Bytes :=
  applyWrites (stored (fileWrites m dataBlock dataBlk)) c

theorem fileImage_eq (c : Nat → Bytes) (m : Meta) (dataBlock : Nat) (dataBlk : Bytes) :
    fileImage c m dataBlock dataBlk = Function.update
      (Function.update c rootDirLba (Bytes.clip blockSize m.dir)) dataBlock
      (Bytes.clip blockSize dataBlk) := rfl

theorem fileImage_data :
    fileImage c m dataBlock dataBlk dataBlock = Bytes.clip blockSize dataBlk := by
  rw [fileImage_eq, Function.update_self]

theorem fileImage_dir (h : dataStartLba ≤ dataBlock) :
    fileImage c m dataBlock dataBlk rootDirLba = Bytes.clip blockSize m.dir := by
  have hne : rootDirLba ≠ dataBlock := by
    unfold dataStartLba at h
    omega
  rw [fileImage_eq, Function.update_of_ne hne, Function.update_self]

theorem fileImage_other {lba : Nat} (h : lba ≠ rootDirLba) (h' : lba ≠ dataBlock) :
    fileImage c m dataBlock dataBlk lba = c lba := by
  rw [fileImage_eq, Function.update_of_ne h', Function.update_of_ne h]

theorem fileImage_below {lba : Nat} (h : dataStartLba ≤ dataBlock) (h' : lba < rootDirLba) :
    fileImage c m dataBlock dataBlk lba = c lba := by
  have : rootDirLba < dataStartLba := by decide
  exact fileImage_other (by omega) (by omega)

theorem inodesOf_fileImage (h : dataStartLba ≤ dataBlock) :
    inodesOf (fileImage c m dataBlock dataBlk) = inodesOf c :=
  inodesOf_congr fun _ hi => fileImage_below h (Nat.add_lt_add_left hi inodeTableLba)

/-- The directory that has been written is the one on the blocks. -/
theorem sameMeta_fileImage (c : Nat → Bytes) (m : Meta) (dataBlk : Bytes)
    (h : dataStartLba ≤ dataBlock) :
    SameMeta { metaOf c with dir := m.dir } (metaOf (fileImage c m dataBlock dataBlk)) := by
  refine sameMeta_of_agreeOn ?_ ?_ ?_ ?_
  · show Bytes.AgreeOn (fileImage c m dataBlock dataBlk inodeBitmapLba) _ _ _
    rw [fileImage_below h (by decide)]
    exact Bytes.AgreeOn.refl _ _ _
  · show Bytes.AgreeOn (fileImage c m dataBlock dataBlk blockBitmapLba) _ _ _
    rw [fileImage_below h (by decide)]
    exact Bytes.AgreeOn.refl _ _ _
  · show Bytes.AgreeOn (inodesOf (fileImage c m dataBlock dataBlk)) _ _ _
    rw [inodesOf_fileImage h]
    exact Bytes.AgreeOn.refl _ _ _
  · show Bytes.AgreeOn (fileImage c m dataBlock dataBlk rootDirLba) _ _ _
    rw [fileImage_dir h]
    exact Bytes.clip_agreeOn _ _

end Transactions

/-! ## A new file -/

/-- What `m16_write_file_ex` has found out when it goes on to write. -/
structure FreeFor (m : Meta) (name : Bytes) (ino dataBlock slot size : Nat) : Prop where
  name_pos : 0 < (nameKey name).length
  name_lt : (nameKey name).length < maxName
  size_le : size ≤ blockSize
  name_new : findDirent m.dir name = none
  ino : findFreeInode m.ib = some ino
  dataBlock : findFreeBlock m.bb = some dataBlock
  slot : findFreeDirent m.dir = some slot

section AddFile

variable {c : Nat → Bytes} {name data : Bytes} {ino dataBlock slot size : Nat}

theorem findFreeInode_some {ib : Bytes} (h : findFreeInode ib = some ino) :
    ino < maxInodes ∧ Bitmap.test ib ino = false := by
  obtain ⟨-, hlt, hp, -⟩ := Loop.findFrom_some_iff.mp h
  exact ⟨hlt, by rwa [Bool.not_eq_true'] at hp⟩

theorem findFreeBlock_some {bb : Bytes} (h : findFreeBlock bb = some dataBlock) :
    dataStartLba ≤ dataBlock ∧ dataBlock < maxBlocks ∧ Bitmap.test bb dataBlock = false := by
  obtain ⟨hge, hlt, hp, -⟩ := Loop.findFrom_some_iff.mp h
  exact ⟨hge, hlt, by rwa [Bool.not_eq_true'] at hp⟩

theorem findFreeDirent_some {dir : Bytes} (h : findFreeDirent dir = some slot) :
    slot < dirCount ∧ dUsed dir slot = 0 := by
  obtain ⟨-, hlt, hp, -⟩ := Loop.findFrom_some_iff.mp h
  exact ⟨by omega, decide_eq_true_iff.mp hp⟩

/-- The metadata of the new file. -/
def newMeta (c : Nat → Bytes) (name : Bytes) (ino dataBlock slot size : Nat) : Meta :=
  addFile (metaOf c) ino dataBlock slot size name (nameKey name).length

/-- The image with inode and block of the new file, but not its name. -/
def imageMid (c : Nat → Bytes) (name : Bytes) (ino dataBlock slot size : Nat) : Nat → Bytes :=
  metaImage c (newMeta c name ino dataBlock slot size)

/-- The image with the new file. -/
def imageNew (c : Nat → Bytes) (name data : Bytes) (ino dataBlock slot size : Nat) :
    Nat → Bytes :=
  fileImage (imageMid c name ino dataBlock slot size) (newMeta c name ino dataBlock slot size)
    dataBlock (Bytes.zero.copy 0 data 0 size)

theorem imageMid_other {lba : Nat} (h : lba < 18 ∨ 24 ≤ lba) :
    imageMid c name ino dataBlock slot size lba = c lba := metaImage_other h

/-- Inode and block of the new file, in the metadata. -/
theorem sameMeta_imageMid : SameMeta (addInode (metaOf c) ino dataBlock size)
    (metaOf (imageMid c name ino dataBlock slot size)) :=
  sameMeta_metaImage c (newMeta c name ino dataBlock slot size)

/-- The entry of the new file, in the metadata. -/
theorem sameMeta_imageNew (data : Bytes) (hge : dataStartLba ≤ dataBlock) :
    SameMeta (addDirent (metaOf (imageMid c name ino dataBlock slot size)) slot ino name)
      (metaOf (imageNew c name data ino dataBlock slot size)) := by
  have hdirMid : imageMid c name ino dataBlock slot size rootDirLba = c rootDirLba :=
    imageMid_other (by decide)
  -- the directory that is written is the old one with the new entry
  have hdir : (newMeta c name ino dataBlock slot size).dir = (addDirent
      (metaOf (imageMid c name ino dataBlock slot size)) slot ino name).dir := by
    show setDirent (c rootDirLba) _ _ _ _ =
      setDirent (imageMid c name ino dataBlock slot size rootDirLba) _ _ _ _
    rw [hdirMid]
  have hg := sameMeta_fileImage (imageMid c name ino dataBlock slot size)
    (newMeta c name ino dataBlock slot size) (Bytes.zero.copy 0 data 0 size) hge
  rw [hdir] at hg
  exact hg

/-- The first transaction adds no file. -/
theorem imageMid_inv (h : ImageInv c) (f : FreeFor (metaOf c) name ino dataBlock slot size) :
    ImageInv (imageMid c name ino dataBlock slot size) ∧
      filesOf (imageMid c name ino dataBlock slot size) = filesOf c := by
  have hg : Grows (metaOf c) (metaOf (imageMid c name ino dataBlock slot size)) :=
    (grows_addInode (findFreeInode_some f.ino).2).trans sameMeta_imageMid.grows
  refine ⟨⟨?_, h.inv.grows hg⟩, metaFiles_grows h.inv hg fun lba hlba _ => ?_⟩
  · rw [imageMid_other (by decide)]
    exact h.super
  · have : 24 < dataStartLba := by decide
    exact imageMid_other (by omega)

/-- The entry that the second transaction writes is sound after the first. -/
theorem newEntry_imageMid (f : FreeFor (metaOf c) name ino dataBlock slot size) :
    NewEntry (metaOf (imageMid c name ino dataBlock slot size)) slot ino dataBlock size name := by
  obtain ⟨hino, -⟩ := findFreeInode_some f.ino
  obtain ⟨hge, hlt, -⟩ := findFreeBlock_some f.dataBlock
  obtain ⟨hslot, hfree⟩ := findFreeDirent_some f.slot
  have hg : Grows (addInode (metaOf c) ino dataBlock size)
      (metaOf (imageMid c name ino dataBlock slot size)) := sameMeta_imageMid.grows
  have hbit : Bitmap.test (addInode (metaOf c) ino dataBlock size).ib ino = true :=
    Bitmap.test_set_self _ _
  have hbbit : Bitmap.test (addInode (metaOf c) ino dataBlock size).bb dataBlock = true :=
    Bitmap.test_set_self _ _
  have hdir : ∀ i, i < dirCount → direntView (metaOf (imageMid c name ino dataBlock slot size)).dir i =
      direntView (metaOf c).dir i := hg.dir
  have hname := f.name_new
  rw [findDirent_eq, slotOf_none_iff] at hname
  refine ⟨hslot, ?_, f.name_lt, fun i hi hu => ?_, hino, hg.ib ino hino hbit, ?_, f.size_le, hge, hlt,
    hg.bb dataBlock hlt hbbit⟩
  · rw [(direntView_eq_iff.mp (hdir slot hslot)).1]
    exact hfree
  · obtain ⟨h1, -, h3⟩ := direntView_eq_iff.mp (hdir i hi)
    rw [h1] at hu
    rw [h3]
    exact hname i hi hu
  · have hsize : size < 256 ^ 4 := lt_of_le_of_lt f.size_le (by decide)
    have hblock : dataBlock < 256 ^ 4 := lt_trans hlt (by decide)
    rw [hg.inodes ino hino hbit]
    exact inodeView_setInode (by decide) hsize hblock

/-- The second transaction adds the file. -/
theorem imageNew_inv (data : Bytes) (h : ImageInv c)
    (f : FreeFor (metaOf c) name ino dataBlock slot size) :
    ImageInv (imageNew c name data ino dataBlock slot size) ∧
      filesOf (imageNew c name data ino dataBlock slot size) =
        Function.update (filesOf c) (nameKey name) (some (data.slice 0 size)) := by
  obtain ⟨hge, -, hfree⟩ := findFreeBlock_some f.dataBlock
  have hmid := (imageMid_inv h f).1
  have hnew := newEntry_imageMid f
  have hg : Grows (addDirent (metaOf (imageMid c name ino dataBlock slot size)) slot ino name)
      (metaOf (imageNew c name data ino dataBlock slot size)) := (sameMeta_imageNew data hge).grows
  have hinv := hmid.inv.addDirent hnew
  refine ⟨⟨?_, hinv.grows hg⟩, ?_⟩
  · show SuperOk (fileImage _ _ _ _ 0)
    rw [fileImage_below hge (by decide)]
    exact hmid.super
  · have hold : metaFiles (metaOf (imageMid c name ino dataBlock slot size))
        (imageNew c name data ino dataBlock slot size) = filesOf c := by
      refine metaFiles_grows h.inv
        ((grows_addInode (findFreeInode_some f.ino).2).trans sameMeta_imageMid.grows)
        fun lba hlba hbit => ?_
      -- a marked block is not the new one
      have hne : lba ≠ dataBlock := by
        rintro rfl
        rw [hfree] at hbit
        cases hbit
      have : 24 < dataStartLba := by decide
      have : rootDirLba < dataStartLba := by decide
      show fileImage _ _ _ _ lba = _
      rw [fileImage_other (by omega) hne, imageMid_other (by omega)]
    have hdata : (imageNew c name data ino dataBlock slot size dataBlock).slice 0 size =
        data.slice 0 size := by
      show (fileImage _ _ _ _ dataBlock).slice 0 size = _
      have hsize := f.size_le
      rw [fileImage_data, Bytes.slice_eq_iff]
      intro k hk
      rw [Bytes.clip, if_pos (by omega), Bytes.copy_apply_of_mem (by omega) (by omega)]
      congr 1
      omega
    calc filesOf (imageNew c name data ino dataBlock slot size)
        = metaFiles (addDirent (metaOf (imageMid c name ino dataBlock slot size)) slot ino name)
            (imageNew c name data ino dataBlock slot size) :=
          metaFiles_grows hinv hg fun _ _ _ => rfl
      _ = Function.update (metaFiles (metaOf (imageMid c name ino dataBlock slot size))
            (imageNew c name data ino dataBlock slot size)) (nameKey name)
            (some ((imageNew c name data ino dataBlock slot size dataBlock).slice 0 size)) :=
          metaFiles_addDirent hmid.inv hnew _
      _ = Function.update (filesOf c) (nameKey name) (some (data.slice 0 size)) := by
          rw [hold, hdata]

end AddFile

end Mcsos.Mcsfs1j
