import Mcsos.Mcsfs1j.ImageWrites

set_option autoImplicit false

/-! # The operations on a device that holds an image

`Held dev c`: whatever the journal of `dev` has in store, it leads to the sound image `c`. Every
operation keeps a device in such a state, and changes the files of the image as its result says.
-/

namespace Mcsos.Mcsfs1j

open WriteLog

/-- The device holds the image `c`, some of it perhaps in the journal. -/
structure Held (dev : Blockdev) (c : Nat → Bytes) : Prop where
  settled : Settled dev c
  total : dev.totalBlocks = maxBlocks
  image : ImageInv c

section Held

variable {dev : Blockdev} {c : Nat → Bytes}

theorem Held.valid (h : Held dev c) {lba : Nat} (hlba : lba < maxBlocks) : validLba dev lba :=
  validLba_of_total h.total hlba

theorem Held.block (h : Held dev c) (he : JournalEmpty dev) {lba : Nat} (hlba : ¬InJournal lba) :
    dev.blocks lba = c lba := h.settled.home he lba hlba

theorem Held.readBlock (h : Held dev c) (he : JournalEmpty dev) {lba : Nat} (hlba : ¬InJournal lba)
    (hlt : lba < maxBlocks) : readBlock lba dev = (.ok (c lba), dev) := by
  rw [readBlock_valid (h.valid hlt), h.block he hlba]

/-! ## Mount -/

/-- The outcome `r` of an operation that only fails when the device does. -/
def OkOrIo {α : Type} (r : Except M16Err α) (dev : Blockdev) : Prop :=
  (∃ a, r = .ok a) ∨ (r = .error .io ∧ 0 ≤ dev.failAfter)

theorem journalRecover_spec (h : Held dev c) : Held (journalRecover dev).2 c ∧
    OkOrIo (journalRecover dev).1 dev ∧
    ((journalRecover dev).1 = .ok () → JournalEmpty (journalRecover dev).2) := by
  obtain ⟨hs, htotal, hr, he, hok⟩ := recover_settled h.settled
  refine ⟨⟨hs, htotal.trans h.total, h.image⟩, ?_, he⟩
  rcases hr with hr | hr
  · exact Or.inl ⟨(), hr⟩
  · refine Or.inr ⟨hr, not_lt.mp fun hneg => ?_⟩
    rw [hok (Or.inl hneg)] at hr
    cases hr

/-- A mount after a recovery that has succeeded, on a super block that is valid. -/
theorem mount_super {dev' : Blockdev} (hrun : journalRecover dev = (.ok (), dev'))
    (hzero : validLba dev' 0) (hsuper : SuperOk (dev'.blocks 0)) :
    mount dev = (.ok (dev'.blocks 0), dev') := by
  obtain ⟨hmagic, hversion, hsize, hdata, hroot⟩ := hsuper
  have hfields : ¬(sMagic (dev'.blocks 0) ≠ fsMagic ∨ sVersion (dev'.blocks 0) ≠ version ∨
      sBlockSize (dev'.blocks 0) ≠ blockSize) := by
    rw [hmagic, hversion, hsize]
    omega
  have hplaces : ¬(sDataStartLba (dev'.blocks 0) ≠ dataStartLba ∨
      sRootDirLba (dev'.blocks 0) ≠ rootDirLba) := by
    rw [hdata, hroot]
    omega
  unfold mount
  rw [Prog.bind_ok hrun, Prog.bind_ok (readBlock_valid hzero),
    Prog.bind_ok (Prog.failIf_neg hfields _ _), Prog.bind_ok (Prog.failIf_neg hplaces _ _),
    Prog.pure_apply]

/-- A mount after a recovery that has succeeded. -/
theorem mount_of_recover {dev' : Blockdev} (h : Held dev' c) (he : JournalEmpty dev')
    (hrun : journalRecover dev = (.ok (), dev')) : mount dev = (.ok (c 0), dev') := by
  have hzero : dev'.blocks 0 = c 0 := h.block he (by decide)
  rw [← hzero]
  refine mount_super hrun (h.valid (by decide)) ?_
  rw [hzero]
  exact h.image.super

/-- A mount with nothing to recover. -/
theorem mount_empty (h : Held dev c) (he : JournalEmpty dev) : mount dev = (.ok (c 0), dev) :=
  mount_of_recover h he (journalRecover_empty h.settled.valid he)

/-- `m16_mount` succeeds or is stopped by the device, as recovery is. -/
theorem mount_spec (h : Held dev c) : Held (mount dev).2 c ∧ OkOrIo (mount dev).1 dev ∧
    ((∃ sb, (mount dev).1 = .ok sb) → JournalEmpty (mount dev).2) := by
  obtain ⟨hheld, hr, he⟩ := journalRecover_spec h
  rcases hrun : journalRecover dev with ⟨r, dev'⟩
  rw [hrun] at hheld hr he
  rcases hr with ⟨u, rfl⟩ | ⟨rfl, hf⟩
  · rw [mount_of_recover hheld (he rfl) hrun]
    exact ⟨hheld, Or.inl ⟨c 0, rfl⟩, fun _ => he rfl⟩
  · have hmount : mount dev = (.error .io, dev') := by
      unfold mount
      rw [Prog.bind_error hrun]
    rw [hmount]
    refine ⟨hheld, Or.inr ⟨rfl, hf⟩, fun ⟨sb, hsb⟩ => ?_⟩
    cases hsb

/-! ## Reading the metadata -/

/-- The array with blocks `i` to `i + n` of the inode table filled in. -/
def withInodes (c : Nat → Bytes) (inodes : Bytes) (i n : Nat) : Bytes := fun k =>
  if i * blockSize ≤ k ∧ k < (i + n) * blockSize then c (inodeTableLba + k / blockSize) (k % blockSize)
  else inodes k

theorem withInodes_zero (c : Nat → Bytes) (inodes : Bytes) (i : Nat) :
    withInodes c inodes i 0 = inodes := by
  funext k
  unfold withInodes
  rw [if_neg (by rw [Nat.add_zero]; omega)]

theorem withInodes_succ (c : Nat → Bytes) (inodes : Bytes) (i n : Nat) :
    withInodes c (inodes.copy (i * blockSize) (c (inodeTableLba + i)) 0 blockSize) (i + 1) n =
      withInodes c inodes i (n + 1) := by
  funext k
  unfold withInodes
  have hrow : (i + (n + 1)) * blockSize = (i + 1 + n) * blockSize := by
    rw [show i + (n + 1) = i + 1 + n by omega]
  have hnext : (i + 1) * blockSize = i * blockSize + blockSize := Nat.succ_mul i blockSize
  have hle : (i + 1) * blockSize ≤ (i + 1 + n) * blockSize :=
    Nat.mul_le_mul_right blockSize (Nat.le_add_right _ n)
  by_cases hk : i * blockSize ≤ k ∧ k < (i + 1) * blockSize
  · -- byte `k` is in block `i`
    have hdiv : k / blockSize = i := Nat.div_eq_of_lt_le hk.1 hk.2
    have hmod : k % blockSize = k - i * blockSize := by
      rw [Nat.mod_eq_sub_mul_div, hdiv, Nat.mul_comm]
    rw [if_neg (by omega), if_pos (by omega), hdiv, hmod,
      Bytes.copy_apply_of_mem hk.1 (by omega), Nat.zero_add]
  · by_cases hin : (i + 1) * blockSize ≤ k ∧ k < (i + 1 + n) * blockSize
    · rw [if_pos hin, if_pos (by omega)]
    · rw [if_neg hin, if_neg (by omega), Bytes.copy, if_neg (by omega)]

/-- A device that has all the blocks of the inode table. -/
def HasInodes (dev : Blockdev) : Prop :=
  ∀ i, i < inodeTableBlocks → validLba dev (inodeTableLba + i)

theorem loadInodes_valid (hv : HasInodes dev) (inodes : Bytes) {i n : Nat}
    (hn : i + n ≤ inodeTableBlocks) :
    loadInodes inodes i n dev = (.ok (withInodes dev.blocks inodes i n), dev) := by
  induction n generalizing inodes i with
  | zero =>
      rw [loadInodes, Prog.pure_apply, withInodes_zero]
  | succ n ih =>
      rw [loadInodes, Prog.bind_ok (readBlock_valid (hv i (by omega))), ih _ (by omega),
        withInodes_succ]

theorem loadInodeTable_valid (hv : HasInodes dev) :
    loadInodeTable dev = (.ok (inodesOf dev.blocks), dev) := by
  have hall : withInodes dev.blocks Bytes.zero 0 inodeTableBlocks = inodesOf dev.blocks := by
    funext k
    unfold withInodes inodesOf Bytes.clip
    rw [Nat.zero_mul, Nat.zero_add]
    by_cases hk : k < inodeTableBlocks * blockSize
    · rw [if_pos ⟨Nat.zero_le k, hk⟩, if_pos hk]
    · rw [if_neg (fun h => hk h.2), if_neg hk]
      rfl
  unfold loadInodeTable
  rw [loadInodes_valid hv Bytes.zero (by decide), hall]

theorem Held.hasInodes (h : Held dev c) : HasInodes dev := fun i hi =>
  h.valid (lt_trans (Nat.add_lt_add_left hi inodeTableLba) (by decide))

theorem loadInodeTable_spec (h : Held dev c) (he : JournalEmpty dev) :
    loadInodeTable dev = (.ok (inodesOf c), dev) := by
  have hsame : inodesOf dev.blocks = inodesOf c := inodesOf_congr fun i _ =>
    h.block he (not_inJournal_of_ge (le_trans (by decide) (Nat.le_add_right inodeTableLba i)))
  rw [loadInodeTable_valid h.hasInodes, hsame]

theorem readMeta_valid (hv : ∀ lba, lba < dataStartLba → validLba dev lba) :
    readMeta dev = (.ok (metaOf dev.blocks), dev) := by
  have hinodes : HasInodes dev := fun i hi => hv _ (lt_trans (Nat.add_lt_add_left hi _) (by decide))
  unfold readMeta
  rw [Prog.bind_ok (readBlock_valid (hv inodeBitmapLba (by decide))),
    Prog.bind_ok (readBlock_valid (hv blockBitmapLba (by decide))),
    Prog.bind_ok (loadInodeTable_valid hinodes),
    Prog.bind_ok (readBlock_valid (hv rootDirLba (by decide))), Prog.pure_apply]
  rfl

theorem readMeta_spec (h : Held dev c) (he : JournalEmpty dev) :
    readMeta dev = (.ok (metaOf c), dev) := by
  rw [readMeta_valid fun lba hlba => h.valid (lt_trans hlba (by decide)),
    metaOf_congr (h.settled.home he)]

/-! ## Reading a file -/

/-- What reading a name gives. -/
def readSpec (files : Files) (key : List UInt8) (outCap : Nat) : Except M16Err (List UInt8) :=
  match files key with
  | none => .error .noent
  | some data => if outCap < data.length then .error .inval else .ok data

/-- `m16_read_file` from the inode on. -/
def readInode (inodes : Bytes) (outCap ino : Nat) : M16 (List UInt8) := do
  Prog.failIf (maxInodes ≤ ino ∨ iUsed inodes ino = 0 ∨ iKind inodes ino ≠ 1) .corrupt
  let totalBlocks ← Prog.asks Blockdev.totalBlocks
  Prog.failIf (outCap < iSize inodes ino ∨ totalBlocks ≤ iDirect0 inodes ino) .inval
  let blk ← readBlock (iDirect0 inodes ino)
  Prog.failIf (blockSize < iSize inodes ino) .wild
  pure (blk.slice 0 (iSize inodes ino))

/-- `m16_read_file` from the mount on. -/
def readMounted (name : Bytes) (outCap : Nat) : M16 (List UInt8) := do
  let inodes ← loadInodeTable
  let dir ← readBlock rootDirLba
  let slot ← Prog.ofOption (findDirent dir name) .noent
  readInode inodes outCap (dIno dir slot)

theorem readFile_eq (name : Bytes) (outCap : Nat) :
    readFile name outCap = mount >>= fun _ => readMounted name outCap := rfl

/-- The inode of a sound entry passes the checks, and its block exists. -/
theorem readInode_spec (h : Held dev c) (he : JournalEmpty dev) {slot : Nat}
    (hok : EntryOk (metaOf c) slot) (outCap : Nat) :
    readInode (metaOf c).inodes outCap (dIno (metaOf c).dir slot) dev =
      (if outCap < (slotData (metaOf c) c slot).length then .error .inval
        else .ok (slotData (metaOf c) c slot), dev) := by
  have hino : ¬(maxInodes ≤ dIno (metaOf c).dir slot ∨
      iUsed (metaOf c).inodes (dIno (metaOf c).dir slot) = 0 ∨
      iKind (metaOf c).inodes (dIno (metaOf c).dir slot) ≠ 1) := by
    rintro (hlt | hused | hkind)
    · exact absurd hok.ino_lt (not_lt.mpr hlt)
    · exact hok.used hused
    · exact hkind hok.kind
  have hasks := asks_totalBlocks h.total
  have hblk := h.readBlock he (not_inJournal_of_ge (le_trans (by decide) hok.direct_ge)) hok.direct_lt
  have hinside : ¬blockSize < iSize (metaOf c).inodes (dIno (metaOf c).dir slot) :=
    not_lt.mpr hok.size_le
  have hlen : (slotData (metaOf c) c slot).length =
      iSize (metaOf c).inodes (dIno (metaOf c).dir slot) := by
    unfold slotData
    rw [Bytes.slice_length]
  unfold readInode
  rw [hlen, Prog.bind_ok (Prog.failIf_neg hino _ _), Prog.bind_ok hasks]
  by_cases hcap : outCap < iSize (metaOf c).inodes (dIno (metaOf c).dir slot)
  · rw [Prog.bind_error (Prog.failIf_pos (Or.inl hcap) _ _), if_pos hcap]
  · have hfits : ¬(outCap < iSize (metaOf c).inodes (dIno (metaOf c).dir slot) ∨
        maxBlocks ≤ iDirect0 (metaOf c).inodes (dIno (metaOf c).dir slot)) := by
      rintro (hc | hd)
      · exact hcap hc
      · exact absurd hok.direct_lt (not_lt.mpr hd)
    rw [Prog.bind_ok (Prog.failIf_neg hfits _ _), Prog.bind_ok hblk,
      Prog.bind_ok (Prog.failIf_neg hinside _ _), Prog.pure_apply, if_neg hcap]
    rfl

theorem readMounted_spec (h : Held dev c) (he : JournalEmpty dev) (name : Bytes) (outCap : Nat) :
    readMounted name outCap dev = (readSpec (filesOf c) (nameKey name) outCap, dev) := by
  have hroot : readBlock rootDirLba dev = (.ok (metaOf c).dir, dev) :=
    h.readBlock he (by decide) (by decide)
  unfold readMounted readSpec filesOf metaFiles
  rw [Prog.bind_ok (loadInodeTable_spec h he), Prog.bind_ok hroot, findDirent_eq]
  rcases hs : slotOf (metaOf c) (nameKey name) with _ | slot
  · rw [Prog.bind_error (Prog.ofOption_none _ _)]
    rfl
  · obtain ⟨hslot, hu, -⟩ := slotOf_some hs
    have hok := h.image.inv.entries slot hslot hu
    rw [Prog.bind_ok (Prog.ofOption_some _ _ _)]
    exact readInode_spec h he hok outCap

theorem readFile_spec (h : Held dev c) (name : Bytes) (outCap : Nat) :
    (readFile name outCap dev).2 = (mount dev).2 ∧
      ((∃ sb, (mount dev).1 = .ok sb) →
        (readFile name outCap dev).1 = readSpec (filesOf c) (nameKey name) outCap) ∧
      ((mount dev).1 = .error .io → (readFile name outCap dev).1 = .error .io) := by
  obtain ⟨hheld, hr, he⟩ := mount_spec h
  rcases hrun : mount dev with ⟨r, dev'⟩
  rw [hrun] at hheld hr he
  rw [readFile_eq]
  rcases hr with ⟨sb, rfl⟩ | ⟨rfl, -⟩
  · rw [Prog.bind_ok hrun, readMounted_spec hheld (he ⟨sb, rfl⟩)]
    refine ⟨rfl, fun _ => rfl, fun hio => by cases hio⟩
  · rw [Prog.bind_error hrun]
    exact ⟨rfl, fun ⟨sb, hsb⟩ => (by cases hsb), fun _ => rfl⟩

/-! ## Fsck -/

theorem EntryOk.not_bad {m : Meta} {i : Nat} (h : EntryOk m i) : ¬badEntry m maxBlocks i := by
  unfold badEntry
  rintro (hc | hc | hc | hc | hc | hc | hc | hc)
  · exact absurd h.ino_lt (not_lt.mpr hc)
  · rw [h.bit] at hc
    cases hc
  · exact h.used hc
  · exact hc h.kind
  · exact absurd h.size_le (not_le.mpr hc)
  · exact absurd h.direct_ge (not_le.mpr hc)
  · exact absurd h.direct_lt (not_lt.mpr hc)
  · rw [h.block_bit] at hc
    cases hc

theorem entryOk_iff {m : Meta} {i : Nat} : EntryOk m i ↔ ¬badEntry m maxBlocks i := by
  refine ⟨EntryOk.not_bad, fun h => ?_⟩
  unfold badEntry at h
  simp only [not_or, not_le, not_lt, not_not, Bool.not_eq_false] at h
  obtain ⟨h1, h2, h3, h4, h5, h6, h7, h8⟩ := h
  exact ⟨h1, h2, h3, h4, h5, h6, h7, h8⟩

/-- The loop over the blocks of the file system. -/
theorem system_none_iff {bb : Bytes} :
    ¬(Loop.findFrom (fun b => !Bitmap.test bb b) 0 dataStartLba).isSome = true ↔
      ∀ b, b < dataStartLba → Bitmap.test bb b = true := by
  rw [Option.not_isSome_iff_eq_none, Loop.findFrom_none_iff]
  constructor
  · intro h b hb
    exact Bool.not_eq_eq_eq_not.mp (h b (Nat.zero_le b) (by omega))
  · intro h b _ hb
    rw [h b (by omega)]
    rfl

/-- The loop over the entries of the directory. -/
theorem entries_none_iff {m : Meta} :
    ¬(Loop.findFrom (fun i => decide (dUsed m.dir i ≠ 0) && decide (badEntry m maxBlocks i)) 0
      dirCount).isSome = true ↔ ∀ i, i < dirCount → dUsed m.dir i ≠ 0 → EntryOk m i := by
  rw [Option.not_isSome_iff_eq_none, Loop.findFrom_none_iff]
  constructor
  · intro h i hi hused
    have hi' := h i (Nat.zero_le i) (by omega)
    rw [decide_eq_true hused, Bool.true_and, decide_eq_false_iff_not] at hi'
    exact entryOk_iff.mpr hi'
  · intro h i _ hi
    rw [Bool.and_eq_false_iff, decide_eq_false_iff_not, decide_eq_false_iff_not]
    by_cases hused : dUsed m.dir i = 0
    · exact Or.inl (not_not.mpr hused)
    · exact Or.inr (entryOk_iff.mp (h i (by omega) hused))

/-- Fsck finds nothing wrong, if the device lets it look. -/
theorem fsck_spec (h : Held dev c) : (fsck dev).2 = (mount dev).2 ∧
    ((∃ sb, (mount dev).1 = .ok sb) → (fsck dev).1 = .ok ()) ∧
    ((mount dev).1 = .error .io → (fsck dev).1 = .error .io) := by
  obtain ⟨hheld, hr, he⟩ := mount_spec h
  rcases hrun : mount dev with ⟨r, dev'⟩
  rw [hrun] at hheld hr he
  rcases hr with ⟨sb, rfl⟩ | ⟨rfl, -⟩
  · have hinv := h.image.inv
    have hroot : ¬(Bitmap.test (metaOf c).ib 0 = false ∨ iUsed (metaOf c).inodes 0 ≠ 1 ∨
        iKind (metaOf c).inodes 0 ≠ 2 ∨ iDirect0 (metaOf c).inodes 0 ≠ rootDirLba) := by
      rw [hinv.root_bit, hinv.root_used, hinv.root_kind, hinv.root_direct]
      decide
    have hasks := asks_totalBlocks hheld.total
    have hfsck : fsck dev = (.ok (), dev') := by
      unfold fsck
      rw [Prog.bind_ok hrun, Prog.bind_ok (readMeta_spec hheld (he ⟨sb, rfl⟩)),
        Prog.bind_ok (Prog.failIf_neg hroot _ _),
        Prog.bind_ok (Prog.failIf_neg (system_none_iff.mpr hinv.system) _ _), Prog.bind_ok hasks,
        Prog.failIf_neg (entries_none_iff.mpr hinv.entries)]
    rw [hfsck]
    exact ⟨rfl, fun _ => rfl, fun hio => by cases hio⟩
  · have hfsck : fsck dev = (.error .io, dev') := by
      unfold fsck
      rw [Prog.bind_error hrun]
    rw [hfsck]
    exact ⟨rfl, fun ⟨sb, hsb⟩ => (by cases hsb), fun _ => rfl⟩

end Held

end Mcsos.Mcsfs1j
