import Mcsos.Mcsfs1j.FsRuns
import Mcsos.Mcsfs1j.JournalReplay

set_option autoImplicit false

/-! # Devices of any size

A device of fewer than 128 blocks can be formatted once it has the 25 of the file system, but the
allocator looks for a free block among 128 on every device. Runs of writes are followed here on a
device of any size: it stays mountable as long as every block that is taken exists, and a write that
takes one behind the end leaves a committed journal that no mount accepts.
-/

namespace Mcsos.Mcsfs1j

open WriteLog

/-- A formatted device with nothing in its journal. -/
structure Formatted (dev : Blockdev) : Prop where
  low : dataStartLba ≤ dev.totalBlocks
  empty : JournalEmpty dev
  super : SuperOk (dev.blocks 0)

section Formatted

variable {dev : Blockdev}

theorem Formatted.valid (hd : Formatted dev) {lba : Nat} (hlba : lba < dataStartLba) :
    validLba dev lba :=
  ⟨lt_of_lt_of_le hlba hd.low, lt_trans hlba (by decide)⟩

theorem Formatted.mount (hd : Formatted dev) : mount dev = (.ok (dev.blocks 0), dev) :=
  mount_super (journalRecover_empty (hd.valid (by decide)) hd.empty) (hd.valid (by decide)) hd.super

/-- A write whose arguments are good. -/
theorem Formatted.writeFile_eq (hd : Formatted dev) {name : Bytes} (data : Bytes) {size : Nat}
    (hpos : 0 < (nameKey name).length) (hlt : (nameKey name).length < maxName)
    (hsize : size ≤ blockSize) : writeFile name data size dev = writeNew (dev.blocks 0)
      (metaOf dev.blocks) name data size (nameKey name).length false dev := by
  have hlen : ¬(strlenBounded name maxName = 0 ∨ maxName ≤ strlenBounded name maxName) := by
    rw [strlenBounded_eq]
    omega
  exact writeFileEx_eq data hlen (not_lt.mpr hsize) hd.mount
    (readMeta_valid fun lba hlba => hd.valid hlba) false

/-- A write is refused and changes nothing, or finds what it needs. -/
theorem Formatted.writeFile_cases (hd : Formatted dev) (name data : Bytes) (size : Nat) :
    (∃ e, writeFile name data size dev = (.error e, dev)) ∨
      ∃ ino dataBlock slot, FreeFor (metaOf dev.blocks) name ino dataBlock slot size := by
  -- the two checks of `m16_write_file_ex` that come before the mount
  by_cases hlen : strlenBounded name maxName = 0 ∨ maxName ≤ strlenBounded name maxName
  · refine Or.inl ⟨.toolong, ?_⟩
    unfold writeFile writeFileEx
    rw [Prog.bind_error (Prog.failIf_pos hlen _ _)]
  · by_cases hsize : blockSize < size
    · refine Or.inl ⟨.inval, ?_⟩
      unfold writeFile writeFileEx
      rw [Prog.bind_ok (Prog.failIf_neg hlen _ _), Prog.bind_error (Prog.failIf_pos hsize _ _)]
    · rw [strlenBounded_eq] at hlen
      have hpos : 0 < (nameKey name).length := by omega
      rw [hd.writeFile_eq data hpos (by omega) (not_lt.mp hsize)]
      exact writeNew_cases (metaOf dev.blocks) data hpos (by omega) (not_lt.mp hsize) _ false dev

end Formatted

/-- A device has been formatted, whatever its size. -/
theorem formatted_of_format {dev dev0 : Blockdev} (hok : format dev = (.ok (), dev0)) :
    Formatted dev0 := by
  obtain ⟨hlow, htotal, hblocks, hempty⟩ := format_written hok
  refine ⟨hlow.trans_eq htotal.symm, hempty, ?_⟩
  rw [hblocks]
  exact (formatImage_inv _).1.super

/-! ## A commit on a formatted device -/

/-- A transaction that goes to blocks behind the journal. -/
structure HomeTx (tx : Tx) : Prop where
  count : tx.count ≤ journalMaxRecords
  targets : ∀ w ∈ homeWrites tx 0 tx.count, inodeBitmapLba ≤ w.1

theorem homeTx_meta {tx : Tx} {m : Meta} (hcount : tx.count = 6)
    (hhome : homeWrites tx 0 tx.count = metaWrites m) : HomeTx tx := by
  refine ⟨by rw [hcount]; decide, fun w hw => ?_⟩
  rw [hhome] at hw
  exact (metaWrites_between m w hw).1

theorem homeTx_file {tx : Tx} {dataBlock : Nat} {dir blk : Bytes} (hge : dataStartLba ≤ dataBlock)
    (hcount : tx.count = 2)
    (hhome : homeWrites tx 0 tx.count = [(rootDirLba, dir), (dataBlock, blk)]) : HomeTx tx := by
  refine ⟨by rw [hcount]; decide, ?_⟩
  rw [hhome]
  simp only [List.forall_mem_cons]
  exact ⟨by decide, le_trans (by decide) hge, fun w hw => absurd hw List.not_mem_nil⟩

section HomeTx

variable {tx : Tx}

/-- The last write of a commit clears the journal. -/
theorem commitWrites_clear (tx : Tx) (seq : Nat) : commitWrites tx seq false =
    (logWrites tx ++ (journalStart, mkHeader seq tx.count) :: homeWrites tx 0 tx.count) ++
      [(journalStart, Bytes.zero)] := by
  rw [List.append_assoc]
  rfl

/-- None of its writes is to the super block. -/
theorem HomeTx.not_super (h : HomeTx tx) {seq : Nat} {w : Nat × Bytes}
    (hw : w ∈ commitWrites tx seq false) : w.1 ≠ 0 := by
  have hjournal : ∀ lba, InJournal lba → lba ≠ 0 := fun lba hlba h0 =>
    absurd (h0 ▸ hlba) (by decide)
  rw [commitWrites_clear] at hw
  rcases List.mem_append.mp hw with hw | hw
  · rcases List.mem_append.mp hw with hw | hw
    · exact hjournal _ (logWrites_inJournal h.count hw)
    · rcases List.mem_cons.mp hw with rfl | hw
      · exact hjournal _ inJournal_start
      · exact Nat.ne_of_gt (lt_of_lt_of_le (by decide) (h.targets w hw))
  · rw [List.mem_singleton.mp hw]
    exact hjournal _ inJournal_start

/-- A commit that succeeds empties the journal, and leaves the super block alone. -/
theorem HomeTx.commit {dev dev' : Blockdev} (h : HomeTx tx) (hd : Formatted dev) {seq : Nat}
    (hok : journalCommit tx seq false dev = (.ok (), dev')) :
    Formatted dev' ∧ dev'.totalBlocks = dev.totalBlocks ∧ dev'.blocks 0 = dev.blocks 0 := by
  rw [journalCommit_eq h.count] at hok
  obtain ⟨j, hj⟩ := writeAll_outcome (commitWrites tx seq false) dev
  rw [hok] at hj
  have hblocks := hj.blocks
  rw [hj.ok_iff.mp rfl, List.take_length] at hblocks
  have hlast : IsLast (stored (commitWrites tx seq false))
      (journalStart, Bytes.clip blockSize Bytes.zero) := by
    rw [commitWrites_clear, stored_append]
    exact ⟨_, [], rfl, fun w hw => absurd hw List.not_mem_nil⟩
  have hstart : dev'.blocks journalStart = Bytes.zero := by
    rw [hblocks, applyWrites_isLast hlast, Bytes.clip_zero]
  have hzero : dev'.blocks 0 = dev.blocks 0 := by
    rw [hblocks]
    refine applyWrites_of_not_written (fun w hw => ?_) dev.blocks
    obtain ⟨v, hv, hvw⟩ := mem_stored hw
    rw [← hvw]
    exact h.not_super hv
  refine ⟨⟨hd.low.trans_eq hj.total.symm, journalEmpty_of_zero hstart, ?_⟩, hj.total, hzero⟩
  rw [hzero]
  exact hd.super

end HomeTx

/-! ## Devices that take every write -/

/-- A formatted device with nothing in its journal, which takes every write. -/
structure Usable (dev : Blockdev) : Prop where
  low : dataStartLba ≤ dev.totalBlocks
  reliable : dev.failAfter < 0
  empty : JournalEmpty dev
  super : SuperOk (dev.blocks 0)

section Usable

variable {dev : Blockdev}

theorem Usable.formatted (hu : Usable dev) : Formatted dev := ⟨hu.low, hu.empty, hu.super⟩

theorem Usable.valid (hu : Usable dev) {lba : Nat} (hlba : lba < dataStartLba) : validLba dev lba :=
  hu.formatted.valid hlba

theorem Usable.mount (hu : Usable dev) : mount dev = (.ok (dev.blocks 0), dev) := hu.formatted.mount

/-- The journal lies before the data. -/
theorem Usable.dataLba_valid (hu : Usable dev) {tx : Tx} (hcount : tx.count ≤ journalMaxRecords) :
    ∀ i, i < tx.count → validLba dev (dataLba i) := by
  intro i hi
  refine hu.valid ?_
  exact lt_trans (inJournal_data (lt_of_lt_of_le hi hcount)).2 (by decide)

/-- A transaction whose targets exist is carried out. -/
theorem Usable.commit (hu : Usable dev) {tx : Tx} (h : HomeTx tx)
    (htargets : ∀ w ∈ homeWrites tx 0 tx.count, validLba dev w.1) (seq : Nat) :
    ∃ dev', journalCommit tx seq false dev = (.ok (), dev') ∧ Usable dev' ∧
      dev'.totalBlocks = dev.totalBlocks := by
  have htx : TargetsOk dev tx := targetsOk_of_homeWrites fun w hw =>
    ⟨htargets w hw, not_inJournal_of_ge (h.targets w hw)⟩
  have hvalid := commitWrites_valid (hu.valid (by decide)) (hu.dataLba_valid h.count) htx seq false
  obtain ⟨j, hj⟩ := writeAll_outcome (commitWrites tx seq false) dev
  have hok : (journalCommit tx seq false dev).1 = .ok () := by
    rw [journalCommit_eq h.count]
    exact hj.ok hvalid (Or.inl hu.reliable)
  obtain ⟨⟨hlow, hempty, hsuper⟩, htotal, -⟩ := h.commit hu.formatted (Prog.eq_of_ok hok)
  refine ⟨_, Prog.eq_of_ok hok, ⟨hlow, ?_, hempty, hsuper⟩, htotal⟩
  rw [journalCommit_eq h.count, writeAll_reliable hu.reliable]
  exact hu.reliable

/-! ## One write -/

section FreeFor

variable {name data : Bytes} {ino dataBlock slot size : Nat}

/-- The first transaction is carried out, and the second one is left. -/
theorem Usable.writeNew_second (hu : Usable dev)
    (f : FreeFor (metaOf dev.blocks) name ino dataBlock slot size) :
    ∃ dev1 tx dir blk, Usable dev1 ∧ dev1.totalBlocks = dev.totalBlocks ∧ tx.count = 2 ∧
      homeWrites tx 0 tx.count = [(rootDirLba, dir), (dataBlock, blk)] ∧
      writeNew (dev.blocks 0) (metaOf dev.blocks) name data size (nameKey name).length false dev =
        journalCommit tx (sCleanGeneration (dev.blocks 0) + 2) false dev1 := by
  obtain ⟨tx1, htx1, hcount1, hhome1⟩ := metaTx_ok (newMeta dev.blocks name ino dataBlock slot size)
  obtain ⟨tx2, htx2, hcount2, hhome2⟩ := fileTx_ok (newMeta dev.blocks name ino dataBlock slot size)
    dataBlock (Bytes.zero.copy 0 data 0 size)
  have htargets : ∀ w ∈ homeWrites tx1 0 tx1.count, validLba dev w.1 := fun w hw => by
    rw [hhome1] at hw
    exact hu.valid (metaWrites_between _ w hw).2
  obtain ⟨dev1, hrun1, hu1, htotal1⟩ := hu.commit (homeTx_meta hcount1 hhome1) htargets
    (sCleanGeneration (dev.blocks 0) + 1)
  refine ⟨dev1, tx2, _, _, hu1, htotal1, hcount2, hhome2, ?_⟩
  rw [writeNew_eq f htx1 htx2, Prog.bind_ok hrun1]

/-- A write whose block exists is carried out. -/
theorem Usable.writeNew_fits (hu : Usable dev)
    (f : FreeFor (metaOf dev.blocks) name ino dataBlock slot size)
    (hb : dataBlock < dev.totalBlocks) : ∃ dev', writeNew (dev.blocks 0) (metaOf dev.blocks) name
      data size (nameKey name).length false dev = (.ok (), dev') ∧ Usable dev' := by
  obtain ⟨hge, hlt, -⟩ := findFreeBlock_some f.dataBlock
  obtain ⟨dev1, tx, dir, blk, hu1, htotal1, hcount, hhome, hrun⟩ := hu.writeNew_second f
  have htargets : ∀ w ∈ homeWrites tx 0 tx.count, validLba dev1 w.1 := by
    rw [hhome]
    simp only [List.forall_mem_cons]
    refine ⟨hu1.valid (by decide), ⟨lt_of_lt_of_eq hb htotal1.symm, hlt⟩, fun w hw => ?_⟩
    cases hw
  obtain ⟨dev2, hrun2, hu2, -⟩ := hu1.commit (homeTx_file hge hcount hhome) htargets
    (sCleanGeneration (dev.blocks 0) + 2)
  exact ⟨dev2, hrun.trans hrun2, hu2⟩

/-! ## A block behind the end -/

/-- The second of two records is bad. -/
theorem goodRecords_two {total : Nat} {blocks : Nat → Bytes}
    (h : ¬GoodRecord total (applyWrites (stored [recordAt blocks 0]) blocks) 1) :
    (goodRecords total blocks 0 2).length < 2 := by
  rw [goodRecords]
  split
  · rw [goodRecords, if_neg h]
    exact Nat.lt_succ_self 1
  · exact Nat.zero_lt_two

/-- A journal of two records with a bad one is accepted by no mount. -/
theorem not_mount_of_bad {dev : Blockdev} (hv : ∀ lba, lba < dataStartLba → validLba dev lba)
    (hh : GoodHeader (dev.blocks journalStart) 2)
    (hbad : ¬GoodRecord dev.totalBlocks (applyWrites (stored [recordAt dev.blocks 0]) dev.blocks) 1) :
    ¬∃ sb, (mount dev).1 = .ok sb := by
  have hok : HeaderOk (dev.blocks journalStart) := by
    refine ⟨?_, ?_⟩
    · rw [hh.count]
      exact hh
    · rw [hh.count]
      decide
  have hdata : ∀ k, k < hCount (dev.blocks journalStart) → validLba dev (dataLba k) := by
    intro k hk
    refine hv _ ?_
    exact lt_trans (inJournal_data (lt_of_lt_of_le hk hok.2)).2 (by decide)
  have hlt : (journalRecords dev).length < hCount (dev.blocks journalStart) := by
    unfold journalRecords
    rw [hh.count]
    exact goodRecords_two hbad
  rintro ⟨sb, hsb⟩
  unfold mount at hsb
  obtain ⟨r, dev', j, -, ⟨e, -, hrun⟩ | ⟨-, -, hrun⟩ | ⟨-, hall, -⟩⟩ :=
    journalRecover_cases (hv journalStart (by decide)) hok hdata
  · rw [Prog.bind_error hrun] at hsb
    cases hsb
  · rw [Prog.bind_error hrun] at hsb
    cases hsb
  · exact hall hlt

/-- The targets of a transaction of two records. -/
theorem targets_of_two {tx : Tx} {a b : Nat} {x y : Bytes} (hcount : tx.count = 2)
    (hhome : homeWrites tx 0 tx.count = [(a, x), (b, y)]) :
    (tx.recs 0).targetLba = a ∧ (tx.recs 1).targetLba = b := by
  rw [hcount] at hhome
  obtain ⟨h0, htail⟩ := List.cons.inj hhome
  obtain ⟨h1, -⟩ := List.cons.inj htail
  exact ⟨congrArg Prod.fst h0, congrArg Prod.fst h1⟩

/-- A commit whose second target does not exist stops right before it, behind its header. -/
theorem Usable.commit_stops (hu : Usable dev) {tx : Tx} {b : Nat} {dir blk : Bytes}
    (hcount : tx.count = 2)
    (hhome : homeWrites tx 0 tx.count = [(rootDirLba, dir), (b, blk)])
    (hb : dev.totalBlocks ≤ b) (seq : Nat) :
    (journalCommit tx seq false dev).2.totalBlocks = dev.totalBlocks ∧
      (journalCommit tx seq false dev).2.blocks = Function.update
        (applyWrites (stored (logWrites tx ++ [(journalStart, mkHeader seq tx.count)])) dev.blocks)
        rootDirLba (Bytes.clip blockSize dir) := by
  have hmax : tx.count ≤ journalMaxRecords := by
    rw [hcount]
    decide
  have hv : validLba dev journalStart := hu.valid (by decide)
  have hlog := (valid_logWrites_iff hv).mpr (hu.dataLba_valid hmax)
  have hpart : applyPart tx false = [(rootDirLba, dir), (b, blk), (journalStart, Bytes.zero)] := by
    unfold applyPart
    rw [hhome]
    rfl
  have hlen : (commitWrites tx seq false).length = 9 := by
    rw [commitWrites_length, hpart, hcount]
    rfl
  have htake1 := commitWrites_take tx seq false 1
  have htake2 := commitWrites_take tx seq false 2
  rw [hpart, hcount] at htake1 htake2
  rw [journalCommit_eq hmax]
  obtain ⟨j, hj⟩ := writeAll_outcome (commitWrites tx seq false) dev
  -- the log takes five writes; the header and the directory are numbers six and seven
  have hge : 7 ≤ j := by
    refine (hj.reach 7 (by omega)).mpr ⟨?_, Or.inl hu.reliable⟩
    rw [htake1, List.forall_mem_append, List.forall_mem_cons, List.take_succ_cons,
      List.forall_mem_cons]
    have hroot : validLba dev rootDirLba := hu.valid (by decide)
    exact ⟨hlog, hv, hroot, fun w hw => by cases hw⟩
  -- the eighth write goes to the block that does not exist
  have hlt : ¬8 ≤ j := fun h8 => by
    have hall := ((hj.reach 8 (by omega)).mp h8).1
    rw [htake2] at hall
    have hvalid := hall (b, blk) (by simp)
    exact absurd hvalid.1 (not_lt.mpr hb)
  obtain rfl : j = 7 := by omega
  refine ⟨hj.total, ?_⟩
  have hblocks := hj.blocks
  rw [htake1, ← List.singleton_append, ← List.append_assoc, stored_append,
    applyWrites_append] at hblocks
  rw [hblocks, hcount]
  rfl

/-- The journal that such a commit leaves is accepted by no mount. -/
theorem Usable.commit_past (hu : Usable dev) {tx : Tx} {b : Nat} {dir blk : Bytes}
    (hcount : tx.count = 2)
    (hhome : homeWrites tx 0 tx.count = [(rootDirLba, dir), (b, blk)])
    (hb : dev.totalBlocks ≤ b) (hlt : b < maxBlocks) (seq : Nat) :
    ¬∃ sb, (Mcsfs1j.mount (journalCommit tx seq false dev).2).1 = .ok sb := by
  obtain ⟨htotal, hblocks⟩ := hu.commit_stops hcount hhome hb seq
  obtain ⟨ht0, ht1⟩ := targets_of_two hcount hhome
  have hmax : tx.count ≤ journalMaxRecords := by
    rw [hcount]
    decide
  generalize hmid : applyWrites (stored (logWrites tx ++
    [(journalStart, mkHeader seq tx.count)])) dev.blocks = mid at hblocks
  obtain ⟨hheader, hdesc, -⟩ := logged_after_header hmax hmid.symm
  generalize (journalCommit tx seq false dev).2 = dev' at htotal hblocks
  have hne0 : descLba 0 ≠ rootDirLba := by decide
  have hne1 : descLba 1 ≠ rootDirLba := by decide
  have hdesc0 : dev'.blocks (descLba 0) = Bytes.clip blockSize (mkDesc (tx.recs 0)) := by
    rw [hblocks, Function.update_of_ne hne0, hdesc 0 (by omega)]
  have hdesc1 : dev'.blocks (descLba 1) = Bytes.clip blockSize (mkDesc (tx.recs 1)) := by
    rw [hblocks, Function.update_of_ne hne1, hdesc 1 (by omega)]
  -- the directory is outside the journal, so the header and the descriptors are still there
  refine not_mount_of_bad (fun lba hlba => ?_) ?_ fun hgood => ?_
  · exact (validLba_congr htotal lba).mpr (hu.valid hlba)
  · rw [hblocks, Function.update_of_ne (by decide), ← hcount]
    exact hheader
  · -- the first record goes to the directory, so the second one is as it was
    have htarget0 : (recordAt dev'.blocks 0).1 = rootDirLba := by
      show dTargetLba (dev'.blocks (descLba 0)) = _
      rw [hdesc0, dTargetLba_mkDesc (by rw [ht0]; decide), ht0]
    have hsame : applyWrites (stored [recordAt dev'.blocks 0]) dev'.blocks (descLba 1) =
        dev'.blocks (descLba 1) := by
      show Function.update dev'.blocks (recordAt dev'.blocks 0).1 _ (descLba 1) = _
      rw [htarget0, Function.update_of_ne hne1]
    have hin := hgood.2.1.1
    rw [hsame, hdesc1, dTargetLba_mkDesc (by rw [ht1]; exact lt_trans hlt (by decide)), ht1,
      htotal] at hin
    exact absurd hin (not_lt.mpr hb)

/-- A write whose block does not exist leaves a device that no mount accepts. -/
theorem Usable.writeNew_past (hu : Usable dev)
    (f : FreeFor (metaOf dev.blocks) name ino dataBlock slot size)
    (hb : dev.totalBlocks ≤ dataBlock) : ¬∃ sb, (Mcsfs1j.mount (writeNew (dev.blocks 0)
      (metaOf dev.blocks) name data size (nameKey name).length false dev).2).1 = .ok sb := by
  obtain ⟨hge, hlt, -⟩ := findFreeBlock_some f.dataBlock
  obtain ⟨dev1, tx, dir, blk, hu1, htotal1, hcount, hhome, hrun⟩ := hu.writeNew_second f
  rw [hrun]
  exact hu1.commit_past hcount hhome (htotal1.trans_le hb) hlt _

end FreeFor

end Usable

/-! ## Runs -/

/-- The arguments of a call of `m16_write_file`. -/
structure WriteCall where
  name : Bytes
  data : Bytes
  size : Nat

def WriteCall.exec (call : WriteCall) : M16 Unit := writeFile call.name call.data call.size

/-- The device after the first `i` calls. -/
def writesAt (calls : List WriteCall) (dev : Blockdev) (i : Nat) : Blockdev :=
  (calls.take i).foldl (fun d call => (call.exec d).2) dev

/-- The block that the call takes, if it gets as far, is one of the device. -/
def WriteCall.Fits (call : WriteCall) (dev : Blockdev) : Prop :=
  ∀ ino dataBlock slot, FreeFor (metaOf dev.blocks) call.name ino dataBlock slot call.size →
    dataBlock < dev.totalBlocks

theorem fits_of_free {call : WriteCall} {dev : Blockdev} {b : Nat}
    (h : findFreeBlock (metaOf dev.blocks).bb = some b) (hb : b < dev.totalBlocks) :
    call.Fits dev := by
  intro ino dataBlock slot f
  rwa [← Option.some.inj (h.symm.trans f.dataBlock)]

/-- What can be read is the same. -/
def SameFiles (dev dev' : Blockdev) : Prop :=
  ∀ name outCap, (readFile name outCap dev').1 = (readFile name outCap dev).1

/-- The device can be mounted after any number of the calls, and a call that fails leaves the files
as they were. -/
def StaysSound (calls : List WriteCall) (dev : Blockdev) : Prop :=
  (∀ i, i ≤ calls.length → ∃ sb, (mount (writesAt calls dev i)).1 = .ok sb) ∧
    ∀ i call e, calls[i]? = some call → (call.exec (writesAt calls dev i)).1 = .error e →
      SameFiles (writesAt calls dev i) (writesAt calls dev (i + 1))

theorem writesAt_zero (calls : List WriteCall) (dev : Blockdev) : writesAt calls dev 0 = dev := rfl

theorem writesAt_succ {calls : List WriteCall} {i : Nat} {call : WriteCall}
    (h : calls[i]? = some call) (dev : Blockdev) :
    writesAt calls dev (i + 1) = (call.exec (writesAt calls dev i)).2 := by
  unfold writesAt
  rw [List.take_add_one, h, List.foldl_append]
  rfl

/-- A call that fits keeps the device usable, and changes nothing if it fails. -/
theorem Usable.exec {dev : Blockdev} (hu : Usable dev) {call : WriteCall} (hfits : call.Fits dev) :
    Usable (call.exec dev).2 ∧ ∀ e, (call.exec dev).1 = .error e → (call.exec dev).2 = dev := by
  unfold WriteCall.exec
  rcases hu.formatted.writeFile_cases call.name call.data call.size with
    ⟨e, hrun⟩ | ⟨ino, dataBlock, slot, f⟩
  · rw [hrun]
    exact ⟨hu, fun _ _ => rfl⟩
  · obtain ⟨dev', hok, hu'⟩ := hu.writeNew_fits f (hfits ino dataBlock slot f)
    rw [hu.formatted.writeFile_eq call.data f.name_pos f.name_lt f.size_le, hok]
    exact ⟨hu', fun e he => by cases he⟩

/-- A call that leaves the device mountable has fitted. -/
theorem Usable.exec_fits {dev : Blockdev} (hu : Usable dev) {call : WriteCall}
    (hmount : ∃ sb, (Mcsfs1j.mount (call.exec dev).2).1 = .ok sb) : call.Fits dev := by
  intro ino dataBlock slot f
  by_contra hb
  rw [WriteCall.exec, hu.formatted.writeFile_eq call.data f.name_pos f.name_lt f.size_le] at hmount
  exact hu.writeNew_past f (not_lt.mp hb) hmount

/-- A formatted device is usable, whatever its size. -/
theorem usable_of_format {dev dev0 : Blockdev} (hreliable : dev.failAfter < 0)
    (hok : format dev = (.ok (), dev0)) : Usable dev0 := by
  obtain ⟨hlow, hempty, hsuper⟩ := formatted_of_format hok
  refine ⟨hlow, ?_, hempty, hsuper⟩
  have hclear : { dev with blocks := fun _ => Bytes.zero }.failAfter < 0 := hreliable
  have hleft := writeAll_reliable hclear (formatWrites dev.totalBlocks)
  rw [← format_eq, hok] at hleft
  exact hleft.trans_lt hreliable

section Run

variable {dev : Blockdev} {calls : List WriteCall}

/-- The run lemma: as long as all calls fit, the device stays usable. -/
theorem Usable.run (hu : Usable dev)
    (hfits : ∀ i call, calls[i]? = some call → WriteCall.Fits call (writesAt calls dev i)) {n : Nat}
    (hn : n ≤ calls.length) : Usable (writesAt calls dev n) := by
  induction n with
  | zero => exact hu
  | succ n ih =>
      have hcall := List.getElem?_eq_getElem (show n < calls.length from hn)
      rw [writesAt_succ hcall]
      exact ((ih (by omega)).exec (hfits n _ hcall)).1

/-- As long as the device can be mounted, all calls have fitted. -/
theorem Usable.run_fits (hu : Usable dev)
    (hmount : ∀ i, i ≤ calls.length → ∃ sb, (Mcsfs1j.mount (writesAt calls dev i)).1 = .ok sb)
    {n : Nat} (hn : n ≤ calls.length) : Usable (writesAt calls dev n) ∧
      ∀ call, calls[n]? = some call → WriteCall.Fits call (writesAt calls dev n) := by
  -- a call fits since the device can be mounted behind it
  have hfits : ∀ {i}, Usable (writesAt calls dev i) → ∀ call, calls[i]? = some call →
      WriteCall.Fits call (writesAt calls dev i) := fun {i} hi call hcall => by
    have hnext := hmount (i + 1) (List.getElem?_eq_some_iff.mp hcall).1
    rw [writesAt_succ hcall] at hnext
    exact hi.exec_fits hnext
  induction n with
  | zero => exact ⟨hu, hfits hu⟩
  | succ n ih =>
      obtain ⟨hun, hfit⟩ := ih (by omega)
      have hcall := List.getElem?_eq_getElem (show n < calls.length from hn)
      have hnext : Usable (writesAt calls dev (n + 1)) := by
        rw [writesAt_succ hcall]
        exact (hun.exec (hfit _ hcall)).1
      exact ⟨hnext, hfits hnext⟩

end Run

/-- After a format, a run of writes leaves the device mountable all the time, and its files alone
when it fails, exactly if no call takes a block behind the end of the device. -/
theorem writes_staysSound_iff {dev dev0 : Blockdev} (hreliable : dev.failAfter < 0)
    (hformat : format dev = (.ok (), dev0)) (calls : List WriteCall) :
    StaysSound calls dev0 ↔
      ∀ i call, calls[i]? = some call → WriteCall.Fits call (writesAt calls dev0 i) := by
  have hu := usable_of_format hreliable hformat
  constructor
  · rintro ⟨hmount, -⟩ i call hcall
    have hi : i < calls.length := (List.getElem?_eq_some_iff.mp hcall).1
    exact (hu.run_fits hmount hi.le).2 call hcall
  · intro hfits
    refine ⟨fun i hi => ⟨_, congrArg Prod.fst (hu.run hfits hi).mount⟩, fun i call e hcall he => ?_⟩
    have hi : i < calls.length := (List.getElem?_eq_some_iff.mp hcall).1
    rw [writesAt_succ hcall, ((hu.run hfits hi.le).exec (hfits i call hcall)).2 e he]
    exact fun _ _ => rfl

/-- A device of 26 blocks: one for data. -/
def oneBlock : Blockdev := { devInit with totalBlocks := 26 }

theorem oneBlock_format : format oneBlock = (.ok (), (format oneBlock).2) :=
  Prog.eq_of_ok (by decide +kernel)

/-- The name `b`. -/
def nameB : Bytes := Bytes.zero.store 0 1 98

/-- Two files, the second of which does not fit any more. -/
def twoCalls : List WriteCall := [⟨nameA, Bytes.zero, 0⟩, ⟨nameB, Bytes.zero, 0⟩]

/-- After the second file the device cannot be mounted. -/
theorem writes_unmountable : ¬∀ dev dev0 : Blockdev, dev.totalBlocks ≤ maxBlocks →
    dev.failAfter < 0 → format dev = (.ok (), dev0) → ∀ calls, StaysSound calls dev0 := by
  intro h
  obtain ⟨hmount, -⟩ := h oneBlock _ (by decide) (by decide) oneBlock_format twoCalls
  obtain ⟨sb, hsb⟩ := hmount 2 (le_refl 2)
  have hno : (mount (writesAt twoCalls (format oneBlock).2 2)).1.isOk = false := by decide +kernel
  rw [hsb] at hno
  cases hno

/-- The first file fits. -/
theorem writes_staysSound_first : StaysSound [⟨nameA, Bytes.zero, 0⟩] (format oneBlock).2 := by
  apply (writes_staysSound_iff (by decide) oneBlock_format _).mpr
  intro i call hcall
  have hi : i < 1 := (List.getElem?_eq_some_iff.mp hcall).1
  obtain rfl : i = 0 := by omega
  rw [writesAt_zero]
  have hfree : findFreeBlock (metaOf (format oneBlock).2.blocks).bb = some 25 := by decide +kernel
  have hlt : 25 < (format oneBlock).2.totalBlocks := by decide +kernel
  exact fits_of_free hfree hlt

end Mcsos.Mcsfs1j
