import Mcsos.Mcsfs1j.JournalCommit

set_option autoImplicit false

/-! # Replay of a committed transaction

Recovery reads back from the journal what commit has put there: under `Committed dev tx` it
does the writes `homeWrites tx` and clears the header. The home blocks that this leads to do
not change while it runs, wherever it is cut. They are the `c` of `Settled dev c`.
-/

namespace Mcsos.Mcsfs1j

open WriteLog

/-! ## Reading back headers and descriptors -/

/-- The checksum only depends on the bytes it covers. -/
theorem checksum_congr {a b : Bytes} {n : Nat} (h : Bytes.AgreeOn a b 0 n) :
    checksum a n = checksum b n := by
  unfold checksum
  apply List.foldl_ext _ _ _
  intro s i hi
  rw [h i (Nat.zero_le i) (List.mem_range.mp hi)]

theorem checksum_lt (b : Bytes) (n : Nat) : (checksum b n).toNat < 256 ^ 4 := (checksum b n).toNat_lt

theorem headerChecksum_lt (h : Bytes) : headerChecksum h < 256 ^ 4 := checksum_lt _ _

theorem headerChecksum_congr {a b : Bytes} (h : ∀ i, i < 24 ∨ 28 ≤ i → i < blockSize → a i = b i) :
    headerChecksum a = headerChecksum b := by
  unfold headerChecksum
  rw [checksum_congr (fun i _ hi => ?_)]
  unfold Bytes.store
  split
  · rfl
  · exact h i (by omega) hi

theorem dMagic_mkDesc (r : JRec) : dMagic (Bytes.clip blockSize (mkDesc r)) = jMagic := by
  unfold dMagic mkDesc
  rw [Bytes.load_clip (by decide), Bytes.load_store_ne (by omega), Bytes.load_store_ne (by omega),
    Bytes.load_store_same (by decide)]

theorem dTargetLba_mkDesc {r : JRec} (h : r.targetLba < 256 ^ 4) :
    dTargetLba (Bytes.clip blockSize (mkDesc r)) = r.targetLba := by
  unfold dTargetLba mkDesc
  rw [Bytes.load_clip (by decide), Bytes.load_store_ne (by omega), Bytes.load_store_same h]

theorem dPayloadChecksum_mkDesc (r : JRec) :
    dPayloadChecksum (Bytes.clip blockSize (mkDesc r)) = (checksum r.payload blockSize).toNat := by
  unfold dPayloadChecksum mkDesc
  rw [Bytes.load_clip (by decide), Bytes.load_store_same (checksum_lt _ _)]

/-- What recovery checks of a header, and the count it takes from it. -/
structure GoodHeader (h : Bytes) (count : Nat) : Prop where
  magic : hMagic h = jMagic
  version : hVersion h = version
  state : hState h = jCommitted
  count : hCount h = count
  checksum : headerChecksum h = hChecksum h

theorem goodHeader_mkHeader (seq : Nat) {count : Nat} (h : count ≤ journalMaxRecords) :
    GoodHeader (Bytes.clip blockSize (mkHeader seq count)) count where
  magic := by
    unfold hMagic mkHeader
    rw [Bytes.load_clip (by decide)]
    repeat rw [Bytes.load_store_ne (by omega)]
    rw [Bytes.load_store_same (by decide)]
  version := by
    unfold hVersion mkHeader
    rw [Bytes.load_clip (by decide)]
    repeat rw [Bytes.load_store_ne (by omega)]
    rw [Bytes.load_store_same (by decide)]
  state := by
    unfold hState mkHeader
    rw [Bytes.load_clip (by decide)]
    repeat rw [Bytes.load_store_ne (by omega)]
    rw [Bytes.load_store_same (by decide)]
  count := by
    have hlt : count < 256 ^ 4 := by
      unfold journalMaxRecords at h
      omega
    unfold hCount mkHeader
    rw [Bytes.load_clip (by decide), Bytes.load_store_ne (by omega), Bytes.load_store_same hlt]
  checksum := by
    unfold hChecksum
    rw [Bytes.load_clip (by decide)]
    unfold mkHeader
    dsimp only
    rw [Bytes.load_store_same (headerChecksum_lt _)]
    apply headerChecksum_congr
    intro i hi hlt
    rw [Bytes.clip, if_pos hlt, Bytes.store, if_neg (by omega)]

/-! ## A committed journal -/

/-- The header says that there is nothing to replay. -/
def JournalEmpty (dev : Blockdev) : Prop :=
  hMagic (dev.blocks journalStart) = 0 ∧ hState (dev.blocks journalStart) = jEmpty

instance (dev : Blockdev) : Decidable (JournalEmpty dev) := inferInstanceAs (Decidable (_ ∧ _))

/-- The target of every record is a block outside the journal. -/
def TargetsOk (dev : Blockdev) (tx : Tx) : Prop :=
  ∀ i, i < tx.count → validLba dev (tx.recs i).targetLba ∧ ¬InJournal (tx.recs i).targetLba

/-- The journal holds the whole of `tx` and its header says so. -/
structure Committed (dev : Blockdev) (tx : Tx) : Prop where
  count_le : tx.count ≤ journalMaxRecords
  targets : TargetsOk dev tx
  header : GoodHeader (dev.blocks journalStart) tx.count
  desc : ∀ i, i < tx.count → dev.blocks (descLba i) = Bytes.clip blockSize (mkDesc (tx.recs i))
  data : ∀ i, i < tx.count → dev.blocks (dataLba i) = Bytes.clip blockSize (tx.recs i).payload
  valid : ∀ i, i < tx.count → validLba dev (descLba i) ∧ validLba dev (dataLba i)

/-- Two stores have the same blocks outside the journal. -/
def HomeEq (a b : Nat → Bytes) : Prop := ∀ lba, ¬InJournal lba → a lba = b lba

theorem HomeEq.refl (a : Nat → Bytes) : HomeEq a a := fun _ _ => rfl

theorem HomeEq.symm {a b : Nat → Bytes} (h : HomeEq a b) : HomeEq b a :=
  fun lba hlba => (h lba hlba).symm

theorem HomeEq.trans {a b c : Nat → Bytes} (h : HomeEq a b) (h' : HomeEq b c) : HomeEq a c :=
  fun lba hlba => (h lba hlba).trans (h' lba hlba)

theorem HomeEq.applyWrites {a b : Nat → Bytes} (h : HomeEq a b) (ws : List (Nat × Bytes)) :
    HomeEq (applyWrites ws a) (applyWrites ws b) := fun lba hlba =>
  applyWrites_congr (fun _ => h lba hlba)

/-- Writes to the journal leave the home blocks alone. -/
theorem HomeEq.of_journal_writes {ws : List (Nat × Bytes)} (h : ∀ w ∈ ws, InJournal w.1)
    (a : Nat → Bytes) : HomeEq (WriteLog.applyWrites ws a) a := fun lba hlba =>
  applyWrites_of_not_written (fun w hw hwl => hlba (by rw [← hwl]; exact h w hw)) a

theorem inJournal_start : InJournal journalStart := by decide

theorem inJournal_desc {i : Nat} (h : i < journalMaxRecords) : InJournal (descLba i) := by
  unfold InJournal descLba journalStart journalBlocks journalMaxRecords at *
  omega

theorem inJournal_data {i : Nat} (h : i < journalMaxRecords) : InJournal (dataLba i) := by
  unfold InJournal dataLba descLba journalStart journalBlocks journalMaxRecords at *
  omega

theorem validLba_congr {dev dev' : Blockdev} (h : dev'.totalBlocks = dev.totalBlocks) (lba : Nat) :
    validLba dev' lba ↔ validLba dev lba := by
  unfold validLba
  rw [h]

theorem TargetsOk.congr {dev dev' : Blockdev} {tx : Tx} (h : TargetsOk dev tx)
    (ht : dev'.totalBlocks = dev.totalBlocks) : TargetsOk dev' tx := fun i hi =>
  ⟨(validLba_congr ht _).mpr (h i hi).1, (h i hi).2⟩

/-- The journal alone decides what is committed. -/
theorem Committed.congr {dev dev' : Blockdev} {tx : Tx} (h : Committed dev tx)
    (ht : dev'.totalBlocks = dev.totalBlocks)
    (hb : ∀ lba, InJournal lba → dev'.blocks lba = dev.blocks lba) : Committed dev' tx where
  count_le := h.count_le
  targets := h.targets.congr ht
  header := by
    rw [hb _ inJournal_start]
    exact h.header
  desc := fun i hi => by
    rw [hb _ (inJournal_desc (lt_of_lt_of_le hi h.count_le)), h.desc i hi]
  data := fun i hi => by
    rw [hb _ (inJournal_data (lt_of_lt_of_le hi h.count_le)), h.data i hi]
  valid := fun i hi => by
    rw [validLba_congr ht, validLba_congr ht]
    exact h.valid i hi

theorem mem_homeWrites {tx : Tx} {i n : Nat} {w : Nat × Bytes} (h : w ∈ homeWrites tx i n) :
    ∃ k, k < i + n ∧ w = ((tx.recs k).targetLba, (tx.recs k).payload) := by
  obtain ⟨k, hk, rfl⟩ := List.mem_map.mp h
  rw [List.mem_range'_1] at hk
  exact ⟨k, hk.2, rfl⟩

/-- The writes of a replay are to blocks outside the journal. -/
theorem TargetsOk.home {dev : Blockdev} {tx : Tx} (h : TargetsOk dev tx) {w : Nat × Bytes}
    (hw : w ∈ homeWrites tx 0 tx.count) : validLba dev w.1 ∧ ¬InJournal w.1 := by
  obtain ⟨k, hk, rfl⟩ := mem_homeWrites hw
  exact h k (by omega)

/-! ## Replay -/

/-- The device keeps a block of `blockSize` bytes whatever stands behind them. -/
theorem writeBlock_clip (lba : Nat) (data : Bytes) :
    writeBlock lba (Bytes.clip blockSize data) = writeBlock lba data := by
  funext dev
  unfold writeBlock
  rw [Bytes.clip_clip]

theorem readBlock_valid {dev : Blockdev} {lba : Nat} (h : validLba dev lba) :
    readBlock lba dev = (.ok (dev.blocks lba), dev) := by
  unfold readBlock
  rw [if_neg (not_not.mpr h)]

/-- Every block of a device of full size is valid. -/
theorem validLba_of_total {dev : Blockdev} (htotal : dev.totalBlocks = maxBlocks) {lba : Nat}
    (hlba : lba < maxBlocks) : validLba dev lba := ⟨lt_of_lt_of_eq hlba htotal.symm, hlba⟩

theorem asks_totalBlocks {dev : Blockdev} (htotal : dev.totalBlocks = maxBlocks) :
    (Prog.asks Blockdev.totalBlocks : M16 Nat) dev = (.ok maxBlocks, dev) := by
  rw [Prog.asks_apply, htotal]

theorem lt_of_validLba {dev : Blockdev} {lba : Nat} (h : validLba dev lba) : lba < 256 ^ 4 := by
  have hlt : lba < maxBlocks := h.2
  unfold maxBlocks at hlt
  omega

/-- What commit has left of a record passes the checks of the source. -/
theorem replayRecord_eq {tx : Tx} {i : Nat} {dev : Blockdev} (h : Committed dev tx)
    (hi : i < tx.count) :
    replayRecord i dev = writeBlock (tx.recs i).targetLba (tx.recs i).payload dev := by
  obtain ⟨hvalid, -⟩ := h.targets i hi
  obtain ⟨hvd, hvp⟩ := h.valid i hi
  have htarget : dTargetLba (dev.blocks (descLba i)) = (tx.recs i).targetLba := by
    rw [h.desc i hi, dTargetLba_mkDesc (lt_of_validLba hvalid)]
  have hmagic : dMagic (dev.blocks (descLba i)) = jMagic := by
    rw [h.desc i hi, dMagic_mkDesc]
  have hsum : (checksum (dev.blocks (dataLba i)) blockSize).toNat =
      dPayloadChecksum (dev.blocks (descLba i)) := by
    have hclip := checksum_congr (Bytes.clip_agreeOn blockSize (tx.recs i).payload)
    rw [h.desc i hi, dPayloadChecksum_mkDesc, h.data i hi, hclip]
  have hdesc : ¬(dMagic (dev.blocks (descLba i)) ≠ jMagic ∨
      ¬validLba dev (dTargetLba (dev.blocks (descLba i)))) := by
    rw [htarget]
    rintro (hne | hne)
    · exact hne hmagic
    · exact hne hvalid
  have hasks : (Prog.asks id : M16 Blockdev) dev = (.ok dev, dev) := rfl
  unfold replayRecord
  rw [Prog.bind_ok (readBlock_valid hvd), Prog.bind_ok hasks,
    Prog.bind_ok (Prog.failIf_neg hdesc _ _), Prog.bind_ok (readBlock_valid hvp),
    Prog.bind_ok (Prog.failIf_neg (not_not.mpr hsum) _ _), htarget, h.data i hi, writeBlock_clip]

theorem homeWrites_succ (tx : Tx) (i n : Nat) : homeWrites tx i (n + 1) =
    ((tx.recs i).targetLba, (tx.recs i).payload) :: homeWrites tx (i + 1) n := rfl

theorem replay_eq {tx : Tx} {i n : Nat} {dev : Blockdev} (h : Committed dev tx)
    (hn : i + n ≤ tx.count) : replay i n dev = writeAll (homeWrites tx i n) dev := by
  induction n generalizing i dev with
  | zero => rfl
  | succ n ih =>
      have hi : i < tx.count := by omega
      obtain ⟨-, hout⟩ := h.targets i hi
      have hrec := replayRecord_eq h hi
      rw [replay, homeWrites_succ, writeAll]
      rcases writeBlock_cases (tx.recs i).targetLba (tx.recs i).payload dev with
        ⟨dev1, hw, -, -, hblocks, htotal, -⟩ | ⟨-, hw⟩ | ⟨-, -, hw⟩
      · rw [Prog.bind_ok (hrec.trans hw), Prog.bind_ok hw]
        -- the write is to a home block: the journal is as before
        refine ih (h.congr htotal fun lba hlba => ?_) (by omega)
        rw [hblocks, Function.update_of_ne]
        rintro rfl
        exact hout hlba
      · rw [Prog.bind_error (hrec.trans hw), Prog.bind_error hw]
      · rw [Prog.bind_error (hrec.trans hw), Prog.bind_error hw]

/-- The writes of a recovery. -/
def recoverWrites (tx : Tx) : List (Nat × Bytes) :=
  homeWrites tx 0 tx.count ++ [(journalStart, Bytes.zero)]

theorem writeAll_recoverWrites (tx : Tx) :
    writeAll (recoverWrites tx) = writeAll (homeWrites tx 0 tx.count) >>= fun _ => journalClear := by
  have hclear : writeAll [(journalStart, Bytes.zero)] = journalClear :=
    Prog.bind_pure (writeBlock journalStart Bytes.zero)
  rw [recoverWrites, writeAll_append, hclear]

theorem journalRecover_empty {dev : Blockdev} (hv : validLba dev journalStart)
    (h : JournalEmpty dev) : journalRecover dev = (.ok (), dev) := by
  have hc : hMagic (dev.blocks journalStart) = 0 ∧ hState (dev.blocks journalStart) = jEmpty := h
  unfold journalRecover
  rw [Prog.bind_ok (readBlock_valid hv), if_pos hc]
  rfl

theorem journalRecover_committed {dev : Blockdev} {tx : Tx} (hv : validLba dev journalStart)
    (h : Committed dev tx) : journalRecover dev = writeAll (recoverWrites tx) dev := by
  obtain ⟨hmagic, hversion, hstate, hcount, hsum⟩ := h.header
  have hle := h.count_le
  have hnonempty : ¬(hMagic (dev.blocks journalStart) = 0 ∧
      hState (dev.blocks journalStart) = jEmpty) := by
    rw [hmagic]
    exact fun hc => absurd hc.1 (by decide)
  have hfields : ¬(hMagic (dev.blocks journalStart) ≠ jMagic ∨
      hVersion (dev.blocks journalStart) ≠ version ∨
      hState (dev.blocks journalStart) ≠ jCommitted ∨
      journalMaxRecords < hCount (dev.blocks journalStart)) := by
    rw [hmagic, hversion, hstate, hcount]
    omega
  unfold journalRecover
  rw [Prog.bind_ok (readBlock_valid hv), if_neg hnonempty,
    Prog.bind_ok (Prog.failIf_neg hfields _ _),
    Prog.bind_ok (Prog.failIf_neg (not_not.mpr hsum) _ _), hcount, writeAll_recoverWrites]
  -- the replay loop is the list of its writes, from this device on
  show (replay 0 tx.count >>= fun _ => journalClear) dev = _
  have hreplay := replay_eq h (show 0 + tx.count ≤ tx.count by omega)
  rcases hw : writeAll (homeWrites tx 0 tx.count) dev with ⟨e | u, dev'⟩
  · rw [Prog.bind_error (hreplay.trans hw), Prog.bind_error hw]
  · rw [Prog.bind_ok (hreplay.trans hw), Prog.bind_ok hw]

end Mcsos.Mcsfs1j
