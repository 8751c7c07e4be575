import Mcsos.Mcsfs1j.JournalRecover

set_option autoImplicit false

/-! # Atomicity of transactions

`Settled dev c` says which home blocks an undisturbed recovery leads to. A recovery that is cut
keeps `c`, however often it is cut; a commit that is cut keeps it or moves it to the result of
its payloads, and what decides is whether the header has been written.
-/

namespace Mcsos.Mcsfs1j

open WriteLog

/-! ## What a recovery leads to -/

/-- An undisturbed recovery leaves the home blocks as in `c`. -/
def Settled (dev : Blockdev) (c : Nat → Bytes) : Prop :=
  validLba dev journalStart ∧
  ((JournalEmpty dev ∧ HomeEq dev.blocks c) ∨
    ∃ tx, Committed dev tx ∧
      HomeEq (applyWrites (stored (homeWrites tx 0 tx.count)) dev.blocks) c)

theorem Settled.valid {dev : Blockdev} {c : Nat → Bytes} (h : Settled dev c) :
    validLba dev journalStart := h.1

theorem Settled.congr {dev : Blockdev} {c c' : Nat → Bytes} (h : Settled dev c)
    (hc : HomeEq c c') : Settled dev c' := by
  obtain ⟨hv, ⟨he, hb⟩ | ⟨tx, htx, hb⟩⟩ := h
  · exact ⟨hv, Or.inl ⟨he, hb.trans hc⟩⟩
  · exact ⟨hv, Or.inr ⟨tx, htx, hb.trans hc⟩⟩

theorem Committed.not_empty {dev : Blockdev} {tx : Tx} (h : Committed dev tx) :
    ¬JournalEmpty dev := by
  rintro ⟨hm, -⟩
  have hmagic := h.header.magic
  rw [hm] at hmagic
  exact absurd hmagic (by decide)

/-- With an empty journal there is nothing left to do. -/
theorem Settled.home {dev : Blockdev} {c : Nat → Bytes} (h : Settled dev c)
    (he : JournalEmpty dev) : HomeEq dev.blocks c := by
  obtain ⟨-, ⟨-, hb⟩ | ⟨tx, htx, -⟩⟩ := h
  · exact hb
  · exact absurd he htx.not_empty

theorem journalEmpty_of_zero {dev : Blockdev} (h : dev.blocks journalStart = Bytes.zero) :
    JournalEmpty dev := by
  unfold JournalEmpty hMagic hState
  rw [h, Bytes.load_zero, Bytes.load_zero]
  exact ⟨rfl, rfl⟩

theorem recoverWrites_length (tx : Tx) : (recoverWrites tx).length = tx.count + 1 := by
  unfold recoverWrites homeWrites
  rw [List.length_append, List.length_map, List.length_range', List.length_singleton]

theorem homeWrites_off_journal {dev : Blockdev} {tx : Tx} (h : TargetsOk dev tx) (k : Nat)
    (store : Nat → Bytes) {lba : Nat} (hlba : InJournal lba) :
    applyWrites (stored ((homeWrites tx 0 tx.count).take k)) store lba = store lba := by
  refine applyWrites_of_not_written (fun w hw => ?_) store
  obtain ⟨v, hv, hvw⟩ := mem_stored hw
  have hout := (h.home (List.mem_of_mem_take hv)).2
  rintro rfl
  rw [hvw] at hout
  exact hout hlba

/-- A prefix of the writes of a recovery leaves a device with the same future. -/
theorem settled_of_prefix {dev dev' : Blockdev} {tx : Tx} {m : Nat}
    (hv : validLba dev journalStart) (hc : Committed dev tx)
    (hb : dev'.blocks = applyWrites (stored ((recoverWrites tx).take m)) dev.blocks)
    (ht : dev'.totalBlocks = dev.totalBlocks) :
    Settled dev' (applyWrites (stored (homeWrites tx 0 tx.count)) dev.blocks) ∧
      ((recoverWrites tx).length ≤ m → JournalEmpty dev') ∧
      (m ≤ tx.count → Committed dev' tx) := by
  have hv' : validLba dev' journalStart := (validLba_congr ht _).mpr hv
  have hlen := recoverWrites_length tx
  have hlen' : (homeWrites tx 0 tx.count).length = tx.count := by
    unfold homeWrites
    rw [List.length_map, List.length_range']
  by_cases hm : m ≤ tx.count
  · -- the header still stands: the rest of the writes, or all of them again, give the same
    have htake : (recoverWrites tx).take m = (homeWrites tx 0 tx.count).take m :=
      List.take_append_of_le_length (by omega)
    rw [htake] at hb
    have hc' : Committed dev' tx := hc.congr ht fun lba hlba => by
      rw [hb, homeWrites_off_journal hc.targets m dev.blocks hlba]
    refine ⟨⟨hv', Or.inr ⟨tx, hc', ?_⟩⟩, fun hle => by omega, fun _ => hc'⟩
    rw [hb, stored_take, applyWrites_take_absorb]
    exact HomeEq.refl _
  · have htake : (recoverWrites tx).take m = recoverWrites tx :=
      List.take_of_length_le (by omega)
    rw [htake, recoverWrites, stored_append, applyWrites_append] at hb
    have hzero : dev'.blocks journalStart = Bytes.zero := by
      rw [hb]
      show Function.update (applyWrites (stored (homeWrites tx 0 tx.count)) dev.blocks) journalStart
        (Bytes.clip blockSize Bytes.zero) journalStart = Bytes.zero
      rw [Function.update_self, Bytes.clip_zero]
    have he := journalEmpty_of_zero hzero
    refine ⟨⟨hv', Or.inl ⟨he, ?_⟩⟩, fun _ => he, fun hle => absurd hle hm⟩
    rw [hb]
    refine HomeEq.of_journal_writes (fun w hw => ?_) _
    obtain ⟨v, hmem, hvw⟩ := mem_stored hw
    rw [← hvw, List.mem_singleton.mp hmem]
    exact inJournal_start

theorem recoverWrites_valid {dev : Blockdev} {tx : Tx} (hv : validLba dev journalStart)
    (h : TargetsOk dev tx) : ∀ w ∈ recoverWrites tx, validLba dev w.1 := by
  intro w hw
  rcases List.mem_append.mp hw with hw | hw
  · exact (h.home hw).1
  · rw [List.mem_singleton.mp hw]
    exact hv

/-- What a recovery does to a device with the future `c`, cut or not. -/
theorem recover_settled {dev : Blockdev} {c : Nat → Bytes} (h : Settled dev c) :
    Settled (journalRecover dev).2 c ∧
      (journalRecover dev).2.totalBlocks = dev.totalBlocks ∧
      ((journalRecover dev).1 = .ok () ∨ (journalRecover dev).1 = .error .io) ∧
      ((journalRecover dev).1 = .ok () → JournalEmpty (journalRecover dev).2) ∧
      (Allows dev (journalMaxRecords + 1) → (journalRecover dev).1 = .ok ()) := by
  obtain ⟨hv, ⟨he, hb⟩ | ⟨tx, htx, hb⟩⟩ := h
  · rw [journalRecover_empty hv he]
    exact ⟨⟨hv, Or.inl ⟨he, hb⟩⟩, rfl, Or.inl rfl, fun _ => he, fun _ => rfl⟩
  · have hall := recoverWrites_valid hv htx.targets
    obtain ⟨j, hj⟩ := writeAll_outcome (recoverWrites tx) dev
    obtain ⟨hs, hempty, -⟩ := settled_of_prefix hv htx hj.blocks hj.total
    rw [journalRecover_committed hv htx]
    refine ⟨hs.congr hb, hj.total, hj.io hall, fun hok => hempty (hj.ok_iff.mp hok).ge,
      fun ha => hj.ok hall ?_⟩
    have hle := htx.count_le
    rw [recoverWrites_length]
    unfold Allows at ha ⊢
    push_cast at ha ⊢
    omega

/-! ## What a commit leads to -/

theorem mem_recordWrites {tx : Tx} {i n : Nat} {w : Nat × Bytes} (h : w ∈ recordWrites tx i n) :
    ∃ k, i ≤ k ∧ k < i + n ∧ (w.1 = descLba k ∨ w.1 = dataLba k) := by
  obtain ⟨k, hk, hw⟩ := List.mem_flatMap.mp h
  rw [List.mem_range'_1] at hk
  refine ⟨k, hk.1, hk.2, ?_⟩
  rcases List.mem_cons.mp hw with rfl | hw
  · exact Or.inl rfl
  · rw [List.mem_singleton.mp hw]
    exact Or.inr rfl

theorem recordWrites_succ (tx : Tx) (i n : Nat) : recordWrites tx i (n + 1) =
    (descLba i, mkDesc (tx.recs i)) :: (dataLba i, (tx.recs i).payload) ::
      recordWrites tx (i + 1) n := rfl

theorem recordWrites_length (tx : Tx) (i n : Nat) : (recordWrites tx i n).length = 2 * n := by
  induction n generalizing i with
  | zero => rfl
  | succ n ih =>
      rw [recordWrites_succ, List.length_cons, List.length_cons, ih]
      omega

/-- The blocks of record `k` after all records have been written. -/
theorem applyWrites_recordWrites {tx : Tx} {i n k : Nat} (hik : i ≤ k) (hk : k < i + n)
    (store : Nat → Bytes) :
    applyWrites (stored (recordWrites tx i n)) store (descLba k) =
        Bytes.clip blockSize (mkDesc (tx.recs k)) ∧
      applyWrites (stored (recordWrites tx i n)) store (dataLba k) =
        Bytes.clip blockSize (tx.recs k).payload := by
  induction n generalizing i store with
  | zero => omega
  | succ n ih =>
      rw [recordWrites_succ]
      show applyWrites (stored (recordWrites tx (i + 1) n)) _ _ = _ ∧
        applyWrites (stored (recordWrites tx (i + 1) n)) _ _ = _
      by_cases hki : k = i
      · subst hki
        -- later records are at other blocks
        have hlater : ∀ w ∈ stored (recordWrites tx (k + 1) n),
            w.1 ≠ descLba k ∧ w.1 ≠ dataLba k := by
          intro w hw
          obtain ⟨v, hv, hvw⟩ := mem_stored hw
          obtain ⟨l, hl, -, hlw⟩ := mem_recordWrites hv
          rw [← hvw]
          unfold dataLba descLba at *
          omega
        rw [applyWrites_of_not_written (fun w hw => (hlater w hw).1),
          applyWrites_of_not_written (fun w hw => (hlater w hw).2)]
        have hne : descLba k ≠ dataLba k := by
          unfold dataLba
          omega
        dsimp only
        rw [Function.update_of_ne hne, Function.update_self, Function.update_self]
        exact ⟨rfl, rfl⟩
      · exact ih (by omega) (by omega) _

/-- Enough blocks and enough writes to get to the COMMITTED header, which is write number
`2 * count + 2` of a commit. -/
def HeaderReached (dev : Blockdev) (tx : Tx) : Prop :=
  (∀ i, i < tx.count → validLba dev (dataLba i)) ∧ Allows dev (2 * tx.count + 2)

theorem logWrites_length (tx : Tx) : (logWrites tx).length = 2 * tx.count + 1 := by
  unfold logWrites
  rw [List.length_cons, recordWrites_length]

theorem logWrites_inJournal {tx : Tx} (h : tx.count ≤ journalMaxRecords) {w : Nat × Bytes}
    (hw : w ∈ logWrites tx) : InJournal w.1 := by
  rcases List.mem_cons.mp hw with rfl | hw
  · exact inJournal_start
  · obtain ⟨k, -, hk, hk' | hk'⟩ := mem_recordWrites hw
    · rw [hk']
      exact inJournal_desc (by omega)
    · rw [hk']
      exact inJournal_data (by omega)

theorem validLba_of_le {dev : Blockdev} {lba lba' : Nat} (h : validLba dev lba) (hle : lba' ≤ lba) :
    validLba dev lba' := ⟨lt_of_le_of_lt hle h.1, lt_of_le_of_lt hle h.2⟩

theorem descLba_le (i : Nat) : descLba i ≤ dataLba i := by
  unfold dataLba
  omega

theorem mem_recordWrites_data {tx : Tx} {k : Nat} (hk : k < tx.count) :
    (dataLba k, (tx.recs k).payload) ∈ recordWrites tx 0 tx.count := by
  refine List.mem_flatMap.mpr ⟨k, List.mem_range'_1.mpr (by omega), ?_⟩
  exact List.mem_cons_of_mem _ List.mem_cons_self

/-- The writes up to the header, as one list. -/
theorem commitWrites_take (tx : Tx) (seq : Nat) (stop : Bool) (m : Nat) :
    (commitWrites tx seq stop).take (2 * tx.count + 2 + m) =
      logWrites tx ++ (journalStart, mkHeader seq tx.count) :: (applyPart tx stop).take m := by
  have hlen := logWrites_length tx
  unfold commitWrites
  rw [show 2 * tx.count + 2 + m = (logWrites tx).length + (m + 1) by omega,
    List.take_length_add_append, List.take_succ_cons]

theorem valid_logWrites_iff {dev : Blockdev} {tx : Tx} (hv : validLba dev journalStart) :
    (∀ w ∈ logWrites tx, validLba dev w.1) ↔ ∀ i, i < tx.count → validLba dev (dataLba i) := by
  constructor
  · intro h i hi
    exact h _ (List.mem_cons_of_mem _ (mem_recordWrites_data hi))
  · intro h w hw
    rcases List.mem_cons.mp hw with rfl | hw
    · exact hv
    · obtain ⟨k, -, hk, hk' | hk'⟩ := mem_recordWrites hw
      · rw [hk']
        exact validLba_of_le (h k (by omega)) (descLba_le k)
      · rw [hk']
        exact h k (by omega)

/-- All blocks of a commit exist if those of the journal and the targets do. -/
theorem commitWrites_valid {dev : Blockdev} {tx : Tx} (hv : validLba dev journalStart)
    (hall : ∀ i, i < tx.count → validLba dev (dataLba i)) (htargets : TargetsOk dev tx) (seq : Nat)
    (stop : Bool) : ∀ w ∈ commitWrites tx seq stop, validLba dev w.1 := by
  intro w hw
  rcases List.mem_append.mp hw with hw | hw
  · exact (valid_logWrites_iff hv).mpr hall w hw
  · rcases List.mem_cons.mp hw with rfl | hw
    · exact hv
    · cases stop with
      | true => cases hw
      | false => exact recoverWrites_valid hv htargets w hw

/-- A commit that the device has not room for does not return `OK`. -/
theorem journalCommit_cut {dev : Blockdev} {tx : Tx} (hcount : tx.count ≤ journalMaxRecords)
    (seq : Nat) {stop : Bool} (h : ¬Allows dev (commitWrites tx seq stop).length) :
    (journalCommit tx seq stop dev).1 ≠ .ok () := by
  rw [journalCommit_eq hcount]
  obtain ⟨j, hj⟩ := writeAll_outcome (commitWrites tx seq stop) dev
  intro hok
  exact h ((hj.reach _ (le_refl _)).mp (hj.ok_iff.mp hok).ge).2

/-- The journal once the header of `tx` has been written. -/
theorem logged_after_header {blocks after : Nat → Bytes} {tx : Tx} {seq : Nat}
    (hcount : tx.count ≤ journalMaxRecords)
    (hb : after =
      applyWrites (stored (logWrites tx ++ [(journalStart, mkHeader seq tx.count)])) blocks) :
    GoodHeader (after journalStart) tx.count ∧
      (∀ i, i < tx.count → after (descLba i) = Bytes.clip blockSize (mkDesc (tx.recs i))) ∧
      (∀ i, i < tx.count → after (dataLba i) = Bytes.clip blockSize (tx.recs i).payload) ∧
      HomeEq after blocks := by
  have hblocks : after = Function.update (applyWrites (stored (recordWrites tx 0 tx.count))
      (Function.update blocks journalStart (Bytes.clip blockSize Bytes.zero))) journalStart
      (Bytes.clip blockSize (mkHeader seq tx.count)) := by
    rw [hb, stored_append, applyWrites_append]
    rfl
  refine ⟨?_, fun i hi => ?_, fun i hi => ?_, ?_⟩
  · rw [hblocks, Function.update_self]
    exact goodHeader_mkHeader seq hcount
  · have hne : descLba i ≠ journalStart := by
      unfold descLba
      omega
    rw [hblocks, Function.update_of_ne hne]
    exact (applyWrites_recordWrites (Nat.zero_le i) (by omega) _).1
  · have hne : dataLba i ≠ journalStart := by
      unfold dataLba descLba
      omega
    rw [hblocks, Function.update_of_ne hne]
    exact (applyWrites_recordWrites (Nat.zero_le i) (by omega) _).2
  · rw [hb]
    refine HomeEq.of_journal_writes (fun w hw => ?_) blocks
    obtain ⟨v, hv, hvw⟩ := mem_stored hw
    rw [← hvw]
    rcases List.mem_append.mp hv with hv | hv
    · exact logWrites_inJournal hcount hv
    · rw [List.mem_singleton.mp hv]
      exact inJournal_start

/-- The device once the header of `tx` has been written. -/
theorem committed_after_header {dev mid : Blockdev} {tx : Tx} {seq : Nat}
    (hcount : tx.count ≤ journalMaxRecords) (htargets : TargetsOk dev tx)
    (hvalid : ∀ i, i < tx.count → validLba dev (dataLba i))
    (hb : mid.blocks =
      applyWrites (stored (logWrites tx ++ [(journalStart, mkHeader seq tx.count)])) dev.blocks)
    (ht : mid.totalBlocks = dev.totalBlocks) :
    Committed mid tx ∧ HomeEq mid.blocks dev.blocks := by
  obtain ⟨hheader, hdesc, hdata, hhome⟩ := logged_after_header hcount hb
  refine ⟨⟨hcount, htargets.congr ht, hheader, hdesc, hdata, fun i hi => ?_⟩, hhome⟩
  rw [validLba_congr ht, validLba_congr ht]
  exact ⟨validLba_of_le (hvalid i hi) (descLba_le i), hvalid i hi⟩

/-- Before the header has been written, nothing has happened. -/
theorem before_header {dev dev' : Blockdev} {tx : Tx} {j : Nat}
    (hcount : tx.count ≤ journalMaxRecords) (hempty : JournalEmpty dev)
    (hj : j ≤ (logWrites tx).length)
    (hb : dev'.blocks = applyWrites (stored ((logWrites tx).take j)) dev.blocks) :
    JournalEmpty dev' ∧ HomeEq dev'.blocks dev.blocks := by
  constructor
  · cases j with
    | zero =>
        have hsame : dev'.blocks = dev.blocks := hb
        unfold JournalEmpty
        rw [hsame]
        exact hempty
    | succ j =>
        -- the header block is cleared first, and the records are elsewhere
        have htake : (logWrites tx).take (j + 1) =
            (journalStart, Bytes.zero) :: (recordWrites tx 0 tx.count).take j := rfl
        refine journalEmpty_of_zero ?_
        rw [hb, htake]
        show applyWrites (stored ((recordWrites tx 0 tx.count).take j))
          (Function.update dev.blocks journalStart (Bytes.clip blockSize Bytes.zero)) _ = _
        rw [applyWrites_of_not_written, Function.update_self, Bytes.clip_zero]
        intro w hw
        obtain ⟨v, hv, hvw⟩ := mem_stored hw
        obtain ⟨k, -, -, hk⟩ := mem_recordWrites (List.mem_of_mem_take hv)
        rw [← hvw]
        unfold dataLba descLba at hk
        omega
  · rw [hb]
    refine HomeEq.of_journal_writes (fun w hw => ?_) dev.blocks
    obtain ⟨v, hv, hvw⟩ := mem_stored hw
    rw [← hvw]
    exact logWrites_inJournal hcount (List.mem_of_mem_take hv)

section Outcome

variable {dev dev' : Blockdev} {tx : Tx} {seq j : Nat} {stop : Bool} {r : Except M16Err Unit}

theorem commitWrites_length (tx : Tx) (seq : Nat) (stop : Bool) :
    (commitWrites tx seq stop).length = 2 * tx.count + 2 + (applyPart tx stop).length := by
  unfold commitWrites
  rw [List.length_append, List.length_cons, logWrites_length]
  omega

/-- What is done of the writes after the header is the beginning of a recovery. -/
theorem applyPart_take (tx : Tx) (stop : Bool) (m : Nat) :
    ∃ m', (applyPart tx stop).take m = (recoverWrites tx).take m' ∧ m' ≤ m ∧
      (stop = false → m' = m) := by
  unfold applyPart
  cases stop with
  | true => exact ⟨0, by simp, Nat.zero_le m, fun h => by cases h⟩
  | false => exact ⟨m, rfl, le_refl m, fun _ => rfl⟩

namespace WriteOutcome

theorem reached_iff (hj : WriteOutcome (commitWrites tx seq stop) dev r dev' j)
    (hv : validLba dev journalStart) : 2 * tx.count + 2 ≤ j ↔ HeaderReached dev tx := by
  have hlen := commitWrites_length tx seq stop
  have htake := commitWrites_take tx seq stop 0
  rw [Nat.add_zero, List.take_zero] at htake
  rw [hj.reach _ (by omega), htake, HeaderReached, ← valid_logWrites_iff hv]
  refine and_congr_left fun _ => ⟨fun h w hw => h w (List.mem_append_left _ hw),
    fun h w hw => ?_⟩
  rcases List.mem_append.mp hw with hw | hw
  · exact h w hw
  · rw [List.mem_singleton.mp hw]
    exact hv

/-- A commit that does not get to the header has done nothing. -/
theorem not_reached (hj : WriteOutcome (commitWrites tx seq stop) dev r dev' j)
    (hv : validLba dev journalStart) (hempty : JournalEmpty dev)
    (hcount : tx.count ≤ journalMaxRecords) (hn : ¬HeaderReached dev tx) :
    JournalEmpty dev' ∧ HomeEq dev'.blocks dev.blocks ∧ r ≠ .ok () := by
  have hlen := commitWrites_length tx seq stop
  have hlt : j < 2 * tx.count + 2 := not_le.mp fun h => hn ((hj.reached_iff hv).mp h)
  have hlog : j ≤ (logWrites tx).length := by
    rw [logWrites_length]
    omega
  have hb := hj.blocks
  unfold commitWrites at hb
  rw [List.take_append_of_le_length hlog] at hb
  obtain ⟨he, hh⟩ := before_header hcount hempty hlog hb
  refine ⟨he, hh, fun hok => ?_⟩
  have hall := hj.ok_iff.mp hok
  omega

/-- A commit that gets to the header has settled the device on its payloads. -/
theorem reached (hj : WriteOutcome (commitWrites tx seq stop) dev r dev' j)
    (hv : validLba dev journalStart) (hcount : tx.count ≤ journalMaxRecords)
    (htargets : TargetsOk dev tx) (hr : HeaderReached dev tx) :
    Settled dev' (applyWrites (stored (homeWrites tx 0 tx.count)) dev.blocks) ∧
      (r = .ok () → stop = false → JournalEmpty dev') ∧ (Committed dev' tx ∨ r = .ok ()) := by
  have hlen := commitWrites_length tx seq stop
  have hrec := recoverWrites_length tx
  have hle := hj.le
  obtain ⟨m, rfl⟩ : ∃ m, j = 2 * tx.count + 2 + m :=
    ⟨j - (2 * tx.count + 2), by have := (hj.reached_iff hv).mpr hr; omega⟩
  have hb := hj.blocks
  rw [commitWrites_take, ← List.singleton_append, ← List.append_assoc, stored_append,
    applyWrites_append] at hb
  -- the device at the moment the header is there
  obtain ⟨mid, hmb, hmt⟩ : ∃ mid : Blockdev, mid.blocks = applyWrites (stored (logWrites tx ++
      [(journalStart, mkHeader seq tx.count)])) dev.blocks ∧
      mid.totalBlocks = dev.totalBlocks := ⟨{ dev with blocks := _ }, rfl, rfl⟩
  obtain ⟨hc, hh⟩ := committed_after_header hcount htargets hr.1 hmb hmt
  obtain ⟨m', htake, hm', hstop⟩ := applyPart_take tx stop m
  rw [htake, ← hmb] at hb
  obtain ⟨hs, hempty, hcommitted⟩ :=
    settled_of_prefix ((validLba_congr hmt _).mpr hv) hc hb (hj.total.trans hmt.symm)
  have hpart : stop = false → (applyPart tx stop).length = tx.count + 1 := by
    rintro rfl
    exact recoverWrites_length tx
  refine ⟨hs.congr (hh.applyWrites _), fun hok hfalse => hempty ?_, ?_⟩
  · have hall := hj.ok_iff.mp hok
    have hlen' := hpart hfalse
    have hm := hstop hfalse
    omega
  · by_cases hle' : m' ≤ tx.count
    · exact Or.inl (hcommitted hle')
    · refine Or.inr (hj.ok_iff.mpr ?_)
      cases stop with
      | true =>
          -- nothing follows the header
          have hm : m ≤ (applyPart tx true).length := by omega
          rw [show (applyPart tx true).length = 0 from rfl] at hm
          omega
      | false =>
          have hlen' := hpart rfl
          omega

end WriteOutcome

end Outcome

/-- What a commit does to a device with an empty journal, cut or not. -/
theorem commit_settled {dev : Blockdev} {tx : Tx} (hv : validLba dev journalStart)
    (hempty : JournalEmpty dev) (hcount : tx.count ≤ journalMaxRecords)
    (htargets : TargetsOk dev tx) (seq : Nat) (stop : Bool) :
    (journalCommit tx seq stop dev).2.totalBlocks = dev.totalBlocks ∧
      ((∀ i, i < tx.count → validLba dev (dataLba i)) →
        (journalCommit tx seq stop dev).1 = .ok () ∨
          (journalCommit tx seq stop dev).1 = .error .io) ∧
      (¬HeaderReached dev tx →
        JournalEmpty (journalCommit tx seq stop dev).2 ∧
        HomeEq (journalCommit tx seq stop dev).2.blocks dev.blocks ∧
        (journalCommit tx seq stop dev).1 ≠ .ok ()) ∧
      (HeaderReached dev tx →
        Settled (journalCommit tx seq stop dev).2
          (applyWrites (stored (homeWrites tx 0 tx.count)) dev.blocks) ∧
        ((journalCommit tx seq stop dev).1 = .ok () → stop = false →
          JournalEmpty (journalCommit tx seq stop dev).2) ∧
        (Committed (journalCommit tx seq stop dev).2 tx ∨
          (journalCommit tx seq stop dev).1 = .ok ())) := by
  rw [journalCommit_eq hcount]
  obtain ⟨j, hj⟩ := writeAll_outcome (commitWrites tx seq stop) dev
  exact ⟨hj.total, fun hall => hj.io (commitWrites_valid hv hall htargets seq stop),
    hj.not_reached hv hempty hcount, hj.reached hv hcount htargets⟩

/-! ## Crashes during commit and during recovery -/

/-- A recovery on a device that takes `k` writes, or all writes if `k` is negative. -/
def recoverAt (dev : Blockdev) (k : Int) : Blockdev :=
  (journalRecover { dev with failAfter := k }).2

theorem settled_failAfter {dev : Blockdev} {c : Nat → Bytes} (k : Int) :
    Settled { dev with failAfter := k } c ↔ Settled dev c := by
  constructor <;> rintro ⟨hv, ⟨he, hb⟩ | ⟨tx, ⟨h1, h2, h3, h4, h5, h6⟩, hb⟩⟩
  · exact ⟨hv, Or.inl ⟨he, hb⟩⟩
  · exact ⟨hv, Or.inr ⟨tx, ⟨h1, h2, h3, h4, h5, h6⟩, hb⟩⟩
  · exact ⟨hv, Or.inl ⟨he, hb⟩⟩
  · exact ⟨hv, Or.inr ⟨tx, ⟨h1, h2, h3, h4, h5, h6⟩, hb⟩⟩

/-- Any number of recoveries, cut anywhere, keep the future of the device. -/
theorem settled_recoverAt_foldl {dev : Blockdev} {c : Nat → Bytes} (h : Settled dev c)
    (cuts : List Int) : Settled (cuts.foldl recoverAt dev) c := by
  induction cuts generalizing dev with
  | nil => exact h
  | cons k cuts ih => exact ih (recover_settled ((settled_failAfter k).mpr h)).1

/-- The commit of a transaction, then recoveries cut anywhere, then a recovery on a device that
does not fail: all of the transaction has happened, or nothing of it. -/
theorem journalCommit_atomic {dev : Blockdev} {tx : Tx} (hv : validLba dev journalStart)
    (hempty : JournalEmpty dev) (hcount : tx.count ≤ journalMaxRecords)
    (htargets : TargetsOk dev tx) (seq : Nat) (stop : Bool) (cuts : List Int) {f : Int}
    (hf : f < 0 ∨ journalMaxRecords < f) :
    let commit := journalCommit tx seq stop dev
    let last := journalRecover { cuts.foldl recoverAt commit.2 with failAfter := f }
    last.1 = .ok () ∧ JournalEmpty last.2 ∧
      (HeaderReached dev tx ↔
        commit.1 = .ok () ∨ hState (commit.2.blocks journalStart) = jCommitted) ∧
      (HeaderReached dev tx → ∀ lba, ¬InJournal lba → last.2.blocks lba =
        applyWrites (stored (homeWrites tx 0 tx.count)) dev.blocks lba) ∧
      (¬HeaderReached dev tx → ∀ lba, ¬InJournal lba →
        commit.2.blocks lba = dev.blocks lba ∧ last.2.blocks lba = dev.blocks lba) := by
  intro commit last
  obtain ⟨htotal, -, hbefore, hafter⟩ := commit_settled hv hempty hcount htargets seq stop
  have hallows : Allows { cuts.foldl recoverAt commit.2 with failAfter := f }
      (journalMaxRecords + 1) := by
    unfold Allows
    push_cast
    omega
  -- the last recovery gets the home blocks that the commit has settled
  have hlast : ∀ c, Settled commit.2 c →
      last.1 = .ok () ∧ JournalEmpty last.2 ∧ HomeEq last.2.blocks c := fun c hc => by
    have hrun := settled_recoverAt_foldl hc cuts
    obtain ⟨hs, -, -, he, hok⟩ := recover_settled ((settled_failAfter f).mpr hrun)
    exact ⟨hok hallows, he (hok hallows), hs.home (he (hok hallows))⟩
  by_cases hr : HeaderReached dev tx
  · obtain ⟨hs, -, hdone⟩ := hafter hr
    obtain ⟨hok, he, hh⟩ := hlast _ hs
    refine ⟨hok, he, ⟨fun _ => ?_, fun _ => hr⟩, fun _ => hh, fun hn => absurd hr hn⟩
    rcases hdone with hc | hdone
    · exact Or.inr hc.header.state
    · exact Or.inl hdone
  · obtain ⟨hempty', hh, hne⟩ := hbefore hr
    obtain ⟨hok, he, hhl⟩ := hlast dev.blocks
      ⟨(validLba_congr htotal _).mpr hv, Or.inl ⟨hempty', hh⟩⟩
    refine ⟨hok, he, ⟨fun h => absurd h hr, ?_⟩, fun h => absurd h hr,
      fun _ lba hlba => ⟨hh lba hlba, hhl lba hlba⟩⟩
    rintro (hdone | hstate)
    · exact absurd hdone hne
    · have hzero := hempty'.2
      rw [hstate] at hzero
      exact absurd hzero (by decide)

/-- Two payloads for the same block. -/
def sameTarget : Tx := ⟨2, fun i => ⟨30, Bytes.zero.store 0 1 (i + 1)⟩⟩

/-- The commit stops in the second home write, one recovery at once and one after a write. -/
theorem journalCommit_atomic_sameTarget :
    let commit := journalCommit sameTarget 2 false { devInit with failAfter := 7 }
    let last := journalRecover { [0, 1].foldl recoverAt commit.2 with failAfter := -1 }
    last.1 = .ok () ∧ JournalEmpty last.2 ∧ last.2.blocks 30 0 = 2 := by
  intro commit last
  have htargets : TargetsOk { devInit with failAfter := 7 } sameTarget :=
    fun _ _ => ⟨(by decide : validLba devInit 30), (by decide : ¬InJournal 30)⟩
  have hreached : HeaderReached { devInit with failAfter := 7 } sameTarget := by
    refine ⟨fun i hi => ?_, by decide⟩
    have hi' : i < 2 := hi
    interval_cases i <;> decide
  obtain ⟨hok, he, -, hall, -⟩ := journalCommit_atomic
    (by decide : validLba { devInit with failAfter := 7 } journalStart)
    ⟨rfl, rfl⟩ (by decide : sameTarget.count ≤ journalMaxRecords) htargets 2 false [0, 1]
    (Or.inl (by decide : (-1 : Int) < 0))
  refine ⟨hok, he, ?_⟩
  rw [hall hreached 30 (by decide)]
  rfl

end Mcsos.Mcsfs1j
