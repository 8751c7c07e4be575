import Mcsos.Mcsfs1j.Journal
import Mcsos.Lib.WriteLog

set_option autoImplicit false

/-! # Commit and recovery as lists of writes

A commit is one list of block writes, and so is the recovery of a committed journal. A crash
does a prefix of such a list. What the device is good for at any point is `Settled dev c`: a
recovery that is not cut would leave the home blocks with the content `c`.
-/

namespace Mcsos.Mcsfs1j

open WriteLog

/-! ## Lists of block writes -/

/-- Write the blocks in order, up to the first failure. -/
def writeAll : List (Nat × Bytes) → M16 Unit
  | [] => pure ()
  | w :: ws => do
    writeBlock w.1 w.2
    writeAll ws

/-- The writes as the device stores them. -/
def stored (ws : List (Nat × Bytes)) : List (Nat × Bytes) :=
  ws.map (fun w => (w.1, Bytes.clip blockSize w.2))

theorem stored_append (xs ys : List (Nat × Bytes)) : stored (xs ++ ys) = stored xs ++ stored ys :=
  List.map_append

theorem stored_take (k : Nat) (ws : List (Nat × Bytes)) :
    stored (ws.take k) = (stored ws).take k := List.map_take

theorem mem_stored {ws : List (Nat × Bytes)} {w : Nat × Bytes} (h : w ∈ stored ws) :
    ∃ v ∈ ws, v.1 = w.1 := by
  obtain ⟨v, hv, rfl⟩ := List.mem_map.mp h
  exact ⟨v, hv, rfl⟩

theorem writeAll_append (xs ys : List (Nat × Bytes)) :
    writeAll (xs ++ ys) = writeAll xs >>= fun _ => writeAll ys := by
  induction xs with
  | nil => rfl
  | cons x xs ih =>
      show (writeBlock x.1 x.2 >>= fun _ => writeAll (xs ++ ys)) = _
      rw [ih, ← Prog.bind_assoc]
      rfl

/-- A write is done, or fails and changes nothing. -/
theorem writeBlock_cases (lba : Nat) (data : Bytes) (dev : Blockdev) :
    (∃ dev', writeBlock lba data dev = (.ok (), dev') ∧ validLba dev lba ∧ dev.failAfter ≠ 0 ∧
      dev'.blocks = Function.update dev.blocks lba (Bytes.clip blockSize data) ∧
      dev'.totalBlocks = dev.totalBlocks ∧
      dev'.failAfter = if 0 < dev.failAfter then dev.failAfter - 1 else dev.failAfter) ∨
    (¬validLba dev lba ∧ writeBlock lba data dev = (.error .inval, dev)) ∨
    (validLba dev lba ∧ dev.failAfter = 0 ∧ writeBlock lba data dev = (.error .io, dev)) := by
  unfold writeBlock
  by_cases hv : validLba dev lba
  · rw [if_neg (not_not.mpr hv)]
    by_cases hf : dev.failAfter = 0
    · rw [if_pos hf]
      exact Or.inr (Or.inr ⟨hv, hf, rfl⟩)
    · rw [if_neg hf]
      exact Or.inl ⟨_, rfl, hv, hf, rfl, rfl, rfl⟩
  · rw [if_pos hv]
    exact Or.inr (Or.inl ⟨hv, rfl⟩)

/-- The device takes `n` more writes. -/
def Allows (dev : Blockdev) (n : Nat) : Prop := dev.failAfter < 0 ∨ (n : Int) ≤ dev.failAfter

instance (dev : Blockdev) (n : Nat) : Decidable (Allows dev n) :=
  inferInstanceAs (Decidable (_ ∨ _))

theorem Allows.mono {dev : Blockdev} {m n : Nat} (h : Allows dev n) (hmn : m ≤ n) :
    Allows dev m := by
  unfold Allows at h ⊢
  omega

/-- What a list of writes does: its first `j` writes, where `j` is all of them exactly if it
returns `OK`. -/
structure WriteOutcome (ws : List (Nat × Bytes)) (dev : Blockdev) (r : Except M16Err Unit)
    (dev' : Blockdev) (j : Nat) : Prop where
  le : j ≤ ws.length
  blocks : dev'.blocks = applyWrites (stored (ws.take j)) dev.blocks
  total : dev'.totalBlocks = dev.totalBlocks
  reach : ∀ n, n ≤ ws.length →
    (n ≤ j ↔ (∀ w ∈ ws.take n, validLba dev w.1) ∧ Allows dev n)
  ok_iff : r = .ok () ↔ j = ws.length
  io : (∀ w ∈ ws, validLba dev w.1) → r = .ok () ∨ r = .error .io

/-- Any device has done no writes. -/
theorem reach_zero (ws : List (Nat × Bytes)) (dev : Blockdev) (j : Nat) :
    0 ≤ j ↔ (∀ w ∈ ws.take 0, validLba dev w.1) ∧ Allows dev 0 := by
  refine iff_of_true (Nat.zero_le j) ⟨fun w hw => ?_, ?_⟩
  · rw [List.take_zero] at hw
    cases hw
  · unfold Allows
    push_cast
    omega

/-- The first write fails. -/
theorem outcome_fail {w : Nat × Bytes} {ws : List (Nat × Bytes)} {dev : Blockdev} {e : M16Err}
    (he : validLba dev w.1 → e = .io ∧ dev.failAfter = 0) :
    WriteOutcome (w :: ws) dev (.error e) dev 0 where
  le := Nat.zero_le _
  blocks := rfl
  total := rfl
  reach := fun n hn => by
    cases n with
    | zero => exact reach_zero _ dev 0
    | succ n =>
        refine ⟨fun h => by omega, fun ⟨hall, ha⟩ => ?_⟩
        have hf := (he (hall w List.mem_cons_self)).2
        unfold Allows at ha
        push_cast at ha
        omega
  ok_iff := by
    constructor
    · intro h
      cases h
    · intro h
      rw [List.length_cons] at h
      omega
  io := fun hall => Or.inr (by rw [(he (hall w List.mem_cons_self)).1])

theorem writeAll_outcome (ws : List (Nat × Bytes)) (dev : Blockdev) :
    ∃ j, WriteOutcome ws dev (writeAll ws dev).1 (writeAll ws dev).2 j := by
  induction ws generalizing dev with
  | nil =>
      refine ⟨0, le_refl _, rfl, rfl, fun n hn => ?_, ⟨fun _ => rfl, fun _ => rfl⟩,
        fun _ => Or.inl rfl⟩
      obtain rfl : n = 0 := Nat.le_zero.mp hn
      exact reach_zero [] dev 0
  | cons w ws ih =>
      rcases writeBlock_cases w.1 w.2 dev with ⟨dev1, hw, hv, hf, hblocks, htotal, hleft⟩ |
        ⟨hv, hw⟩ | ⟨hv, hf, hw⟩
      · have hrun : writeAll (w :: ws) dev = writeAll ws dev1 := Prog.bind_ok hw
        have hvalid : ∀ lba, validLba dev1 lba ↔ validLba dev lba := fun lba => by
          unfold validLba
          rw [htotal]
        -- the first write uses up one of the writes that the device takes
        have hallows : ∀ n, Allows dev1 n ↔ Allows dev (n + 1) := fun n => by
          unfold Allows
          rw [hleft]
          push_cast
          split <;> omega
        obtain ⟨j, hj⟩ := ih dev1
        rw [hrun]
        refine ⟨j + 1, Nat.succ_le_succ hj.le, ?_, hj.total.trans htotal, fun n hn => ?_, ?_,
          fun hall => hj.io fun v hmem => (hvalid _).mpr (hall v (List.mem_cons_of_mem w hmem))⟩
        · rw [hj.blocks, hblocks]
          rfl
        · cases n with
          | zero => exact reach_zero _ dev _
          | succ n =>
              rw [Nat.succ_le_succ_iff, hj.reach n (Nat.succ_le_succ_iff.mp hn), hallows n,
                List.take_succ_cons, List.forall_mem_cons]
              refine and_congr_left fun _ => ⟨fun h => ⟨hv, fun v hmem => ?_⟩, fun h v hmem => ?_⟩
              · exact (hvalid _).mp (h v hmem)
              · exact (hvalid _).mpr (h.2 v hmem)
        · rw [hj.ok_iff, List.length_cons]
          omega
      · have hrun : writeAll (w :: ws) dev = (.error .inval, dev) := Prog.bind_error hw
        rw [hrun]
        exact ⟨0, outcome_fail (fun h => absurd h hv)⟩
      · have hrun : writeAll (w :: ws) dev = (.error .io, dev) := Prog.bind_error hw
        rw [hrun]
        exact ⟨0, outcome_fail (fun _ => ⟨rfl, hf⟩)⟩

/-- Nothing fails if all blocks exist and the device takes that many writes. -/
theorem WriteOutcome.ok {ws : List (Nat × Bytes)} {dev dev' : Blockdev} {r : Except M16Err Unit}
    {j : Nat} (h : WriteOutcome ws dev r dev' j) (hall : ∀ w ∈ ws, validLba dev w.1)
    (ha : Allows dev ws.length) : r = .ok () := by
  have hj : ws.length ≤ j :=
    (h.reach ws.length (le_refl _)).mpr ⟨fun w hw => hall w (List.mem_of_mem_take hw), ha⟩
  exact h.ok_iff.mpr (le_antisymm h.le hj)

/-- A device that takes every write goes on doing so. -/
theorem writeAll_reliable {dev : Blockdev} (h : dev.failAfter < 0) (ws : List (Nat × Bytes)) :
    (writeAll ws dev).2.failAfter = dev.failAfter := by
  induction ws generalizing dev with
  | nil => rfl
  | cons w ws ih =>
      rcases writeBlock_cases w.1 w.2 dev with ⟨dev1, hw, -, -, -, -, hleft⟩ | ⟨-, hw⟩ | ⟨-, -, hw⟩
      · rw [if_neg (by omega)] at hleft
        rw [writeAll, Prog.bind_ok hw, ih (hleft ▸ h), hleft]
      · rw [writeAll, Prog.bind_error hw]
      · rw [writeAll, Prog.bind_error hw]

/-! ## The journal area -/

/-- `lba` is a block of the journal. -/
def InJournal (lba : Nat) : Prop := journalStart ≤ lba ∧ lba < journalStart + journalBlocks

instance (lba : Nat) : Decidable (InJournal lba) := inferInstanceAs (Decidable (_ ∧ _))

/-- The descriptors and payloads of the `n` records from `i` on. -/
def recordWrites (tx : Tx) (i n : Nat) : List (Nat × Bytes) :=
  (List.range' i n).flatMap (fun k =>
    [(descLba k, mkDesc (tx.recs k)), (dataLba k, (tx.recs k).payload)])

/-- The payloads of the `n` records from `i` on, to their targets. -/
def homeWrites (tx : Tx) (i n : Nat) : List (Nat × Bytes) :=
  (List.range' i n).map (fun k => ((tx.recs k).targetLba, (tx.recs k).payload))

theorem commitRecords_eq (tx : Tx) (i n : Nat) :
    commitRecords tx i n = writeAll (recordWrites tx i n) := by
  induction n generalizing i with
  | zero => rfl
  | succ n ih =>
      show (writeBlock _ _ >>= fun _ => writeBlock _ _ >>= fun _ => commitRecords tx (i + 1) n) = _
      rw [ih]
      rfl

theorem commitHome_eq (tx : Tx) (i n : Nat) :
    commitHome tx i n = writeAll (homeWrites tx i n) := by
  induction n generalizing i with
  | zero => rfl
  | succ n ih =>
      show (writeBlock _ _ >>= fun _ => commitHome tx (i + 1) n) = _
      rw [ih]
      rfl

/-- The writes before the header. -/
def logWrites (tx : Tx) : List (Nat × Bytes) :=
  (journalStart, Bytes.zero) :: recordWrites tx 0 tx.count

/-- The writes after the header. -/
def applyPart (tx : Tx) (stop : Bool) : List (Nat × Bytes) :=
  if stop then [] else homeWrites tx 0 tx.count ++ [(journalStart, Bytes.zero)]

/-- All writes of a commit. -/
def commitWrites (tx : Tx) (seq : Nat) (stop : Bool) : List (Nat × Bytes) :=
  logWrites tx ++ (journalStart, mkHeader seq tx.count) :: applyPart tx stop

theorem journalCommit_eq {tx : Tx} (hcount : tx.count ≤ journalMaxRecords) (seq : Nat)
    (stop : Bool) (dev : Blockdev) :
    journalCommit tx seq stop dev = writeAll (commitWrites tx seq stop) dev := by
  unfold journalCommit
  rw [Prog.bind_ok (Prog.failIf_neg (by omega) _ _), commitRecords_eq, commitHome_eq]
  unfold commitWrites logWrites
  rw [writeAll_append]
  have hlast : writeAll ((journalStart, mkHeader seq tx.count) :: applyPart tx stop) =
      (writeBlock journalStart (mkHeader seq tx.count) >>= fun _ =>
        if stop then pure ()
        else writeAll (homeWrites tx 0 tx.count) >>= fun _ => journalClear) := by
    unfold applyPart
    cases stop with
    | true => rfl
    | false =>
        have hclear : writeAll [(journalStart, Bytes.zero)] = journalClear :=
          Prog.bind_pure (writeBlock journalStart Bytes.zero)
        show (writeBlock _ _ >>= fun _ => writeAll (_ ++ _)) = _
        rw [writeAll_append, hclear]
        rfl
  rw [hlast]
  show _ = ((journalClear >>= fun _ => _) >>= fun _ => _) dev
  rw [Prog.bind_assoc]

end Mcsos.Mcsfs1j
