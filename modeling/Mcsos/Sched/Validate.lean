import Mcsos.Sched.ReadyQueue

set_option autoImplicit false

/-! # The check of the ready queue (`kernel/mcsos_thread.c`)

`mcsos_sched_validate` walks links that may lead anywhere, also in a circle. What stops the walk is
the stored number of threads: a list of as many nodes as that cannot be a part of a circle. The
loop is read here as a statement about the list, and also turn by turn with its counter as the
machine word that it is.
-/

namespace Mcsos.Sched

variable {T : Type} [DecidableEq T] {s : State T} {q : List T} {t : T}

/-- A thread that may stand in the ready queue. -/
def Queueable (s : State T) (t : T) : Prop :=
  validThreadObject s (some t) = true ∧ s.states t = .ready ∧ some t ≠ s.sched.current

/-- The ready queue is `q`, and all that the scheduler stores about it is right. -/
structure QueueWellFormed (s : State T) (q : List T) : Prop where
  linked : Linked (fun t => (s.threads t).next) s.sched.readyHead q
  length : q.length = s.sched.runnableCount
  nodup : q.Nodup
  nodes : ∀ t ∈ q, Queueable s t
  last : s.sched.readyTail = q.getLast?

omit [DecidableEq T] in
theorem QueueWellFormed.readyQueue (h : QueueWellFormed s q) : ReadyQueue s q :=
  ⟨⟨h.linked, h.last, h.nodup⟩, h.length.symm⟩

omit [DecidableEq T] in
theorem ReadyQueue.wellFormed (h : ReadyQueue s q) (hq : ∀ t ∈ q, Queueable s t) :
    QueueWellFormed s q := ⟨h.queue.linked, h.count.symm, h.queue.nodup, hq, h.queue.last⟩

/-! ## The walk -/

omit [DecidableEq T] in
/-- The two checks that a walk makes of a node. -/
theorem queueable_iff : Queueable s t ↔
    ¬(¬validThreadObject s (some t) ∨ (s.threads t).state ≠ .ready) ∧ ¬some t = s.sched.current := by
  unfold Queueable
  rw [not_or, not_not, not_not, and_assoc]
  rfl

/-- The walk goes on at a node that may be queued, while the count allows it. -/
theorem validateLoop_node (last : Option T) {count : Nat} (h : Queueable s t)
    (hc : count ≤ s.sched.runnableCount) :
    validateLoop s (some t) last count =
      validateLoop s (s.threads t).next (some t) (count + 1) := by
  obtain ⟨hchecks, hcurrent⟩ := queueable_iff.mp h
  rw [validateLoop, if_neg hchecks, if_neg hcurrent, if_neg (by omega)]

theorem validateLoop_stop (last : Option T) {count : Nat}
    (h : ¬(Queueable s t ∧ count ≤ s.sched.runnableCount)) :
    validateLoop s (some t) last count = .error schedEcorrupt := by
  rw [validateLoop]
  split_ifs with hchecks hcurrent hcount
  · rfl
  · rfl
  · rfl
  · exact absurd ⟨queueable_iff.mpr ⟨hchecks, hcurrent⟩, by omega⟩ h

omit [DecidableEq T] in
/-- What a walk makes of the last node of a list, where `last` is the node before it. -/
theorem getLast_cons_or (t : T) (q : List T) (last : Option T) :
    (t :: q).getLast?.or last = q.getLast?.or (some t) := by
  rw [List.getLast?_cons]
  cases q.getLast? <;> rfl

/-- The walk gets to its end on a list of nodes that may be queued, if the list is short enough. -/
theorem validateLoop_ok_iff (cursor last : Option T) (count : Nat) (r : Option T × Nat) :
    validateLoop s cursor last count = .ok r ↔
      ∃ q, Linked (fun t => (s.threads t).next) cursor q ∧ (∀ t ∈ q, Queueable s t) ∧
        (q = [] ∨ count + q.length ≤ s.sched.runnableCount + 1) ∧
        r = (q.getLast?.or last, count + q.length) := by
  cases cursor with
  | none =>
      rw [Linked.exists_none, validateLoop]
      simp [eq_comm]
  | some t =>
      rw [Linked.exists_some]
      by_cases h : Queueable s t ∧ count ≤ s.sched.runnableCount
      · rw [validateLoop_node last h.1 h.2, validateLoop_ok_iff (s.threads t).next (some t) (count + 1)]
        refine exists_congr fun q => and_congr_right fun _ => ?_
        have hlen : count + (t :: q).length = count + 1 + q.length := by simp; omega
        rw [getLast_cons_or, hlen, List.forall_mem_cons]
        have hroom : q = [] ∨ count + 1 + q.length ≤ s.sched.runnableCount + 1 ↔
            t :: q = [] ∨ count + 1 + q.length ≤ s.sched.runnableCount + 1 := by
          cases q with
          | nil => simpa using h.2
          | cons u q => simp
        rw [hroom]
        simp [h.1]
      · rw [validateLoop_stop last h]
        refine iff_of_false (by simp) ?_
        rintro ⟨q, -, hall, hlen, -⟩
        apply h
        simp only [List.length_cons, reduceCtorEq, false_or] at hlen
        exact ⟨hall t (by simp), by omega⟩
  termination_by s.sched.runnableCount + 2 - count

theorem validateLoop_error (cursor last : Option T) (count : Nat) {rc : Int}
    (h : validateLoop s cursor last count = .error rc) : rc = schedEcorrupt := by
  fun_induction validateLoop s cursor last count with
  | case1 => cases h
  | case2 => exact (Except.error.inj h).symm
  | case3 => exact (Except.error.inj h).symm
  | case4 => exact (Except.error.inj h).symm
  | case5 _ _ _ _ _ _ ih => exact ih h

/-- The check accepts the queues that are well formed. -/
theorem schedValidate_iff : schedValidate s = schedOk ↔ s.sched.initialized = true ∧
    validThreadObject s s.sched.current = true ∧ ∃ q, QueueWellFormed s q := by
  by_cases hguard : ¬s.sched.initialized ∨ ¬validThreadObject s s.sched.current
  · rw [schedValidate, if_pos hguard]
    refine iff_of_false (by decide) ?_
    rintro ⟨hinit, hvalid, -⟩
    simp [hinit, hvalid] at hguard
  · rw [schedValidate, if_neg hguard]
    push Not at hguard
    have hloop := validateLoop_ok_iff (s := s) s.sched.readyHead none 0
    cases hr : validateLoop s s.sched.readyHead none 0 with
    | error rc =>
        obtain rfl := validateLoop_error _ _ _ hr
        refine iff_of_false (show schedEcorrupt ≠ schedOk by decide) ?_
        rintro ⟨-, -, q, h⟩
        have hok := (hloop (q.getLast?.or none, 0 + q.length)).mpr
          ⟨q, h.linked, h.nodes, Or.inr (by have := h.length; omega), rfl⟩
        rw [hr] at hok
        cases hok
    | ok r =>
        obtain ⟨q, hq, hall, -, rfl⟩ := (hloop r).mp hr
        simp only [Option.or_none, Nat.zero_add]
        constructor
        · intro h
          split_ifs at h with hlast hcount
          · cases h
          · cases h
          · exact ⟨hguard.1, hguard.2, q, hq, not_not.mp hcount, hq.nodup, hall,
              (not_not.mp hlast).symm⟩
        · rintro ⟨-, -, q', h⟩
          obtain rfl := hq.unique h.linked
          rw [if_neg (not_not.mpr h.last.symm), if_neg (not_not.mpr h.length)]

/-! ## The counter as a machine word -/

/-- `turns` turns of the loop of `mcsos_sched_validate`, with `count` the word that it is; `none`
when it is not at its end then. -/
def validateTurns (s : State T) : (turns : Nat) → (cursor last : Option T) → (count : UInt64) →
    Option (Except Int (Option T × UInt64))
  | _, none, last, count => some (.ok (last, count))
  | 0, some _, _, _ => none
  | turns + 1, some t, _, count =>
    if ¬validThreadObject s (some t) ∨ (s.threads t).state ≠ .ready then
      some (.error schedEcorrupt)
    else if some t = s.sched.current then some (.error schedEcorrupt)
    else if count + 1 > UInt64.ofNat s.sched.runnableCount + 1 then some (.error schedEcorrupt)
    else validateTurns s turns (s.threads t).next (some t) (count + 1)

/-- `mcsos_sched_validate`, if its loop needs no more than `turns` turns. -/
def schedValidateWithin (s : State T) (turns : Nat) : Option Int :=
  if ¬s.sched.initialized ∨ ¬validThreadObject s s.sched.current then some schedEinval
  else
    (validateTurns s turns s.sched.readyHead none 0).map fun
      | .error rc => rc
      | .ok (last, count) =>
        if last ≠ s.sched.readyTail then schedEcorrupt
        else if count ≠ UInt64.ofNat s.sched.runnableCount then schedEcorrupt
        else schedOk

/-- A turn on a node that may be queued and that the counter lets pass. -/
theorem validateTurns_node (turns : Nat) (last : Option T) {count : UInt64} (h : Queueable s t)
    (hc : ¬count + 1 > UInt64.ofNat s.sched.runnableCount + 1) :
    validateTurns s (turns + 1) (some t) last count =
      validateTurns s turns (s.threads t).next (some t) (count + 1) := by
  obtain ⟨hchecks, hcurrent⟩ := queueable_iff.mp h
  rw [validateTurns, if_neg hchecks, if_neg hcurrent, if_neg hc]

theorem validateTurns_stop (turns : Nat) (last : Option T) {count : UInt64}
    (h : ¬(Queueable s t ∧ ¬count + 1 > UInt64.ofNat s.sched.runnableCount + 1)) :
    validateTurns s (turns + 1) (some t) last count = some (.error schedEcorrupt) := by
  rw [validateTurns]
  split_ifs with hchecks hcurrent hcount
  · rfl
  · rfl
  · rfl
  · exact absurd ⟨queueable_iff.mpr ⟨hchecks, hcurrent⟩, hcount⟩ h

/-- Where the largest count the loop can reach is a word, the word counts as the number does. -/
theorem validateTurns_eq (hrc : s.sched.runnableCount + 2 < 2 ^ 64) (turns : Nat)
    (cursor last : Option T) {count : Nat} (hcount : count ≤ s.sched.runnableCount + 1)
    (hturns : s.sched.runnableCount + 2 ≤ count + turns) :
    validateTurns s turns cursor last (.ofNat count) =
      some ((validateLoop s cursor last count).map fun r => (r.1, .ofNat r.2)) := by
  induction turns generalizing cursor last count with
  | zero => omega
  | succ turns ih =>
      cases cursor with
      | none => simp [validateTurns, validateLoop, Except.map]
      | some t =>
          have hword : UInt64.ofNat count + 1 > UInt64.ofNat s.sched.runnableCount + 1 ↔
              ¬count ≤ s.sched.runnableCount := by
            rw [gt_iff_lt, UInt64.lt_iff_toNat_lt, UInt64.toNat_add, UInt64.toNat_add,
              UInt64.toNat_ofNat', UInt64.toNat_ofNat']
            simp only [UInt64.reduceToNat]
            omega
          by_cases h : Queueable s t ∧ count ≤ s.sched.runnableCount
          · rw [validateTurns_node turns last h.1 (by simpa [hword] using h.2),
              validateLoop_node last h.1 h.2,
              show UInt64.ofNat count + 1 = UInt64.ofNat (count + 1) from (UInt64.ofNat_add ..).symm]
            exact ih _ _ (by omega) (by omega)
          · rw [validateTurns_stop turns last (by simpa [hword] using h),
              validateLoop_stop last h]
            rfl

theorem schedValidateWithin_eq (hrc : s.sched.runnableCount + 2 < 2 ^ 64) :
    schedValidateWithin s (s.sched.runnableCount + 2) = some (schedValidate s) := by
  rw [schedValidateWithin, schedValidate]
  by_cases hguard : ¬s.sched.initialized ∨ ¬validThreadObject s s.sched.current
  · rw [if_pos hguard, if_pos hguard]
  have hturns := validateTurns_eq hrc (s.sched.runnableCount + 2) s.sched.readyHead none
    (Nat.zero_le _) (Nat.le_add_left _ _)
  rw [if_neg hguard, if_neg hguard, show (0 : UInt64) = .ofNat 0 from rfl, hturns, Option.map_some]
  cases hr : validateLoop s s.sched.readyHead none 0 with
  | error rc => rfl
  | ok r =>
      obtain ⟨q, -, -, hlen, rfl⟩ := (validateLoop_ok_iff _ _ _ r).mp hr
      have hshort : q.length ≤ s.sched.runnableCount + 1 := by
        rcases hlen with rfl | hlen
        · simp
        · omega
      have hcount : UInt64.ofNat (0 + q.length) = UInt64.ofNat s.sched.runnableCount ↔
          0 + q.length = s.sched.runnableCount := by
        rw [← UInt64.toNat_inj, UInt64.toNat_ofNat', UInt64.toNat_ofNat']
        omega
      simp only [Except.map, ne_eq, hcount]

/-! ## The largest bound

With `2 ^ 64 - 2` threads stored, the bound of the counter is the largest word, and no count is
above it. -/

omit [DecidableEq T] in
theorem no_count_above (h : s.sched.runnableCount = 2 ^ 64 - 2) (count : UInt64) :
    ¬count + 1 > UInt64.ofNat s.sched.runnableCount + 1 := by
  have hcount := (count + 1).toNat_lt
  rw [gt_iff_lt, UInt64.lt_iff_toNat_lt, UInt64.toNat_add (UInt64.ofNat _), UInt64.toNat_ofNat', h]
  simp only [UInt64.reduceToNat]
  omega

theorem validateTurns_none_iff (h : s.sched.runnableCount = 2 ^ 64 - 2) (turns : Nat)
    (cursor last : Option T) (count : UInt64) :
    validateTurns s turns cursor last count = none ↔
      ∃ u p, LinkedTo (fun t => (s.threads t).next) cursor p (some u) ∧ p.length = turns ∧
        ∀ t ∈ p, Queueable s t := by
  induction turns generalizing cursor last count with
  | zero => cases cursor <;> simp [validateTurns, LinkedTo]
  | succ turns ih =>
      cases cursor with
      | none => simp [validateTurns, LinkedTo.exists_none]
      | some t =>
          simp only [LinkedTo.exists_some, List.forall_mem_cons]
          by_cases hq : Queueable s t
          · rw [validateTurns_node turns last hq (no_count_above h count), ih]
            simp only [hq, true_and]
          · rw [validateTurns_stop turns last fun hstop => hq hstop.1]
            simp [hq]

theorem validateTurns_ok_iff (h : s.sched.runnableCount = 2 ^ 64 - 2) (turns : Nat)
    (cursor last : Option T) (count : UInt64) (r : Option T × UInt64) :
    validateTurns s turns cursor last count = some (.ok r) ↔
      ∃ q, Linked (fun t => (s.threads t).next) cursor q ∧ q.length ≤ turns ∧
        (∀ t ∈ q, Queueable s t) ∧ r = (q.getLast?.or last, count + .ofNat q.length) := by
  induction turns generalizing cursor last count with
  | zero =>
      cases cursor with
      | none =>
          rw [Linked.exists_none, validateTurns]
          simp [eq_comm]
      | some t =>
          rw [Linked.exists_some, validateTurns]
          simp
  | succ turns ih =>
      cases cursor with
      | none =>
          rw [Linked.exists_none, validateTurns]
          simp [eq_comm]
      | some t =>
          rw [Linked.exists_some]
          by_cases hq : Queueable s t
          · rw [validateTurns_node turns last hq (no_count_above h count), ih]
            refine exists_congr fun q => and_congr_right fun _ => ?_
            have hcount : count + 1 + UInt64.ofNat q.length = count + .ofNat (t :: q).length := by
              rw [List.length_cons, UInt64.ofNat_add, UInt64.add_assoc,
                UInt64.add_comm (UInt64.ofNat q.length)]
              rfl
            rw [getLast_cons_or, hcount, List.forall_mem_cons]
            simp [hq]
          · rw [validateTurns_stop turns last fun hstop => hq hstop.1]
            simp [hq]

theorem validateTurns_error (turns : Nat) (cursor last : Option T) (count : UInt64) {rc : Int}
    (h : validateTurns s turns cursor last count = some (.error rc)) : rc = schedEcorrupt := by
  fun_induction validateTurns s turns cursor last count with
  | case1 => cases h
  | case2 => cases h
  | case3 => exact (Except.error.inj (Option.some.inj h)).symm
  | case4 => exact (Except.error.inj (Option.some.inj h)).symm
  | case5 => exact (Except.error.inj (Option.some.inj h)).symm
  | case6 _ _ _ _ _ _ _ ih => exact ih h

/-! ## What the check decides -/

/-- The check comes to its end within two turns more than the stored number, and accepts just the
well-formed queues. -/
def ValidateExact (s : State T) : Prop :=
  ∃ rc, schedValidateWithin s (s.sched.runnableCount + 2) = some rc ∧
    (rc = schedOk ↔ validThreadObject s s.sched.current = true ∧ ∃ q, QueueWellFormed s q)

/-- The walk meets `2 ^ 64` nodes that may be queued, and then one more. There are not that many
threads, so it goes in a circle. -/
def Endless (s : State T) : Prop :=
  ∃ u p, LinkedTo (fun t => (s.threads t).next) s.sched.readyHead p (some u) ∧
    p.length = 2 ^ 64 ∧ ∀ t ∈ p, Queueable s t

/-- Below the largest bound, the check of words is the check of numbers. -/
theorem validateExact_of_lt (hi : s.sched.initialized = true)
    (hrc : s.sched.runnableCount + 2 < 2 ^ 64) : ValidateExact s := by
  refine ⟨schedValidate s, schedValidateWithin_eq hrc, ?_⟩
  rw [schedValidate_iff]
  simp [hi]

theorem validateExact_largest_iff (hi : s.sched.initialized = true)
    (hvalid : validThreadObject s s.sched.current = true)
    (hrc : s.sched.runnableCount = 2 ^ 64 - 2) : ValidateExact s ↔ ¬Endless s := by
  have hturns : s.sched.runnableCount + 2 = 2 ^ 64 := by omega
  have hnone := validateTurns_none_iff hrc (2 ^ 64) s.sched.readyHead none 0
  have hok := validateTurns_ok_iff hrc (2 ^ 64) s.sched.readyHead none 0
  have herror : ∀ rc, validateTurns s (2 ^ 64) s.sched.readyHead none 0 = some (.error rc) →
      rc = schedEcorrupt := fun rc => validateTurns_error (2 ^ 64) s.sched.readyHead none 0
  rw [ValidateExact, hturns, schedValidateWithin, if_neg (by simp [hi, hvalid])]
  generalize validateTurns s (2 ^ 64) s.sched.readyHead none 0 = result at hnone hok herror
  cases result with
  | none =>
      refine iff_of_false (by simp) ?_
      exact not_not.mpr (hnone.mp rfl)
  | some result =>
      refine iff_of_true ?_ fun hend => absurd (hnone.mpr hend) (by simp)
      refine ⟨_, rfl, ?_⟩
      cases result with
      | error rc =>
          obtain rfl := herror rc rfl
          refine iff_of_false (show schedEcorrupt ≠ schedOk by decide) ?_
          rintro ⟨-, q, h⟩
          have := (hok _).mpr ⟨q, h.linked, by have := h.length; omega, h.nodes, rfl⟩
          cases this
      | ok r =>
          obtain ⟨q, hq, hlen, hall, rfl⟩ := (hok r).mp rfl
          have hcount : 0 + UInt64.ofNat q.length = UInt64.ofNat s.sched.runnableCount ↔
              q.length = s.sched.runnableCount := by
            rw [UInt64.zero_add, ← UInt64.toNat_inj, UInt64.toNat_ofNat', UInt64.toNat_ofNat']
            omega
          simp only [Option.or_none, ne_eq, hcount]
          constructor
          · intro h
            split_ifs at h with hlast hcount
            · exact ⟨hvalid, q, hq, hcount, hq.nodup, hall, hlast.symm⟩
            · cases h
            · cases h
          · rintro ⟨-, q', h⟩
            obtain rfl := hq.unique h.linked
            simp [h.last, h.length]

/-- The check decides whether the queue is well formed, but for a circle of ready threads under the
largest stored number, on which it runs for ever. -/
theorem schedValidate_exact_iff (hi : s.sched.initialized = true)
    (hrc : s.sched.runnableCount < 2 ^ 64 - 1) :
    ValidateExact s ↔ ¬(s.sched.runnableCount = 2 ^ 64 - 2 ∧
      validThreadObject s s.sched.current = true ∧ Endless s) := by
  by_cases hmax : s.sched.runnableCount = 2 ^ 64 - 2
  · by_cases hvalid : validThreadObject s s.sched.current = true
    · rw [validateExact_largest_iff hi hvalid hmax]
      simp [hmax, hvalid]
    · refine iff_of_true ⟨schedEinval, ?_, ?_⟩ fun h => hvalid h.2.1
      · rw [schedValidateWithin, if_pos (Or.inr hvalid)]
      · refine iff_of_false (by decide) fun h => hvalid h.1
  · exact iff_of_true (validateExact_of_lt hi (by omega)) fun h => hmax h.1

/-- A thread runs, and another one is ready and linked to itself; `count` threads are stored. -/
def circleState (count : Nat) : State Bool where
  sched := ⟨some false, some false, some true, some true, 2, count, 0, 0, true⟩
  threads := fun t =>
    ⟨threadMagic, 0, 0, if t then .ready else .running, zeroContext, 0, 0, 0, 0, some true, 0, 0, 0⟩

theorem schedValidate_exact_circle : ValidateExact (circleState 1) :=
  (schedValidate_exact_iff rfl (by decide)).mpr fun h => absurd h.1 (by decide)

theorem circleState_turns (turns : Nat) (last : Option Bool) (count : UInt64) :
    validateTurns (circleState (2 ^ 64 - 2)) turns (some true) last count = none := by
  induction turns generalizing last count with
  | zero => rfl
  | succ turns ih =>
      have hq : Queueable (circleState (2 ^ 64 - 2)) true := ⟨rfl, rfl, by decide⟩
      rw [validateTurns_node turns last hq (no_count_above rfl count)]
      exact ih _ _

/-- Under the largest stored number the check of a circle never returns. -/
theorem schedValidate_endless :
    (circleState (2 ^ 64 - 2)).sched.runnableCount < 2 ^ 64 - 1 ∧
      (∀ turns, schedValidateWithin (circleState (2 ^ 64 - 2)) turns = none) ∧
      ¬ValidateExact (circleState (2 ^ 64 - 2)) := by
  have hnone : ∀ turns, schedValidateWithin (circleState (2 ^ 64 - 2)) turns = none := by
    intro turns
    rw [schedValidateWithin, if_neg (by decide)]
    exact congrArg (Option.map _) (circleState_turns turns none 0)
  refine ⟨by decide, hnone, ?_⟩
  rintro ⟨rc, hrc, -⟩
  rw [hnone] at hrc
  cases hrc

end Mcsos.Sched
