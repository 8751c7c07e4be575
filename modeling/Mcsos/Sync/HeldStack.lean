import Mcsos.Sync.Lockdep

set_option autoImplicit false

/-! # The stack of the lock checker over whole runs

A thread may call the checker with any classes in any order. What it holds is told by the answers
it got: an acquire that was accepted adds its class, a release that was accepted takes its class
away. The checker's array is always that list, and the list falls from the top, so comparing a new
class with the top compares it with everything held.
-/

namespace Mcsos.Sync

/-- The calls of the checker's interface. -/
inductive LockdepCall where
  | beforeAcquire (classId : UInt32) (name : Nat)
  | afterRelease (classId : UInt32)

def LockdepCall.exec : LockdepCall → LockdepState → Int × LockdepState
  | .beforeAcquire classId name => lockdepBeforeAcquire classId name
  | .afterRelease classId => lockdepAfterRelease classId

/-- The classes held after a call with the result `r`, the latest first. -/
def LockdepCall.heldAfter (call : LockdepCall) (r : Int) (held : List UInt32) : List UInt32 :=
  if r ≠ mcsSyncOk then held
  else
    match call with
    | .beforeAcquire classId _ => classId :: held
    | .afterRelease classId => held.erase classId

/-- A checker, and the classes held by what its calls have returned. -/
structure LockdepRun where
  state : LockdepState
  held : List UInt32

def LockdepRun.step (s : LockdepRun) (call : LockdepCall) : LockdepRun :=
  ⟨(call.exec s.state).2, call.heldAfter (call.exec s.state).1 s.held⟩

/-- The run of the calls from `mcs_lockdep_init` on. -/
def lockdepRun (calls : List LockdepCall) : LockdepRun :=
  calls.foldl LockdepRun.step ⟨lockdepInit, []⟩

/-! ## The invariant -/

/-- The stack is the list of the classes held, which falls from the top; above it are zeros. -/
structure LockdepRun.Inv (s : LockdepRun) : Prop where
  classes_eq : classes s.state = s.held
  sorted : s.held.Pairwise (fun a b => b < a)
  nonzero : ∀ c ∈ s.held, c ≠ 0
  depth_le : s.state.depth ≤ mcsLockdepMaxHeld
  above_zero : ∀ i, s.state.depth ≤ i → s.state.heldClass i = 0

/-- The calls that are to be accepted: an acquire of a class above all that are held, if there is
room for it, and a release of the class acquired last. -/
def LockdepRun.Allows (s : LockdepRun) : LockdepCall → Prop
  | .beforeAcquire c _ => c ≠ 0 ∧ s.state.depth < mcsLockdepMaxHeld ∧ ∀ d ∈ s.held, d < c
  | .afterRelease c => s.held.head? = some c

/-- The checker after a call that it accepts. -/
def LockdepCall.accepted : LockdepCall → LockdepState → LockdepState
  | .beforeAcquire c name => LockdepState.push c name
  | .afterRelease _ => LockdepState.pop

/-- What a refused call leaves: the stack as it was, and one violation more unless the class
was 0. -/
def Rejected (state : LockdepState) (r : Int × LockdepState) : Prop :=
  r.2 = { state with
    violationCount := if r.1 = mcsSyncEinval then state.violationCount else state.violationCount + 1 }

theorem rejected_einval (state : LockdepState) : Rejected state (mcsSyncEinval, state) := by
  unfold Rejected
  rw [if_pos rfl]

theorem rejected_violation {r : Int} (hr : r ≠ mcsSyncEinval) (state : LockdepState) :
    Rejected state (violation r state) := by
  unfold Rejected violation
  rw [if_neg hr]

theorem Rejected.classes_eq {state : LockdepState} {r : Int × LockdepState} (h : Rejected state r) :
    classes r.2 = classes state := by
  unfold Rejected at h
  rw [h]
  rfl

/-- A call is accepted or refused, whatever it is. -/
theorem LockdepRun.Inv.exec_cases {s : LockdepRun} (h : s.Inv) (call : LockdepCall) :
    (s.Allows call ∧ call.exec s.state = (mcsSyncOk, call.accepted s.state)) ∨
      (¬s.Allows call ∧ (call.exec s.state).1 ≠ mcsSyncOk ∧
        Rejected s.state (call.exec s.state)) := by
  have heinval : mcsSyncEinval ≠ mcsSyncOk := by decide
  cases call with
  | beforeAcquire c name =>
      show (s.Allows _ ∧ lockdepBeforeAcquire c name s.state = _) ∨
        (_ ∧ (lockdepBeforeAcquire c name s.state).1 ≠ _ ∧
          Rejected _ (lockdepBeforeAcquire c name s.state))
      have hsorted : (classes s.state).Pairwise (fun a b => b < a) := h.classes_eq ▸ h.sorted
      have hcases := lockdepBeforeAcquire_cases hsorted c name
      rw [h.classes_eq] at hcases
      rcases hcases with ⟨hzero, hrun⟩ | ⟨hno, r, hok, hr, hrun⟩ | ⟨hzero, hyes, hrun⟩
      · rw [hrun]
        exact Or.inr ⟨fun ha => ha.1 hzero, heinval, rejected_einval _⟩
      · rw [hrun]
        exact Or.inr ⟨fun ha => hno ha.2, hok, rejected_violation hr _⟩
      · exact Or.inl ⟨⟨hzero, hyes⟩, hrun⟩
  | afterRelease c =>
      show (s.Allows _ ∧ lockdepAfterRelease c s.state = _) ∨
        (_ ∧ (lockdepAfterRelease c s.state).1 ≠ _ ∧ Rejected _ (lockdepAfterRelease c s.state))
      have hcases := lockdepAfterRelease_cases c s.state
      rw [h.classes_eq] at hcases
      rcases hcases with ⟨hzero, hrun⟩ | ⟨hno, r, hok, hr, hrun⟩ | ⟨-, hyes, hrun⟩
      · rw [hrun]
        -- class 0 is never held
        refine Or.inr ⟨fun ha => ?_, heinval, rejected_einval _⟩
        exact h.nonzero c (List.mem_of_head? ha) hzero
      · rw [hrun]
        exact Or.inr ⟨hno, hok, rejected_violation hr _⟩
      · exact Or.inl ⟨hyes, hrun⟩

theorem lockdepInit_inv : LockdepRun.Inv ⟨lockdepInit, []⟩ where
  classes_eq := rfl
  sorted := List.Pairwise.nil
  nonzero := fun c hc => by cases hc
  depth_le := Nat.zero_le _
  above_zero := fun _ _ => rfl

/-- A call that is accepted keeps the invariant. -/
theorem LockdepRun.Inv.accepted {s : LockdepRun} (h : s.Inv) {call : LockdepCall}
    (ha : s.Allows call) :
    LockdepRun.Inv ⟨call.accepted s.state, call.heldAfter mcsSyncOk s.held⟩ := by
  cases call with
  | beforeAcquire c name =>
      obtain ⟨hzero, hdepth, habove⟩ := ha
      refine ⟨?_, List.pairwise_cons.mpr ⟨habove, h.sorted⟩, ?_, hdepth, fun i hi => ?_⟩
      · show classes (s.state.push c name) = c :: s.held
        rw [classes_push, h.classes_eq]
      · intro d hd
        rcases List.mem_cons.mp hd with rfl | hd
        · exact hzero
        · exact h.nonzero d hd
      · have hlt : s.state.depth < i := hi
        show Function.update s.state.heldClass s.state.depth c i = 0
        rw [Function.update_of_ne (by omega)]
        exact h.above_zero i (by omega)
  | afterRelease c =>
      obtain ⟨rest, hrest⟩ := List.head?_eq_some_iff.mp ha
      have hheld : s.held.erase c = rest := by rw [hrest, List.erase_cons_head]
      have hsorted := h.sorted
      rw [hrest] at hsorted
      refine ⟨?_, ?_, fun d hd => h.nonzero d (List.mem_of_mem_erase hd), ?_, fun i hi => ?_⟩
      · show classes s.state.pop = s.held.erase c
        rw [classes_pop (h.classes_eq.trans hrest), hheld]
      · show (s.held.erase c).Pairwise _
        rw [hheld]
        exact (List.pairwise_cons.mp hsorted).2
      · show s.state.depth - 1 ≤ _
        have := h.depth_le
        omega
      · -- the place of the class that has gone is zeroed
        have hle : s.state.depth - 1 ≤ i := hi
        show Function.update s.state.heldClass (s.state.depth - 1) 0 i = 0
        by_cases htop : i = s.state.depth - 1
        · rw [htop, Function.update_self]
        · rw [Function.update_of_ne htop]
          exact h.above_zero i (by omega)

theorem LockdepRun.Inv.step {s : LockdepRun} (h : s.Inv) (call : LockdepCall) :
    (s.step call).Inv := by
  rcases h.exec_cases call with ⟨ha, hrun⟩ | ⟨-, hno, hrejected⟩
  · unfold LockdepRun.step
    rw [hrun]
    exact h.accepted ha
  · have hheld : (s.step call).held = s.held := if_pos hno
    have hstate : (s.step call).state = _ := hrejected
    refine ⟨?_, ?_, ?_, ?_, ?_⟩
    · rw [hheld, ← h.classes_eq]
      exact hrejected.classes_eq
    · rw [hheld]
      exact h.sorted
    · rw [hheld]
      exact h.nonzero
    · rw [hstate]
      exact h.depth_le
    · rw [hstate]
      exact h.above_zero

theorem lockdepRun_inv (calls : List LockdepCall) : (lockdepRun calls).Inv := by
  induction calls using List.reverseRecOn with
  | nil => exact lockdepInit_inv
  | append_singleton calls call ih =>
      unfold lockdepRun
      rw [List.foldl_append]
      exact ih.step call

/-! ## What holds in every run -/

/-- The array of the checker: strictly ascending classes, none of them 0, and zeros after them. -/
structure StackOk (state : LockdepState) : Prop where
  depth_le : state.depth ≤ mcsLockdepMaxHeld
  ascending : ∀ i j, i < j → j < state.depth → state.heldClass i < state.heldClass j
  nonzero : ∀ i, i < state.depth → state.heldClass i ≠ 0
  above_zero : ∀ i, state.depth ≤ i → i < mcsLockdepMaxHeld → state.heldClass i = 0

/-- A stack that falls from the top is an array that rises. -/
theorem heldClass_ascending {heldClass : Nat → UInt32} {n : Nat}
    (h : (classesFrom heldClass n).Pairwise (fun a b => b < a)) {i j : Nat} (hij : i < j)
    (hj : j < n) : heldClass i < heldClass j := by
  induction n with
  | zero => omega
  | succ n ih =>
      obtain ⟨htop, hrest⟩ := List.pairwise_cons.mp h
      rcases Nat.lt_or_eq_of_le (Nat.le_of_lt_succ hj) with hlt | rfl
      · exact ih hrest hlt
      · exact htop _ (mem_classesFrom.mpr ⟨i, hij, rfl⟩)

theorem LockdepRun.Inv.stackOk {s : LockdepRun} (h : s.Inv) : StackOk s.state where
  depth_le := h.depth_le
  ascending := fun i j hij hj =>
    heldClass_ascending (show (classes s.state).Pairwise _ from h.classes_eq ▸ h.sorted) hij hj
  nonzero := fun i hi => by
    apply h.nonzero
    rw [← h.classes_eq]
    exact mem_classesFrom.mpr ⟨i, hi, rfl⟩
  above_zero := fun i hi _ => h.above_zero i hi

/-- `mcs_lockdep_is_held` tells in every run which classes are held. -/
theorem lockdepRun_isHeld (calls : List LockdepCall) (c : UInt32) :
    lockdepIsHeld (lockdepRun calls).state c = true ↔ c ∈ (lockdepRun calls).held := by
  have h := lockdepRun_inv calls
  generalize lockdepRun calls = s at h
  have hmem : c ∈ s.held ↔ ∃ i, i < s.state.depth ∧ s.state.heldClass i = c := by
    rw [← h.classes_eq]
    exact mem_classesFrom
  unfold lockdepIsHeld
  by_cases hzero : c = 0
  · rw [if_pos hzero]
    exact ⟨nofun, fun hc => absurd hzero (h.nonzero c hc)⟩
  · rw [if_neg hzero, min_eq_left h.depth_le, hmem, Option.isSome_iff_exists]
    constructor
    · rintro ⟨i, hi⟩
      obtain ⟨-, hlt, heq, -⟩ := Loop.findFrom_some_iff.mp hi
      exact ⟨i, by omega, by simpa using heq⟩
    · rintro ⟨i, hi, heq⟩
      by_contra hnone
      rw [not_exists, ← Option.eq_none_iff_forall_ne_some, Loop.findFrom_none_iff] at hnone
      have hother := hnone i (Nat.zero_le i) (by omega)
      rw [heq, beq_self_eq_true] at hother
      cases hother

/-- In every run of the checker, from `mcs_lockdep_init` on: the classes held are the array, which
ascends strictly; an acquire is accepted exactly if there is room and its class is above all that
are held, a release exactly if its class was acquired last of those held; and a call that is refused
leaves the stack alone and counts as a violation, unless its class is 0. -/
theorem lockdepRun_stack (calls : List LockdepCall) :
    StackOk (lockdepRun calls).state ∧ classes (lockdepRun calls).state = (lockdepRun calls).held ∧
      (∀ c name, (lockdepBeforeAcquire c name (lockdepRun calls).state).1 = mcsSyncOk ↔
        c ≠ 0 ∧ (lockdepRun calls).state.depth < mcsLockdepMaxHeld ∧
          ∀ i, i < (lockdepRun calls).state.depth → (lockdepRun calls).state.heldClass i < c) ∧
      (∀ c, (lockdepAfterRelease c (lockdepRun calls).state).1 = mcsSyncOk ↔
        (lockdepRun calls).held.head? = some c) ∧
      ∀ call : LockdepCall, (call.exec (lockdepRun calls).state).1 ≠ mcsSyncOk →
        Rejected (lockdepRun calls).state (call.exec (lockdepRun calls).state) := by
  have h := lockdepRun_inv calls
  generalize lockdepRun calls = s at h
  -- a call returns `OK` exactly if it is to be accepted
  have hiff : ∀ call : LockdepCall, (call.exec s.state).1 = mcsSyncOk ↔ s.Allows call := by
    intro call
    rcases h.exec_cases call with ⟨ha, hrun⟩ | ⟨hno, hne, -⟩
    · rw [hrun]
      exact ⟨fun _ => ha, fun _ => rfl⟩
    · exact ⟨fun hok => absurd hok hne, fun ha => absurd ha hno⟩
  refine ⟨h.stackOk, h.classes_eq, fun c name => ?_, fun c => hiff (.afterRelease c), ?_⟩
  · rw [show (lockdepBeforeAcquire c name s.state).1 = mcsSyncOk ↔ _ from
      hiff (.beforeAcquire c name)]
    refine and_congr_right fun _ => and_congr_right fun _ => ?_
    rw [← h.classes_eq]
    constructor
    · intro habove i hi
      exact habove _ (mem_classesFrom.mpr ⟨i, hi, rfl⟩)
    · intro habove d hd
      obtain ⟨i, hi, rfl⟩ := mem_classesFrom.mp hd
      exact habove i hi
  · intro call hno
    rcases h.exec_cases call with ⟨-, hrun⟩ | ⟨-, -, hrejected⟩
    · rw [hrun] at hno
      exact absurd rfl hno
    · exact hrejected

end Mcsos.Sync
