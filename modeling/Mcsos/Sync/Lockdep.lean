import Mcsos.Lib.Loop

set_option autoImplicit false

/-! # The lock checker (`kernel/sync/lockdep.c`, `kernel/sync/spinlock.c`)

Every thread has a stack of the classes of the locks it holds. A lock may be taken if its class is
above the top of the stack, so stacks are sorted; that is all that `BeforeAcquire` below has to say
of `mcs_lockdep_before_acquire`.
-/

namespace Mcsos.Sync

def mcsSyncOk : Int := 0
def mcsSyncEinval : Int := -22
def mcsSyncEbusy : Int := -16
def mcsSyncEperm : Int := -1
def mcsSyncEdeadlk : Int := -35
def mcsSyncEoverflow : Int := -75

/-! ## Spin locks -/

/-- `mcs_spinlock_t`; `name` is the address of the name. -/
structure Spinlock where
  locked : UInt32
  classId : UInt32
  name : Nat

def spinInit (classId : UInt32) (name : Nat) : Spinlock := ⟨0, classId, name⟩

/-- `mcs_spin_try_lock`, one atomic exchange. -/
def spinTryLock (lock : Spinlock) : Bool × Spinlock := (lock.locked == 0, { lock with locked := 1 })

def spinUnlock (lock : Spinlock) : Spinlock := { lock with locked := 0 }

/-! ## The stack of classes -/

def mcsLockdepMaxHeld : Nat := 16

/-- `mcs_lockdep_state_t`; the names are addresses. -/
structure LockdepState where
  heldClass : Nat → UInt32
  heldName : Nat → Nat
  depth : Nat
  violationCount : UInt32

def lockdepInit : LockdepState := ⟨fun _ => 0, fun _ => 0, 0, 0⟩

def lockdepIsHeld (state : LockdepState) (classId : UInt32) : Bool :=
  if classId = 0 then false
  else (Loop.findFrom (fun i => state.heldClass i == classId) 0
    (min state.depth mcsLockdepMaxHeld)).isSome

/-- `state->violation_count++; return r;` -/
def violation (r : Int) (state : LockdepState) : Int × LockdepState :=
  (r, { state with violationCount := state.violationCount + 1 })

def lockdepBeforeAcquire (classId : UInt32) (name : Nat) (state : LockdepState) :
    Int × LockdepState :=
  if classId = 0 then (mcsSyncEinval, state)
  else if mcsLockdepMaxHeld ≤ state.depth then violation mcsSyncEoverflow state
  else if (Loop.findFrom (fun i => state.heldClass i == classId) 0 state.depth).isSome then
    violation mcsSyncEdeadlk state
  else if 0 < state.depth ∧ classId < state.heldClass (state.depth - 1) then
    violation mcsSyncEdeadlk state
  else
    (mcsSyncOk, { state with
      heldClass := Function.update state.heldClass state.depth classId
      heldName := Function.update state.heldName state.depth name
      depth := state.depth + 1 })

def lockdepAfterRelease (classId : UInt32) (state : LockdepState) : Int × LockdepState :=
  if classId = 0 then (mcsSyncEinval, state)
  else if state.depth = 0 then violation mcsSyncEperm state
  else
    let index := state.depth - 1
    if state.heldClass index ≠ classId then violation mcsSyncEdeadlk state
    else
      (mcsSyncOk, { state with
        heldClass := Function.update state.heldClass index 0
        heldName := Function.update state.heldName index 0
        depth := state.depth - 1 })

/-- The stack, top first: the first `n` classes. -/
def classesFrom (heldClass : Nat → UInt32) : Nat → List UInt32
  | 0 => []
  | n + 1 => heldClass n :: classesFrom heldClass n

/-- The classes that a thread holds, the latest first. -/
def classes (state : LockdepState) : List UInt32 := classesFrom state.heldClass state.depth

theorem classesFrom_update {heldClass : Nat → UInt32} {n i : Nat} (h : n ≤ i) (c : UInt32) :
    classesFrom (Function.update heldClass i c) n = classesFrom heldClass n := by
  induction n with
  | zero => rfl
  | succ n ih =>
      rw [classesFrom, classesFrom, ih (by omega), Function.update_of_ne (by omega)]

theorem mem_classesFrom {heldClass : Nat → UInt32} {n : Nat} {c : UInt32} :
    c ∈ classesFrom heldClass n ↔ ∃ i, i < n ∧ heldClass i = c := by
  induction n with
  | zero => exact ⟨nofun, fun ⟨i, hi, _⟩ => absurd hi (Nat.not_lt_zero i)⟩
  | succ n ih =>
      rw [classesFrom, List.mem_cons, ih]
      constructor
      · rintro (rfl | ⟨i, hi, hc⟩)
        · exact ⟨n, Nat.lt_succ_self n, rfl⟩
        · exact ⟨i, by omega, hc⟩
      · rintro ⟨i, hi, hc⟩
        rcases Nat.lt_or_eq_of_le (Nat.le_of_lt_succ hi) with hlt | rfl
        · exact Or.inr ⟨i, hlt, hc⟩
        · exact Or.inl hc.symm

/-- The checker with one more class on its stack. -/
def LockdepState.push (classId : UInt32) (name : Nat) (state : LockdepState) : LockdepState :=
  { state with
    heldClass := Function.update state.heldClass state.depth classId
    heldName := Function.update state.heldName state.depth name
    depth := state.depth + 1 }

/-- The checker without the class on top. -/
def LockdepState.pop (state : LockdepState) : LockdepState :=
  { state with
    heldClass := Function.update state.heldClass (state.depth - 1) 0
    heldName := Function.update state.heldName (state.depth - 1) 0
    depth := state.depth - 1 }

theorem classes_head (state : LockdepState) : (classes state).head? =
    if state.depth = 0 then none else some (state.heldClass (state.depth - 1)) := by
  unfold classes
  cases state.depth with
  | zero => rfl
  | succ n => rfl

theorem classes_push (classId : UInt32) (name : Nat) (state : LockdepState) :
    classes (state.push classId name) = classId :: classes state := by
  show Function.update state.heldClass state.depth classId state.depth ::
    classesFrom (Function.update state.heldClass state.depth classId) state.depth = _
  rw [Function.update_self, classesFrom_update (le_refl _)]
  rfl

theorem classes_pop {state : LockdepState} {top : UInt32} {rest : List UInt32}
    (h : classes state = top :: rest) : classes state.pop = rest := by
  unfold classes at h
  rcases hn : state.depth with _ | n
  · rw [hn] at h
    cases h
  · rw [hn, classesFrom] at h
    show classesFrom (Function.update state.heldClass (state.depth - 1) 0) (state.depth - 1) = rest
    rw [hn, Nat.add_sub_cancel, classesFrom_update (le_refl n)]
    exact (List.cons.inj h).2

/-- A class is above a sorted stack if it is above the top. -/
theorem above_of_top {stack : List UInt32} (hsorted : stack.Pairwise (fun a b => b < a)) {c : UInt32}
    (htop : ∀ top, stack.head? = some top → top < c) : ∀ d ∈ stack, d < c := by
  cases stack with
  | nil => exact fun d hd => by cases hd
  | cons top rest =>
      have hlt := htop top rfl
      intro d hd
      rcases List.mem_cons.mp hd with rfl | hd
      · exact hlt
      · exact UInt32.lt_trans ((List.pairwise_cons.mp hsorted).1 d hd) hlt

/-- What `mcs_lockdep_before_acquire` does on a sorted stack: refuse class 0, refuse with a
violation, or push a class that is above all others. -/
theorem lockdepBeforeAcquire_cases {state : LockdepState}
    (hsorted : (classes state).Pairwise (fun a b => b < a)) (c : UInt32) (name : Nat) :
    (c = 0 ∧ lockdepBeforeAcquire c name state = (mcsSyncEinval, state)) ∨
    (¬(state.depth < mcsLockdepMaxHeld ∧ ∀ d ∈ classes state, d < c) ∧
      ∃ r, r ≠ mcsSyncOk ∧ r ≠ mcsSyncEinval ∧
        lockdepBeforeAcquire c name state = violation r state) ∨
    (c ≠ 0 ∧ (state.depth < mcsLockdepMaxHeld ∧ ∀ d ∈ classes state, d < c) ∧
      lockdepBeforeAcquire c name state = (mcsSyncOk, state.push c name)) := by
  unfold lockdepBeforeAcquire
  split_ifs with hzero hfull hheld htop
  · exact Or.inl ⟨hzero, rfl⟩
  · refine Or.inr (Or.inl ⟨fun h => absurd h.1 (not_lt.mpr hfull), mcsSyncEoverflow, ?_⟩)
    exact ⟨by decide, by decide, rfl⟩
  · -- the class is on the stack
    refine Or.inr (Or.inl ⟨fun h => ?_, mcsSyncEdeadlk, by decide, by decide, rfl⟩)
    obtain ⟨i, hi⟩ := Option.isSome_iff_exists.mp hheld
    obtain ⟨-, hlt, heq, -⟩ := Loop.findFrom_some_iff.mp hi
    have hmem : c ∈ classes state :=
      mem_classesFrom.mpr ⟨i, by omega, by simpa using heq⟩
    exact UInt32.lt_irrefl c (h.2 c hmem)
  · -- the class is below the top
    refine Or.inr (Or.inl ⟨fun h => ?_, mcsSyncEdeadlk, by decide, by decide, rfl⟩)
    have hmem : state.heldClass (state.depth - 1) ∈ classes state :=
      mem_classesFrom.mpr ⟨state.depth - 1, by omega, rfl⟩
    exact UInt32.lt_asymm htop.2 (h.2 _ hmem)
  · refine Or.inr (Or.inr ⟨hzero, ⟨not_le.mp hfull, above_of_top hsorted fun top hhead => ?_⟩, rfl⟩)
    have hne : ∀ i, i < state.depth → state.heldClass i ≠ c := fun i hi he => by
      rw [Option.isSome_iff_ne_none, not_not, Loop.findFrom_none_iff] at hheld
      have hother := hheld i (Nat.zero_le i) (by omega)
      rw [he, beq_self_eq_true] at hother
      cases hother
    -- the top is not the class, and not above it
    rw [classes_head] at hhead
    split_ifs at hhead with hdepth
    obtain rfl := Option.some.inj hhead
    have hle : ¬c < state.heldClass (state.depth - 1) := fun hlt => htop ⟨by omega, hlt⟩
    exact UInt32.lt_of_le_of_ne (UInt32.not_lt.mp hle) (hne _ (by omega))

/-- What `mcs_lockdep_after_release` does: refuse class 0, refuse with a violation, or pop the class
if it is on top. -/
theorem lockdepAfterRelease_cases (c : UInt32) (state : LockdepState) :
    (c = 0 ∧ lockdepAfterRelease c state = (mcsSyncEinval, state)) ∨
    ((classes state).head? ≠ some c ∧ ∃ r, r ≠ mcsSyncOk ∧ r ≠ mcsSyncEinval ∧
      lockdepAfterRelease c state = violation r state) ∨
    (c ≠ 0 ∧ (classes state).head? = some c ∧
      lockdepAfterRelease c state = (mcsSyncOk, state.pop)) := by
  rw [classes_head]
  unfold lockdepAfterRelease
  by_cases hzero : c = 0
  · exact Or.inl ⟨hzero, if_pos hzero⟩
  rw [if_neg hzero]
  by_cases hempty : state.depth = 0
  · rw [if_pos hempty, if_pos hempty]
    exact Or.inr (Or.inl ⟨nofun, mcsSyncEperm, by decide, by decide, rfl⟩)
  rw [if_neg hempty, if_neg hempty]
  dsimp only
  by_cases htop : state.heldClass (state.depth - 1) ≠ c
  · rw [if_pos htop]
    refine Or.inr (Or.inl ⟨fun h => htop (Option.some.inj h), mcsSyncEdeadlk, ?_⟩)
    exact ⟨by decide, by decide, rfl⟩
  · rw [if_neg htop]
    exact Or.inr (Or.inr ⟨hzero, congrArg some (not_not.mp htop), rfl⟩)

/-- A class is pushed on a sorted stack if it is above all that is there, and else nothing is. -/
theorem lockdepBeforeAcquire_spec {c : UInt32} {state : LockdepState}
    (hsorted : (classes state).Pairwise (fun a b => b < a)) (name : Nat) :
    ((lockdepBeforeAcquire c name state).1 = mcsSyncOk ∧
      classes (lockdepBeforeAcquire c name state).2 = c :: classes state ∧
      ∀ d ∈ classes state, d < c) ∨
    ((lockdepBeforeAcquire c name state).1 ≠ mcsSyncOk ∧
      classes (lockdepBeforeAcquire c name state).2 = classes state) := by
  rcases lockdepBeforeAcquire_cases hsorted c name with
    ⟨-, h⟩ | ⟨-, r, hr, -, h⟩ | ⟨-, ⟨-, habove⟩, h⟩
  · rw [h]
    exact Or.inr ⟨(by decide : mcsSyncEinval ≠ mcsSyncOk), rfl⟩
  · rw [h]
    exact Or.inr ⟨hr, rfl⟩
  · rw [h]
    exact Or.inl ⟨rfl, classes_push c name state, habove⟩

/-- The class on top is popped. -/
theorem lockdepAfterRelease_spec {classId : UInt32} {state : LockdepState} {rest : List UInt32}
    (hzero : classId ≠ 0) (h : classes state = classId :: rest) :
    (lockdepAfterRelease classId state).1 = mcsSyncOk ∧
      classes (lockdepAfterRelease classId state).2 = rest := by
  rcases lockdepAfterRelease_cases classId state with ⟨h0, -⟩ | ⟨hne, -⟩ | ⟨-, -, hrun⟩
  · exact absurd h0 hzero
  · rw [h] at hne
    exact absurd rfl hne
  · rw [hrun]
    exact ⟨rfl, classes_pop h⟩

end Mcsos.Sync
