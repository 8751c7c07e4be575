import Mcsos.Lib.Serial
import Mcsos.Sync.Lockdep

set_option autoImplicit false

/-! # Spin locks (`kernel/sync/spinlock.c`)

Threads call `mcs_spin_lock`, work on the data that the lock is for, and call `mcs_spin_unlock`, as
`m12_sync_selftest` does. Each exchange, load and store of the lock is a turn of its own, and so is
each operation on the data; no turn of a thread that spins has to lead anywhere.
-/

namespace Mcsos.Sync

variable {T κ D α : Type} [DecidableEq T]

/-- Where a thread is. -/
inductive SpinPlace (κ D α : Type) where
  | out
  /-- before the exchange of `mcs_spin_try_lock` -/
  | trying (c : κ)
  /-- before the load in the inner loop of `mcs_spin_lock` -/
  | spinning (c : κ)
  /-- with the lock, and `rest` to do until `mcs_spin_unlock` -/
  | inside (c : κ) (rest : Code D α)

/-- A lock, its data, the threads, and the sections that are over, newest first. -/
structure SpinWorld (T κ D α : Type) where
  lock : Spinlock
  data : D
  places : T → SpinPlace κ D α
  returns : List (T × κ × α)

def spinStart (classId : UInt32) (name : Nat) (data : D) : SpinWorld T κ D α :=
  ⟨spinInit classId name, data, fun _ => .out, []⟩

/-- Thread `t` gets to `place`. -/
def SpinWorld.goto (w : SpinWorld T κ D α) (t : T) (place : SpinPlace κ D α) :
    SpinWorld T κ D α := { w with places := Function.update w.places t place }

/-- One turn: a thread begins a section, or takes its next step in one. -/
def SpinWorld.step (body : T → κ → Code D α) (w : SpinWorld T κ D α) :
    Turn T κ → SpinWorld T κ D α
  | .call t c =>
    match w.places t with
    | .out => w.goto t (.trying c)
    | _ => w
  | .run t =>
    match w.places t with
    | .out => w
    | .trying c =>
      let (taken, lock) := spinTryLock w.lock
      { w with lock := lock }.goto t (if taken then .inside c (body t c) else .spinning c)
    | .spinning c => w.goto t (if w.lock.locked ≠ 0 then .spinning c else .trying c)
    | .inside c (.atomic change next) =>
      { w with data := change w.data }.goto t (.inside c (next w.data))
    | .inside c (.ret a) =>
      { w with lock := spinUnlock w.lock, returns := (t, c, a) :: w.returns }.goto t .out

/-- Any interleaving. -/
def spinRun (body : T → κ → Code D α) (w : SpinWorld T κ D α) (turns : List (Turn T κ)) :
    SpinWorld T κ D α := turns.foldl (SpinWorld.step body) w

/-- Thread `t` has the lock. -/
def SpinWorld.Inside (w : SpinWorld T κ D α) (t : T) : Prop :=
  ∃ c rest, w.places t = .inside c rest

/-! ## The invariant -/

/-- The lock is free and all sections are over, or one thread has it. -/
structure SpinInv (body : T → κ → Code D α) (start : D) (w : SpinWorld T κ D α) : Prop where
  free : w.lock.locked = 0 → (∀ t, ¬w.Inside t) ∧ Serial body start w.returns w.data
  taken : w.lock.locked ≠ 0 → ∃ t c rest, w.places t = .inside c rest ∧
    (∀ u, w.Inside u → u = t) ∧ Since body start w.returns t c rest w.data

section Steps

variable {body : T → κ → Code D α} {start : D} {w : SpinWorld T κ D α} {t : T}

theorem goto_self (w : SpinWorld T κ D α) (t : T) (place : SpinPlace κ D α) :
    (w.goto t place).places t = place := Function.update_self _ _ _

theorem goto_other (w : SpinWorld T κ D α) {t u : T} (h : u ≠ t) (place : SpinPlace κ D α) :
    (w.goto t place).places u = w.places u := Function.update_of_ne h _ _

/-- A thread without the lock moves to a place without the lock. -/
theorem SpinInv.outside (h : SpinInv body start w) (hout : ¬w.Inside t) {place : SpinPlace κ D α}
    (hplace : ∀ c rest, place ≠ .inside c rest) : SpinInv body start (w.goto t place) := by
  have hinside : ∀ u, (w.goto t place).Inside u → w.Inside u := by
    rintro u ⟨c, rest, hu⟩
    by_cases hut : u = t
    · rw [hut, goto_self] at hu
      exact absurd hu (hplace c rest)
    · rw [goto_other w hut] at hu
      exact ⟨c, rest, hu⟩
  refine ⟨fun hfree => ?_, fun htaken => ?_⟩
  · obtain ⟨hnone, hserial⟩ := h.free hfree
    exact ⟨fun u hu => hnone u (hinside u hu), hserial⟩
  · obtain ⟨u, c, rest, hu, honly, hsince⟩ := h.taken htaken
    have hut : u ≠ t := by
      rintro rfl
      exact hout ⟨c, rest, hu⟩
    exact ⟨u, c, rest, (goto_other w hut place).trans hu, fun v hv => honly v (hinside v hv),
      hsince⟩

/-- The exchange takes a free lock. -/
theorem SpinInv.enter (h : SpinInv body start w) (hfree : w.lock.locked = 0) (c : κ) :
    SpinInv body start
      ({ w with lock := { w.lock with locked := 1 } }.goto t (.inside c (body t c))) := by
  obtain ⟨hnone, hserial⟩ := h.free hfree
  refine ⟨fun hzero => ?_, fun _ => ⟨t, c, body t c, goto_self _ _ _, fun u hu => ?_,
    hserial.enter t c⟩⟩
  · exact absurd (show (1 : UInt32) = 0 from hzero) (by decide)
  · by_contra hut
    obtain ⟨c', rest, hu⟩ := hu
    rw [goto_other _ hut] at hu
    exact hnone u ⟨c', rest, hu⟩

omit [DecidableEq T] in
/-- What the invariant says of a thread that has the lock. -/
theorem SpinInv.inside (h : SpinInv body start w) {c : κ} {rest : Code D α}
    (ht : w.places t = .inside c rest) :
    w.lock.locked ≠ 0 ∧ (∀ u, w.Inside u → u = t) ∧ Since body start w.returns t c rest w.data := by
  have htaken : w.lock.locked ≠ 0 := fun hfree => (h.free hfree).1 t ⟨c, rest, ht⟩
  obtain ⟨u, c', rest', hu, honly, hsince⟩ := h.taken htaken
  obtain rfl := honly t ⟨c, rest, ht⟩
  rw [ht] at hu
  cases hu
  exact ⟨htaken, honly, hsince⟩

/-- What a turn can do: nothing; a move outside of the lock, or an exchange of a lock that is taken;
an exchange that takes the lock; a step inside; or the store that gives it up. -/
theorem SpinWorld.step_cases (body : T → κ → Code D α) (w : SpinWorld T κ D α) (turn : Turn T κ) :
    w.step body turn = w ∨
    (∃ t place, ¬w.Inside t ∧ (∀ c rest, place ≠ .inside c rest) ∧
      w.step body turn = w.goto t place) ∨
    (∃ t c, ¬w.Inside t ∧ w.lock.locked ≠ 0 ∧ w.step body turn =
      { w with lock := { w.lock with locked := 1 } }.goto t (.spinning c)) ∨
    (∃ t c, w.lock.locked = 0 ∧ w.step body turn =
      { w with lock := { w.lock with locked := 1 } }.goto t (.inside c (body t c))) ∨
    (∃ t c change next, w.places t = .inside c (.atomic change next) ∧ w.step body turn =
      { w with data := change w.data }.goto t (.inside c (next w.data))) ∨
    ∃ t c a, w.places t = .inside c (.ret a) ∧ w.step body turn =
      { w with lock := { w.lock with locked := 0 }, returns := (t, c, a) :: w.returns }.goto t
        .out := by
  have hnot : ∀ {t : T} {place : SpinPlace κ D α}, w.places t = place →
      (∀ c rest, place ≠ .inside c rest) → ¬w.Inside t := by
    rintro t place hplace hne ⟨c, rest, ht⟩
    exact hne c rest (hplace.symm.trans ht)
  cases turn with
  | call t c =>
      cases hplace : w.places t with
      | out =>
          refine Or.inr (Or.inl ⟨t, .trying c, hnot hplace (fun _ _ => nofun), fun _ _ => nofun, ?_⟩)
          simp only [SpinWorld.step, hplace]
      | _ => exact Or.inl (by simp only [SpinWorld.step, hplace])
  | run t =>
      cases hplace : w.places t with
      | out => exact Or.inl (by simp only [SpinWorld.step, hplace])
      | trying c =>
          by_cases hfree : w.lock.locked = 0
          · refine Or.inr (Or.inr (Or.inr (Or.inl ⟨t, c, hfree, ?_⟩)))
            simp [SpinWorld.step, hplace, spinTryLock, hfree]
          · refine Or.inr (Or.inr (Or.inl ⟨t, c, hnot hplace (fun _ _ => nofun), hfree, ?_⟩))
            simp [SpinWorld.step, hplace, spinTryLock, hfree]
      | spinning c =>
          refine Or.inr (Or.inl ⟨t, if w.lock.locked ≠ 0 then .spinning c else .trying c,
            hnot hplace (fun _ _ => nofun), fun _ _ => ?_, ?_⟩)
          · split <;> exact nofun
          · simp only [SpinWorld.step, hplace]
      | inside c rest =>
          cases rest with
          | ret a =>
              refine Or.inr (Or.inr (Or.inr (Or.inr (Or.inr ⟨t, c, a, hplace, ?_⟩))))
              simp only [SpinWorld.step, hplace, spinUnlock]
          | atomic change next =>
              refine Or.inr (Or.inr (Or.inr (Or.inr (Or.inl ⟨t, c, change, next, hplace, ?_⟩))))
              simp only [SpinWorld.step, hplace]

omit [DecidableEq T] in
/-- The exchange of a lock that is taken writes the 1 that is there. -/
theorem SpinInv.exchange (h : SpinInv body start w) (htaken : w.lock.locked ≠ 0) :
    SpinInv body start { w with lock := { w.lock with locked := 1 } } :=
  ⟨fun hzero => absurd (show (1 : UInt32) = 0 from hzero) (by decide), fun _ => h.taken htaken⟩

/-- The next operation of the thread that has the lock. -/
theorem SpinInv.work (h : SpinInv body start w) {c : κ} {change : D → D} {next : D → Code D α}
    (ht : w.places t = .inside c (.atomic change next)) :
    SpinInv body start ({ w with data := change w.data }.goto t (.inside c (next w.data))) := by
  obtain ⟨htaken, honly, hsince⟩ := h.inside ht
  refine ⟨fun hfree => absurd hfree htaken, fun _ => ⟨t, c, next w.data, goto_self _ _ _,
    fun u hu => ?_, hsince.atomic⟩⟩
  by_contra hut
  obtain ⟨c', rest, hu⟩ := hu
  rw [goto_other _ hut] at hu
  exact hut (honly u ⟨c', rest, hu⟩)

/-- The store of `mcs_spin_unlock`. -/
theorem SpinInv.leave (h : SpinInv body start w) {c : κ} {a : α}
    (ht : w.places t = .inside c (.ret a)) :
    SpinInv body start ({ w with
      lock := { w.lock with locked := 0 }, returns := (t, c, a) :: w.returns }.goto t .out) := by
  obtain ⟨-, honly, hsince⟩ := h.inside ht
  refine ⟨fun _ => ⟨fun u hu => ?_, hsince.leave⟩, fun htaken => absurd rfl htaken⟩
  obtain ⟨c', rest, hu⟩ := hu
  by_cases hut : u = t
  · rw [hut, goto_self] at hu
    cases hu
  · rw [goto_other _ hut] at hu
    exact hut (honly u ⟨c', rest, hu⟩)

omit [DecidableEq T] in
/-- When nobody has the lock, all sections are over. -/
theorem SpinInv.serial (h : SpinInv body start w) (hnone : ∀ t, ¬w.Inside t) :
    Serial body start w.returns w.data := by
  refine (h.free ?_).2
  by_contra htaken
  obtain ⟨t, c, rest, ht, -⟩ := h.taken htaken
  exact hnone t ⟨c, rest, ht⟩

/-- One turn of any thread. -/
theorem SpinInv.step (h : SpinInv body start w) (turn : Turn T κ) :
    SpinInv body start (w.step body turn) := by
  rcases w.step_cases body turn with heq | ⟨t, place, hout, hplace, heq⟩ |
    ⟨t, c, hout, htaken, heq⟩ | ⟨t, c, hfree, heq⟩ | ⟨t, c, change, next, ht, heq⟩ |
    ⟨t, c, a, ht, heq⟩
  · rw [heq]
    exact h
  · rw [heq]
    exact h.outside hout hplace
  · rw [heq]
    exact (h.exchange htaken).outside hout (fun _ _ => nofun)
  · rw [heq]
    exact h.enter hfree c
  · rw [heq]
    exact h.work ht
  · rw [heq]
    exact h.leave ht

theorem SpinInv.run (h : SpinInv body start w) (turns : List (Turn T κ)) :
    SpinInv body start (spinRun body w turns) := by
  induction turns generalizing w with
  | nil => exact h
  | cons turn turns ih => exact ih (h.step turn)

omit [DecidableEq T] in
theorem spinStart_inv (body : T → κ → Code D α) (classId : UInt32) (name : Nat) (start : D) :
    SpinInv body start (spinStart classId name start) := by
  refine ⟨fun _ => ⟨?_, .nil⟩, fun htaken => absurd rfl htaken⟩
  rintro t ⟨c, rest, ht⟩
  cases ht

end Steps

/-! ## What the lock is for -/

/-- `boot_counter++`, a load and a store. -/
def bootCounterIncrement : Code UInt64 Unit := do
  let counter ← Code.load id
  Code.store (fun _ => counter + 1)

/-- No increment is lost: when nobody has the lock, the counter has one for each section. -/
theorem bootCounter_exact (classId : UInt32) (name : Nat) (turns : List (Turn T Unit)) :
    let w := spinRun (fun _ _ => bootCounterIncrement) (spinStart classId name 0) turns
    (∀ t, ¬w.Inside t) → w.data = UInt64.ofNat w.returns.length := by
  intro w hnone
  have h : SpinInv (fun _ _ => bootCounterIncrement) 0 w :=
    (spinStart_inv _ classId name 0).run turns
  refine (h.serial hnone).invariant (I := fun returns s => s = UInt64.ofNat returns.length) rfl
    fun returns s t c hs => ?_
  rw [List.length_cons, UInt64.ofNat_add, ← hs]
  rfl

end Mcsos.Sync
