import Mcsos.Sync.Lockdep

set_option autoImplicit false

/-! # No deadlock under the lock checker

Threads take and give up spin locks as `m12_sync_selftest` does: a lock is taken only after
`mcs_lockdep_before_acquire` has returned `OK` for its class. The class that a thread waits for is
above the classes it holds, so classes rise from each thread to the one that it waits for, and
there is no way round.
-/

namespace Mcsos.Sync

/-! ## Threads and locks -/

/-- What a thread is in the middle of. -/
inductive Doing (L : Type) where
  | nothing
  | waiting (l : L)
  | unlocked (l : L)

/-- A thread: its checker, the locks it holds, the latest first, and what it is doing. -/
structure LockThread (L : Type) where
  lockdep : LockdepState
  held : List L
  doing : Doing L

structure LockSystem (T L : Type) where
  locks : L → Spinlock
  threads : T → LockThread L

/-- The steps of a thread. `go` is one round of the loop of `mcs_spin_lock`, or the
`mcs_lockdep_after_release` after an unlock. -/
inductive LockAction (L : Type) where
  | acquire (l : L)
  | release
  | go

section System

-- the class and the name of each lock
variable {T L : Type} (classId : L → UInt32) (name : L → Nat)

def lockStart : LockSystem T L :=
  ⟨fun l => spinInit (classId l) (name l), fun _ => ⟨lockdepInit, [], .nothing⟩⟩

/-- A thread that has called `mcs_lockdep_before_acquire` with the result `r`. -/
def LockThread.asked (t : LockThread L) (l : L) (r : Int × LockdepState) : LockThread L :=
  { t with lockdep := r.2, doing := if r.1 = mcsSyncOk then .waiting l else .nothing }

/-- One step of a thread, and what it does to the locks. -/
def LockThread.step [DecidableEq L] (locks : L → Spinlock) (t : LockThread L) :
    LockAction L → (L → Spinlock) × LockThread L
  | .acquire l =>
    match t.doing with
    | .nothing => (locks, t.asked l (lockdepBeforeAcquire (classId l) (name l) t.lockdep))
    | _ => (locks, t)
  | .release =>
    match t.doing, t.held with
    | .nothing, l :: held =>
      (Function.update locks l (spinUnlock (locks l)), { t with held := held, doing := .unlocked l })
    | _, _ => (locks, t)
  | .go =>
    match t.doing with
    | .waiting l =>
      let (taken, lock) := spinTryLock (locks l)
      (Function.update locks l lock,
        if taken then { t with held := l :: t.held, doing := .nothing } else t)
    | .unlocked l =>
      (locks, { t with lockdep := (lockdepAfterRelease (classId l) t.lockdep).2, doing := .nothing })
    | .nothing => (locks, t)

def LockSystem.step [DecidableEq T] [DecidableEq L] (s : LockSystem T L)
    (turn : T × LockAction L) : LockSystem T L :=
  let (locks, thread) := (s.threads turn.1).step classId name s.locks turn.2
  ⟨locks, Function.update s.threads turn.1 thread⟩

/-- The threads and locks after any interleaving of steps. -/
def lockRun [DecidableEq T] [DecidableEq L] (turns : List (T × LockAction L)) : LockSystem T L :=
  turns.foldl (LockSystem.step classId name) (lockStart classId name)

/-- Thread `t` waits for a lock that thread `u` holds. -/
def WaitsFor (s : LockSystem T L) (t u : T) : Prop :=
  ∃ l, (s.threads t).doing = .waiting l ∧ l ∈ (s.threads u).held

/-! ## The order on every stack -/

/-- The class that is on the stack of the checker besides those of the locks held. -/
def Doing.pending : Doing L → List UInt32
  | .nothing => []
  | .waiting l => [classId l]
  | .unlocked l => [classId l]

/-- The checker's stack is that of the thread, and falls from the top. -/
structure LockThread.Ordered (t : LockThread L) : Prop where
  classes_eq : classes t.lockdep = t.doing.pending classId ++ t.held.map classId
  sorted : (classes t.lockdep).Pairwise (fun a b => b < a)

variable {classId name}

/-- A lock that a thread waits for is above those it holds. -/
theorem LockThread.Ordered.waiting_lt {t : LockThread L} (h : t.Ordered classId) {l l' : L}
    (hl : t.doing = .waiting l) (hl' : l' ∈ t.held) : classId l' < classId l := by
  have heq := h.classes_eq
  have hsorted := h.sorted
  rw [hl] at heq
  rw [heq] at hsorted
  exact (List.pairwise_cons.mp hsorted).1 _ (List.mem_map_of_mem hl')

theorem LockThread.Ordered.asked {t : LockThread L} (h : t.Ordered classId)
    (hdoing : t.doing = .nothing) (l : L) (name : Nat) :
    (t.asked l (lockdepBeforeAcquire (classId l) name t.lockdep)).Ordered classId := by
  have heq : classes t.lockdep = t.held.map classId := by
    rw [h.classes_eq, hdoing]
    rfl
  rcases lockdepBeforeAcquire_spec (c := classId l) h.sorted name with
    ⟨hok, hpush, habove⟩ | ⟨hno, hsame⟩
  · refine ⟨hpush.trans ?_, ?_⟩
    · rw [LockThread.asked, if_pos hok, heq]
      rfl
    · rw [LockThread.asked, hpush]
      exact List.pairwise_cons.mpr ⟨habove, h.sorted⟩
  · refine ⟨hsame.trans ?_, ?_⟩
    · rw [LockThread.asked, if_neg hno, heq]
      rfl
    · rw [LockThread.asked, hsame]
      exact h.sorted

theorem LockThread.Ordered.step [DecidableEq L] (hclass : ∀ l, classId l ≠ 0) {t : LockThread L}
    (h : t.Ordered classId) (locks : L → Spinlock) (a : LockAction L) :
    (t.step classId name locks a).2.Ordered classId := by
  obtain ⟨lockdep, held, doing⟩ := t
  obtain ⟨heq, hsorted⟩ := h
  cases a with
  | acquire l =>
      cases doing with
      | waiting l' => exact ⟨heq, hsorted⟩
      | unlocked l' => exact ⟨heq, hsorted⟩
      | nothing => exact LockThread.Ordered.asked ⟨heq, hsorted⟩ rfl l (name l)
  | release =>
      cases doing with
      | waiting l' => exact ⟨heq, hsorted⟩
      | unlocked l' => exact ⟨heq, hsorted⟩
      | nothing =>
          cases held with
          | nil => exact ⟨heq, hsorted⟩
          | cons l held => exact ⟨heq, hsorted⟩
  | go =>
      cases doing with
      | nothing => exact ⟨heq, hsorted⟩
      | waiting l =>
          show (if _ then _ else _ : LockThread L).Ordered classId
          split_ifs
          · exact ⟨heq, hsorted⟩
          · exact ⟨heq, hsorted⟩
      | unlocked l =>
          have hpop := (lockdepAfterRelease_spec (hclass l) heq).2
          refine ⟨hpop, ?_⟩
          show (classes (lockdepAfterRelease (classId l) lockdep).2).Pairwise _
          rw [hpop]
          rw [show classes lockdep = _ from heq] at hsorted
          exact (List.pairwise_cons.mp hsorted).2

/-! ## A lock has one holder -/

/-- Who holds a lock has set its word, and nobody else holds it. -/
structure LockSystem.Exclusive (s : LockSystem T L) : Prop where
  locked : ∀ t l, l ∈ (s.threads t).held → (s.locks l).locked = 1
  one : ∀ t u l, l ∈ (s.threads t).held → l ∈ (s.threads u).held → t = u

/-- What a step does to the locks that its thread holds: nothing, the latest one is given up, or a
free one is taken. -/
theorem LockThread.step_held [DecidableEq L] (locks : L → Spinlock) (t : LockThread L)
    (a : LockAction L) :
    ((t.step classId name locks a).2.held = t.held ∧
      ∀ l, (locks l).locked = 1 → ((t.step classId name locks a).1 l).locked = 1) ∨
    (∃ l, t.held = l :: (t.step classId name locks a).2.held ∧
      (t.step classId name locks a).1 = Function.update locks l (spinUnlock (locks l))) ∨
    ∃ l, (locks l).locked = 0 ∧ (t.step classId name locks a).2.held = l :: t.held ∧
      (t.step classId name locks a).1 = Function.update locks l (spinTryLock (locks l)).2 := by
  obtain ⟨lockdep, held, doing⟩ := t
  cases a with
  | acquire l =>
      refine Or.inl ?_
      cases doing with
      | nothing => exact ⟨rfl, fun _ h => h⟩
      | waiting l' => exact ⟨rfl, fun _ h => h⟩
      | unlocked l' => exact ⟨rfl, fun _ h => h⟩
  | release =>
      cases doing with
      | waiting l' => exact Or.inl ⟨rfl, fun _ h => h⟩
      | unlocked l' => exact Or.inl ⟨rfl, fun _ h => h⟩
      | nothing =>
          cases held with
          | nil => exact Or.inl ⟨rfl, fun _ h => h⟩
          | cons l held => exact Or.inr (Or.inl ⟨l, rfl, rfl⟩)
  | go =>
      cases doing with
      | nothing => exact Or.inl ⟨rfl, fun _ h => h⟩
      | unlocked l => exact Or.inl ⟨rfl, fun _ h => h⟩
      | waiting l =>
          by_cases hl : (locks l).locked = 0
          · refine Or.inr (Or.inr ⟨l, hl, ?_, rfl⟩)
            show (if ((locks l).locked == 0) = true then _ else _ : LockThread L).held = _
            rw [hl, if_pos (beq_self_eq_true 0)]
          · -- the attempt has failed, and has set a word that was set
            refine Or.inl ⟨?_, fun k hk => ?_⟩
            · show (if ((locks l).locked == 0) = true then _ else _ : LockThread L).held = _
              rw [if_neg (fun h => hl (beq_iff_eq.mp h))]
            · show (Function.update locks l (spinTryLock (locks l)).2 k).locked = 1
              by_cases hkl : k = l
              · rw [hkl, Function.update_self]
                rfl
              · rw [Function.update_of_ne hkl]
                exact hk

theorem LockThread.Ordered.nodup {t : LockThread L} (h : t.Ordered classId) : t.held.Nodup := by
  have hsorted := h.sorted
  rw [h.classes_eq] at hsorted
  refine List.Nodup.of_map classId (List.Pairwise.imp ?_ (List.pairwise_append.mp hsorted).2.1)
  rintro a b hab rfl
  exact UInt32.lt_irrefl _ hab

namespace LockSystem.Exclusive

variable {s s' : LockSystem T L} {t : T} {l : L}

/-- The same locks are held as before. -/
theorem keep (h : s.Exclusive)
    (hheld : ∀ u, (s'.threads u).held = (s.threads u).held)
    (hkeep : ∀ l, (s.locks l).locked = 1 → (s'.locks l).locked = 1) : s'.Exclusive := by
  refine ⟨fun u k hk => ?_, fun u v k hku hkv => ?_⟩
  · rw [hheld] at hk
    exact hkeep k (h.locked u k hk)
  · rw [hheld] at hku hkv
    exact h.one u v k hku hkv

/-- `t` has given up the lock it had taken last. -/
theorem release [DecidableEq L] (h : s.Exclusive) (hnodup : (s.threads t).held.Nodup)
    (hother : ∀ u, u ≠ t → (s'.threads u).held = (s.threads u).held)
    (hheld : (s.threads t).held = l :: (s'.threads t).held)
    (hl : s'.locks = Function.update s.locks l (spinUnlock (s.locks l))) : s'.Exclusive := by
  rw [hheld] at hnodup
  have hsub : ∀ u k, k ∈ (s'.threads u).held → k ∈ (s.threads u).held := by
    intro u k hk
    by_cases hu : u = t
    · rw [hu] at hk ⊢
      rw [hheld]
      exact List.mem_cons_of_mem l hk
    · rwa [hother u hu] at hk
  refine ⟨fun u k hk => ?_, fun u v k hku hkv => h.one u v k (hsub u k hku) (hsub v k hkv)⟩
  have hne : k ≠ l := by
    rintro rfl
    -- only `t` had the lock, and it has it no longer
    have hut : u = t := h.one u t k (hsub u k hk) (by rw [hheld]; exact List.mem_cons_self)
    rw [hut] at hk
    exact (List.nodup_cons.mp hnodup).1 hk
  rw [hl, Function.update_of_ne hne]
  exact h.locked u k (hsub u k hk)

/-- `t` has taken a lock that was free. -/
theorem acquire [DecidableEq L] (h : s.Exclusive) (hfree : (s.locks l).locked = 0)
    (hother : ∀ u, u ≠ t → (s'.threads u).held = (s.threads u).held)
    (hheld : (s'.threads t).held = l :: (s.threads t).held)
    (hl : s'.locks = Function.update s.locks l (spinTryLock (s.locks l)).2) : s'.Exclusive := by
  have hnobody : ∀ u, l ∉ (s.threads u).held := by
    intro u hu
    have hlocked := h.locked u l hu
    rw [hfree] at hlocked
    exact absurd hlocked (by decide)
  have hnew : ∀ u k, k ∈ (s'.threads u).held → (u = t ∧ k = l) ∨ k ∈ (s.threads u).held := by
    intro u k hk
    by_cases hu : u = t
    · rw [hu, hheld] at hk
      rcases List.mem_cons.mp hk with hkl | hk
      · exact Or.inl ⟨hu, hkl⟩
      · rw [hu]
        exact Or.inr hk
    · rw [hother u hu] at hk
      exact Or.inr hk
  refine ⟨fun u k hk => ?_, fun u v k hku hkv => ?_⟩
  · rw [hl]
    by_cases hkl : k = l
    · rw [hkl, Function.update_self]
      rfl
    · rw [Function.update_of_ne hkl]
      exact h.locked u k ((hnew u k hk).resolve_left fun h => hkl h.2)
  · rcases hnew u k hku with ⟨hut, hkl⟩ | hku <;> rcases hnew v k hkv with ⟨hvt, hkl'⟩ | hkv
    · exact hut.trans hvt.symm
    · rw [hkl] at hkv
      exact absurd hkv (hnobody v)
    · rw [hkl'] at hku
      exact absurd hku (hnobody u)
    · exact h.one u v k hku hkv

theorem step [DecidableEq T] [DecidableEq L] (h : s.Exclusive)
    (hs : ∀ t, (s.threads t).Ordered classId) (turn : T × LockAction L) :
    (s.step classId name turn).Exclusive := by
  obtain ⟨t, a⟩ := turn
  have hself : (s.step classId name (t, a)).threads t =
      ((s.threads t).step classId name s.locks a).2 := Function.update_self _ _ _
  have hother : ∀ u, u ≠ t →
      ((s.step classId name (t, a)).threads u).held = (s.threads u).held :=
    fun u hu => congrArg LockThread.held (Function.update_of_ne hu _ _)
  rcases @LockThread.step_held L classId name _ s.locks (s.threads t) a with
    ⟨hheld, hkeep⟩ | ⟨l, hheld, hl⟩ | ⟨l, hfree, hheld, hl⟩
  · refine h.keep (fun u => ?_) hkeep
    by_cases hu : u = t
    · rw [hu, hself, hheld]
    · exact hother u hu
  · exact h.release (hs t).nodup hother (by rw [hself]; exact hheld) hl
  · exact h.acquire hfree hother (by rw [hself]; exact hheld) hl

end LockSystem.Exclusive

/-- What every step keeps, every run keeps. -/
theorem lockRun_invariant [DecidableEq T] [DecidableEq L] {P : LockSystem T L → Prop}
    (h0 : P (lockStart classId name)) (hstep : ∀ s turn, P s → P (s.step classId name turn))
    (turns : List (T × LockAction L)) : P (lockRun classId name turns) := by
  unfold lockRun
  induction turns using List.reverseRecOn with
  | nil => exact h0
  | append_singleton turns turn ih =>
      rw [List.foldl_concat]
      exact hstep _ turn ih

/-- In every run the stacks of all threads are ordered, and every lock has at most one holder. -/
theorem lockRun_ordered [DecidableEq T] [DecidableEq L] (hclass : ∀ l, classId l ≠ 0)
    (turns : List (T × LockAction L)) :
    (∀ t, ((lockRun classId name turns).threads t).Ordered classId) ∧
      (lockRun classId name turns).Exclusive := by
  refine lockRun_invariant (P := fun s => (∀ t, (s.threads t).Ordered classId) ∧ s.Exclusive)
    ⟨fun _ => ⟨rfl, List.Pairwise.nil⟩, nofun, nofun⟩
    (fun s turn ⟨hs, hx⟩ => ⟨fun u => ?_, hx.step hs turn⟩) turns
  show (Function.update s.threads turn.1 _ u).Ordered classId
  by_cases hu : u = turn.1
  · rw [hu, Function.update_self]
    exact (hs turn.1).step hclass s.locks turn.2
  · rw [Function.update_of_ne hu]
    exact hs u

/-! ## No cycles -/

/-- Along a chain of waiting threads the classes rise. -/
theorem waiting_lt {s : LockSystem T L} (hs : ∀ t, (s.threads t).Ordered classId) {t u : T}
    (h : Relation.TransGen (WaitsFor s) t u) {l l' : L} (hl : (s.threads t).doing = .waiting l)
    (hl' : (s.threads u).doing = .waiting l') : classId l < classId l' := by
  have hone : ∀ {v u : T} {k k' : L}, WaitsFor s v u → (s.threads v).doing = .waiting k →
      (s.threads u).doing = .waiting k' → classId k < classId k' := by
    intro v u k k' ⟨m, hm, hmem⟩ hk hk'
    obtain rfl : m = k := Doing.waiting.inj (hm.symm.trans hk)
    exact (hs u).waiting_lt hk' hmem
  induction h generalizing l' with
  | single h => exact hone h hl hl'
  | tail _ hlast ih =>
      obtain ⟨m, hm, hmem⟩ := hlast
      exact UInt32.lt_trans (ih hm) (hone ⟨m, hm, hmem⟩ hm hl')

/-- Deadlock freedom: in no run do threads wait for each other in a circle, or for themselves. -/
theorem lockRun_no_cycle [DecidableEq T] [DecidableEq L] (hclass : ∀ l, classId l ≠ 0)
    (turns : List (T × LockAction L)) (t : T) :
    ¬Relation.TransGen (WaitsFor (lockRun classId name turns)) t t := by
  intro h
  have hs := (@lockRun_ordered T L classId name _ _ hclass turns).1
  obtain ⟨u, ⟨l, hl, -⟩, -⟩ := Relation.TransGen.head'_iff.mp h
  exact UInt32.lt_irrefl _ (waiting_lt hs h hl hl)

end System

/-- Two threads that want the locks `false` and `true`, the second one in the wrong order. -/
def crossing : List (Bool × LockAction Bool) :=
  [(false, .acquire false), (false, .go), (true, .acquire true), (true, .go),
    (false, .acquire true), (true, .acquire false), (false, .go)]

theorem lockRun_no_cycle_crossing :
    ¬Relation.TransGen (WaitsFor (lockRun (fun l => if l then 20 else 10) (fun _ => 0) crossing))
      true true :=
  lockRun_no_cycle (by decide) crossing true

end Mcsos.Sync
