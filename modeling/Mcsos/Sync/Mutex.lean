import Mcsos.Lib.Threads
import Mcsos.Sync.Lockdep

set_option autoImplicit false

/-! # The mutex (`kernel/sync/mutex.c`)

`locked` and `owner` are two words, and taking or giving up the mutex is two steps. In between
`Phase` says who is about to do the second one. The four phases follow each other in a ring, each
thread moves them only when it is its own turn, and what the calls return is read off the phase.
-/

namespace Mcsos.Sync

/-- `mcs_mutex_t`; `name` is the address of the name. -/
structure Mutex where
  locked : UInt32
  owner : UInt64
  classId : UInt32
  name : Nat

/-! ## The atomic operations -/

/-- `__atomic_compare_exchange_n` on `locked`. -/
def casLocked (expected desired : UInt32) : Code Mutex Bool :=
  .atomic (fun m => if m.locked = expected then { m with locked := desired } else m)
    (fun m => .ret (m.locked == expected))

def loadOwner : Code Mutex UInt64 := Code.load Mutex.owner

def storeOwner (owner : UInt64) : Code Mutex Unit := Code.store (fun m => { m with owner := owner })

def storeLocked (locked : UInt32) : Code Mutex Unit :=
  Code.store (fun m => { m with locked := locked })

/-! ## The interface -/

def mutexInit (classId : UInt32) (name : Nat) : Mutex := ⟨0, 0, classId, name⟩

def mutexTryLock (ownerId : UInt64) : Code Mutex Int :=
  if ownerId = 0 then pure mcsSyncEinval
  else do
    let exchanged ← casLocked 0 1
    if !exchanged then do
      let owner ← loadOwner
      if owner = ownerId then pure mcsSyncEdeadlk else pure mcsSyncEbusy
    else do
      storeOwner ownerId
      pure mcsSyncOk

def mutexUnlock (ownerId : UInt64) : Code Mutex Int :=
  if ownerId = 0 then pure mcsSyncEinval
  else do
    let owner ← loadOwner
    if owner ≠ ownerId then pure mcsSyncEperm
    else do
      storeOwner 0
      storeLocked 0
      pure mcsSyncOk

inductive Call where
  | tryLock
  | unlock
  deriving DecidableEq

def Call.code (ownerId : UInt64) : Call → Code Mutex Int
  | .tryLock => mutexTryLock ownerId
  | .unlock => mutexUnlock ownerId

/-! ## Who holds the mutex -/

section Holding

variable {T : Type} [DecidableEq T]

/-- Thread `t` has had `OK` from `try_lock`, and not from `unlock` since. The list is what has been
returned, newest first. -/
def holds (t : T) : List (T × Call × Int) → Bool
  | [] => false
  | (u, c, r) :: returns =>
    if u = t ∧ r = mcsSyncOk then decide (c = .tryLock) else holds t returns

theorem holds_other {t u : T} (h : u ≠ t) (c : Call) (r : Int) (returns : List (T × Call × Int)) :
    holds t ((u, c, r) :: returns) = holds t returns := if_neg fun hu => h hu.1

theorem holds_not_ok (t : T) (c : Call) {r : Int} (h : r ≠ mcsSyncOk)
    (returns : List (T × Call × Int)) : holds t ((t, c, r) :: returns) = holds t returns :=
  if_neg fun hr => h hr.2

theorem holds_ok (t : T) (c : Call) (returns : List (T × Call × Int)) :
    holds t ((t, c, mcsSyncOk) :: returns) = decide (c = .tryLock) := if_pos ⟨rfl, rfl⟩

/-- What a call may return, by whether its caller holds the mutex. -/
def ReturnOk : Call → Int → Bool → Prop
  | .tryLock, r, held => (r = mcsSyncEdeadlk ↔ held = true) ∧
      (r = mcsSyncOk ∨ r = mcsSyncEbusy ∨ r = mcsSyncEdeadlk)
  | .unlock, r, held => (r = mcsSyncOk ↔ held = true) ∧ (r = mcsSyncEperm ↔ held = false)

end Holding

/-! ## Where a thread is in a call -/

/-- The places of a thread between two atomic operations. -/
inductive Stage where
  | out
  | trying
  | failed
  | taken
  | unlocking
  | owned
  | clearing
  deriving DecidableEq

/-- The call and what is left of it at each place. -/
def Stage.thread (ownerId : UInt64) : Stage → Option (Call × Code Mutex Int)
  | .out => none
  | .trying => some (.tryLock, mutexTryLock ownerId)
  | .failed => some (.tryLock, do
      let owner ← loadOwner
      if owner = ownerId then pure mcsSyncEdeadlk else pure mcsSyncEbusy)
  | .taken => some (.tryLock, do
      storeOwner ownerId
      pure mcsSyncOk)
  | .unlocking => some (.unlock, mutexUnlock ownerId)
  | .owned => some (.unlock, do
      storeOwner 0
      storeLocked 0
      pure mcsSyncOk)
  | .clearing => some (.unlock, do
      storeLocked 0
      pure mcsSyncOk)

/-- A thread at such a place has done no half of a change. -/
def Stage.passive : Stage → Bool
  | .taken => false
  | .owned => false
  | .clearing => false
  | _ => true

/-- No call is over before its first operation. -/
theorem stage_ne_ret {ownerId : UInt64} (hid : ownerId ≠ 0) {s : Stage} {c : Call}
    {code : Code Mutex Int} (h : s.thread ownerId = some (c, code)) (r : Int) : code ≠ .ret r := by
  rintro rfl
  cases s with
  | trying =>
      rw [Stage.thread, mutexTryLock, if_neg hid] at h
      cases h
  | unlocking =>
      rw [Stage.thread, mutexUnlock, if_neg hid] at h
      cases h
  | out => cases h
  | failed => cases h
  | taken => cases h
  | owned => cases h
  | clearing => cases h

/-- What the next atomic operation at a place leads to: another place, or the end of the call. -/
inductive Next where
  | stage (s : Stage)
  | ret (r : Int)

/-- The next atomic operation at each place, and where it leads. -/
def Stage.next (ownerId : UInt64) (m : Mutex) : Stage → Mutex × Next
  | .out => (m, .stage .out)
  | .trying => if m.locked = 0 then ({ m with locked := 1 }, .stage .taken) else (m, .stage .failed)
  | .failed => (m, .ret (if m.owner = ownerId then mcsSyncEdeadlk else mcsSyncEbusy))
  | .taken => ({ m with owner := ownerId }, .ret mcsSyncOk)
  | .unlocking => (m, if m.owner = ownerId then .stage .owned else .ret mcsSyncEperm)
  | .owned => ({ m with owner := 0 }, .stage .clearing)
  | .clearing => ({ m with locked := 0 }, .ret mcsSyncOk)

/-- What is left of call `c` after an operation. -/
def Next.Leads (ownerId : UInt64) (c : Call) (code : Code Mutex Int) : Next → Prop
  | .stage s => s.thread ownerId = some (c, code)
  | .ret r => code = .ret r

/-- `Stage.next` is what the code does. -/
theorem Stage.next_leads {ownerId : UInt64} (hid : ownerId ≠ 0) {s : Stage} {c : Call}
    {change : Mutex → Mutex} {next : Mutex → Code Mutex Int}
    (h : s.thread ownerId = some (c, .atomic change next)) (m : Mutex) :
    change m = (s.next ownerId m).1 ∧ (s.next ownerId m).2.Leads ownerId c (next m) := by
  cases s with
  | out => cases h
  | trying =>
      rw [Stage.thread, mutexTryLock, if_neg hid] at h
      cases h
      by_cases hm : m.locked = 0
      · rw [Stage.next, if_pos hm]
        refine ⟨if_pos hm, ?_⟩
        have hexchanged : ¬((!(m.locked == 0)) = true) := by
          rw [hm]
          decide
        exact congrArg (fun code => some (Call.tryLock, code)) (if_neg hexchanged).symm
      · rw [Stage.next, if_neg hm]
        refine ⟨if_neg hm, ?_⟩
        have hfailed : (!(m.locked == 0)) = true := by
          rw [beq_eq_false_iff_ne.mpr hm]
          rfl
        exact congrArg (fun code => some (Call.tryLock, code)) (if_pos hfailed).symm
  | failed =>
      cases h
      refine ⟨rfl, ?_⟩
      by_cases hm : m.owner = ownerId
      · exact (if_pos hm).trans (congrArg Code.ret (if_pos hm).symm)
      · exact (if_neg hm).trans (congrArg Code.ret (if_neg hm).symm)
  | taken =>
      cases h
      exact ⟨rfl, rfl⟩
  | unlocking =>
      rw [Stage.thread, mutexUnlock, if_neg hid] at h
      cases h
      refine ⟨rfl, ?_⟩
      rw [Stage.next]
      by_cases hm : m.owner = ownerId
      · rw [if_pos hm]
        exact congrArg (fun code => some (Call.unlock, code)) (if_neg (not_not.mpr hm)).symm
      · rw [if_neg hm]
        exact if_pos hm
  | owned =>
      cases h
      exact ⟨rfl, rfl⟩
  | clearing =>
      cases h
      exact ⟨rfl, rfl⟩

/-! ## The phases of the mutex -/

/-- What the mutex is at: free, being taken, held, or being given up, and by whom. -/
inductive Phase (T : Type) where
  | free
  | taking (t : T)
  | held (t : T)
  | releasing (t : T)

variable {T : Type}

/-- Whom the phase is about. -/
def Phase.by : Phase T → Option T
  | .free => none
  | .taking t => some t
  | .held t => some t
  | .releasing t => some t

/-- The words in each phase. -/
def Phase.Words (id : T → UInt64) (m : Mutex) : Phase T → Prop
  | .free => m.locked = 0 ∧ m.owner = 0
  | .taking _ => m.locked = 1 ∧ m.owner = 0
  | .held t => m.locked = 1 ∧ m.owner = id t
  | .releasing _ => m.locked = 1 ∧ m.owner = 0

/-- Thread `t` at place `s`, holding the mutex or not, fits the phase. -/
structure ThreadOk (p : Phase T) (t : T) (s : Stage) (held : Bool) : Prop where
  taken : s = .taken ↔ p = .taking t
  clearing : s = .clearing ↔ p = .releasing t
  owned : s = .owned → p = .held t
  held : held = true ↔ p = .held t ∨ p = .releasing t

/-- The phases are the same as far as thread `u` goes. -/
structure SameFor (p p' : Phase T) (u : T) : Prop where
  taking : p' = .taking u ↔ p = .taking u
  held : p' = .held u ↔ p = .held u
  releasing : p' = .releasing u ↔ p = .releasing u

theorem ThreadOk.same {p p' : Phase T} {u : T} {s : Stage} {h : Bool} (hok : ThreadOk p u s h)
    (hp : SameFor p p' u) : ThreadOk p' u s h :=
  ⟨hok.taken.trans hp.taking.symm, hok.clearing.trans hp.releasing.symm,
    fun hs => hp.held.mpr (hok.owned hs), hok.held.trans (by rw [hp.held, hp.releasing])⟩

/-- The phases `p` and `p'` are about thread `t` or nobody. -/
theorem sameFor_of_by {p p' : Phase T} {t u : T} (h : ∀ v, p.by = some v → v = t)
    (h' : ∀ v, p'.by = some v → v = t) (hu : u ≠ t) : SameFor p p' u := by
  have hne : p.by ≠ some u := fun he => hu (h u he)
  have hne' : p'.by ≠ some u := fun he => hu (h' u he)
  refine ⟨⟨?_, ?_⟩, ⟨?_, ?_⟩, ⟨?_, ?_⟩⟩ <;> rintro rfl
  · exact absurd rfl hne'
  · exact absurd rfl hne
  · exact absurd rfl hne'
  · exact absurd rfl hne
  · exact absurd rfl hne'
  · exact absurd rfl hne

theorem SameFor.refl (p : Phase T) (u : T) : SameFor p p u := ⟨Iff.rfl, Iff.rfl, Iff.rfl⟩

/-- A thread that has no operation to make up for may be at any such place. -/
theorem ThreadOk.passive {p : Phase T} {t : T} {s s' : Stage} {held : Bool} (h : ThreadOk p t s held)
    (hs : s.passive = true) (hs' : s'.passive = true) : ThreadOk p t s' held := by
  have hplace : ∀ s : Stage, s.passive = true → s ≠ .taken ∧ s ≠ .clearing ∧ s ≠ .owned := by
    intro s hs
    cases s <;> first | exact absurd hs (by decide) | exact ⟨by decide, by decide, by decide⟩
  obtain ⟨h1, h2, -⟩ := hplace s hs
  obtain ⟨h1', h2', h3'⟩ := hplace s' hs'
  exact ⟨⟨fun he => absurd he h1', fun he => absurd (h.taken.mpr he) h1⟩,
    ⟨fun he => absurd he h2', fun he => absurd (h.clearing.mpr he) h2⟩,
    fun he => absurd he h3', h.held⟩

/-- The owner word names a thread exactly while the mutex is held by it. -/
theorem Phase.Words.owner_iff {id : T → UInt64} (hid : ∀ t, id t ≠ 0)
    (hinj : Function.Injective id) {m : Mutex} {p : Phase T} (h : p.Words id m) (t : T) :
    m.owner = id t ↔ p = .held t := by
  cases p with
  | free =>
      rw [h.2]
      exact ⟨fun he => absurd he.symm (hid t), nofun⟩
  | taking u =>
      rw [h.2]
      exact ⟨fun he => absurd he.symm (hid t), nofun⟩
  | held u =>
      rw [h.2]
      exact ⟨fun he => by rw [hinj he], fun he => by cases he; rfl⟩
  | releasing u =>
      rw [h.2]
      exact ⟨fun he => absurd he.symm (hid t), nofun⟩

theorem Phase.Words.locked_iff {id : T → UInt64} {m : Mutex} {p : Phase T} (h : p.Words id m) :
    m.locked = 0 ↔ p = .free := by
  cases p with
  | free => exact ⟨fun _ => rfl, fun _ => h.1⟩
  | taking u => exact ⟨fun he => absurd (h.1.symm.trans he) (by decide), nofun⟩
  | held u => exact ⟨fun he => absurd (h.1.symm.trans he) (by decide), nofun⟩
  | releasing u => exact ⟨fun he => absurd (h.1.symm.trans he) (by decide), nofun⟩

/-! ## Every turn moves the phase as it should -/

abbrev MutexWorld (T : Type) := World T Mutex Call Int

/-- Every return so far was right for who held the mutex then. -/
def ReturnsOk [DecidableEq T] (returns : List (T × Call × Int)) : Prop :=
  ∀ later t c r before, returns = later ++ (t, c, r) :: before → ReturnOk c r (holds t before)

theorem ReturnsOk.cons [DecidableEq T] {returns : List (T × Call × Int)} (h : ReturnsOk returns)
    {t : T} {c : Call} {r : Int} (hr : ReturnOk c r (holds t returns)) :
    ReturnsOk ((t, c, r) :: returns) := by
  rintro (_ | ⟨x, later⟩) u c' r' before he
  · obtain ⟨hx, rfl⟩ := List.cons.inj he
    obtain ⟨rfl, hcr⟩ := Prod.mk.inj hx
    obtain ⟨rfl, rfl⟩ := Prod.mk.inj hcr
    exact hr
  · exact h later u c' r' before (List.cons.inj he).2

/-- The threads are at the places `stage`, and the mutex in phase `p`. -/
structure MutexInv [DecidableEq T] (id : T → UInt64) (w : MutexWorld T) (stage : T → Stage)
    (p : Phase T) : Prop where
  threads : ∀ t, w.threads t = (stage t).thread (id t)
  words : p.Words id w.shared
  ok : ∀ t, ThreadOk p t (stage t) (holds t w.returns)
  returns : ReturnsOk w.returns

section Steps

variable [DecidableEq T] {id : T → UInt64} {w : MutexWorld T} {stage : T → Stage} {p p' : Phase T}

theorem resume_stage {t : T} {c : Call} {code : Code Mutex Int} {s : Stage}
    (h : s.thread (id t) = some (c, code)) (hne : ∀ r, code ≠ .ret r) :
    w.resume t c code = { w with threads := Function.update w.threads t (s.thread (id t)) } := by
  cases code with
  | ret r => exact absurd rfl (hne r)
  | atomic change next =>
      rw [h]
      rfl

/-- Thread `t` goes on to place `s`, and the mutex to phase `p'`. -/
theorem MutexInv.goto (hid : ∀ t, id t ≠ 0) (h : MutexInv id w stage p) {t : T} {c : Call}
    {code : Code Mutex Int} {s : Stage} (hs : s.thread (id t) = some (c, code)) {m : Mutex}
    (hwords : p'.Words id m) (hok : ThreadOk p' t s (holds t w.returns))
    (hother : ∀ u, u ≠ t → SameFor p p' u) :
    MutexInv id (({ w with shared := m } : MutexWorld T).resume t c code)
      (Function.update stage t s) p' := by
  rw [resume_stage hs (stage_ne_ret (hid t) hs)]
  refine ⟨fun u => ?_, hwords, fun u => ?_, h.returns⟩
  · by_cases hu : u = t
    · subst hu
      rw [Function.update_self]
      exact Function.update_self _ _ _
    · rw [Function.update_of_ne hu, ← h.threads u]
      exact Function.update_of_ne hu _ _
  · by_cases hu : u = t
    · subst hu
      rw [Function.update_self]
      exact hok
    · rw [Function.update_of_ne hu]
      exact (h.ok u).same (hother u hu)

/-- Thread `t` returns, and the mutex goes to phase `p'`. -/
theorem MutexInv.ret (h : MutexInv id w stage p) {t : T} {c : Call} {r : Int} {m : Mutex}
    (hwords : p'.Words id m) (hok : ThreadOk p' t .out (holds t ((t, c, r) :: w.returns)))
    (hother : ∀ u, u ≠ t → SameFor p p' u) (hr : ReturnOk c r (holds t w.returns)) :
    MutexInv id (({ w with shared := m } : MutexWorld T).resume t c (.ret r))
      (Function.update stage t .out) p' where
  threads := fun u => by
    by_cases hu : u = t
    · subst hu
      rw [Function.update_self]
      exact Function.update_self _ _ _
    · rw [Function.update_of_ne hu, ← h.threads u]
      exact Function.update_of_ne hu _ _
  words := hwords
  ok := fun u => by
    by_cases hu : u = t
    · subst hu
      rw [Function.update_self]
      exact hok
    · rw [Function.update_of_ne hu]
      show ThreadOk p' u (stage u) (holds u ((t, c, r) :: w.returns))
      rw [holds_other (Ne.symm hu)]
      exact (h.ok u).same (hother u hu)
  returns := h.returns.cons hr

/-- Where the next operation leads fits the new phase, for thread `t` in call `c`. -/
def Next.Fits (p : Phase T) (t : T) (c : Call) (returns : List (T × Call × Int)) : Next → Prop
  | .stage s => ThreadOk p t s (holds t returns)
  | .ret r => ThreadOk p t .out (holds t ((t, c, r) :: returns)) ∧ ReturnOk c r (holds t returns)

/-- Each operation moves the phase. -/
theorem MutexInv.moves (hid : ∀ t, id t ≠ 0) (hinj : Function.Injective id)
    (h : MutexInv id w stage p) {t : T} {c : Call} {code : Code Mutex Int}
    (hc : (stage t).thread (id t) = some (c, code)) :
    ∃ p' : Phase T, p'.Words id ((stage t).next (id t) w.shared).1 ∧
      (∀ u, u ≠ t → SameFor p p' u) ∧
      ((stage t).next (id t) w.shared).2.Fits p' t c w.returns := by
  have hok := h.ok t
  have hwords := h.words
  have howner := hwords.owner_iff hid hinj t
  generalize stage t = s at hok hc ⊢
  cases s with
  | out => cases hc
  | trying =>
      -- the exchange succeeds exactly in the free phase
      by_cases hm : w.shared.locked = 0
      · obtain rfl := hwords.locked_iff.mp hm
        rw [Stage.next, if_pos hm]
        refine ⟨.taking t, ⟨rfl, hwords.2⟩, fun u hu => sameFor_of_by nofun
          (fun v hv => (Option.some.inj hv).symm) hu, ?_⟩
        refine ⟨⟨fun _ => rfl, fun _ => rfl⟩, ⟨nofun, nofun⟩, nofun, hok.held.trans ?_⟩
        exact ⟨fun he => he.elim nofun nofun, fun he => he.elim nofun nofun⟩
      · rw [Stage.next, if_neg hm]
        exact ⟨p, hwords, fun u _ => SameFor.refl p u, hok.passive rfl rfl⟩
  | failed =>
      -- a call that has failed looks whether its own caller is the owner
      cases hc
      have hheld : holds t w.returns = true ↔ w.shared.owner = id t := by
        rw [howner, hok.held]
        refine ⟨fun he => he.resolve_right fun he => ?_, Or.inl⟩
        exact absurd (hok.clearing.mpr he) (by decide)
      rw [Stage.next]
      refine ⟨p, hwords, fun u _ => SameFor.refl p u, ?_⟩
      by_cases hm : w.shared.owner = id t
      · rw [if_pos hm]
        refine ⟨?_, ⟨fun _ => hheld.mpr hm, fun _ => rfl⟩, Or.inr (Or.inr rfl)⟩
        rw [holds_not_ok t _ (by decide)]
        exact hok.passive rfl rfl
      · rw [if_neg hm]
        refine ⟨?_, ⟨fun he => absurd he (by decide), fun he => absurd (hheld.mp he) hm⟩,
          Or.inr (Or.inl rfl)⟩
        rw [holds_not_ok t _ (by decide)]
        exact hok.passive rfl rfl
  | taken =>
      -- the store of the owner ends the call, and the thread holds the mutex
      cases hc
      obtain rfl := hok.taken.mp rfl
      have hnot : holds t w.returns = false := by
        apply Bool.eq_false_iff.mpr
        intro he
        rcases hok.held.mp he with he | he <;> cases he
      refine ⟨.held t, ⟨hwords.1, rfl⟩, fun u hu => sameFor_of_by
        (fun v hv => (Option.some.inj hv).symm) (fun v hv => (Option.some.inj hv).symm) hu, ?_, ?_⟩
      · rw [holds_ok]
        exact ⟨⟨nofun, nofun⟩, ⟨nofun, nofun⟩, nofun, ⟨fun _ => Or.inl rfl, fun _ => rfl⟩⟩
      · rw [hnot]
        exact ⟨⟨fun he => absurd he (by decide), nofun⟩, Or.inl rfl⟩
  | unlocking =>
      -- the owner goes on to unlock; for anybody else the call ends here
      cases hc
      rw [Stage.next]
      refine ⟨p, hwords, fun u _ => SameFor.refl p u, ?_⟩
      by_cases hm : w.shared.owner = id t
      · rw [if_pos hm]
        have hp := howner.mp hm
        exact ⟨⟨nofun, fun he => by rw [hp] at he; cases he⟩,
          ⟨nofun, fun he => by rw [hp] at he; cases he⟩, fun _ => hp, hok.held⟩
      · rw [if_neg hm]
        have hnot : holds t w.returns = false := by
          apply Bool.eq_false_iff.mpr
          intro he
          rcases hok.held.mp he with he | he
          · exact hm (howner.mpr he)
          · exact absurd (hok.clearing.mpr he) (by decide)
        refine ⟨?_, ?_, ?_⟩
        · rw [holds_not_ok t _ (by decide)]
          exact hok.passive rfl rfl
        · rw [hnot]
          exact ⟨fun he => absurd he (by decide), nofun⟩
        · rw [hnot]
          exact ⟨fun _ => rfl, fun _ => rfl⟩
  | owned =>
      -- the owner word is cleared first; the thread still counts as holding the mutex
      cases hc
      obtain rfl := hok.owned rfl
      refine ⟨.releasing t, ⟨hwords.1, rfl⟩, fun u hu => sameFor_of_by
        (fun v hv => (Option.some.inj hv).symm) (fun v hv => (Option.some.inj hv).symm) hu, ?_⟩
      exact ⟨⟨nofun, nofun⟩, ⟨fun _ => rfl, fun _ => rfl⟩, nofun,
        ⟨fun _ => Or.inr rfl, fun _ => hok.held.mpr (Or.inl rfl)⟩⟩
  | clearing =>
      -- the store of the lock word gives the mutex up and ends the call
      cases hc
      obtain rfl := hok.clearing.mp rfl
      have hheld : holds t w.returns = true := hok.held.mpr (Or.inr rfl)
      refine ⟨.free, ⟨rfl, hwords.2⟩, fun u hu => sameFor_of_by
        (fun v hv => (Option.some.inj hv).symm) nofun hu, ?_, ?_, ?_⟩
      · rw [holds_ok]
        exact ⟨⟨nofun, nofun⟩, ⟨nofun, nofun⟩, nofun, ⟨nofun, fun he => he.elim nofun nofun⟩⟩
      · rw [hheld]
        exact ⟨fun _ => rfl, fun _ => rfl⟩
      · rw [hheld]
        exact ⟨fun he => absurd he (by decide), nofun⟩

/-- Every turn of every thread keeps the invariant. -/
theorem MutexInv.step (hid : ∀ t, id t ≠ 0) (hinj : Function.Injective id)
    (h : MutexInv id w stage p) (turn : Turn T Call) :
    ∃ stage' p', MutexInv id (World.step (fun t c => c.code (id t)) w turn) stage' p' := by
  rcases World.step_cases (fun t c => Call.code (id t) c) w turn with
    hw | ⟨t, c, hout, hw⟩ | ⟨t, c, change, next, hin, hw⟩
  · rw [hw]
    exact ⟨stage, p, h⟩
  · -- a thread that calls is at the start of the call
    have hs : stage t = .out := by
      have hthread := (h.threads t).symm.trans hout
      rcases hs : stage t with _ | _ | _ | _ | _ | _ | _ <;> rw [hs] at hthread <;>
        first | rfl | cases hthread
    have hok := h.ok t
    rw [hs] at hok
    rw [hw]
    have hpassive : ∀ s : Stage, s.passive = true → s.thread (id t) = some (c, c.code (id t)) →
        ∃ stage' p', MutexInv id (w.resume t c (c.code (id t))) stage' p' := fun s hpass hthread =>
      ⟨_, _, h.goto hid hthread h.words (hok.passive rfl hpass) fun u _ => SameFor.refl p u⟩
    cases c with
    | tryLock => exact hpassive .trying rfl rfl
    | unlock => exact hpassive .unlocking rfl rfl
  · have hc := (h.threads t).symm.trans hin
    obtain ⟨p', hwords, hother, hfits⟩ := h.moves hid hinj hc
    obtain ⟨hchange, hleads⟩ := Stage.next_leads (hid t) hc w.shared
    rw [hw, hchange]
    rcases hn : ((stage t).next (id t) w.shared).2 with s | r <;> rw [hn] at hfits hleads
    · exact ⟨_, _, h.goto hid hleads hwords hfits hother⟩
    · have hcode : next w.shared = .ret r := hleads
      rw [hcode]
      exact ⟨_, _, h.ret hwords hfits.1 hother hfits.2⟩

end Steps

/-- The mutex after any schedule of `try_lock` and `unlock` calls. -/
def mutexRun [DecidableEq T] (id : T → UInt64) (m : Mutex) (turns : List (Turn T Call)) :
    MutexWorld T := World.run (fun t c => c.code (id t)) (World.start m) turns

theorem mutexRun_inv [DecidableEq T] {id : T → UInt64} (hid : ∀ t, id t ≠ 0)
    (hinj : Function.Injective id) (classId : UInt32) (name : Nat) (turns : List (Turn T Call)) :
    ∃ stage p, MutexInv id (mutexRun id (mutexInit classId name) turns) stage p := by
  refine World.run_invariant (P := fun w => ∃ stage p, MutexInv id w stage p) ?_
    (fun w turn ⟨stage, p, h⟩ => h.step hid hinj turn) turns
  refine ⟨fun _ => .out, .free, fun _ => rfl, ⟨rfl, rfl⟩, fun t => ?_,
    fun later t c r before he => ?_⟩
  · exact ⟨⟨nofun, nofun⟩, ⟨nofun, nofun⟩, nofun, ⟨nofun, fun he => he.elim nofun nofun⟩⟩
  · exact absurd he.symm (List.append_ne_nil_of_right_ne_nil later (List.cons_ne_nil _ before))

/-- The ownership protocol: under every schedule at most one thread holds the mutex, and every call
returns what it should to a caller that holds the mutex, and to one that does not. -/
theorem mutexRun_protocol [DecidableEq T] {id : T → UInt64} (hid : ∀ t, id t ≠ 0)
    (hinj : Function.Injective id) (classId : UInt32) (name : Nat) (turns : List (Turn T Call)) :
    let returns := (mutexRun id (mutexInit classId name) turns).returns
    (∀ t u, holds t returns = true → holds u returns = true → t = u) ∧
      ∀ later t c r before, returns = later ++ (t, c, r) :: before →
        ReturnOk c r (holds t before) := by
  intro returns
  obtain ⟨stage, p, h⟩ := mutexRun_inv hid hinj classId name turns
  refine ⟨fun t u ht hu => ?_, h.returns⟩
  -- both are whom the phase is about
  have hby : ∀ v, holds v returns = true → p.by = some v := fun v hv => by
    rcases (h.ok v).held.mp hv with rfl | rfl <;> rfl
  exact Option.some.inj ((hby t ht).symm.trans (hby u hu))

/-- Thread `true` takes the mutex while thread `false` tries to take it, and to give it up. -/
def contention : List (Turn Bool Call) :=
  [.call true .tryLock, .run true, .call false .tryLock, .run false, .run false, .run true,
    .call false .unlock, .run false, .call true .tryLock, .run true, .run true]

example : (mutexRun (fun t => if t then 1 else 2) (mutexInit 200 0) contention).returns =
    [(true, .tryLock, mcsSyncEdeadlk), (false, .unlock, mcsSyncEperm),
      (true, .tryLock, mcsSyncOk), (false, .tryLock, mcsSyncEbusy)] := by decide

theorem mutexRun_protocol_contention :
    let returns := (mutexRun (fun t : Bool => if t then 1 else 2) (mutexInit 200 0)
      contention).returns
    ∀ t u, holds t returns = true → holds u returns = true → t = u :=
  (mutexRun_protocol (by decide) (by decide) 200 0 contention).1

end Mcsos.Sync
