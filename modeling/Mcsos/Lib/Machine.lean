import Mathlib.Tactic

set_option autoImplicit false

/-! # Machines that answer calls

A machine is a function that takes a call and a state to an answer and the next state. One machine
refines another if, from related states, both answer a call in the same way and are related again;
then they answer every list of calls in the same way. A call may also have no result: where the
specification leaves a call open, the implementation may do anything. And a specification may allow
several answers, of which the implementation gives one.
-/

namespace Mcsos

universe u

variable {C A σ τ : Type u}

/-- The answers to a list of calls, the first one first, and the state after them. -/
def answer (step : C → σ → A × σ) : List C → σ → List A × σ
  | [], s => ([], s)
  | op :: ops, s => ((step op s).1 :: (answer step ops (step op s).2).1,
      (answer step ops (step op s).2).2)

@[simp] theorem answer_nil (step : C → σ → A × σ) (s : σ) : answer step [] s = ([], s) := rfl

@[simp] theorem answer_cons (step : C → σ → A × σ) (op : C) (ops : List C) (s : σ) :
    answer step (op :: ops) s = ((step op s).1 :: (answer step ops (step op s).2).1,
      (answer step ops (step op s).2).2) := rfl

/-- On the calls that are `ok`, the machine `impl` answers as `spec` does where `R` relates their
states. -/
structure Refines (impl : C → σ → A × σ) (spec : C → τ → A × τ) (ok : C → Prop)
    (R : σ → τ → Prop) : Prop where
  step : ∀ op s t, ok op → R s t →
    (impl op s).1 = (spec op t).1 ∧ R (impl op s).2 (spec op t).2

/-- Lists of calls, by induction on the list: each call leaves related states for the next. -/
theorem Refines.run {impl : C → σ → A × σ} {spec : C → τ → A × τ} {ok : C → Prop}
    {R : σ → τ → Prop} (h : Refines impl spec ok R) {ops : List C} (hok : ∀ op ∈ ops, ok op)
    {s : σ} {t : τ} (hst : R s t) :
    (answer impl ops s).1 = (answer spec ops t).1 ∧
      R (answer impl ops s).2 (answer spec ops t).2 := by
  induction ops generalizing s t with
  | nil => exact ⟨rfl, hst⟩
  | cons op ops ih =>
      obtain ⟨heq, hnext⟩ := h.step op s t (hok op (by simp)) hst
      obtain ⟨hrest, hlast⟩ := ih (fun op' hop' => hok op' (by simp [hop'])) hnext
      simp only [answer_cons]
      exact ⟨by rw [heq, hrest], hlast⟩

/-! ## Calls without a result -/

/-- The answers to a list of calls and the state after them, if every call has a result. -/
def respond (step : C → σ → Option (A × σ)) : List C → σ → Option (List A × σ)
  | [], s => some ([], s)
  | op :: ops, s =>
    (step op s).bind fun r => (respond step ops r.2).map fun rest => (r.1 :: rest.1, rest.2)

theorem respond_cons_some {step : C → σ → Option (A × σ)} {op : C} {ops : List C} {s s' : σ}
    {answers : List A} : respond step (op :: ops) s = some (answers, s') ↔
      ∃ a s1 rest, step op s = some (a, s1) ∧ respond step ops s1 = some (rest, s') ∧
        answers = a :: rest := by
  rw [respond, Option.bind_eq_some_iff]
  constructor
  · rintro ⟨⟨a, s1⟩, hstep, hrest⟩
    obtain ⟨⟨rest, s2⟩, hrun, heq⟩ := Option.map_eq_some_iff.mp hrest
    obtain ⟨rfl, rfl⟩ := Prod.mk.inj heq
    exact ⟨a, s1, rest, hstep, hrun, rfl⟩
  · rintro ⟨a, s1, rest, hstep, hrun, rfl⟩
    exact ⟨(a, s1), hstep, by rw [hrun]; rfl⟩

/-- Where `R` relates the states, `impl` answers what `spec` answers. -/
structure Fulfils (impl : C → σ → Option (A × σ)) (spec : C → τ → Option (A × τ))
    (R : σ → τ → Prop) : Prop where
  step : ∀ op s t a t', R s t → spec op t = some (a, t') →
    ∃ s', impl op s = some (a, s') ∧ R s' t'

/-- A list of calls that the specification answers, by induction on the list. -/
theorem Fulfils.run {impl : C → σ → Option (A × σ)} {spec : C → τ → Option (A × τ)}
    {R : σ → τ → Prop} (h : Fulfils impl spec R) {ops : List C} {s : σ} {t t' : τ}
    {answers : List A} (hst : R s t) (hrun : respond spec ops t = some (answers, t')) :
    ∃ s', respond impl ops s = some (answers, s') ∧ R s' t' := by
  induction ops generalizing s t answers with
  | nil =>
      obtain ⟨rfl, rfl⟩ := Prod.mk.inj (Option.some_inj.mp hrun)
      exact ⟨s, rfl, hst⟩
  | cons op ops ih =>
      obtain ⟨a, t1, rest, hstep, hrest, rfl⟩ := respond_cons_some.mp hrun
      obtain ⟨s1, himpl, hnext⟩ := h.step op s t a t1 hst hstep
      obtain ⟨s', hlast, hend⟩ := ih hnext hrest
      exact ⟨s', respond_cons_some.mpr ⟨a, s1, rest, himpl, hlast, rfl⟩, hend⟩

/-! ## Calls with several answers -/

/-- What may be answered to a list of calls, and the states that may be left. -/
inductive Permits (spec : C → τ → A → τ → Prop) : List C → τ → List A → τ → Prop
  | nil (t : τ) : Permits spec [] t [] t
  | cons {op : C} {ops : List C} {t t1 t' : τ} {a : A} {answers : List A} (hstep : spec op t a t1)
      (hrest : Permits spec ops t1 answers t') : Permits spec (op :: ops) t (a :: answers) t'

/-- Where `R` relates the states, `impl` answers what `spec` allows. -/
structure Implements (impl : C → σ → A × σ) (spec : C → τ → A → τ → Prop) (R : σ → τ → Prop) :
    Prop where
  step : ∀ op s t, R s t → ∃ t', spec op t (impl op s).1 t' ∧ R (impl op s).2 t'

/-- All answers to a list of calls are allowed together, by induction on the list. -/
theorem Implements.run {impl : C → σ → A × σ} {spec : C → τ → A → τ → Prop} {R : σ → τ → Prop}
    (h : Implements impl spec R) (ops : List C) {s : σ} {t : τ} (hst : R s t) :
    ∃ t', Permits spec ops t (answer impl ops s).1 t' ∧ R (answer impl ops s).2 t' := by
  induction ops generalizing s t with
  | nil => exact ⟨t, Permits.nil t, hst⟩
  | cons op ops ih =>
      obtain ⟨t1, hstep, hnext⟩ := h.step op s t hst
      obtain ⟨t', hrest, hlast⟩ := ih hnext
      exact ⟨t', Permits.cons hstep hrest, hlast⟩

end Mcsos
