import Mathlib.Tactic

set_option autoImplicit false

/-! # Threads that share a state, one atomic operation at a time

`Code σ α` is code whose only steps are atomic operations on a shared state. A `World` is a shared
state and threads that call such code; each thread is outside or somewhere in a call, and what the
calls have returned is written down, newest first. Any list of turns is a schedule: whose turn it
is takes the next step, and a turn that a thread cannot use passes.
-/

namespace Mcsos

/-- Code whose steps are atomic operations: change the state, and go on with what it was. -/
inductive Code (σ α : Type) where
  | ret (a : α)
  | atomic (change : σ → σ) (next : σ → Code σ α)

namespace Code

variable {σ α β : Type}

def bind (x : Code σ α) (f : α → Code σ β) : Code σ β :=
  match x with
  | ret a => f a
  | atomic change next => atomic change (fun s => bind (next s) f)

instance : Monad (Code σ) where
  pure := ret
  bind := bind

/-- Read something off the state. -/
def load (f : σ → α) : Code σ α := atomic id (fun s => ret (f s))

/-- Change the state. -/
def store (f : σ → σ) : Code σ Unit := atomic f (fun _ => ret ())

end Code

/-- The shared state, where each thread is in which call, and what has been returned. -/
structure World (T σ κ α : Type) where
  shared : σ
  threads : T → Option (κ × Code σ α)
  returns : List (T × κ × α)

/-- Who does what next: begin a call, or the next step of the call that one is in. -/
inductive Turn (T κ : Type) where
  | call (t : T) (c : κ)
  | run (t : T)

namespace World

variable {T σ κ α : Type} [DecidableEq T]

/-- Nobody is in a call, and nothing has been returned. -/
def start (s : σ) : World T σ κ α := ⟨s, fun _ => none, []⟩

/-- Thread `t` goes on in call `c` with `code`; it returns at once where nothing is left to do. -/
def resume (w : World T σ κ α) (t : T) (c : κ) : Code σ α → World T σ κ α
  | .ret a =>
    { w with threads := Function.update w.threads t none, returns := (t, c, a) :: w.returns }
  | .atomic change next =>
    { w with threads := Function.update w.threads t (some (c, .atomic change next)) }

def step (code : T → κ → Code σ α) (w : World T σ κ α) : Turn T κ → World T σ κ α
  | .call t c =>
    match w.threads t with
    | none => w.resume t c (code t c)
    | some _ => w
  | .run t =>
    match w.threads t with
    | some (c, .atomic change next) =>
      { w with shared := change w.shared }.resume t c (next w.shared)
    | _ => w

def run (code : T → κ → Code σ α) (w : World T σ κ α) (turns : List (Turn T κ)) :
    World T σ κ α := turns.foldl (step code) w

variable {code : T → κ → Code σ α} {w : World T σ κ α}

/-- What a turn can do: nothing, a call, or an atomic operation of a thread. -/
theorem step_cases (code : T → κ → Code σ α) (w : World T σ κ α) (turn : Turn T κ) :
    step code w turn = w ∨
    (∃ t c, w.threads t = none ∧ step code w turn = w.resume t c (code t c)) ∨
    ∃ t c change next, w.threads t = some (c, .atomic change next) ∧
      step code w turn = { w with shared := change w.shared }.resume t c (next w.shared) := by
  cases turn with
  | call t c =>
      rcases h : w.threads t with _ | x
      · refine Or.inr (Or.inl ⟨t, c, h, ?_⟩)
        simp only [step, h]
      · refine Or.inl ?_
        simp only [step, h]
  | run t =>
      rcases h : w.threads t with _ | ⟨c, a | ⟨change, next⟩⟩
      · refine Or.inl ?_
        simp only [step, h]
      · refine Or.inl ?_
        simp only [step, h]
      · refine Or.inr (Or.inr ⟨t, c, change, next, h, ?_⟩)
        simp only [step, h]

/-- What every turn keeps, every schedule keeps. -/
theorem run_invariant {P : World T σ κ α → Prop} (h : P w)
    (hstep : ∀ w turn, P w → P (step code w turn)) (turns : List (Turn T κ)) :
    P (run code w turns) := by
  induction turns generalizing w with
  | nil => exact h
  | cons turn turns ih => exact ih (hstep w turn h)

end World

end Mcsos
