import Mathlib.Tactic

set_option autoImplicit false

/-! # Programs that stop at the first error

C code of the form `rc = f(); if (rc != OK) return rc;` is a program over a state `σ` that
ends with a value or with an error, and keeps what it has done to the state either way.
-/

namespace Mcsos

/-- From a state to a result and the state it leaves. -/
def Prog (σ ε α : Type) : Type := σ → Except ε α × σ

namespace Prog

variable {σ ε α β γ : Type}

instance : Monad (Prog σ ε) where
  pure a := fun s => (.ok a, s)
  bind x f := fun s =>
    match x s with
    | (.ok a, s') => f a s'
    | (.error e, s') => (.error e, s')

/-- `if (c) return e;` -/
def failIf (c : Prop) [Decidable c] (e : ε) : Prog σ ε Unit := fun s =>
  if c then (.error e, s) else (.ok (), s)

/-- Read something off the state. -/
def asks (f : σ → α) : Prog σ ε α := fun s => (.ok (f s), s)

/-- Change the state. -/
def modify (f : σ → σ) : Prog σ ε Unit := fun s => (.ok (), f s)

/-- Go on with a value, or return the error that stands in its place. -/
def ofExcept (x : Except ε α) : Prog σ ε α := fun s => (x, s)

/-- `if (x < 0) return e;` for an `x` that is an index or negative. -/
def ofOption (x : Option α) (e : ε) : Prog σ ε α := fun s =>
  match x with
  | some a => (.ok a, s)
  | none => (.error e, s)

/-- Go on with the result, be it a value or an error. -/
def attempt (x : Prog σ ε α) : Prog σ ε (Except ε α) := fun s => (.ok (x s).1, (x s).2)

@[simp] theorem pure_apply (a : α) (s : σ) : (pure a : Prog σ ε α) s = (.ok a, s) := rfl

@[simp] theorem asks_apply (f : σ → α) (s : σ) : (asks f : Prog σ ε α) s = (.ok (f s), s) := rfl

theorem bind_ok {x : Prog σ ε α} {f : α → Prog σ ε β} {s s' : σ} {a : α} (h : x s = (.ok a, s')) :
    (x >>= f) s = f a s' := by
  show (match x s with
    | (.ok a, s') => f a s'
    | (.error e, s') => (.error e, s')) = _
  rw [h]

theorem bind_error {x : Prog σ ε α} {f : α → Prog σ ε β} {s s' : σ} {e : ε}
    (h : x s = (.error e, s')) : (x >>= f) s = (.error e, s') := by
  show (match x s with
    | (.ok a, s') => f a s'
    | (.error e, s') => (.error e, s')) = _
  rw [h]

/-- Two parts that end with a value each do. -/
theorem of_bind_ok {x : Prog σ ε α} {f : α → Prog σ ε β} {s s' : σ} {b : β}
    (h : (x >>= f) s = (.ok b, s')) : ∃ a s1, x s = (.ok a, s1) ∧ f a s1 = (.ok b, s') := by
  rcases hx : x s with ⟨e | a, s1⟩
  · rw [bind_error hx] at h
    cases h
  · rw [bind_ok hx] at h
    exact ⟨a, s1, rfl, h⟩

/-- A run by what it returns and what it leaves. -/
theorem eq_of_ok {x : Prog σ ε α} {s : σ} {a : α} (h : (x s).1 = .ok a) : x s = (.ok a, (x s).2) :=
  Prod.ext h rfl

theorem pure_bind (a : α) (f : α → Prog σ ε β) : (pure a : Prog σ ε α) >>= f = f a := rfl

theorem bind_assoc (x : Prog σ ε α) (f : α → Prog σ ε β) (g : β → Prog σ ε γ) :
    x >>= f >>= g = x >>= fun a => f a >>= g := by
  funext s
  rcases hx : x s with ⟨r | a, s'⟩
  · rw [bind_error hx, bind_error (bind_error hx)]
  · rw [bind_ok hx]
    rcases hf : f a s' with ⟨r | b, s''⟩
    · rw [bind_error hf, bind_error ((bind_ok hx).trans hf)]
    · rw [bind_ok hf, bind_ok ((bind_ok hx).trans hf)]

theorem bind_pure (x : Prog σ ε α) : (x >>= fun a => pure a) = x := by
  funext s
  rcases hx : x s with ⟨r | a, s'⟩
  · rw [bind_error hx]
  · rw [bind_ok hx]
    rfl

theorem failIf_pos {c : Prop} [Decidable c] (hc : c) (e : ε) (s : σ) :
    (failIf c e : Prog σ ε Unit) s = (.error e, s) := by
  unfold failIf
  rw [if_pos hc]

theorem failIf_neg {c : Prop} [Decidable c] (hc : ¬c) (e : ε) (s : σ) :
    (failIf c e : Prog σ ε Unit) s = (.ok (), s) := by
  unfold failIf
  rw [if_neg hc]

theorem ofOption_some (a : α) (e : ε) (s : σ) :
    (ofOption (some a) e : Prog σ ε α) s = (.ok a, s) := rfl

theorem ofOption_none (e : ε) (s : σ) :
    (ofOption none e : Prog σ ε α) s = (.error e, s) := rfl

theorem failIf_congr {c d : Prop} [Decidable c] [Decidable d] (h : c ↔ d) (e : ε) :
    (failIf c e : Prog σ ε Unit) = failIf d e := by
  funext s
  unfold failIf
  by_cases hd : d
  · rw [if_pos hd, if_pos (h.mpr hd)]
  · rw [if_neg hd, if_neg (fun hc => hd (h.mp hc))]

end Prog

end Mcsos
