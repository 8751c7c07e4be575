import Mcsos.Lib.Threads

set_option autoImplicit false

/-! # Sections that run one at a time

A section is code on some data that nobody else works on meanwhile. `Serial` says that data and
results are those of sections run one after the other; `Since` adds the section that somebody is in
the middle of. Entering, a step inside and leaving keep them, whatever lock it is that lets
threads in.
-/

namespace Mcsos

namespace Code

variable {σ α β : Type}

/-- All of the code at once. -/
def exec : Code σ α → σ → α × σ
  | ret a, s => (a, s)
  | atomic change next, s => exec (next s) (change s)

@[simp] theorem exec_load (f : σ → α) (s : σ) : (load f).exec s = (f s, s) := rfl

@[simp] theorem exec_store (f : σ → σ) (s : σ) : (store f).exec s = ((), f s) := rfl

end Code

section Serial

variable {T κ σ α : Type} (body : T → κ → Code σ α) (start : σ)

/-- The data after the sections on the list, each run at once, with their results; the newest is
the first. -/
inductive Serial : List (T × κ × α) → σ → Prop
  | nil : Serial [] start
  | cons {returns : List (T × κ × α)} {s : σ} (t : T) (c : κ) (h : Serial returns s) :
      Serial ((t, c, ((body t c).exec s).1) :: returns) ((body t c).exec s).2

/-- The data while thread `t` has `rest` of its section to run: the rest leads to where the whole
section would have led. -/
def Since (returns : List (T × κ × α)) (t : T) (c : κ) (rest : Code σ α) (s : σ) : Prop :=
  ∃ before, Serial body start returns before ∧ (body t c).exec before = rest.exec s

variable {body start} {returns : List (T × κ × α)} {s : σ} {t : T} {c : κ}

theorem Serial.enter (h : Serial body start returns s) (t : T) (c : κ) :
    Since body start returns t c (body t c) s := ⟨s, h, rfl⟩

theorem Since.atomic {change : σ → σ} {next : σ → Code σ α}
    (h : Since body start returns t c (.atomic change next) s) :
    Since body start returns t c (next s) (change s) := h

theorem Since.leave {a : α} (h : Since body start returns t c (.ret a) s) :
    Serial body start ((t, c, a) :: returns) s := by
  obtain ⟨before, hserial, hexec⟩ := h
  have hnext := hserial.cons t c
  rw [hexec] at hnext
  exact hnext

/-- What every section keeps. -/
theorem Serial.invariant {I : List (T × κ × α) → σ → Prop} (hstart : I [] start)
    (hbody : ∀ returns s t c, I returns s →
      I ((t, c, ((body t c).exec s).1) :: returns) ((body t c).exec s).2)
    (h : Serial body start returns s) : I returns s := by
  induction h with
  | nil => exact hstart
  | cons t c _ ih => exact hbody _ _ t c ih

end Serial

end Mcsos
