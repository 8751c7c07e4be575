import Mcsos.Lib.Prog

set_option autoImplicit false

/-! # Rules for programs that stop at the first error

`x.Ends s Q E` says how `x` ends from `s`: with a value, and then `Q` holds, or with an error, and
then `E` holds, of what is returned and the state that is left. There is one rule for each way to
make a program; a program that may stop at any of its steps needs `E` at all of them.
-/

namespace Mcsos.Prog

variable {σ ε α β : Type}

/-- How `x` ends from `s`. -/
def Ends (x : Prog σ ε α) (s : σ) (Q : α → σ → Prop) (E : ε → σ → Prop) : Prop :=
  match x s with
  | (.ok a, s') => Q a s'
  | (.error e, s') => E e s'

variable {s : σ} {Q Q' : α → σ → Prop} {E E' : ε → σ → Prop}

theorem ends_of_ok {x : Prog σ ε α} {a : α} {s' : σ} (hx : x s = (.ok a, s')) (h : Q a s') :
    x.Ends s Q E := by
  unfold Ends
  rw [hx]
  exact h

theorem ends_of_error {x : Prog σ ε α} {e : ε} {s' : σ} (hx : x s = (.error e, s')) (h : E e s') :
    x.Ends s Q E := by
  unfold Ends
  rw [hx]
  exact h

theorem Ends.ok {x : Prog σ ε α} {a : α} {s' : σ} (h : x.Ends s Q E) (hx : x s = (.ok a, s')) :
    Q a s' := by
  unfold Ends at h
  rwa [hx] at h

theorem Ends.error {x : Prog σ ε α} {e : ε} {s' : σ} (h : x.Ends s Q E)
    (hx : x s = (.error e, s')) : E e s' := by
  unfold Ends at h
  rwa [hx] at h

theorem ends_pure {a : α} (h : Q a s) : (pure a : Prog σ ε α).Ends s Q E := h

/-- The first part ends somewhere, and the rest goes on from there. -/
theorem Ends.bind {x : Prog σ ε α} {f : α → Prog σ ε β} {R : β → σ → Prop}
    (hx : x.Ends s Q E) (hf : ∀ a s', Q a s' → (f a).Ends s' R E) : (x >>= f).Ends s R E := by
  rcases hr : x s with ⟨e | a, s'⟩
  · exact ends_of_error (bind_error hr) (hx.error hr)
  · have h := hf a s' (hx.ok hr)
    unfold Ends at h ⊢
    rw [bind_ok hr]
    exact h

theorem Ends.mono {x : Prog σ ε α} (hx : x.Ends s Q E) (hq : ∀ a s', Q a s' → Q' a s')
    (he : ∀ e s', E e s' → E' e s') : x.Ends s Q' E' := by
  rcases hr : x s with ⟨e | a, s'⟩
  · exact ends_of_error hr (he e s' (hx.error hr))
  · exact ends_of_ok hr (hq a s' (hx.ok hr))

theorem ends_asks {f : σ → α} (h : Q (f s) s) : (asks f : Prog σ ε α).Ends s Q E := h

theorem ends_failIf {c : Prop} [Decidable c] {e : ε} {R : Unit → σ → Prop} (he : c → E e s)
    (hq : ¬c → R () s) : (failIf c e : Prog σ ε Unit).Ends s R E := by
  by_cases hc : c
  · exact ends_of_error (failIf_pos hc e s) (he hc)
  · exact ends_of_ok (failIf_neg hc e s) (hq hc)

theorem ends_ofOption {x : Option α} {e : ε} (hn : x = none → E e s) (hs : ∀ a, x = some a → Q a s) :
    (ofOption x e).Ends s Q E := by
  cases x with
  | none => exact ends_of_error (ofOption_none e s) (hn rfl)
  | some a => exact ends_of_ok (ofOption_some a e s) (hs a rfl)

theorem ends_ofExcept {x : Except ε α} (he : ∀ e, x = .error e → E e s)
    (hq : ∀ a, x = .ok a → Q a s) : (ofExcept x).Ends s Q E := by
  cases x with
  | error e => exact he e rfl
  | ok a => exact hq a rfl

/-- An error that is looked at is no error. -/
theorem ends_attempt {x : Prog σ ε α} {R : Except ε α → σ → Prop}
    (hx : x.Ends s (fun a s' => R (.ok a) s') (fun e s' => R (.error e) s')) :
    (attempt x).Ends s R E := by
  rcases hr : x s with ⟨e | a, s'⟩
  · have hattempt : (attempt x : Prog σ ε (Except ε α)) s = (.ok (.error e), s') := by
      unfold attempt
      rw [hr]
    exact ends_of_ok hattempt (hx.error hr)
  · have hattempt : (attempt x : Prog σ ε (Except ε α)) s = (.ok (.ok a), s') := by
      unfold attempt
      rw [hr]
    exact ends_of_ok hattempt (hx.ok hr)

/-! ## Errors that do not come up -/

/-- `x` never stops with the error `e`. -/
def Avoids (x : Prog σ ε α) (e : ε) : Prop := ∀ s, (x s).1 ≠ .error e

section Avoids

variable {e e' : ε}

theorem avoids_pure (a : α) : (pure a : Prog σ ε α).Avoids e := fun _ h => nomatch h

theorem avoids_asks (f : σ → α) : (asks f : Prog σ ε α).Avoids e := fun _ h => nomatch h

theorem avoids_failIf {c : Prop} [Decidable c] (h : e' ≠ e) :
    (failIf c e' : Prog σ ε Unit).Avoids e := by
  intro s he
  by_cases hc : c
  · rw [failIf_pos hc] at he
    exact h (Except.error.inj he)
  · rw [failIf_neg hc] at he
    cases he

theorem avoids_ofOption (x : Option α) (h : e' ≠ e) :
    (ofOption x e' : Prog σ ε α).Avoids e := by
  intro s he
  cases x with
  | none => exact h (Except.error.inj he)
  | some a => cases he

/-- Where what follows avoids an error, it comes from the first part. -/
theorem bind_error_iff {x : Prog σ ε α} {f : α → Prog σ ε β} (hf : ∀ a, (f a).Avoids e) (s : σ) :
    ((x >>= f) s).1 = .error e ↔ (x s).1 = .error e := by
  rcases hx : x s with ⟨r | a, s'⟩
  · rw [bind_error hx]
    exact ⟨fun h => congrArg _ (Except.error.inj h), fun h => congrArg _ (Except.error.inj h)⟩
  · rw [bind_ok hx]
    exact ⟨fun h => absurd h (hf a s'), fun h => nomatch h⟩

theorem Avoids.bind {x : Prog σ ε α} {f : α → Prog σ ε β} (hx : x.Avoids e)
    (hf : ∀ a, (f a).Avoids e) : (x >>= f).Avoids e := fun s h =>
  hx s ((bind_error_iff hf s).mp h)

end Avoids

/-- `x` keeps `P`, and where `P` holds it does not stop with the error `e`. -/
structure AvoidsWhile (x : Prog σ ε α) (P : σ → Prop) (e : ε) : Prop where
  ends : ∀ s, P s → x.Ends s (fun _ s' => P s') (fun r s' => r ≠ e ∧ P s')

section AvoidsWhile

variable {P : σ → Prop} {e e' : ε}

theorem AvoidsWhile.bind {x : Prog σ ε α} {f : α → Prog σ ε β} (hx : x.AvoidsWhile P e)
    (hf : ∀ a, (f a).AvoidsWhile P e) : (x >>= f).AvoidsWhile P e :=
  ⟨fun s hs => (hx.ends s hs).bind fun a s' hs' => (hf a).ends s' hs'⟩

theorem avoidsWhile_pure (a : α) : (pure a : Prog σ ε α).AvoidsWhile P e :=
  ⟨fun _ hs => ends_pure hs⟩

theorem avoidsWhile_failIf {c : Prop} {_ : Decidable c} (h : e' ≠ e) :
    (failIf c e' : Prog σ ε Unit).AvoidsWhile P e :=
  ⟨fun _ hs => ends_failIf (fun _ => ⟨h, hs⟩) fun _ => hs⟩

/-- What a program that avoids an error leaves, and what it returns. -/
theorem AvoidsWhile.apply {x : Prog σ ε α} (hx : x.AvoidsWhile P e) {s : σ} (hs : P s) :
    (x s).1 ≠ .error e ∧ P (x s).2 := by
  have h := hx.ends s hs
  rcases hr : x s with ⟨r | a, s'⟩
  · obtain ⟨hne, hp⟩ := h.error hr
    exact ⟨fun heq => hne (Except.error.inj heq), hp⟩
  · refine ⟨fun heq => ?_, h.ok hr⟩
    cases heq

end AvoidsWhile

/-! ## Results that an early stop does not have -/

section Last

variable {P : Except ε β × σ → Prop}

theorem bind_failIf_iff {c : Prop} [Decidable c] {e : ε} {f : Unit → Prog σ ε β}
    (h : ¬P (.error e, s)) : P ((failIf c e >>= f) s) ↔ ¬c ∧ P (f () s) := by
  by_cases hc : c
  · rw [bind_error (failIf_pos hc e s)]
    exact iff_of_false h fun hp => hp.1 hc
  · rw [bind_ok (failIf_neg hc e s), and_iff_right hc]

theorem bind_ofOption_iff {x : Option α} {e : ε} {f : α → Prog σ ε β} (h : ¬P (.error e, s)) :
    P ((ofOption x e >>= f) s) ↔ ∃ a, x = some a ∧ P (f a s) := by
  cases x with
  | none =>
      rw [bind_error (ofOption_none e s)]
      refine iff_of_false h ?_
      rintro ⟨a, heq, -⟩
      cases heq
  | some a =>
      rw [bind_ok (ofOption_some a e s)]
      constructor
      · exact fun hp => ⟨a, rfl, hp⟩
      · rintro ⟨a', heq, hp⟩
        cases heq
        exact hp

end Last

/-- Where what follows always ends with a value, it is up to the first part. -/
theorem bind_succeeds_iff {x : Prog σ ε α} {f : α → Prog σ ε β} (hf : ∀ a s, ∃ b, (f a s).1 = .ok b)
    (s : σ) : (∃ b, ((x >>= f) s).1 = .ok b) ↔ ∃ a, (x s).1 = .ok a := by
  rcases hx : x s with ⟨e | a, s'⟩
  · rw [bind_error hx]
    refine iff_of_false ?_ ?_
    · rintro ⟨b, hb⟩
      cases hb
    · rintro ⟨a, ha⟩
      cases ha
  · rw [bind_ok hx]
    exact iff_of_true (hf a s') ⟨a, rfl⟩

end Mcsos.Prog
