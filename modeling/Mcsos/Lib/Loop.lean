import Mathlib.Tactic

set_option autoImplicit false

/-! # Counted loops

The two loop shapes of the kernel sources: `forStep`, a `for` loop that updates a state at
`start`, `start + step`, ... (`n` turns), and `findFrom`, a scan that stops at the first
index satisfying a test.
-/

namespace Mcsos

namespace Loop

variable {σ : Type}

/-- `n` turns of `for (i = start; ...; i += step) s = body(i, s)`. -/
def forStep (step : Nat) (body : Nat → σ → σ) : Nat → Nat → σ → σ
  | 0, _, s => s
  | n + 1, i, s => forStep step body n (i + step) (body i s)

/-- `for (i = start; i < stop; i += step) s = body(i, s)` for a bound that `i += step`
cannot wrap past. -/
def forRange (start stop step : Nat) (body : Nat → σ → σ) (s : σ) : σ :=
  forStep step body ((stop - start + (step - 1)) / step) start s

/-- The first of the `n` indices from `i` on that satisfies `p`. -/
def findFrom (p : Nat → Bool) (i : Nat) : Nat → Option Nat
  | 0 => none
  | n + 1 => if p i then some i else findFrom p (i + 1) n

/-- The loop rule: an invariant indexed by the number of turns done. -/
theorem forStep_induct {step : Nat} {body : Nat → σ → σ} (I : Nat → σ → Prop) {n i : Nat} {s : σ}
    (h0 : I 0 s) (hstep : ∀ k s, k < n → I k s → I (k + 1) (body (i + step * k) s)) :
    I n (forStep step body n i s) := by
  induction n generalizing i s I with
  | zero => exact h0
  | succ n ih =>
      rw [forStep]
      refine ih (fun k s => I (k + 1) s) (hstep 0 s (by omega) h0) ?_
      intro k s hk hI
      have h := hstep (k + 1) s (by omega) hI
      rwa [show i + step * (k + 1) = i + step + step * k by ring] at h

/-- The loop rule for `for (i = 0; i < n; i++)`. -/
theorem forRange_induct {body : Nat → σ → σ} (I : Nat → σ → Prop) {n : Nat} {s : σ} (h0 : I 0 s)
    (hstep : ∀ k s, k < n → I k s → I (k + 1) (body k s)) : I n (forRange 0 n 1 body s) := by
  have hturns : (n - 0 + (1 - 1)) / 1 = n := by omega
  unfold forRange
  rw [hturns]
  refine forStep_induct I h0 fun k s hk hI => ?_
  rw [Nat.zero_add, Nat.one_mul]
  exact hstep k s hk hI

theorem findFrom_some_iff {p : Nat → Bool} {i n k : Nat} :
    findFrom p i n = some k ↔
      i ≤ k ∧ k < i + n ∧ p k = true ∧ ∀ j, i ≤ j → j < k → p j = false := by
  induction n generalizing i with
  | zero => simp [findFrom]; omega
  | succ n ih =>
      rw [findFrom]
      by_cases hp : p i = true
      · rw [if_pos hp, Option.some.injEq]
        constructor
        · rintro rfl
          exact ⟨Nat.le_refl _, by omega, hp, fun j h1 h2 => by omega⟩
        · rintro ⟨h1, -, -, h4⟩
          by_contra hne
          have := h4 i (Nat.le_refl _) (by omega)
          simp [hp] at this
      · rw [if_neg hp, ih]
        have hpf : p i = false := by simpa using hp
        constructor
        · rintro ⟨h1, h2, h3, h4⟩
          refine ⟨by omega, by omega, h3, fun j hj1 hj2 => ?_⟩
          by_cases hji : j = i
          · rw [hji]; exact hpf
          · exact h4 j (by omega) hj2
        · rintro ⟨h1, h2, h3, h4⟩
          have hne : k ≠ i := fun h => hp (h ▸ h3)
          exact ⟨by omega, by omega, h3, fun j hj1 hj2 => h4 j (by omega) hj2⟩

theorem findFrom_none_iff {p : Nat → Bool} {i n : Nat} :
    findFrom p i n = none ↔ ∀ j, i ≤ j → j < i + n → p j = false := by
  induction n generalizing i with
  | zero => simp [findFrom]; omega
  | succ n ih =>
      rw [findFrom]
      by_cases hp : p i = true
      · rw [if_pos hp]
        constructor
        · intro h; cases h
        · intro h
          have := h i (Nat.le_refl _) (by omega)
          simp [hp] at this
      · rw [if_neg hp, ih]
        have hpf : p i = false := by simpa using hp
        constructor
        · intro h j hj1 hj2
          by_cases hji : j = i
          · rw [hji]; exact hpf
          · exact h j (by omega) (by omega)
        · intro h j hj1 hj2
          exact h j (by omega) (by omega)

theorem findFrom_congr {p q : Nat → Bool} {i n : Nat} (h : ∀ j, i ≤ j → j < i + n → p j = q j) :
    findFrom p i n = findFrom q i n := by
  induction n generalizing i with
  | zero => rfl
  | succ n ih =>
      rw [findFrom, findFrom, h i (Nat.le_refl i) (by omega),
        ih fun j h1 h2 => h j (by omega) (by omega)]

end Loop

end Mcsos
