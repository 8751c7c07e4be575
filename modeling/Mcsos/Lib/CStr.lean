import Mcsos.Lib.Bytes

set_option autoImplicit false

/-! # C strings in byte memory

A C string ends at its first NUL. The kernel only looks at a bounded part of it: `chars s i n`
are the characters of `s` from offset `i` on, among the next `n` bytes. A bounded `strlen` is
their number, and two bounded strings compare equal when these lists are equal.
-/

namespace Mcsos

namespace CStr

/-- The characters from `i` on, up to the first NUL and at most `n`. -/
def chars (s : Bytes) (i : Nat) : Nat → List UInt8
  | 0 => []
  | n + 1 => if s i = 0 then [] else s i :: chars s (i + 1) n

/-- `while (i < max && s[i] != '\0') i++;` from `i` on, `n` bytes before `max`. -/
def strlenFrom (s : Bytes) (i : Nat) : Nat → Nat
  | 0 => i
  | n + 1 => if s i ≠ 0 then strlenFrom s (i + 1) n else i

theorem strlenFrom_eq (s : Bytes) (i n : Nat) : strlenFrom s i n = i + (chars s i n).length := by
  induction n generalizing i with
  | zero => rfl
  | succ n ih =>
      rw [strlenFrom, chars]
      by_cases h : s i = 0
      · rw [if_neg (not_not.mpr h), if_pos h]
        rfl
      · rw [if_pos h, if_neg h, ih, List.length_cons]
        omega

/-- The characters are the bytes. -/
theorem chars_get {s : Bytes} {i n k : Nat} (h : k < (chars s i n).length) :
    (chars s i n)[k] = s (i + k) := by
  induction n generalizing i k with
  | zero => exact absurd h (Nat.not_lt_zero k)
  | succ n ih =>
      by_cases hz : s i = 0
      · rw [chars, if_pos hz] at h
        exact absurd h (Nat.not_lt_zero k)
      · simp only [chars, if_neg hz] at h ⊢
        cases k with
        | zero => rfl
        | succ k =>
            rw [List.getElem_cons_succ, ih (Nat.lt_of_succ_lt_succ h)]
            congr 1
            omega

/-- Two strings are equal if they have as many characters and the same bytes there. -/
theorem chars_eq_iff {a b : Bytes} {i j n m : Nat} : chars a i n = chars b j m ↔
    (chars a i n).length = (chars b j m).length ∧
      ∀ k, k < (chars b j m).length → a (i + k) = b (j + k) := by
  constructor
  · intro h
    refine ⟨congrArg List.length h, fun k hk => ?_⟩
    have hk' : k < (chars a i n).length := by rwa [h]
    rw [← chars_get hk, ← chars_get hk']
    simp only [h]
  · rintro ⟨hlen, hbytes⟩
    apply List.ext_getElem hlen
    intro k h1 h2
    rw [chars_get h1, chars_get h2, hbytes k h2]

/-- A string that ends before the bound ends at a NUL. -/
theorem chars_end {s : Bytes} {i n : Nat} (h : (chars s i n).length < n) :
    s (i + (chars s i n).length) = 0 := by
  induction n generalizing i with
  | zero => exact absurd h (Nat.not_lt_zero _)
  | succ n ih =>
      rw [chars] at h ⊢
      split
      · assumption
      · rename_i hne
        rw [if_neg hne, List.length_cons] at h
        have hend := ih (Nat.lt_of_succ_lt_succ h)
        rwa [List.length_cons, show i + ((chars s (i + 1) n).length + 1) =
          i + 1 + (chars s (i + 1) n).length by omega]

/-- A string that ends within `n` bytes or right behind them has no more characters. -/
theorem chars_succ_of_end {s : Bytes} {i n : Nat}
    (h : (chars s i n).length = n → s (i + n) = 0) : chars s i (n + 1) = chars s i n := by
  induction n generalizing i with
  | zero => exact if_pos (h rfl)
  | succ n ih =>
      rw [chars]
      by_cases hz : s i = 0
      · rw [if_pos hz, chars, if_pos hz]
      · have hcons : chars s i (n + 1) = s i :: chars s (i + 1) n := by rw [chars, if_neg hz]
        rw [if_neg hz, hcons, ih fun hlen => ?_]
        rw [hcons, List.length_cons, show i + (n + 1) = i + 1 + n by omega] at h
        exact h (congrArg Nat.succ hlen)

/-- A string that goes on behind `n` bytes has one character more. -/
theorem chars_succ_length {s : Bytes} {i n : Nat} (hlen : (chars s i n).length = n)
    (h : s (i + n) ≠ 0) : (chars s i (n + 1)).length = n + 1 := by
  induction n generalizing i with
  | zero => exact congrArg List.length (if_neg h)
  | succ n ih =>
      have hz : s i ≠ 0 := fun hz => by
        rw [chars, if_pos hz] at hlen
        cases hlen
      rw [chars, if_neg hz, List.length_cons] at hlen ⊢
      rw [show i + (n + 1) = i + 1 + n by omega] at h
      rw [ih (Nat.succ_inj.mp hlen) h]

/-- Only the characters and the NUL behind them matter. -/
theorem chars_congr {a b : Bytes} {i j n : Nat}
    (h : ∀ k, k ≤ (chars b j n).length → k < n → a (i + k) = b (j + k)) :
    chars a i n = chars b j n := by
  induction n generalizing i j with
  | zero => rfl
  | succ n ih =>
      have h0 : a i = b j := h 0 (Nat.zero_le _) (Nat.succ_pos n)
      rw [chars, chars, h0]
      by_cases hz : b j = 0
      · rw [if_pos hz, if_pos hz]
      · rw [if_neg hz, if_neg hz]
        congr 1
        apply ih
        intro k hk hkn
        have hlen : k + 1 ≤ (chars b j (n + 1)).length := by
          rw [chars, if_neg hz, List.length_cons]
          exact Nat.succ_le_succ hk
        have hs := h (k + 1) hlen (Nat.succ_lt_succ hkn)
        rwa [show i + (k + 1) = i + 1 + k by omega, show j + (k + 1) = j + 1 + k by omega] at hs

theorem chars_congr_all {a b : Bytes} {i j n : Nat} (h : ∀ k, k < n → a (i + k) = b (j + k)) :
    chars a i n = chars b j n := chars_congr fun k _ hk => h k hk

/-- The string of a NUL-free list of characters, as far as it is looked at. -/
theorem chars_eq_take {s : Bytes} {name : List UInt8} {i n : Nat} (hnul : 0 ∉ name)
    (h : ∀ k, k < n → s (i + k) = name.getD k 0) : chars s i n = name.take n := by
  induction n generalizing i name with
  | zero => rfl
  | succ n ih =>
      have hhead := h 0 (Nat.succ_pos n)
      rw [Nat.add_zero] at hhead
      cases name with
      | nil => exact if_pos hhead
      | cons c cs =>
          rw [List.mem_cons, not_or] at hnul
          have hne : s i ≠ 0 := by
            rw [hhead]
            exact fun h0 => hnul.1 h0.symm
          rw [chars, if_neg hne, hhead, List.take_succ_cons, List.getD_cons_zero]
          congr 1
          apply ih hnul.2
          intro k hk
          have hnext := h (k + 1) (Nat.succ_lt_succ hk)
          rwa [List.getD_cons_succ, show i + (k + 1) = i + 1 + k by omega] at hnext

end CStr

end Mcsos
