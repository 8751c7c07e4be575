import Mcsos.Lib.Bytes

set_option autoImplicit false

/-! # Bitmaps in byte memory

A bitmap keeps bit `i` in byte `i / 8` under the mask `1 << (i % 8)`. The three operations
below are the ones every allocator of the kernel carries its own copy of; the lemmas say
that they act on single bits and leave all others alone.
-/

namespace Mcsos

namespace Bitmap

/-- The mask of bit `i` inside its byte. -/
def mask (i : Nat) : UInt8 := 1 <<< UInt8.ofNat (i % 8)

/-- `(bm[i / 8] & (1 << (i % 8))) != 0` -/
def test (bm : Bytes) (i : Nat) : Bool := (bm (i / 8) &&& mask i) != 0

/-- `bm[i / 8] |= 1 << (i % 8)` -/
def set (bm : Bytes) (i : Nat) : Bytes :=
  fun j => if j = i / 8 then bm j ||| mask i else bm j

/-- `bm[i / 8] &= ~(1 << (i % 8))` -/
def clear (bm : Bytes) (i : Nat) : Bytes :=
  fun j => if j = i / 8 then bm j &&& ~~~(mask i) else bm j

/-! ## Single bytes -/

/-- The mask of bit `i` has exactly bit `i % 8`. -/
theorem mask_testBit (i k : Nat) (hk : k < 8) :
    (mask i).toNat.testBit k = decide (k = i % 8) := by
  have hi : i % 8 < 8 := Nat.mod_lt _ (by omega)
  unfold mask
  generalize i % 8 = m at hi
  interval_cases m <;> interval_cases k <;> decide

theorem and_mask_ne_zero (b : UInt8) (i : Nat) :
    ((b &&& mask i) != 0) = b.toNat.testBit (i % 8) := by
  have hi : i % 8 < 8 := Nat.mod_lt _ (by omega)
  cases hb : b.toNat.testBit (i % 8) with
  | true =>
      rw [bne_iff_ne]
      intro h0
      have hbit : (b &&& mask i).toNat.testBit (i % 8) = true := by
        rw [UInt8.toNat_and, Nat.testBit_and, hb, mask_testBit i _ hi]
        simp
      rw [h0] at hbit
      simp at hbit
  | false =>
      rw [bne_eq_false_iff_eq]
      apply UInt8.toNat_inj.mp
      apply Nat.eq_of_testBit_eq
      intro k
      rw [UInt8.toNat_and, Nat.testBit_and]
      by_cases hk : k < 8
      · rw [mask_testBit i k hk]
        by_cases hki : k = i % 8
        · simp [hki, hb]
        · simp [hki]
      · have hlt : b.toNat < 2 ^ k :=
          lt_of_lt_of_le b.toNat_lt (Nat.pow_le_pow_right (by omega) (by omega : 8 ≤ k))
        rw [Nat.testBit_lt_two_pow hlt]
        simp

theorem not_testBit (b : UInt8) (k : Nat) (hk : k < 8) :
    (~~~b).toNat.testBit k = !b.toNat.testBit k := by
  rw [← UInt8.toNat_toBitVec, ← UInt8.toNat_toBitVec, BitVec.testBit_toNat, BitVec.testBit_toNat,
    UInt8.toBitVec_not, BitVec.getLsbD_not]
  simp [hk]

/-! ## Whole bitmaps -/

theorem test_eq (bm : Bytes) (i : Nat) : test bm i = (bm (i / 8)).toNat.testBit (i % 8) :=
  and_mask_ne_zero _ _

/-- Two bit numbers are equal when their byte and their place in it are. -/
theorem eq_iff_div_mod (i j : Nat) : j = i ↔ j / 8 = i / 8 ∧ j % 8 = i % 8 := by omega

theorem test_set (bm : Bytes) (i j : Nat) :
    test (set bm i) j = (decide (j = i) || test bm j) := by
  have hj : j % 8 < 8 := Nat.mod_lt _ (by omega)
  rw [test_eq, test_eq, set]
  by_cases hbyte : j / 8 = i / 8
  · rw [if_pos hbyte, UInt8.toNat_or, Nat.testBit_or, mask_testBit i _ hj, Bool.or_comm]
    congr 1
    simp [eq_iff_div_mod i j, hbyte]
  · have hne : j ≠ i := fun h => hbyte (by rw [h])
    simp [hbyte, hne]

theorem test_clear (bm : Bytes) (i j : Nat) :
    test (clear bm i) j = (!decide (j = i) && test bm j) := by
  have hj : j % 8 < 8 := Nat.mod_lt _ (by omega)
  rw [test_eq, test_eq, clear]
  by_cases hbyte : j / 8 = i / 8
  · rw [if_pos hbyte, UInt8.toNat_and, Nat.testBit_and, not_testBit _ _ hj, mask_testBit i _ hj,
      Bool.and_comm]
    congr 2
    simp [eq_iff_div_mod i j, hbyte]
  · have hne : j ≠ i := fun h => hbyte (by rw [h])
    simp [hbyte, hne]

@[simp] theorem test_set_self (bm : Bytes) (i : Nat) : test (set bm i) i = true := by
  simp [test_set]

theorem test_set_ne (bm : Bytes) {i j : Nat} (h : j ≠ i) :
    test (set bm i) j = test bm j := by
  simp [test_set, h]

theorem test_set_mono {bm : Bytes} {i j : Nat} (h : test bm j = true) :
    test (set bm i) j = true := by
  simp [test_set, h]

@[simp] theorem test_clear_self (bm : Bytes) (i : Nat) : test (clear bm i) i = false := by
  simp [test_clear]

theorem test_clear_ne (bm : Bytes) {i j : Nat} (h : j ≠ i) :
    test (clear bm i) j = test bm j := by
  simp [test_clear, h]

/-- A bit only depends on its own byte. -/
theorem test_congr {a b : Bytes} {i : Nat} (h : a (i / 8) = b (i / 8)) :
    test a i = test b i := by
  rw [test_eq, test_eq, h]

theorem test_agreeOn {a b : Bytes} {n i : Nat} (h : Bytes.AgreeOn a b 0 n) (hi : i / 8 < n) :
    test a i = test b i :=
  test_congr (h _ (by omega) hi)

/-- Bitmaps with the same bits have the same bytes. -/
theorem agreeOn_of_test {a b : Bytes} {n : Nat} (h : ∀ i, i < n * 8 → test a i = test b i) :
    Bytes.AgreeOn a b 0 n := by
  intro k _ hk
  refine UInt8.toNat_inj.mp (Nat.eq_of_testBit_eq fun j => ?_)
  by_cases hj : j < 8
  · have hbit := h (8 * k + j) (by omega)
    have hdiv : (8 * k + j) / 8 = k := by omega
    have hmod : (8 * k + j) % 8 = j := by omega
    rwa [test_eq, test_eq, hdiv, hmod] at hbit
  · have hpow : 2 ^ 8 ≤ 2 ^ j := Nat.pow_le_pow_right (by decide) (by omega)
    rw [Nat.testBit_lt_two_pow (lt_of_lt_of_le (UInt8.toNat_lt _) hpow),
      Nat.testBit_lt_two_pow (lt_of_lt_of_le (UInt8.toNat_lt _) hpow)]

@[simp] theorem test_zero (i : Nat) : test Bytes.zero i = false := by
  simp [test_eq, Bytes.zero]

theorem test_full {bm : Bytes} {i : Nat} (h : bm (i / 8) = 0xff) : test bm i = true := by
  have hi : i % 8 < 8 := Nat.mod_lt _ (by omega)
  rw [test_eq, h]
  generalize i % 8 = m at hi
  interval_cases m <;> decide

end Bitmap

end Mcsos
