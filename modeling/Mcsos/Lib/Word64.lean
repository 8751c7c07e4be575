import Mcsos.Lib.Bytes

set_option autoImplicit false

/-! # 64-bit words in byte memory

A memory by 64-bit addresses, which wrap around. The file gives its little-endian 8-byte words, when
two ranges of it are apart, and how loads and stores commute.
-/

namespace Mcsos.Word64

/-- The byte at every address. -/
abbrev Mem := UInt64 → UInt8

/-- The memory from `a` on, by offsets. -/
def view (m : Mem) (a : UInt64) : Bytes := fun i => m (a + UInt64.ofNat i)

def load (m : Mem) (a : UInt64) : UInt64 := UInt64.ofNat ((view m a).load 0 8)

def store (m : Mem) (a v : UInt64) : Mem := fun b =>
  if (b - a).toNat < 8 then UInt8.ofNat (v.toNat / 256 ^ (b - a).toNat) else m b

/-- The `n` bytes from `a` on and the `k` bytes from `b` on have no byte in common. -/
def Apart (a : UInt64) (n : Nat) (b : UInt64) (k : Nat) : Prop :=
  n ≤ (b - a).toNat ∧ k ≤ (a - b).toNat

/-- The memories agree on the `n` bytes from `a` on. -/
def SameOn (m m' : Mem) (a : UInt64) (n : Nat) : Prop :=
  ∀ i, i < n → m' (a + UInt64.ofNat i) = m (a + UInt64.ofNat i)

variable {m m' m'' : Mem} {a b v : UInt64} {n k : Nat}

/-! ## Ranges -/

theorem Apart.symm (h : Apart a n b k) : Apart b k a n := ⟨h.2, h.1⟩

theorem add_ofNat_sub (a : UInt64) {i : Nat} (hi : i < 2 ^ 64) :
    (a + UInt64.ofNat i - a).toNat = i := by
  rw [UInt64.add_comm, UInt64.add_sub_cancel, UInt64.toNat_ofNat', Nat.mod_eq_of_lt hi]

/-- A byte of the second range is none of the first. -/
theorem Apart.byte (h : Apart a n b k) {i : Nat} (hi : i < k) :
    n ≤ (b + UInt64.ofNat i - a).toNat := by
  obtain ⟨hab, hba⟩ := h
  have ha := a.toNat_lt
  have hb := b.toNat_lt
  rw [UInt64.toNat_sub] at hab hba ⊢
  rw [UInt64.toNat_add, UInt64.toNat_ofNat']
  omega

/-- A part of the second range. -/
theorem Apart.sub (h : Apart a n b k) {d l : Nat} (hl : 0 < l) (hd : d + l ≤ k) :
    Apart a n (b + UInt64.ofNat d) l := by
  refine ⟨h.byte (by omega), ?_⟩
  obtain ⟨hab, hba⟩ := h
  have ha := a.toNat_lt
  have hb := b.toNat_lt
  rw [UInt64.toNat_sub] at hba ⊢
  rw [UInt64.toNat_add, UInt64.toNat_ofNat']
  omega

/-- Two words of one block. -/
theorem apart_offsets (a : UInt64) {d e : Nat} (h : d + 8 ≤ e ∨ e + 8 ≤ d) (hd : d + 8 ≤ 2 ^ 64)
    (he : e + 8 ≤ 2 ^ 64) : Apart (a + UInt64.ofNat d) 8 (a + UInt64.ofNat e) 8 := by
  have ha := a.toNat_lt
  refine ⟨?_, ?_⟩ <;> rw [UInt64.toNat_sub, UInt64.toNat_add, UInt64.toNat_add,
    UInt64.toNat_ofNat', UInt64.toNat_ofNat'] <;> omega

theorem add_ofNat_add (a : UInt64) (d e : Nat) :
    a + UInt64.ofNat d + UInt64.ofNat e = a + UInt64.ofNat (d + e) := by
  rw [UInt64.ofNat_add, UInt64.add_assoc]

theorem SameOn.refl (m : Mem) (a : UInt64) (n : Nat) : SameOn m m a n := fun _ _ => rfl

theorem SameOn.trans (h : SameOn m m' a n) (h' : SameOn m' m'' a n) : SameOn m m'' a n :=
  fun i hi => (h' i hi).trans (h i hi)

theorem SameOn.sub (h : SameOn m m' a n) {d l : Nat} (hd : d + l ≤ n) :
    SameOn m m' (a + UInt64.ofNat d) l := by
  intro i hi
  rw [add_ofNat_add]
  exact h (d + i) (by omega)

theorem SameOn.take (h : SameOn m m' a n) (hk : k ≤ n) : SameOn m m' a k :=
  fun i hi => h i (Nat.lt_of_lt_of_le hi hk)

/-! ## Loads and stores -/

theorem SameOn.load (h : SameOn m m' a 8) : load m' a = load m a := by
  unfold Word64.load
  rw [Bytes.load_shift_congr 8 fun i hi => ?_]
  rw [Nat.zero_add]
  exact h i hi

theorem SameOn.load_at (h : SameOn m m' a n) {d : Nat} (hd : d + 8 ≤ n) :
    Word64.load m' (a + UInt64.ofNat d) = Word64.load m (a + UInt64.ofNat d) := (h.sub hd).load

theorem store_sameOn (h : Apart a 8 b k) : SameOn m (store m a v) b k := by
  intro i hi
  rw [store, if_neg]
  have hbyte := h.byte hi
  omega

@[simp] theorem load_store_same (m : Mem) (a v : UInt64) : load (store m a v) a = v := by
  have hview : ((view (store m a v) a).load 0 8) = ((view m a).store 0 8 v.toNat).load 0 8 := by
    refine Bytes.load_shift_congr 8 fun i hi => ?_
    rw [Nat.zero_add]
    unfold view store Bytes.store
    rw [add_ofNat_sub a (by omega), if_pos hi, if_pos (by omega), Nat.sub_zero]
  unfold load
  rw [hview, Bytes.load_store_same (by have := v.toNat_lt; omega), UInt64.ofNat_toNat]

/-- A byte outside of a block, after a store to a word of the block. -/
theorem store_outside (h : n ≤ (b - a).toNat) {d : Nat} (hd : d + 8 ≤ n) :
    store m (a + UInt64.ofNat d) v b = m b := by
  have ha := a.toNat_lt
  have hb := b.toNat_lt
  rw [store, if_neg]
  rw [UInt64.toNat_sub] at h
  rw [UInt64.toNat_sub, UInt64.toNat_add, UInt64.toNat_ofNat']
  omega

theorem load_store_ne (h : Apart a 8 b 8) : load (store m a v) b = load m b := (store_sameOn h).load

/-- Another word of the same block. -/
theorem load_store_offset {d e : Nat} (h : d + 8 ≤ e ∨ e + 8 ≤ d) (hd : d + 8 ≤ 2 ^ 64)
    (he : e + 8 ≤ 2 ^ 64) :
    load (store m (a + UInt64.ofNat d) v) (a + UInt64.ofNat e) = load m (a + UInt64.ofNat e) :=
  load_store_ne (apart_offsets a h hd he)

end Mcsos.Word64
