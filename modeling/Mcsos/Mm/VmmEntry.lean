import Mcsos.Mm.Vmm

set_option autoImplicit false

/-! # Entries and indices of page tables

What the bit operations of `vmm.c` do: the fields of an entry come back as they were put in,
and a canonical aligned address is determined by its four table indices.
-/

namespace Mcsos.Vmm

/-! ## Masks -/

theorem or_and_distrib (a b c : UInt64) : (a ||| b) &&& c = (a &&& c) ||| (b &&& c) :=
  UInt64.toBitVec_inj.1 BitVec.and_or_distrib_right

theorem and_or_distrib (a b c : UInt64) : c &&& (a ||| b) = (c &&& a) ||| (c &&& b) :=
  UInt64.toBitVec_inj.1 BitVec.and_or_distrib_left

/-- A field under the mask `m` is not seen under a mask that is disjoint from `m`. -/
theorem and_and_of_disjoint {a m n : UInt64} (h : m &&& n = 0) : a &&& m &&& n = 0 := by
  rw [UInt64.and_assoc, h, UInt64.and_zero]

theorem and_and_of_subset {a m n : UInt64} (h : m &&& n = m) : a &&& m &&& n = a &&& m := by
  rw [UInt64.and_assoc, h]

/-- A 4 KiB aligned frame below `2 ^ 52` survives the address mask. -/
theorem and_addrMask {f : UInt64} (ha : isAligned4k f = true) (hlt : f.toNat < 2 ^ 52) :
    f &&& pteAddrMask = f := by
  have hlow : f &&& (pageSize - 1) = 0 := by
    unfold isAligned4k at ha
    simpa using ha
  have hall : f &&& 0x000FFFFFFFFFFFFF = f := by
    apply UInt64.toNat_inj.mp
    rw [UInt64.toNat_and]
    exact Nat.and_two_pow_sub_one_of_lt_two_pow hlt
  calc f &&& pteAddrMask
      = (f &&& pteAddrMask) ||| (f &&& (pageSize - 1)) := by rw [hlow, UInt64.or_zero]
    _ = f &&& 0x000FFFFFFFFFFFFF := by
        rw [← and_or_distrib]
        rfl
    _ = f := hall

/-! ## Entries -/

/-- The entry that links the table frame `f`, or an empty entry. -/
def tableEntry : Option UInt64 → UInt64
  | none => 0
  | some f => (f &&& pteAddrMask) ||| ptePresent ||| pteWritable

/-- The entry that maps `(paddr, flags)`, or an empty entry. -/
def leafEntry : Option (UInt64 × UInt64) → UInt64
  | none => 0
  | some (paddr, flags) => (paddr &&& pteAddrMask) ||| ptePresent ||| (flags &&& allowed)

theorem tableEntry_present (f : UInt64) : tableEntry (some f) &&& ptePresent ≠ 0 := by
  unfold tableEntry
  rw [or_and_distrib, or_and_distrib, and_and_of_disjoint (by decide)]
  decide

theorem tableEntry_huge (f : UInt64) : tableEntry (some f) &&& pteHuge = 0 := by
  unfold tableEntry
  rw [or_and_distrib, or_and_distrib, and_and_of_disjoint (by decide)]
  decide

theorem tableEntry_addr (f : UInt64) : tableEntry (some f) &&& pteAddrMask = f &&& pteAddrMask := by
  unfold tableEntry
  rw [or_and_distrib, or_and_distrib, and_and_of_subset (by decide),
    show ptePresent &&& pteAddrMask = 0 by decide, show pteWritable &&& pteAddrMask = 0 by decide,
    UInt64.or_zero, UInt64.or_zero]

theorem leafEntry_present (paddr flags : UInt64) :
    leafEntry (some (paddr, flags)) &&& ptePresent ≠ 0 := by
  unfold leafEntry
  rw [or_and_distrib, or_and_distrib, and_and_of_disjoint (by decide),
    and_and_of_disjoint (by decide)]
  decide

theorem leafEntry_addr (paddr flags : UInt64) :
    leafEntry (some (paddr, flags)) &&& pteAddrMask = paddr &&& pteAddrMask := by
  unfold leafEntry
  rw [or_and_distrib, or_and_distrib, and_and_of_subset (by decide),
    and_and_of_disjoint (by decide), show ptePresent &&& pteAddrMask = 0 by decide,
    UInt64.or_zero, UInt64.or_zero]

theorem leafEntry_flags (paddr flags : UInt64) :
    leafEntry (some (paddr, flags)) &&& ~~~pteAddrMask = ptePresent ||| (flags &&& allowed) := by
  unfold leafEntry
  rw [or_and_distrib, or_and_distrib, and_and_of_disjoint (by decide),
    and_and_of_subset (by decide), show ptePresent &&& ~~~pteAddrMask = ptePresent by decide,
    UInt64.zero_or]

/-- The flags of an entry that links a table are always the same. -/
theorem tableEntry_flag {m : UInt64} (h : pteAddrMask &&& m = 0) (f : UInt64) :
    tableEntry (some f) &&& m = (ptePresent ||| pteWritable) &&& m := by
  unfold tableEntry
  rw [or_and_distrib, or_and_distrib, and_and_of_disjoint h, UInt64.zero_or, ← or_and_distrib]

/-- An allowed flag of a mapping is as it was asked for. -/
theorem leafEntry_flag {m : UInt64} (haddr : pteAddrMask &&& m = 0) (hpresent : ptePresent &&& m = 0)
    (hallowed : allowed &&& m = m) (paddr flags : UInt64) :
    leafEntry (some (paddr, flags)) &&& m = flags &&& m := by
  unfold leafEntry
  rw [or_and_distrib, or_and_distrib, and_and_of_disjoint haddr, hpresent, UInt64.and_assoc, hallowed,
    UInt64.or_zero, UInt64.zero_or]

/-! ## Indices -/

/-- The valid arguments of a lookup. -/
def GoodAddr (vaddr : UInt64) : Prop := isCanonical vaddr = true ∧ isAligned4k vaddr = true

/-- The indices that lead to the entry of `vaddr`, the last one first. -/
def path (vaddr : UInt64) : List Nat := [idxPd vaddr, idxPdpt vaddr, idxPml4 vaddr]

theorem index_eq (vaddr : UInt64) (k : UInt64) (hk : k.toNat < 64) :
    ((vaddr >>> k) &&& 0x1FF).toNat = vaddr.toNat / 2 ^ k.toNat % 512 := by
  rw [UInt64.toNat_and, UInt64.toNat_shiftRight, Nat.mod_eq_of_lt hk, Nat.shiftRight_eq_div_pow]
  exact Nat.and_two_pow_sub_one_eq_mod _ 9

theorem idxPml4_eq (vaddr : UInt64) : idxPml4 vaddr = vaddr.toNat / 2 ^ 39 % 512 :=
  index_eq vaddr 39 (by decide)

theorem idxPdpt_eq (vaddr : UInt64) : idxPdpt vaddr = vaddr.toNat / 2 ^ 30 % 512 :=
  index_eq vaddr 30 (by decide)

theorem idxPd_eq (vaddr : UInt64) : idxPd vaddr = vaddr.toNat / 2 ^ 21 % 512 :=
  index_eq vaddr 21 (by decide)

theorem idxPt_eq (vaddr : UInt64) : idxPt vaddr = vaddr.toNat / 2 ^ 12 % 512 :=
  index_eq vaddr 12 (by decide)

theorem isAligned4k_iff (value : UInt64) : isAligned4k value = true ↔ value.toNat % 4096 = 0 := by
  unfold isAligned4k
  rw [decide_eq_true_iff, ← UInt64.toNat_inj, UInt64.toNat_and]
  exact Eq.congr_left (Nat.and_two_pow_sub_one_eq_mod _ 12)

/-- The upper 16 bits of a canonical address repeat bit 47. -/
theorem isCanonical_iff (vaddr : UInt64) : isCanonical vaddr = true ↔
    (vaddr.toNat / 2 ^ 47 % 2 = 1 ∧ vaddr.toNat / 2 ^ 48 = 0xFFFF) ∨
    (vaddr.toNat / 2 ^ 47 % 2 = 0 ∧ vaddr.toNat / 2 ^ 48 = 0) := by
  have hsign : ((vaddr >>> 47) &&& 1).toNat = vaddr.toNat / 2 ^ 47 % 2 := by
    rw [UInt64.toNat_and, UInt64.toNat_shiftRight]
    exact (Nat.and_two_pow_sub_one_eq_mod _ 1).trans (by rw [Nat.shiftRight_eq_div_pow]; rfl)
  have hupper : (vaddr >>> 48).toNat = vaddr.toNat / 2 ^ 48 := by
    rw [UInt64.toNat_shiftRight, Nat.shiftRight_eq_div_pow]
    rfl
  have hupper_eq : ∀ c : UInt64, vaddr >>> 48 = c ↔ vaddr.toNat / 2 ^ 48 = c.toNat := by
    intro c
    rw [← UInt64.toNat_inj, hupper]
  unfold isCanonical
  by_cases hs : (vaddr >>> 47) &&& 1 = 0
  · have h0 : vaddr.toNat / 2 ^ 47 % 2 = 0 := by
      rw [← hsign, hs]
      rfl
    simp only [if_neg (not_not.mpr hs), decide_eq_true_iff, hupper_eq, h0]
    simp
  · have h1 : vaddr.toNat / 2 ^ 47 % 2 = 1 := by
      have hne : vaddr.toNat / 2 ^ 47 % 2 ≠ 0 := by
        rw [← hsign]
        exact fun h => hs (UInt64.toNat_inj.mp h)
      omega
    simp only [if_pos hs, decide_eq_true_iff, hupper_eq, h1]
    simp

/-- Different good addresses lead to different entries. -/
theorem path_inj {v w : UInt64} (hv : GoodAddr v) (hw : GoodAddr w)
    (h : idxPt v :: path v = idxPt w :: path w) : v = w := by
  obtain ⟨hvc, hva⟩ := hv
  obtain ⟨hwc, hwa⟩ := hw
  rw [isCanonical_iff] at hvc hwc
  rw [isAligned4k_iff] at hva hwa
  simp only [path, List.cons.injEq, and_true, idxPt_eq, idxPd_eq, idxPdpt_eq, idxPml4_eq] at h
  obtain ⟨h1, h2, h3, h4⟩ := h
  apply UInt64.toNat_inj.mp
  omega

end Mcsos.Vmm
