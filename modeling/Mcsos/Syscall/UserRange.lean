import Mcsos.Klib.Memory
import Mcsos.Syscall.Syscall
import Mcsos.User.ElfPlan

set_option autoImplicit false

/-! # The range of a user buffer (`kernel/syscall/syscall.c`, `kernel/user/m11_elf_loader.c`)

Two functions of the kernel check that a range of addresses lies in the user region. The one for
system calls takes the address of the last byte, the one of the loader the address behind it, and
both compute it modulo `2 ^ 64`. Here each is read as a statement about numbers. The copy of a user
buffer makes the first check, and then moves the bytes as `memcpy` does.
-/

namespace Mcsos.Syscall

theorem userCheckRange_iff (region : UserRegion) (addr len : UInt64) :
    userCheckRange region addr len = true ↔ len = 0 ∨ (region.base ≠ 0 ∧ region.base ≤ addr ∧
      addr.toNat + len.toNat ≤ region.limit.toNat) := by
  by_cases hlen : len = 0
  · rw [userCheckRange, if_pos hlen]
    exact ⟨fun _ => Or.inl hlen, fun _ => rfl⟩
  · have hpos : 0 < len.toNat := Nat.pos_of_ne_zero fun h => hlen (UInt64.toNat_inj.mp h)
    have haddr := addr.toNat_lt
    have hlim := region.limit.toNat_lt
    -- the address of the last byte, computed modulo 2 ^ 64
    have hlast : (addr + len - 1).toNat = (addr.toNat + len.toNat - 1) % 2 ^ 64 := by
      have hl := len.toNat_lt
      rw [UInt64.toNat_sub, UInt64.toNat_add, UInt64.toNat_one]
      omega
    rw [userCheckRange, if_neg hlen]
    simp only [hlen, false_or, UInt64.lt_iff_toNat_lt, UInt64.le_iff_toNat_le, hlast, ge_iff_le,
      gt_iff_lt, ne_eq]
    have hl := len.toNat_lt
    by_cases hbase : region.base = 0
    · simp [hbase]
    · simp only [hbase, false_or, not_false_eq_true, true_and]
      split_ifs <;> simp <;> omega

/-- The buffer of an accepted call does not wrap around. -/
theorem buffer_addr {region : UserRegion} {ptr len : UInt64}
    (h : userCheckRange region ptr len = true) {i : Nat} (hi : i < len.toNat) :
    (ptr + UInt64.ofNat i).toNat = ptr.toNat + i ∧ region.base ≤ ptr + UInt64.ofNat i ∧
      ptr + UInt64.ofNat i < region.limit := by
  have hne : len ≠ 0 := by
    rintro rfl
    exact absurd hi (Nat.not_lt_zero i)
  obtain ⟨_, hbase, hlimit⟩ := ((userCheckRange_iff region ptr len).mp h).resolve_left hne
  have hlim := region.limit.toNat_lt
  have haddr : (ptr + UInt64.ofNat i).toNat = ptr.toNat + i := by
    rw [UInt64.toNat_add, UInt64.toNat_ofNat']
    omega
  rw [UInt64.le_iff_toNat_le] at hbase ⊢
  rw [UInt64.lt_iff_toNat_lt, haddr]
  exact ⟨rfl, by omega, by omega⟩

/-- The `size` addresses from `addr` on lie in the region, and do not wrap around. -/
def InRegion (base limit addr size : UInt64) : Prop :=
  base.toNat < limit.toNat ∧ base.toNat ≤ addr.toNat ∧ addr.toNat + size.toNat ≤ limit.toNat

/-- With a region that does not start at 0, the two checks accept the same ranges, which are those
in the region. -/
theorem userCheckRange_agrees {base addr size : UInt64} (limit : UInt64) (hbase : base ≠ 0)
    (hsize : 1 ≤ size) :
    (userCheckRange ⟨base, limit⟩ addr size = true ↔
      User.validateUserRange ⟨base, limit⟩ addr size = User.m11Ok) ∧
    (userCheckRange ⟨base, limit⟩ addr size = true ↔ InRegion base limit addr size) ∧
    (User.validateUserRange ⟨base, limit⟩ addr size = User.m11Ok ↔
      InRegion base limit addr size) := by
  have hpos : 1 ≤ size.toNat := by
    rw [UInt64.le_iff_toNat_le] at hsize
    exact hsize
  have hne : size ≠ 0 := by
    rintro rfl
    exact absurd hpos (by decide)
  have hsyscall : userCheckRange ⟨base, limit⟩ addr size = true ↔
      InRegion base limit addr size := by
    rw [userCheckRange_iff, UInt64.le_iff_toNat_le, InRegion]
    simp only [hne, hbase, ne_eq, not_false_eq_true, true_and, false_or]
    omega
  have hloader : User.validateUserRange ⟨base, limit⟩ addr size = User.m11Ok ↔
      InRegion base limit addr size := by
    rw [User.validateUserRange_iff, InRegion]
    dsimp only
    omega
  exact ⟨hsyscall.trans hloader.symm, hsyscall, hloader⟩

/-- The last byte that there is lies behind a region that ends there, for both checks; the page
before it is accepted by both. -/
theorem userCheckRange_agrees_top :
    userCheckRange ⟨0x400000, 0xffffffffffffffff⟩ 0xffffffffffffffff 1 = false ∧
      User.validateUserRange ⟨0x400000, 0xffffffffffffffff⟩ 0xffffffffffffffff 1 ≠ User.m11Ok ∧
      userCheckRange ⟨0x400000, 0xffffffffffffffff⟩ 0xffffffffffffe000 0x1000 = true ∧
      User.validateUserRange ⟨0x400000, 0xffffffffffffffff⟩ 0xffffffffffffe000 0x1000 =
        User.m11Ok := by
  have hlast : ¬InRegion 0x400000 0xffffffffffffffff 0xffffffffffffffff 1 := by
    unfold InRegion
    decide
  have hpage : InRegion 0x400000 0xffffffffffffffff 0xffffffffffffe000 0x1000 := by
    unfold InRegion
    decide
  refine ⟨Bool.eq_false_iff.mpr fun h => hlast ?_, fun h => hlast ?_, ?_, ?_⟩
  · exact (userCheckRange_agrees _ (by decide) (by decide)).2.1.mp h
  · exact (userCheckRange_agrees _ (by decide) (by decide)).2.2.mp h
  · exact (userCheckRange_agrees _ (by decide) (by decide)).2.1.mpr hpage
  · exact (userCheckRange_agrees _ (by decide) (by decide)).2.2.mpr hpage

/-! ## Copying from the user -/

section Copy

variable {region : UserRegion} {dst src len : UInt64} {mem : Memory}

theorem copyBytes_eq (dst src : UInt64) (mem : Memory) (i : UInt64) (n : Nat) :
    copyBytes dst src mem i n = Klib.copyUp (dst + i) (src + i) n mem := by
  induction n generalizing mem i with
  | zero => rfl
  | succ n ih => rw [copyBytes, ih, Klib.copyUp, UInt64.add_assoc, UInt64.add_assoc]

/-- The copy is done for an empty buffer, and for one in the user region that has a place to go. -/
theorem copyFromUser_ok_iff : (copyFromUser region dst src len mem).1 = ok ↔
    len = 0 ∨ dst ≠ 0 ∧ userCheckRange region src len = true := by
  unfold copyFromUser
  by_cases hlen : len = 0
  · rw [if_pos hlen]
    exact ⟨fun _ => Or.inl hlen, fun _ => rfl⟩
  rw [if_neg hlen]
  by_cases hnull : dst = 0 ∨ src = 0
  · rw [if_pos hnull]
    refine ⟨fun h => absurd h (show ¬einval = ok by decide), fun h => ?_⟩
    obtain ⟨hdst, hcheck⟩ := h.resolve_left hlen
    -- no user region reaches down to NULL
    obtain ⟨hne, hle, -⟩ := ((userCheckRange_iff region src len).mp hcheck).resolve_left hlen
    rw [hnull.resolve_left hdst] at hle
    exact absurd (UInt64.le_antisymm hle UInt64.zero_le) hne
  rw [if_neg hnull]
  by_cases hcheck : userCheckRange region src len = true
  · rw [if_neg (not_not.mpr hcheck)]
    exact ⟨fun _ => Or.inr ⟨fun h => hnull (Or.inl h), hcheck⟩, fun _ => rfl⟩
  · rw [if_pos hcheck]
    refine ⟨fun h => absurd h (show ¬efault = ok by decide), fun h => ?_⟩
    exact absurd (h.resolve_left hlen).2 hcheck

/-- A copy that is refused leaves memory alone. -/
theorem copyFromUser_refused (h : (copyFromUser region dst src len mem).1 ≠ ok) :
    (copyFromUser region dst src len mem).2 = mem := by
  unfold copyFromUser at h ⊢
  split_ifs at h ⊢
  · rfl
  · rfl
  · exact absurd rfl h
  · rfl

/-- **What a copy from the user does**: a copy that is done has read the user region only, and has
moved its bytes to the destination, which lies apart from it or below, and nowhere else. -/
theorem copyFromUser_moved (hd : Klib.Fits dst len)
    (hapart : dst.toNat ≤ src.toNat ∨ src.toNat + len.toNat ≤ dst.toNat)
    (h : (copyFromUser region dst src len mem).1 = ok) :
    (∀ i, i < len.toNat → region.base ≤ src + UInt64.ofNat i ∧
      src + UInt64.ofNat i < region.limit) ∧
    Klib.Moved dst src len mem (copyFromUser region dst src len mem).2 := by
  have hcheck : userCheckRange region src len = true := by
    rcases copyFromUser_ok_iff.mp h with hlen | hdone
    · exact (userCheckRange_iff region src len).mpr (Or.inl hlen)
    · exact hdone.2
  refine ⟨fun i hi => (buffer_addr hcheck hi).2, ?_⟩
  unfold copyFromUser at h ⊢
  split_ifs at h ⊢ with hlen
  · rw [hlen]
    exact ⟨fun i hi => absurd hi UInt64.not_lt_zero, fun _ _ => rfl⟩
  · exact absurd h (show ¬einval = ok by decide)
  · obtain ⟨-, -, hlimit⟩ := ((userCheckRange_iff region src len).mp hcheck).resolve_left hlen
    have hsrc : Klib.Fits src len := le_trans hlimit (Nat.le_of_lt region.limit.toNat_lt)
    show Klib.Moved dst src len mem (copyBytes dst src mem 0 len.toNat)
    rw [copyBytes_eq, UInt64.add_zero, UInt64.add_zero]
    exact Klib.copyUp_moved hd hsrc hapart mem

end Copy

end Mcsos.Syscall
