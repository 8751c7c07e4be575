import Mcsos.Lib.Moves
import Mcsos.Lib.WriteLog

set_option autoImplicit false

/-! # `memset`, `memcpy` and `memmove` (`kernel/lib/memory.c`)

Pointers are 64-bit addresses, and pointer arithmetic wraps around as the addresses do. A range of
`n` bytes may end with the last byte of the address space, so that the pointer behind it is 0
again. Every function returns its first argument.
-/

namespace Mcsos.Klib

open Moves WriteLog

/-- The byte at every address. -/
abbrev Mem := UInt64 → UInt8

/-! ## The functions -/

/-- The loop of `memset` with `n` bytes left. -/
def memsetLoop (d : UInt64) (value : UInt8) : Nat → Mem → Mem
  | 0, m => m
  | n + 1, m => memsetLoop (d + 1) value n (Function.update m d value)

/-- `memset`; the value is an `int` of which the low byte counts. -/
def memset (dest : UInt64) (value : Int) (count : UInt64) (m : Mem) : UInt64 × Mem :=
  (dest, memsetLoop dest (UInt8.ofNat (value % 256).toNat) count.toNat m)

/-- `while (count-- != 0u) *d++ = *s++;` with `n` bytes left. -/
def copyUp (d s : UInt64) : Nat → Mem → Mem
  | 0, m => m
  | n + 1, m => copyUp (d + 1) (s + 1) n (Function.update m d (m s))

def memcpy (dest src count : UInt64) (m : Mem) : UInt64 × Mem :=
  (dest, copyUp dest src count.toNat m)

/-- `while (count-- != 0u) *--d = *--s;` with `n` bytes left. -/
def copyDown (d s : UInt64) : Nat → Mem → Mem
  | 0, m => m
  | n + 1, m => copyDown (d - 1) (s - 1) n (Function.update m (d - 1) (m (s - 1)))

def memmove (dest src count : UInt64) (m : Mem) : UInt64 × Mem :=
  if dest = src ∨ count = 0 then (dest, m)
  else if dest < src then (dest, copyUp dest src count.toNat m)
  else (dest, copyDown (dest + count) (src + count) count.toNat m)

/-! ## Ranges -/

/-- The `n` bytes from `p` on do not wrap around. -/
def Fits (p n : UInt64) : Prop := p.toNat + n.toNat ≤ 2 ^ 64

/-- `a` is one of the `n` bytes from `p` on. -/
def InRange (p n a : UInt64) : Prop := p.toNat ≤ a.toNat ∧ a.toNat < p.toNat + n.toNat

/-- The address of byte `i` of a range. -/
def byteAt (p : UInt64) (i : Nat) : UInt64 := p + UInt64.ofNat i

theorem byteAt_zero (p : UInt64) : byteAt p 0 = p := by
  unfold byteAt
  exact UInt64.add_zero p

theorem byteAt_succ (p : UInt64) (i : Nat) : byteAt p (i + 1) = byteAt p i + 1 := by
  unfold byteAt
  rw [UInt64.ofNat_add, UInt64.add_assoc]
  rfl

theorem byteAt_toNat (p i : UInt64) : byteAt p i.toNat = p + i := by
  unfold byteAt
  rw [UInt64.ofNat_toNat]

section Fits

variable {p n : UInt64} {i : Nat}

/-- Inside a range, addresses are numbers. -/
theorem Fits.toNat_byteAt (h : Fits p n) (hi : i < n.toNat) : (byteAt p i).toNat = p.toNat + i := by
  unfold Fits at h
  unfold byteAt
  rw [UInt64.toNat_add, UInt64.toNat_ofNat', Nat.mod_eq_of_lt (show i < 2 ^ 64 by omega),
    Nat.mod_eq_of_lt (by omega)]

theorem Fits.inRange (h : Fits p n) (hi : i < n.toNat) : InRange p n (byteAt p i) := by
  unfold InRange
  rw [h.toNat_byteAt hi]
  omega

theorem Fits.byteAt_ne {q : UInt64} {j : Nat} (hp : Fits p n) (hq : Fits q n) (hi : i < n.toNat)
    (hj : j < n.toNat) (h : p.toNat + i ≠ q.toNat + j) : byteAt p i ≠ byteAt q j := fun he => by
  have hnat := congrArg UInt64.toNat he
  rw [hp.toNat_byteAt hi, hq.toNat_byteAt hj] at hnat
  exact h hnat

end Fits

/-! ## The loops -/

theorem copyUp_eq (d s : UInt64) (k n : Nat) (m : Mem) :
    copyUp (byteAt d k) (byteAt s k) n m = moves (byteAt d) (byteAt s) (List.range' k n) m := by
  induction n generalizing k m with
  | zero => rfl
  | succ n ih =>
      rw [copyUp, ← byteAt_succ, ← byteAt_succ, ih, List.range'_succ, moves_cons]

theorem copyDown_eq (d s : UInt64) (n : Nat) (m : Mem) :
    copyDown (byteAt d n) (byteAt s n) n m =
      moves (byteAt d) (byteAt s) (List.range n).reverse m := by
  induction n generalizing m with
  | zero => rfl
  | succ n ih =>
      have hd : byteAt d (n + 1) - 1 = byteAt d n := by rw [byteAt_succ, UInt64.add_sub_cancel]
      have hs : byteAt s (n + 1) - 1 = byteAt s n := by rw [byteAt_succ, UInt64.add_sub_cancel]
      rw [copyDown, hd, hs, ih, List.range_succ, List.reverse_append]
      rfl

/-- `m'` is `m` with what it held in the source range now in the destination range as well. -/
structure Moved (dest src n : UInt64) (m m' : Mem) : Prop where
  inside : ∀ i, i < n → m' (dest + i) = m (src + i)
  outside : ∀ a, ¬InRange dest n a → m' a = m a

section Moved

variable {dest src n : UInt64}

/-- A loop over all bytes of the range that is orderly moves the range. -/
theorem moved_of_orderly (hd : Fits dest n) {is : List Nat} (hmem : ∀ i, i ∈ is ↔ i < n.toNat)
    (horderly : Orderly (byteAt dest) (byteAt src) is) (m : Mem) :
    Moved dest src n m (moves (byteAt dest) (byteAt src) is m) where
  inside := fun i hi => by
    rw [← byteAt_toNat, ← byteAt_toNat]
    exact moves_of_orderly horderly m ((hmem i.toNat).mpr hi)
  outside := fun a ha => by
    apply moves_of_not_written
    rintro i hi rfl
    exact ha (hd.inRange ((hmem i).mp hi))

/-- Upwards, a turn writes below what the later ones read, or above all of it. -/
theorem copyUp_moved (hd : Fits dest n) (hs : Fits src n)
    (hapart : dest.toNat ≤ src.toNat ∨ src.toNat + n.toNat ≤ dest.toNat) (m : Mem) :
    Moved dest src n m (copyUp dest src n.toNat m) := by
  have hrun := copyUp_eq dest src 0 n.toNat m
  rw [byteAt_zero, byteAt_zero] at hrun
  rw [hrun]
  apply moved_of_orderly hd (fun i => by rw [List.mem_range'_1]; omega)
  apply (List.pairwise_lt_range' 1).imp_of_mem
  intro i j hi hj hij
  rw [List.mem_range'_1] at hi hj
  constructor
  · exact hd.byteAt_ne hs (by omega) (by omega) (by omega)
  · exact hd.byteAt_ne hd (by omega) (by omega) (by omega)

/-- Downwards, a turn writes above what the later ones read, or below all of it. -/
theorem copyDown_moved (hd : Fits dest n) (hs : Fits src n)
    (hapart : src.toNat ≤ dest.toNat ∨ dest.toNat + n.toNat ≤ src.toNat) (m : Mem) :
    Moved dest src n m (copyDown (dest + n) (src + n) n.toNat m) := by
  have hrun := copyDown_eq dest src n.toNat m
  rw [byteAt_toNat, byteAt_toNat] at hrun
  rw [hrun]
  apply moved_of_orderly hd (fun i => by rw [List.mem_reverse, List.mem_range])
  unfold Orderly
  rw [List.pairwise_reverse]
  apply List.pairwise_lt_range.imp_of_mem
  intro i j hi hj hij
  rw [List.mem_range] at hi hj
  constructor
  · exact hd.byteAt_ne hs hj hi (by omega)
  · exact hd.byteAt_ne hd hj hi (by omega)

end Moved

/-! ## The three functions -/

/-- `memcpy` moves ranges that do not overlap, and also downwards over its own source. -/
theorem memcpy_moved {dest src count : UInt64} (hd : Fits dest count) (hs : Fits src count)
    (hapart : dest.toNat ≤ src.toNat ∨ src.toNat + count.toNat ≤ dest.toNat) (m : Mem) :
    (memcpy dest src count m).1 = dest ∧
      Moved dest src count m (memcpy dest src count m).2 :=
  ⟨rfl, copyUp_moved hd hs hapart m⟩

/-- `memmove` moves any two ranges, whichever way they overlap. -/
theorem memmove_moved {dest src count : UInt64} (hd : Fits dest count) (hs : Fits src count)
    (m : Mem) : (memmove dest src count m).1 = dest ∧
      Moved dest src count m (memmove dest src count m).2 := by
  unfold memmove
  by_cases hnothing : dest = src ∨ count = 0
  · rw [if_pos hnothing]
    refine ⟨rfl, fun i hi => ?_, fun _ _ => rfl⟩
    rcases hnothing with rfl | rfl
    · rfl
    · exact absurd hi UInt64.not_lt_zero
  rw [if_neg hnothing]
  by_cases hbelow : dest < src
  · rw [if_pos hbelow]
    exact ⟨rfl, copyUp_moved hd hs (Or.inl (Nat.le_of_lt hbelow)) m⟩
  · rw [if_neg hbelow]
    exact ⟨rfl, copyDown_moved hd hs (Or.inl (Nat.not_lt.mp hbelow)) m⟩

/-- Three bytes, moved up by one. -/
theorem memmove_moved_up : (memmove 2 1 3 (fun a => a.toUInt8)).2 4 = 3 ∧
    Moved 2 1 3 (fun a => a.toUInt8) (memmove 2 1 3 (fun a => a.toUInt8)).2 :=
  ⟨by decide, (memmove_moved (by unfold Fits; decide) (by unfold Fits; decide) _).2⟩

/-- `m'` is `m` with the byte `value` all over the range. -/
structure Filled (dest : UInt64) (value : UInt8) (n : UInt64) (m m' : Mem) : Prop where
  inside : ∀ i, i < n → m' (dest + i) = value
  outside : ∀ a, ¬InRange dest n a → m' a = m a

theorem memsetLoop_eq (d : UInt64) (value : UInt8) (k n : Nat) (m : Mem) :
    memsetLoop (byteAt d k) value n m =
      applyWrites ((List.range' k n).map (fun i => (byteAt d i, value))) m := by
  induction n generalizing k m with
  | zero => rfl
  | succ n ih =>
      rw [memsetLoop, ← byteAt_succ, ih, List.range'_succ]
      rfl

theorem memset_filled {dest count : UInt64} (hd : Fits dest count) (value : Int) (m : Mem) :
    (memset dest value count m).1 = dest ∧
      Filled dest (UInt8.ofNat (value % 256).toNat) count m (memset dest value count m).2 := by
  have hrun := memsetLoop_eq dest (UInt8.ofNat (value % 256).toNat) 0 count.toNat m
  rw [byteAt_zero] at hrun
  unfold memset
  rw [hrun]
  refine ⟨rfl, fun i hi => ?_, fun a ha => ?_⟩
  · have hmem : i.toNat ∈ List.range' 0 count.toNat := by
      rw [List.mem_range'_1, Nat.zero_add]
      exact ⟨Nat.zero_le _, hi⟩
    apply applyWrites_of_written ⟨_, List.mem_map.mpr ⟨i.toNat, hmem, rfl⟩, byteAt_toNat dest i⟩
    intro w hw _
    obtain ⟨j, -, rfl⟩ := List.mem_map.mp hw
    rfl
  · apply applyWrites_of_not_written
    rintro w hw rfl
    obtain ⟨j, hj, rfl⟩ := List.mem_map.mp hw
    rw [List.mem_range'_1] at hj
    exact ha (hd.inRange (by omega))

end Mcsos.Klib
