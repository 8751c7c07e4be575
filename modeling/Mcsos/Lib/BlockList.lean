import Mathlib.Tactic

set_option autoImplicit false

/-! # Block lists of an allocator with in-band headers

A heap that keeps a header in front of every block is, seen from above, a list of blocks
`(addr, size, free)` that tiles an address range: the header of a block takes `h` bytes, its
payload the next `size` bytes, and the next block starts right after. The file has the
tiling predicate, the three operations an allocator makes of it (take a block, split a
block, merge neighbouring free blocks) and what they preserve. The header width `h` is a
parameter.
-/

namespace Mcsos

/-- One block: the address of its header, the size of its payload, its state. -/
structure Blk where
  addr : Nat
  size : Nat
  free : Bool
  deriving DecidableEq, Repr

namespace BlockList

variable {h : Nat}

/-- The blocks cover `[a, e)` in address order, without gaps. -/
def Tiles (h : Nat) : Nat → List Blk → Nat → Prop
  | a, [], e => a = e
  | a, b :: bs, e => b.addr = a ∧ Tiles h (a + h + b.size) bs e

theorem tiles_cons {a e : Nat} {b : Blk} {bs : List Blk} :
    Tiles h a (b :: bs) e ↔ b.addr = a ∧ Tiles h (a + h + b.size) bs e := Iff.rfl

theorem tiles_append {a e : Nat} {xs ys : List Blk} :
    Tiles h a (xs ++ ys) e ↔ ∃ m, Tiles h a xs m ∧ Tiles h m ys e := by
  induction xs generalizing a with
  | nil => simp [Tiles]
  | cons x xs ih =>
      rw [List.cons_append, tiles_cons, ih]
      constructor
      · rintro ⟨hx, m, h1, h2⟩
        exact ⟨m, ⟨hx, h1⟩, h2⟩
      · rintro ⟨m, ⟨hx, h1⟩, h2⟩
        exact ⟨hx, m, h1, h2⟩

theorem tiles_le {a e : Nat} {bs : List Blk} (ht : Tiles h a bs e) : a ≤ e := by
  induction bs generalizing a with
  | nil => exact Nat.le_of_eq ht
  | cons b bs ih =>
      have hrest := ih ht.2
      omega

/-- Every block lies inside the tiled range. -/
theorem tiles_mem {a e : Nat} {bs : List Blk} (ht : Tiles h a bs e) {b : Blk} (hb : b ∈ bs) :
    a ≤ b.addr ∧ b.addr + h + b.size ≤ e := by
  induction bs generalizing a with
  | nil => cases hb
  | cons c cs ih =>
      obtain ⟨hc, hcs⟩ := ht
      rcases List.mem_cons.mp hb with rfl | hb
      · have hbefore := tiles_le hcs
        omega
      · have hrest' := ih hcs hb
        omega

/-- Headers and payloads add up to the length of the range. -/
theorem tiles_sum {a e : Nat} {bs : List Blk} (ht : Tiles h a bs e) :
    a + (bs.map (fun b => h + b.size)).sum = e := by
  induction bs generalizing a with
  | nil => simpa [Tiles] using ht
  | cons b bs ih =>
      have hrest' := ih ht.2
      rw [List.map_cons, List.sum_cons]
      omega

/-- Two different blocks do not meet, header and payload included. -/
theorem tiles_disjoint {a e : Nat} {bs : List Blk} (ht : Tiles h a bs e) {b c : Blk} (hb : b ∈ bs)
    (hc : c ∈ bs) (hne : b ≠ c) :
    b.addr + h + b.size ≤ c.addr ∨ c.addr + h + c.size ≤ b.addr := by
  induction bs generalizing a with
  | nil => cases hb
  | cons d ds ih =>
      obtain ⟨hd, hds⟩ := ht
      rcases List.mem_cons.mp hb with rfl | hb' <;> rcases List.mem_cons.mp hc with rfl | hc'
      · exact absurd rfl hne
      · have hmem := (tiles_mem hds hc').1
        omega
      · have hmem' := (tiles_mem hds hb').1
        omega
      · exact ih hds hb' hc'

theorem tiles_length {a e : Nat} {bs : List Blk} (ht : Tiles h a bs e) :
    a + h * bs.length ≤ e := by
  induction bs generalizing a with
  | nil => exact Nat.le_of_eq (by simpa [Tiles] using ht)
  | cons b bs ih =>
      have hrest' := ih ht.2
      rw [List.length_cons, Nat.mul_add]
      omega

/-- A tiling does not look at the states of the blocks. -/
theorem tiles_set_free {a e : Nat} {pre post : List Blk} {b : Blk} {v : Bool}
    (ht : Tiles h a (pre ++ b :: post) e) :
    Tiles h a (pre ++ { b with free := v } :: post) e := by
  obtain ⟨m, h1, h2⟩ := tiles_append.mp ht
  exact tiles_append.mpr ⟨m, h1, h2⟩

/-- Cutting the payload of a block leaves a tiling: the first part keeps `k` bytes, the rest
becomes a block with a header of its own. -/
theorem tiles_split {a e : Nat} {pre post : List Blk} {b : Blk} {k : Nat} {v w : Bool}
    (ht : Tiles h a (pre ++ b :: post) e) (hk : k + h ≤ b.size) :
    Tiles h a (pre ++ { addr := b.addr, size := k, free := v } ::
      { addr := b.addr + h + k, size := b.size - (k + h), free := w } :: post) e := by
  obtain ⟨m, h1, h2⟩ := tiles_append.mp ht
  obtain ⟨hb, hpost⟩ := tiles_cons.mp h2
  refine tiles_append.mpr ⟨m, h1, hb, ?_, ?_⟩
  · show b.addr + h + k = m + h + k
    omega
  · show Tiles h (m + h + k + h + (b.size - (k + h))) post e
    rwa [show m + h + k + h + (b.size - (k + h)) = m + h + b.size by omega]

/-! ## First fit -/

/-- The first free block of at least `n` bytes. -/
def firstFit (n : Nat) (bs : List Blk) : Option Blk := bs.find? (fun b => b.free && n ≤ b.size)

theorem firstFit_none_iff {n : Nat} {bs : List Blk} :
    firstFit n bs = none ↔ ∀ b ∈ bs, b.free = true → b.size < n := by
  simp [firstFit]

theorem firstFit_some {n : Nat} {bs : List Blk} {b : Blk} (hf : firstFit n bs = some b) :
    b.free = true ∧ n ≤ b.size ∧ ∃ pre post, bs = pre ++ b :: post ∧
      ∀ c ∈ pre, ¬(c.free = true ∧ n ≤ c.size) := by
  obtain ⟨hp, pre, post, hbs, hpre⟩ := List.find?_eq_some_iff_append.mp hf
  simp only [Bool.and_eq_true, decide_eq_true_eq] at hp
  refine ⟨hp.1, hp.2, pre, post, hbs, fun c hc => ?_⟩
  have hnot := hpre c hc
  rintro ⟨hfree, hsize⟩
  simp [hfree, hsize] at hnot

/-! ## Merging -/

/-- The block that `b` and its right neighbour `c` form together. -/
def merge (h : Nat) (b c : Blk) : Blk := { b with size := b.size + h + c.size }

/-- Put `b` in front of a merged list: a free block absorbs a free neighbour. -/
def push (h : Nat) (b : Blk) : List Blk → List Blk
  | [] => [b]
  | c :: cs => if b.free && c.free then merge h b c :: cs else b :: c :: cs

/-- Merge all runs of neighbouring free blocks. -/
def coalesce (h : Nat) (bs : List Blk) : List Blk := bs.foldr (push h) []

theorem push_cons (b c : Blk) (cs : List Blk) :
    push h b (c :: cs) =
      if b.free && c.free then merge h b c :: cs else b :: c :: cs := rfl

@[simp] theorem coalesce_nil : coalesce h [] = [] := rfl

theorem coalesce_cons (b : Blk) (bs : List Blk) :
    coalesce h (b :: bs) = push h b (coalesce h bs) := rfl

/-- Pushing onto a list only looks at the state of its head, which merging keeps. -/
theorem coalesce_head (c : Blk) (cs : List Blk) :
    ∃ d ds, coalesce h (c :: cs) = d :: ds ∧ d.free = c.free ∧ d.addr = c.addr := by
  rw [coalesce_cons]
  cases coalesce h cs with
  | nil => exact ⟨c, [], rfl, rfl, rfl⟩
  | cons d ds =>
      by_cases hfree : (c.free && d.free) = true
      · exact ⟨merge h c d, ds, by rw [push_cons, if_pos hfree], rfl, rfl⟩
      · exact ⟨c, d :: ds, by rw [push_cons, if_neg hfree], rfl, rfl⟩

/-- Merging two free neighbours first does not change the result. -/
theorem coalesce_merge {b c : Blk} (bs : List Blk) (hb : b.free = true) (hc : c.free = true) :
    coalesce h (b :: c :: bs) = coalesce h (merge h b c :: bs) := by
  rw [coalesce_cons, coalesce_cons, coalesce_cons]
  cases coalesce h bs with
  | nil => simp [push, hb, hc]
  | cons d ds =>
      by_cases hd : d.free = true
      · simp [push, merge, hb, hc, hd]
        omega
      · simp [push, merge, hb, hc, hd]

/-- A block whose right neighbour it cannot absorb stays as it is. -/
theorem coalesce_keep {b : Blk} {bs : List Blk}
    (hkeep : ∀ c cs, bs = c :: cs → ¬(b.free = true ∧ c.free = true)) :
    coalesce h (b :: bs) = b :: coalesce h bs := by
  rw [coalesce_cons]
  cases bs with
  | nil => rfl
  | cons c cs =>
      obtain ⟨d, ds, heq, hdc, -⟩ := coalesce_head (h := h) c cs
      have hnot := hkeep c cs rfl
      rw [heq, push_cons, if_neg (by rw [hdc]; simpa using hnot)]

theorem tiles_push {a e : Nat} {b : Blk} {bs : List Blk} (hb : b.addr = a)
    (ht : Tiles h (a + h + b.size) bs e) : Tiles h a (push h b bs) e := by
  cases bs with
  | nil => exact ⟨hb, ht⟩
  | cons c cs =>
      rw [push_cons]
      split_ifs
      · obtain ⟨hc, hcs⟩ := ht
        refine ⟨hb, ?_⟩
        show Tiles h (a + h + (b.size + h + c.size)) cs e
        rwa [show a + h + (b.size + h + c.size) = a + h + b.size + h + c.size by omega]
      · exact ⟨hb, ht⟩

theorem tiles_coalesce {a e : Nat} {bs : List Blk} (ht : Tiles h a bs e) :
    Tiles h a (coalesce h bs) e := by
  induction bs generalizing a with
  | nil => exact ht
  | cons b bs ih => exact tiles_push ht.1 (ih ht.2)

/-- What merging two blocks keeps, merging a list keeps. -/
theorem coalesce_forall {P : Blk → Prop} (hmerge : ∀ b c, P b → P c → P (merge h b c))
    {bs : List Blk} (hbs : ∀ b ∈ bs, P b) : ∀ b ∈ coalesce h bs, P b := by
  induction bs with
  | nil => exact hbs
  | cons b bs ih =>
      have hb := hbs b List.mem_cons_self
      have hrest := ih (fun c hc => hbs c (List.mem_cons_of_mem _ hc))
      rw [coalesce_cons]
      cases hl : coalesce h bs with
      | nil => simpa [push] using hb
      | cons c cs =>
          rw [hl] at hrest
          have hc := hrest c List.mem_cons_self
          rw [push_cons]
          by_cases hfree : (b.free && c.free) = true
          · rw [if_pos hfree]
            intro d hd
            rcases List.mem_cons.mp hd with rfl | hd
            · exact hmerge b c hb hc
            · exact hrest d (List.mem_cons_of_mem _ hd)
          · rw [if_neg hfree]
            intro d hd
            rcases List.mem_cons.mp hd with rfl | hd
            · exact hb
            · exact hrest d hd

/-- Blocks in use are not touched by merging. -/
theorem mem_coalesce_of_used {bs : List Blk} {b : Blk} (hb : b ∈ bs) (hu : b.free = false) :
    b ∈ coalesce h bs := by
  have hpush : ∀ (c : Blk) (l : List Blk), b = c ∨ b ∈ l → b ∈ push h c l := by
    intro c l hbl
    cases l with
    | nil => simpa [push] using hbl
    | cons d ds =>
        rw [push_cons]
        by_cases hfree : (c.free && d.free) = true
        · -- neither of two merged blocks is in use
          rw [if_pos hfree]
          simp only [Bool.and_eq_true] at hfree
          rcases hbl with rfl | hbl
          · rw [hfree.1] at hu; cases hu
          · rcases List.mem_cons.mp hbl with rfl | hbl
            · rw [hfree.2] at hu; cases hu
            · exact List.mem_cons_of_mem _ hbl
        · rw [if_neg hfree]
          rcases hbl with rfl | hbl
          · exact List.mem_cons_self
          · exact List.mem_cons_of_mem _ hbl
  induction bs with
  | nil => cases hb
  | cons c cs ih =>
      rw [coalesce_cons]
      rcases List.mem_cons.mp hb with rfl | hb
      · exact hpush _ _ (Or.inl rfl)
      · exact hpush _ _ (Or.inr (ih hb))

/-- A block in use of the merged list was there before. -/
theorem mem_of_mem_coalesce_used {bs : List Blk} {d : Blk} (hd : d ∈ coalesce h bs)
    (hu : d.free = false) : d ∈ bs := by
  induction bs with
  | nil => cases hd
  | cons b bs ih =>
      rw [coalesce_cons] at hd
      cases hl : coalesce h bs with
      | nil =>
          rw [hl] at hd
          rw [List.mem_singleton.mp hd]
          exact List.mem_cons_self
      | cons c cs =>
          rw [hl] at hd ih
          rw [push_cons] at hd
          split_ifs at hd with hfree
          · simp only [Bool.and_eq_true] at hfree
            rcases List.mem_cons.mp hd with rfl | hd
            · rw [show (merge h b c).free = b.free from rfl, hfree.1] at hu
              cases hu
            · exact List.mem_cons_of_mem _ (ih (List.mem_cons_of_mem _ hd))
          · rcases List.mem_cons.mp hd with rfl | hd
            · exact List.mem_cons_self
            · exact List.mem_cons_of_mem _ (ih hd)

/-! ## Merged lists -/

/-- No two neighbouring blocks are both free. -/
def Merged (bs : List Blk) : Prop := bs.IsChain (fun b c => ¬(b.free = true ∧ c.free = true))

theorem merged_cons_cons {b c : Blk} {bs : List Blk} :
    Merged (b :: c :: bs) ↔ ¬(b.free = true ∧ c.free = true) ∧ Merged (c :: bs) :=
  List.isChain_cons_cons

theorem Merged.left {xs ys : List Blk} (hm : Merged (xs ++ ys)) : Merged xs :=
  List.IsChain.left_of_append hm

theorem Merged.right {xs ys : List Blk} (hm : Merged (xs ++ ys)) : Merged ys :=
  List.IsChain.right_of_append hm

theorem Merged.tail {b : Blk} {bs : List Blk} (hm : Merged (b :: bs)) : Merged bs :=
  List.IsChain.tail hm

/-- The neighbours of a block only look at its state. -/
theorem Merged.congr_head {b c : Blk} {bs : List Blk} (hm : Merged (b :: bs))
    (hfree : c.free = b.free) : Merged (c :: bs) := by
  cases bs with
  | nil => exact List.isChain_singleton c
  | cons d ds =>
      obtain ⟨hbd, hds⟩ := merged_cons_cons.mp hm
      exact merged_cons_cons.mpr ⟨by rw [hfree]; exact hbd, hds⟩

/-- A block in use keeps what is left of it apart from what is right of it. -/
theorem merged_append_used {xs ys : List Blk} {u : Blk} (hu : u.free = false) (hx : Merged xs)
    (hy : Merged ys) : Merged (xs ++ u :: ys) := by
  have hright : Merged (u :: ys) := by
    cases ys with
    | nil => exact List.isChain_singleton u
    | cons c cs => exact merged_cons_cons.mpr ⟨by simp [hu], hy⟩
  refine List.isChain_append.mpr ⟨hx, hright, fun x _ y hy' => ?_⟩
  obtain rfl : u = y := by simpa using hy'
  simp [hu]

theorem merged_push {b : Blk} {bs : List Blk} (hm : Merged bs) : Merged (push h b bs) := by
  cases bs with
  | nil => exact List.isChain_singleton b
  | cons c cs =>
      rw [push_cons]
      by_cases hboth : (b.free && c.free) = true
      · rw [if_pos hboth]
        simp only [Bool.and_eq_true] at hboth
        refine hm.congr_head ?_
        rw [hboth.2]
        exact hboth.1
      · rw [if_neg hboth]
        exact merged_cons_cons.mpr ⟨by simpa using hboth, hm⟩

theorem merged_coalesce (bs : List Blk) : Merged (coalesce h bs) := by
  induction bs with
  | nil => exact List.isChain_nil
  | cons b bs ih => exact merged_push ih

/-- There is nothing to merge in a merged list. -/
theorem coalesce_of_merged {bs : List Blk} (hm : Merged bs) : coalesce h bs = bs := by
  induction bs with
  | nil => rfl
  | cons b bs ih =>
      rw [coalesce_keep, ih hm.tail]
      rintro c cs rfl
      exact (merged_cons_cons.mp hm).1

theorem coalesce_append (xs ys : List Blk) :
    coalesce h (xs ++ ys) = xs.foldr (push h) (coalesce h ys) :=
  List.foldr_append

/-- A merged list without a block in use is a single block that covers the range. -/
theorem merged_all_free {a e : Nat} {bs : List Blk} (hm : Merged bs) (ht : Tiles h a bs e)
    (hne : bs ≠ []) (hfree : ∀ b ∈ bs, b.free = true) : bs = [⟨a, e - (a + h), true⟩] := by
  cases bs with
  | nil => exact absurd rfl hne
  | cons b bs =>
      have hb := hfree b List.mem_cons_self
      cases bs with
      | nil =>
          obtain ⟨haddr, hend⟩ := ht
          have hsum : a + h + b.size = e := hend
          have hsize : e - (a + h) = b.size := by omega
          rw [hsize, ← haddr, ← hb]
      | cons c bs =>
          exact absurd ⟨hb, hfree c (by simp)⟩ (merged_cons_cons.mp hm).1

end BlockList

end Mcsos
