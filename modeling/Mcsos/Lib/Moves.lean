import Mathlib.Tactic

set_option autoImplicit false

/-! # Moving cells one after the other

A copy loop reads one cell of a store and writes another, again and again. As long as no cell is
written before it has been read for the last time, the loop does what one simultaneous move of
all cells would do. The turns of the loop are a list of indices: index `i` moves the cell `src i`
to the cell `dst i`.
-/

namespace Mcsos

namespace Moves

variable {ι α β : Type} [DecidableEq α]

/-- `store[dst i] = store[src i]` for the indices of the list, in order. -/
def moves (dst src : ι → α) (is : List ι) (store : α → β) : α → β :=
  is.foldl (fun store i => Function.update store (dst i) (store (src i))) store

/-- No turn writes a cell that a later one reads or writes. -/
def Orderly (dst src : ι → α) (is : List ι) : Prop :=
  is.Pairwise (fun i j => dst i ≠ src j ∧ dst i ≠ dst j)

variable {dst src : ι → α} {is : List ι}

theorem moves_cons (dst src : ι → α) (i : ι) (is : List ι) (store : α → β) :
    moves dst src (i :: is) store =
      moves dst src is (Function.update store (dst i) (store (src i))) := rfl

/-- A cell that no turn writes keeps its value. -/
theorem moves_of_not_written {a : α} (h : ∀ i ∈ is, dst i ≠ a) (store : α → β) :
    moves dst src is store a = store a := by
  induction is generalizing store with
  | nil => rfl
  | cons i is ih =>
      rw [moves_cons, ih (fun j hj => h j (List.mem_cons_of_mem i hj))]
      exact Function.update_of_ne (h i List.mem_cons_self).symm _ _

/-- An orderly loop moves what was there before it started. -/
theorem moves_of_orderly (h : Orderly dst src is) (store : α → β) {i : ι} (hi : i ∈ is) :
    moves dst src is store (dst i) = store (src i) := by
  induction is generalizing store with
  | nil => cases hi
  | cons j is ih =>
      obtain ⟨hlater, horderly⟩ := List.pairwise_cons.mp h
      rw [moves_cons]
      rcases List.mem_cons.mp hi with rfl | hi
      · -- the first turn: nothing writes its cell again
        rw [moves_of_not_written (fun k hk => ((hlater k hk).2).symm), Function.update_self]
      · -- a later turn: the first one has not written what it reads
        rw [ih horderly _ hi]
        exact Function.update_of_ne ((hlater i hi).1).symm _ _

end Moves

end Mcsos
