import Mathlib.Tactic

set_option autoImplicit false

/-! # Lists of writes

What a list of writes `(address, value)` makes of a store, when all of it has been done and
when only a prefix has. The last write to an address decides, so doing all of a list over a
store that already has part of it makes no difference: this is what makes replay safe.
-/

namespace Mcsos

namespace WriteLog

variable {ι β : Type} [DecidableEq ι]

/-- Do the writes in order. -/
def applyWrites (ws : List (ι × β)) (store : ι → β) : ι → β :=
  ws.foldl (fun m w => Function.update m w.1 w.2) store

@[simp] theorem applyWrites_nil (store : ι → β) : applyWrites [] store = store := rfl

theorem applyWrites_cons (w : ι × β) (ws : List (ι × β)) (store : ι → β) :
    applyWrites (w :: ws) store = applyWrites ws (Function.update store w.1 w.2) := rfl

theorem applyWrites_append (xs ys : List (ι × β)) (store : ι → β) :
    applyWrites (xs ++ ys) store = applyWrites ys (applyWrites xs store) :=
  List.foldl_append

/-- An address that is not written keeps its value. -/
theorem applyWrites_of_not_written {ws : List (ι × β)} {i : ι} (h : ∀ w ∈ ws, w.1 ≠ i)
    (store : ι → β) : applyWrites ws store i = store i := by
  induction ws generalizing store with
  | nil => rfl
  | cons w ws ih =>
      rw [applyWrites_cons, ih (fun v hv => h v (List.mem_cons_of_mem w hv))]
      exact Function.update_of_ne (h w List.mem_cons_self).symm w.2 store

/-- The outcome at an address does not depend on what was there, if it is written, nor on
anything else. -/
theorem applyWrites_congr {ws : List (ι × β)} {m m' : ι → β} {i : ι}
    (h : (∀ w ∈ ws, w.1 ≠ i) → m i = m' i) : applyWrites ws m i = applyWrites ws m' i := by
  induction ws generalizing m m' with
  | nil => exact h (fun w hw => by cases hw)
  | cons w ws ih =>
      rw [applyWrites_cons, applyWrites_cons]
      refine ih (fun hws => ?_)
      by_cases hw : w.1 = i
      · rw [← hw, Function.update_self, Function.update_self]
      · rw [Function.update_of_ne (Ne.symm hw), Function.update_of_ne (Ne.symm hw)]
        refine h (fun v hv => ?_)
        rcases List.mem_cons.mp hv with rfl | hv
        · exact hw
        · exact hws v hv

/-- A prefix of a list is absorbed by the whole of it. -/
theorem applyWrites_take_absorb (ws : List (ι × β)) (k : Nat) (store : ι → β) :
    applyWrites ws (applyWrites (ws.take k) store) = applyWrites ws store := by
  funext i
  refine applyWrites_congr (fun h => ?_)
  exact applyWrites_of_not_written (fun w hw => h w (List.mem_of_mem_take hw)) store

/-- `w` is in the list and nothing behind it is for the same address. -/
def IsLast (ws : List (ι × β)) (w : ι × β) : Prop :=
  ∃ xs ys, ws = xs ++ w :: ys ∧ ∀ v ∈ ys, v.1 ≠ w.1

omit [DecidableEq ι] in
theorem IsLast.cons {ws : List (ι × β)} {w : ι × β} (h : IsLast ws w) (v : ι × β) :
    IsLast (v :: ws) w := by
  obtain ⟨xs, ys, rfl, hys⟩ := h
  exact ⟨v :: xs, ys, rfl, hys⟩

omit [DecidableEq ι] in
/-- The last writes of a longer list. -/
theorem isLast_cons {ws : List (ι × β)} {v w : ι × β} (h : IsLast (v :: ws) w) :
    IsLast ws w ∨ w = v ∧ ∀ u ∈ ws, u.1 ≠ v.1 := by
  obtain ⟨xs, ys, hws, hys⟩ := h
  cases xs with
  | nil =>
      obtain ⟨rfl, rfl⟩ := List.cons.inj hws
      exact Or.inr ⟨rfl, hys⟩
  | cons x xs =>
      obtain ⟨-, rfl⟩ := List.cons.inj hws
      exact Or.inl ⟨xs, ys, rfl, hys⟩

/-- An address that is written is written a last time. -/
theorem exists_isLast {ws : List (ι × β)} {i : ι} (h : ∃ w ∈ ws, w.1 = i) :
    ∃ w, IsLast ws w ∧ w.1 = i := by
  induction ws with
  | nil =>
      obtain ⟨w, hw, -⟩ := h
      cases hw
  | cons w ws ih =>
      by_cases hlater : ∃ v ∈ ws, v.1 = i
      · obtain ⟨v, hlast, hv⟩ := ih hlater
        exact ⟨v, hlast.cons w, hv⟩
      · obtain ⟨v, hv, hvi⟩ := h
        rcases List.mem_cons.mp hv with rfl | hv
        · refine ⟨v, ⟨[], ws, rfl, fun u hu hui => hlater ⟨u, hu, hui.trans hvi⟩⟩, hvi⟩
        · exact absurd ⟨v, hv, hvi⟩ hlater

/-- The last write to an address is what is there in the end. -/
theorem applyWrites_isLast {ws : List (ι × β)} {w : ι × β} (h : IsLast ws w) (store : ι → β) :
    applyWrites ws store w.1 = w.2 := by
  obtain ⟨xs, ys, rfl, hys⟩ := h
  rw [applyWrites_append, applyWrites_cons, applyWrites_of_not_written hys, Function.update_self]

/-- An address that is written, with one value whenever it is, has that value in the end. -/
theorem applyWrites_of_written {ws : List (ι × β)} {i : ι} {v : β} (h : ∃ w ∈ ws, w.1 = i)
    (hv : ∀ w ∈ ws, w.1 = i → w.2 = v) (store : ι → β) : applyWrites ws store i = v := by
  obtain ⟨w, hw, rfl⟩ := exists_isLast h
  rw [applyWrites_isLast hw]
  obtain ⟨xs, ys, rfl, -⟩ := hw
  exact hv w (List.mem_append_right _ List.mem_cons_self) rfl

end WriteLog

end Mcsos
