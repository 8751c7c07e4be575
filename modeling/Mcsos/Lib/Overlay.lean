import Mathlib.Tactic

set_option autoImplicit false

/-! # Write-back caches

A write-back cache keeps lines over a backing store: line `i` holds a key, a value and a
dirty flag. What the two hold together is the content, one value for each key: the value of
the line that has the key, or else what the store has. `Overlays` says that lines and store
hold a given content. The file has one rule for each thing a cache does: read a line,
overwrite it, write it back, throw it away, fill it.
-/

namespace Mcsos

/-- One line of a cache. -/
structure Line (κ V : Type) where
  key : κ
  val : V
  dirty : Bool

namespace Overlay

variable {ι κ V : Type}
variable {lines : ι → Option (Line κ V)} {back content : κ → V}

/-- Lines and backing store hold `content`: no key has two lines, a line has the value of its
key, and the store is behind on dirty lines only. -/
structure Overlays (lines : ι → Option (Line κ V)) (back content : κ → V) : Prop where
  unique : ∀ i j a b, lines i = some a → lines j = some b → a.key = b.key → i = j
  val_eq : ∀ i a, lines i = some a → a.val = content a.key
  clean_eq : ∀ i a, lines i = some a → a.dirty = false → back a.key = content a.key
  back_eq : ∀ k, (∀ i a, lines i = some a → a.key ≠ k) → back k = content k

/-- The lines after line `i` has been replaced. -/
theorem update_eq_some_iff [DecidableEq ι] {i j : ι} {x : Option (Line κ V)} {a : Line κ V} :
    Function.update lines i x j = some a ↔ (j = i ∧ x = some a) ∨ (j ≠ i ∧ lines j = some a) := by
  by_cases hj : j = i
  · subst hj
    simp
  · simp [hj]

/-- An empty cache holds what the store has. -/
theorem overlays_empty (back : κ → V) :
    Overlays (fun _ : ι => (none : Option (Line κ V))) back back := by
  refine ⟨fun _ _ _ _ h => ?_, fun _ _ h => ?_, fun _ _ h => ?_, fun _ _ => rfl⟩
  · cases h
  · cases h
  · cases h

/-- Writing a line back makes it clean. -/
theorem Overlays.writeBack [DecidableEq ι] [DecidableEq κ] (h : Overlays lines back content)
    {i : ι} {a : Line κ V}
    (hi : lines i = some a) :
    Overlays (Function.update lines i (some { a with dirty := false }))
      (Function.update back a.key a.val) content := by
  have hval := h.val_eq i a hi
  refine ⟨fun j k b c hj hk hkey => ?_, fun j b hj => ?_, fun j b hj hdirty => ?_,
    fun k hk => ?_⟩
  · rcases update_eq_some_iff.mp hj with ⟨rfl, hb⟩ | ⟨hji, hj'⟩ <;>
      rcases update_eq_some_iff.mp hk with ⟨rfl, hc⟩ | ⟨hki, hk'⟩
    · rfl
    · cases hb
      exact h.unique _ _ _ _ hi hk' hkey
    · cases hc
      exact h.unique _ _ _ _ hj' hi hkey
    · exact h.unique _ _ _ _ hj' hk' hkey
  · rcases update_eq_some_iff.mp hj with ⟨rfl, hb⟩ | ⟨hji, hj⟩
    · cases hb
      exact hval
    · exact h.val_eq j b hj
  · rcases update_eq_some_iff.mp hj with ⟨rfl, hb⟩ | ⟨hji, hj⟩
    · cases hb
      rw [Function.update_self, hval]
    · have hne : b.key ≠ a.key := fun hkey => hji (h.unique _ _ _ _ hj hi hkey)
      rw [Function.update_of_ne hne, h.clean_eq j b hj hdirty]
  · have hne : k ≠ a.key := fun hkey => hk i _ (update_eq_some_iff.mpr (Or.inl ⟨rfl, rfl⟩)) hkey.symm
    rw [Function.update_of_ne hne]
    refine h.back_eq k (fun j b hj hkey => ?_)
    rcases eq_or_ne j i with rfl | hji
    · rw [hi] at hj
      cases hj
      exact hne hkey.symm
    · exact hk j b (update_eq_some_iff.mpr (Or.inr ⟨hji, hj⟩)) hkey

/-- A line that is not dirty can be thrown away. -/
theorem Overlays.evict [DecidableEq ι] (h : Overlays lines back content) {i : ι}
    (hclean : ∀ a, lines i = some a → a.dirty = false) :
    Overlays (Function.update lines i none) back content := by
  have hold : ∀ {j b}, Function.update lines i none j = some b → lines j = some b := by
    intro j b hj
    rcases update_eq_some_iff.mp hj with ⟨-, hb⟩ | ⟨-, hj⟩
    · cases hb
    · exact hj
  refine ⟨fun j k b c hj hk => h.unique j k b c (hold hj) (hold hk),
    fun j b hj => h.val_eq j b (hold hj), fun j b hj => h.clean_eq j b (hold hj), fun k hk => ?_⟩
  by_cases hline : ∃ a, lines i = some a ∧ a.key = k
  · obtain ⟨a, ha, rfl⟩ := hline
    exact h.clean_eq i a ha (hclean a ha)
  · refine h.back_eq k (fun j b hj hkey => ?_)
    rcases eq_or_ne j i with rfl | hji
    · exact hline ⟨b, hj, hkey⟩
    · exact hk j b (update_eq_some_iff.mpr (Or.inr ⟨hji, hj⟩)) hkey

/-- An unused line takes a key that has no line yet, with what the store has for it. -/
theorem Overlays.fill [DecidableEq ι] (h : Overlays lines back content) {i : ι}
    (hi : lines i = none) {k : κ}
    (hk : ∀ j a, lines j = some a → a.key ≠ k) :
    Overlays (Function.update lines i (some ⟨k, back k, false⟩)) back content := by
  have hback := h.back_eq k hk
  refine ⟨fun j l b c hj hl hkey => ?_, fun j b hj => ?_, fun j b hj hdirty => ?_,
    fun l hl => ?_⟩
  · rcases update_eq_some_iff.mp hj with ⟨rfl, hb⟩ | ⟨hji, hj'⟩ <;>
      rcases update_eq_some_iff.mp hl with ⟨rfl, hc⟩ | ⟨hli, hl'⟩
    · rfl
    · cases hb
      exact absurd hkey.symm (hk l c hl')
    · cases hc
      exact absurd hkey (hk j b hj')
    · exact h.unique _ _ _ _ hj' hl' hkey
  · rcases update_eq_some_iff.mp hj with ⟨rfl, hb⟩ | ⟨hji, hj⟩
    · cases hb
      exact hback
    · exact h.val_eq j b hj
  · rcases update_eq_some_iff.mp hj with ⟨rfl, hb⟩ | ⟨hji, hj⟩
    · cases hb
      exact hback
    · exact h.clean_eq j b hj hdirty
  · refine h.back_eq l (fun j b hj hkey => ?_)
    rcases eq_or_ne j i with rfl | hji
    · rw [hi] at hj
      cases hj
    · exact hl j b (update_eq_some_iff.mpr (Or.inr ⟨hji, hj⟩)) hkey

/-- Overwriting a line changes the content at its key. -/
theorem Overlays.overwrite [DecidableEq ι] [DecidableEq κ] (h : Overlays lines back content)
    {i : ι} {a : Line κ V}
    (hi : lines i = some a) (v : V) :
    Overlays (Function.update lines i (some ⟨a.key, v, true⟩)) back
      (Function.update content a.key v) := by
  have hother : ∀ {j b}, j ≠ i → lines j = some b → b.key ≠ a.key :=
    fun hji hj hkey => hji (h.unique _ _ _ _ hj hi hkey)
  refine ⟨fun j l b c hj hl hkey => ?_, fun j b hj => ?_, fun j b hj hdirty => ?_,
    fun l hl => ?_⟩
  · rcases update_eq_some_iff.mp hj with ⟨rfl, hb⟩ | ⟨hji, hj'⟩ <;>
      rcases update_eq_some_iff.mp hl with ⟨rfl, hc⟩ | ⟨hli, hl'⟩
    · rfl
    · cases hb
      exact absurd hkey.symm (hother hli hl')
    · cases hc
      exact absurd hkey (hother hji hj')
    · exact h.unique _ _ _ _ hj' hl' hkey
  · rcases update_eq_some_iff.mp hj with ⟨rfl, hb⟩ | ⟨hji, hj⟩
    · cases hb
      rw [Function.update_self]
    · rw [Function.update_of_ne (hother hji hj), h.val_eq j b hj]
  · rcases update_eq_some_iff.mp hj with ⟨rfl, hb⟩ | ⟨hji, hj⟩
    · cases hb
      cases hdirty
    · rw [Function.update_of_ne (hother hji hj), h.clean_eq j b hj hdirty]
  · have hne : l ≠ a.key := fun hkey => hl i _ (update_eq_some_iff.mpr (Or.inl ⟨rfl, rfl⟩)) hkey.symm
    rw [Function.update_of_ne hne]
    refine h.back_eq l (fun j b hj hkey => ?_)
    rcases eq_or_ne j i with rfl | hji
    · rw [hi] at hj
      cases hj
      exact hne hkey.symm
    · exact hl j b (update_eq_some_iff.mpr (Or.inr ⟨hji, hj⟩)) hkey

end Overlay

end Mcsos
