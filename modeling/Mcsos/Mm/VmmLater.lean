import Mcsos.Mm.VmmFrames

set_option autoImplicit false

/-! # Calls that go on where others have ended

What a call of the virtual memory does depends on the answers of `alloc_frame` from then on, and not
on those before. So a run may be followed one call at a time, each with a space that knows the
answers of this call only.
-/

namespace Mcsos.Vmm

variable {P : Type} {space : VmmSpace P}

/-- The space with other answers of `alloc_frame` to the first `k` calls, and its own after them. -/
def withPast (past : Nat → UInt64 × (Nat → UInt64)) (k : Nat) (space : VmmSpace P) : VmmSpace P :=
  { space with allocFrame := fun n => if n < k then past n else space.allocFrame (n - k) }

/-- The state, with `k` calls and the frames given back before it. -/
def VmmState.later (k : Nat) (before : List UInt64) (s : VmmState P) : VmmState P :=
  ⟨s.mem, k + s.calls, s.freed ++ before⟩

variable {past : Nat → UInt64 × (Nat → UInt64)} {k : Nat} {before : List UInt64}

theorem withPast_old {n : Nat} (h : n < k) : (withPast past k space).allocFrame n = past n :=
  if_pos h

theorem withPast_new (n : Nat) : (withPast past k space).allocFrame (k + n) = space.allocFrame n := by
  show (if k + n < k then past (k + n) else space.allocFrame (k + n - k)) = _
  rw [if_neg (by omega), Nat.add_sub_cancel_left]

theorem answers_withPast (n : Nat) :
    answers (withPast past k space) (k + n) =
      answers space n ++ answers (withPast past k space) k := by
  induction n with
  | zero => rfl
  | succ n ih =>
      rw [← Nat.add_assoc, answers, ih, withPast_new]
      rfl

/-! ## The operations -/

section Operations

variable {s : VmmState P}

theorem callFreeFrame_later (f : UInt64) :
    callFreeFrame (withPast past k space) f (s.later k before) =
      (callFreeFrame space f s).later k before := by
  unfold callFreeFrame
  show (if space.freeFrame = true then _ else _) = _
  split <;> rfl

variable [DecidableEq P]

theorem callAllocFrame_later :
    callAllocFrame (withPast past k space) (s.later k before) =
      ((callAllocFrame space s).1, (callAllocFrame space s).2.later k before) := by
  have hanswer : (withPast past k space).allocFrame (s.later k before).calls =
      space.allocFrame s.calls := withPast_new s.calls
  have hvirt : (withPast past k space).physToVirt = space.physToVirt := rfl
  simp only [callAllocFrame, hanswer, hvirt]
  split
  · rfl
  · split <;> rfl

theorem getOrAlloc_later (t : P) (i : Nat) :
    getOrAllocNextTable (withPast past k space) t i (s.later k before) =
      ((getOrAllocNextTable space t i s).1, (getOrAllocNextTable space t i s).2.later k before) := by
  have hentry : (s.later k before).mem t i = s.mem t i := rfl
  have htable : tableFromPhys (withPast past k space) = tableFromPhys space := rfl
  simp only [getOrAllocNextTable, hentry, htable, callAllocFrame_later, callFreeFrame_later]
  split
  · split
    · rfl
    · split <;> rfl
  · split
    · rfl
    · split <;> rfl

theorem mapPage_later (v pa fl : UInt64) :
    mapPage (withPast past k space) v pa fl (s.later k before) =
      ((mapPage space v pa fl s).1, (mapPage space v pa fl s).2.later k before) := by
  have hroot : tableFromPhys (withPast past k space) (withPast past k space).rootPaddr =
      tableFromPhys space space.rootPaddr := rfl
  unfold mapPage
  rw [hroot]
  split
  · rfl
  cases tableFromPhys space space.rootPaddr with
  | none => rfl
  | some pml4 =>
      simp only [getOrAlloc_later]
      rcases getOrAllocNextTable space pml4 (idxPml4 v) s with ⟨rc | pdpt, s3⟩
      · rfl
      simp only [getOrAlloc_later]
      rcases getOrAllocNextTable space pdpt (idxPdpt v) s3 with ⟨rc | pd, s2⟩
      · rfl
      simp only [getOrAlloc_later]
      rcases getOrAllocNextTable space pd (idxPd v) s2 with ⟨rc | pt, s1⟩
      · rfl
      have hentry : (s1.later k before).mem pt (idxPt v) = s1.mem pt (idxPt v) := rfl
      simp only [hentry]
      split <;> rfl

theorem unmapPage_later (v : UInt64) :
    unmapPage (withPast past k space) v (s.later k before) =
      ((unmapPage space v s).1, (unmapPage space v s).2.later k before) := by
  have hwalk : walkToPt (withPast past k space) v (s.later k before) = walkToPt space v s := rfl
  unfold unmapPage
  rw [hwalk]
  cases walkToPt space v s with
  | error rc => rfl
  | ok pt =>
      have hentry : (s.later k before).mem pt (idxPt v) = s.mem pt (idxPt v) := rfl
      simp only [hentry]
      split <;> rfl

theorem vmmStep_later (op : VmmOp) :
    vmmStep (withPast past k space) (s.later k before) op =
      ((vmmStep space s op).1, (vmmStep space s op).2.later k before) := by
  cases op with
  | map v pa fl => simp only [vmmStep, mapPage_later]
  | query v => rfl
  | unmap v => simp only [vmmStep, unmapPage_later]

end Operations

/-! ## The tree -/

section Tree

variable {space' : VmmSpace P} {s s' : VmmState P} {node : Name → Option UInt64}
variable {leaf : Name → Option (UInt64 × UInt64)}

/-- The tree is in memory, and its frames are among the answers so far. -/
theorem Rep.congr (hrep : Rep space s node leaf) (hroot : space'.rootPaddr = space.rootPaddr)
    (hvirt : space'.physToVirt = space.physToVirt)
    (hanswers : ∀ n, n < s.calls → (space'.allocFrame n).1 = (space.allocFrame n).1)
    (hcalls : s'.calls = s.calls)
    (hmem : ∀ p f t i, node p = some f → space.physToVirt f = some t → i < 512 →
      s'.mem t i = s.mem t i) : Rep space' s' node leaf := by
  refine ⟨hroot ▸ hrep.root, fun p f hne hp => ?_, hrep.inj, fun p f hp => ?_, hrep.parent,
    hrep.leaf_parent, fun p f t i hp ht hlen hi => ?_, fun p f t i hp ht hlen hi => ?_⟩
  · obtain ⟨n, hn, hf, hvalid⟩ := hrep.frame p f hne hp
    exact ⟨n, by rw [hcalls]; exact hn, by rw [hanswers n hn]; exact hf, hvalid⟩
  · rw [hvirt]
    exact hrep.virt p f hp
  · rw [hvirt] at ht
    rw [hmem p f t i hp ht hi]
    exact hrep.table p f t i hp ht hlen hi
  · rw [hvirt] at ht
    rw [hmem p f t i hp ht hi]
    exact hrep.entry p f t i hp ht hlen hi

theorem answers_congr {k : Nat}
    (h : ∀ n, n < k → (space'.allocFrame n).1 = (space.allocFrame n).1) :
    answers space' k = answers space k := by
  induction k with
  | zero => rfl
  | succ k ih => rw [answers, answers, h k (Nat.lt_succ_self k), ih fun n hn => h n (by omega)]

theorem mem_answers {k : Nat} {f : UInt64} :
    f ∈ answers space k ↔ ∃ n, n < k ∧ (space.allocFrame n).1 = f := by
  induction k with
  | zero =>
      refine ⟨fun h => absurd h List.not_mem_nil, ?_⟩
      rintro ⟨n, hn, -⟩
      omega
  | succ k ih =>
      rw [answers, List.mem_cons, ih]
      constructor
      · rintro (rfl | ⟨n, hn, h⟩)
        · exact ⟨k, by omega, rfl⟩
        · exact ⟨n, by omega, h⟩
      · rintro ⟨n, hn, h⟩
        rcases Nat.lt_succ_iff_lt_or_eq.mp hn with hlt | rfl
        · exact Or.inr ⟨n, hlt, h⟩
        · exact Or.inl h.symm

theorem frameAt_congr (hroot : space'.rootPaddr = space.rootPaddr)
    (hvirt : space'.physToVirt = space.physToVirt) (hmem : s'.mem = s.mem) (p : Name) :
    frameAt space' s' p = frameAt space s p := by
  have htable : tableFromPhys space' = tableFromPhys space := by
    funext f
    unfold tableFromPhys
    rw [hvirt]
  induction p with
  | nil => rw [frameAt, frameAt, hroot]
  | cons i p ih => rw [frameAt, frameAt, ih, htable, hmem]

end Tree

end Mcsos.Vmm
