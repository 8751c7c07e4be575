import Mcsos.Mm.VmmTree

set_option autoImplicit false

/-! # Virtual memory as a finite map

Seen from outside, a `vmm_space` is a map from addresses to pages and flags. `latestMap`
reads off the history of a run what an address should be mapped to; the operations answer
accordingly at every address, whatever else has been mapped, unmapped or refused for want of
a frame.
-/

namespace Mcsos.Vmm

variable {P : Type} {space : VmmSpace P} {s : VmmState P} {node : Name → Option UInt64}
variable {leaf : Name → Option (UInt64 × UInt64)}

/-- A call of `alloc_frame` that does not lead to a table leaves the tree alone. -/
theorem Rep.bump (hrep : Rep space s node leaf) {s' : VmmState P} (hmem : s'.mem = s.mem)
    (hcalls : s'.calls = s.calls + 1) : Rep space s' node leaf := by
  refine ⟨hrep.root, fun p f hne hp => ?_, hrep.inj, hrep.virt, hrep.parent, hrep.leaf_parent,
    fun p f t i => ?_, fun p f t i => ?_⟩
  · obtain ⟨n, hn, h⟩ := hrep.frame p f hne hp
    exact ⟨n, by omega, h⟩
  · rw [hmem]
    exact hrep.table p f t i
  · rw [hmem]
    exact hrep.entry p f t i

variable [DecidableEq P]

/-! ## One level of a map -/

section GetOrAlloc

variable {t : P} {i : Nat}

theorem getOrAlloc_linked {f : UInt64} {t' : P} (hentry : s.mem t i = tableEntry (some f))
    (haddr : f &&& pteAddrMask = f) (ht' : tableFromPhys space f = some t') :
    getOrAllocNextTable space t i s = (.ok t', s) := by
  simp only [getOrAllocNextTable, hentry, tableEntry_huge, ne_eq, tableEntry_present,
    not_false_eq_true, if_true, not_true_eq_false, if_false, tableEntry_addr, haddr, ht']

variable (hentry : s.mem t i = tableEntry none) {f : UInt64}
variable (hf : (space.allocFrame s.calls).1 = f)

include hentry hf

theorem getOrAlloc_nomem (hinvalid : f = invalidPhys) :
    getOrAllocNextTable space t i s = (.error .nomem, { s with calls := s.calls + 1 }) := by
  have hempty : tableEntry none &&& ptePresent = 0 := by decide
  simp only [getOrAllocNextTable, callAllocFrame, hentry, hempty, ne_eq, not_true_eq_false, if_false,
    hf, hinvalid, if_true, true_or]

variable (hvalid : f ≠ invalidPhys) (haligned : isAligned4k f = true)

include hvalid haligned

theorem getOrAlloc_rejected (hvirt : space.physToVirt f = none) :
    getOrAllocNextTable space t i s =
      (.error .inval, callFreeFrame space f { s with calls := s.calls + 1 }) := by
  have hempty : tableEntry none &&& ptePresent = 0 := by decide
  simp only [getOrAllocNextTable, callAllocFrame, hentry, hempty, ne_eq, not_true_eq_false, if_false,
    hf, hvalid, hvirt, tableFromPhys, haligned, Bool.not_true, Bool.false_eq_true, or_self]

theorem getOrAlloc_new {t' : P} (hvirt : space.physToVirt f = some t') :
    getOrAllocNextTable space t i s =
      (.ok t', Rep.link s t t' i f (space.allocFrame s.calls).2) := by
  have hempty : tableEntry none &&& ptePresent = 0 := by decide
  simp only [getOrAllocNextTable, callAllocFrame, hentry, hempty, ne_eq, not_true_eq_false, if_false,
    hf, hvalid, hvirt, tableFromPhys, haligned, Bool.not_true, Bool.false_eq_true, or_self]
  rfl

end GetOrAlloc

/-! ## The operations on the tree -/

/-- The next table exists afterwards, unless there was no frame for it. -/
theorem Rep.getOrAlloc (hrep : Rep space s node leaf) (hh : Lawful space) {p : Name} {t : P}
    {i : Nat} (ht : TableAt space node p t) (hp : p.length < 3) (hi : i < 512)
    {r : Except VmmErr P} {s' : VmmState P} (h : getOrAllocNextTable space t i s = (r, s')) :
    ∃ node', Rep space s' node' leaf ∧ (Owned space s node → Owned space s' node') ∧
      ((∃ t', TableAt space node' (i :: p) t' ∧ r = .ok t') ∨
        (node' (i :: p) = none ∧ ∃ rc, (rc = .nomem ∨ rc = .inval) ∧ r = .error rc)) := by
  obtain ⟨ft, hft, hftt⟩ := id ht
  have hentry := hrep.table p ft t i hft hftt hp hi
  cases hnode : node (i :: p) with
  | some g =>
      obtain ⟨t', hvirt, hat⟩ := hrep.tableAt_of_node hh hnode
      rw [hnode] at hentry
      rw [getOrAlloc_linked hentry (hrep.addr_eq hh (List.cons_ne_nil i p) hnode) hvirt] at h
      cases h
      exact ⟨node, hrep, id, Or.inl ⟨t', hat, rfl⟩⟩
  | none =>
      rw [hnode] at hentry
      obtain ⟨f, hf⟩ : ∃ f, (space.allocFrame s.calls).1 = f := ⟨_, rfl⟩
      by_cases hvalid : f = invalidPhys
      · rw [getOrAlloc_nomem hentry hf hvalid] at h
        cases h
        refine ⟨node, hrep.bump rfl rfl, fun ho => ?_, Or.inr ⟨hnode, .nomem, Or.inl rfl, rfl⟩⟩
        apply ho.call rfl (fun _ _ h => h) (fun hne => absurd (hf.trans hvalid) hne)
        intro _
        rw [if_neg fun hrej => (rejects_iff.mp hrej).1 (hf.trans hvalid)]
      have hal := hh.frame_aligned (Or.inr ⟨s.calls, hf, hvalid⟩)
      cases hvirt : space.physToVirt f with
      | none =>
          -- the frame is given back
          rw [getOrAlloc_rejected hentry hf hvalid hal hvirt] at h
          cases h
          have hcalls := callFreeFrame_calls space f { s with calls := s.calls + 1 }
          refine ⟨node, hrep.bump (callFreeFrame_mem _ _ _) hcalls, fun ho => ?_,
            Or.inr ⟨hnode, .inval, Or.inr rfl, rfl⟩⟩
          refine ho.call hcalls (fun _ _ h => h) (fun _ hne => absurd (hf.symm ▸ hvirt) hne)
            fun hfree => ?_
          rw [hf, if_pos (rejects_iff.mpr ⟨hvalid, hvirt⟩), callFreeFrame, if_pos hfree]
      | some t' =>
          rw [getOrAlloc_new hentry hf hvalid hal hvirt] at h
          cases h
          have hself : Function.update node (i :: p) (some f) (i :: p) = some f :=
            Function.update_self _ _ _
          refine ⟨_, hrep.grow hh ht hp hi hnode hf hvalid hvirt _, fun ho => ?_,
            Or.inl ⟨t', ⟨f, hself, hvirt⟩, rfl⟩⟩
          refine ho.call rfl (fun q g hq => ?_)
            (fun _ _ => ⟨i :: p, List.cons_ne_nil i p, hf.symm ▸ hself⟩) fun _ => ?_
          · rwa [Function.update_of_ne]
            rintro rfl
            rw [hnode] at hq
            cases hq
          · have hkeeps : ¬rejects space f = true := by
              rw [rejects_iff, hvirt]
              rintro ⟨-, hnone⟩
              cases hnone
            rw [hf, if_neg hkeeps]
            rfl

/-- The entry of `vaddr` in the tree. -/
def entryName (vaddr : UInt64) : Name := idxPt vaddr :: path vaddr

theorem Owned.set (ho : Owned space s node) (t : P) (i : Nat) (e : UInt64) :
    Owned space (s.set t i e) node := ⟨ho.linked, ho.freed⟩

/-- `vmm_map_page` finds the address mapped, or maps it, or has no frame for a table. -/
theorem Rep.mapPage (hrep : Rep space s node leaf) (hh : Lawful space) {v pa fl : UInt64}
    (hv : GoodAddr v) (hpa : isAligned4k pa = true) {r : Except VmmErr Unit} {s' : VmmState P}
    (h : Vmm.mapPage space v pa fl s = (r, s')) :
    ∃ node', (Owned space s node → Owned space s' node') ∧
      ((leaf (entryName v) ≠ none ∧ r = .error .exists ∧ Rep space s' node' leaf) ∨
        (leaf (entryName v) = none ∧ r = .ok () ∧
          Rep space s' node' (Function.update leaf (entryName v) (some (pa, fl)))) ∨
        (leaf (entryName v) = none ∧ (∃ rc, (rc = .nomem ∨ rc = .inval) ∧ r = .error rc) ∧
          Rep space s' node' leaf)) := by
  obtain ⟨h4, h3, h2, h1⟩ := Rep.index_lt v
  obtain ⟨t4, hroot, hat4⟩ := hrep.tableAt_root hh
  have hargs : ¬((!isCanonical v) = true ∨ (!isAligned4k v) = true ∨ (!isAligned4k pa) = true) := by
    simp [hv.1, hv.2, hpa]
  unfold Vmm.mapPage at h
  rw [if_neg hargs, hroot] at h
  simp only at h
  rcases hg4 : getOrAllocNextTable space t4 (idxPml4 v) s with ⟨r3, s3⟩
  obtain ⟨node3, hrep3, ho3, hr3⟩ := hrep.getOrAlloc hh hat4 (by simp) h4 hg4
  rw [hg4] at h
  rcases hr3 with ⟨t3, hat3, rfl⟩ | ⟨hnone, rc, hrc, rfl⟩
  swap
  · have hleaf : leaf (entryName v) = none :=
      (hrep3.empty_below (hrep3.none_under hnone [idxPd v, idxPdpt v]) (idxPt v)).2
    cases h
    exact ⟨node3, ho3, Or.inr (Or.inr ⟨hleaf, ⟨rc, hrc, rfl⟩, hrep3⟩)⟩
  simp only at h
  rcases hg3 : getOrAllocNextTable space t3 (idxPdpt v) s3 with ⟨r2, s2⟩
  obtain ⟨node2, hrep2, ho2, hr2⟩ := hrep3.getOrAlloc hh hat3 (by simp) h3 hg3
  rw [hg3] at h
  rcases hr2 with ⟨t2, hat2, rfl⟩ | ⟨hnone, rc, hrc, rfl⟩
  swap
  · have hleaf : leaf (entryName v) = none :=
      (hrep2.empty_below (hrep2.none_under hnone [idxPd v]) (idxPt v)).2
    cases h
    exact ⟨node2, fun ho => ho2 (ho3 ho), Or.inr (Or.inr ⟨hleaf, ⟨rc, hrc, rfl⟩, hrep2⟩)⟩
  simp only at h
  rcases hg2 : getOrAllocNextTable space t2 (idxPd v) s2 with ⟨r1, s1⟩
  obtain ⟨node1, hrep1, ho1, hr1⟩ := hrep2.getOrAlloc hh hat2 (by simp) h2 hg2
  rw [hg2] at h
  have ho : Owned space s node → Owned space s1 node1 := fun ho => ho1 (ho2 (ho3 ho))
  rcases hr1 with ⟨t1, hat1, rfl⟩ | ⟨hnone, rc, hrc, rfl⟩
  swap
  · have hleaf : leaf (entryName v) = none := (hrep1.empty_below hnone (idxPt v)).2
    cases h
    exact ⟨node1, ho, Or.inr (Or.inr ⟨hleaf, ⟨rc, hrc, rfl⟩, hrep1⟩)⟩
  simp only at h
  obtain ⟨f1, hf1, hft1⟩ := id hat1
  have hentry := hrep1.entry (path v) f1 t1 (idxPt v) hf1 hft1 rfl h1
  rw [hentry] at h
  refine ⟨node1, ?_⟩
  cases hleaf : leaf (entryName v) with
  | some m =>
      have hpresent := leafEntry_present m.1 m.2
      have hm : leaf (idxPt v :: path v) = some m := hleaf
      rw [hm, if_pos hpresent] at h
      cases h
      exact ⟨ho, Or.inl ⟨Option.some_ne_none m, rfl, hrep1⟩⟩
  | none =>
      have hm : leaf (idxPt v :: path v) = none := hleaf
      have hempty : leafEntry none &&& ptePresent = 0 := by decide
      rw [hm, if_neg (not_not.mpr hempty)] at h
      cases h
      exact ⟨fun h => (ho h).set _ _ _,
        Or.inr (Or.inl ⟨rfl, rfl, hrep1.setLeaf hh hat1 rfl (some (pa, fl))⟩)⟩

/-- `vmm_unmap_page` removes the mapping if there is one. -/
theorem Rep.unmapPage (hrep : Rep space s node leaf) (hh : Lawful space) {v : UInt64}
    (hv : GoodAddr v) {r : Except VmmErr Unit} {s' : VmmState P}
    (h : Vmm.unmapPage space v s = (r, s')) :
    (leaf (entryName v) = none ∧ r = .error .notFound ∧ s' = s) ∨
    (leaf (entryName v) ≠ none ∧ r = .ok () ∧ (Owned space s node → Owned space s' node) ∧
      Rep space s' node (Function.update leaf (entryName v) none)) := by
  unfold Vmm.unmapPage at h
  rcases hrep.walkToPt_eq hh hv with ⟨hnone, hwalk⟩ | ⟨t, hat, hwalk⟩
  · rw [hwalk] at h
    cases h
    exact Or.inl ⟨(hrep.empty_below hnone (idxPt v)).2, rfl, rfl⟩
  · obtain ⟨f, hf, hft⟩ := id hat
    have hentry := hrep.entry (path v) f t (idxPt v) hf hft rfl (Rep.index_lt v).2.2.2
    rw [hwalk] at h
    simp only at h
    rw [hentry] at h
    cases hleaf : leaf (entryName v) with
    | none =>
        left
        have hm : leaf (idxPt v :: path v) = none := hleaf
        rw [hm, if_pos (by decide)] at h
        cases h
        exact ⟨rfl, rfl, rfl⟩
    | some m =>
        right
        have hm : leaf (idxPt v :: path v) = some m := hleaf
        rw [hm, if_neg (leafEntry_present m.1 m.2)] at h
        cases h
        exact ⟨Option.some_ne_none m, rfl, fun ho => ho.set _ _ _, hrep.setLeaf hh hat rfl none⟩

/-! ## Runs -/

inductive VmmOp where
  | map (vaddr paddr flags : UInt64)
  | query (vaddr : UInt64)
  | unmap (vaddr : UInt64)

/-- The address an operation is about. -/
def VmmOp.vaddr : VmmOp → UInt64
  | .map vaddr _ _ => vaddr
  | .query vaddr => vaddr
  | .unmap vaddr => vaddr

def isOk {α : Type} : Except VmmErr α → Bool
  | .ok _ => true
  | .error _ => false

/-- One call: whether it returned `VMM_MAP_OK`, and the state after it. -/
def vmmStep (space : VmmSpace P) (s : VmmState P) : VmmOp → Bool × VmmState P
  | .map vaddr paddr flags =>
    (isOk (mapPage space vaddr paddr flags s).1, (mapPage space vaddr paddr flags s).2)
  | .query vaddr => (isOk (queryPage space vaddr s), s)
  | .unmap vaddr => (isOk (unmapPage space vaddr s).1, (unmapPage space vaddr s).2)

/-- The calls of a run, the latest first, with whether they succeeded. -/
abbrev History := List (VmmOp × Bool)

inductive VmmRun (space : VmmSpace P) (s0 : VmmState P) : History → VmmState P → Prop
  | start : VmmRun space s0 [] s0
  | call {hist : History} {s : VmmState P} (op : VmmOp) (hrun : VmmRun space s0 hist s) :
      VmmRun space s0 ((op, (vmmStep space s op).1) :: hist) (vmmStep space s op).2

/-- The page and the flags of the latest successful map of `v`, unless `v` has been unmapped
since. -/
def latestMap : History → UInt64 → Option (UInt64 × UInt64)
  | [], _ => none
  | (.map vaddr paddr flags, true) :: hist, v =>
    if vaddr = v then some (paddr, flags) else latestMap hist v
  | (.unmap vaddr, true) :: hist, v => if vaddr = v then none else latestMap hist v
  | _ :: hist, v => latestMap hist v

/-- The tree holds what the history says. -/
def Holds (space : VmmSpace P) (s : VmmState P) (hist : History) : Prop :=
  ∃ node leaf, Rep space s node leaf ∧ ∀ v, GoodAddr v → leaf (entryName v) = latestMap hist v

/-- Changing the entry of one address changes the map there only. -/
theorem update_latest {v w : UInt64} (hv : GoodAddr v) (hw : GoodAddr w)
    (x : Option (UInt64 × UInt64)) {m : Option (UInt64 × UInt64)} (hm : leaf (entryName w) = m) :
    Function.update leaf (entryName v) x (entryName w) = if v = w then x else m := by
  by_cases hvw : v = w
  · rw [if_pos hvw, hvw, Function.update_self]
  · have hne : entryName w ≠ entryName v := fun h => hvw (path_inj hw hv h).symm
    rw [if_neg hvw, Function.update_of_ne hne, hm]

theorem mapPage_inval {v pa fl : UInt64} (h : ¬(GoodAddr v ∧ isAligned4k pa = true)) :
    mapPage space v pa fl s = (.error .inval, s) := by
  unfold mapPage
  rw [if_pos]
  by_contra hne
  simp only [not_or, Bool.not_eq_true', Bool.not_eq_false] at hne
  exact h ⟨⟨hne.1, hne.2.1⟩, hne.2.2⟩

omit [DecidableEq P] in
theorem queryPage_inval {v : UInt64} (h : ¬GoodAddr v) :
    queryPage space v s = .error .inval := by
  unfold queryPage walkToPt
  rw [if_pos]
  by_contra hne
  simp only [not_or, Bool.not_eq_true', Bool.not_eq_false] at hne
  exact h hne

theorem unmapPage_inval {v : UInt64} (h : ¬GoodAddr v) :
    unmapPage space v s = (.error .inval, s) := by
  unfold unmapPage walkToPt
  rw [if_pos]
  by_contra hne
  simp only [not_or, Bool.not_eq_true', Bool.not_eq_false] at hne
  exact h hne

/-- One call keeps tree and history together, and the account of the frames. -/
theorem Rep.step (hrep : Rep space s node leaf) (hh : Lawful space) {hist : History}
    (hleaf : ∀ v, GoodAddr v → leaf (entryName v) = latestMap hist v) (op : VmmOp) :
    ∃ node' leaf', Rep space (vmmStep space s op).2 node' leaf' ∧
      (Owned space s node → Owned space (vmmStep space s op).2 node') ∧
      ∀ v, GoodAddr v →
        leaf' (entryName v) = latestMap ((op, (vmmStep space s op).1) :: hist) v := by
  cases op with
  | map v pa fl =>
      rcases hcall : Vmm.mapPage space v pa fl s with ⟨r, s'⟩
      have hstep : vmmStep space s (.map v pa fl) = (isOk r, s') := by rw [vmmStep, hcall]
      rw [hstep]
      by_cases hargs : GoodAddr v ∧ isAligned4k pa = true
      · obtain ⟨node', ho, ⟨-, rfl, hrep'⟩ | ⟨-, rfl, hrep'⟩ | ⟨-, ⟨rc, -, rfl⟩, hrep'⟩⟩ :=
          hrep.mapPage hh hargs.1 hargs.2 hcall
        · exact ⟨node', leaf, hrep', ho, hleaf⟩
        · exact ⟨node', _, hrep', ho, fun w hw => update_latest hargs.1 hw _ (hleaf w hw)⟩
        · exact ⟨node', leaf, hrep', ho, hleaf⟩
      · rw [mapPage_inval hargs] at hcall
        cases hcall
        exact ⟨node, leaf, hrep, id, hleaf⟩
  | query v => exact ⟨node, leaf, hrep, id, hleaf⟩
  | unmap v =>
      rcases hcall : Vmm.unmapPage space v s with ⟨r, s'⟩
      have hstep : vmmStep space s (.unmap v) = (isOk r, s') := by rw [vmmStep, hcall]
      rw [hstep]
      by_cases hv : GoodAddr v
      · rcases hrep.unmapPage hh hv hcall with ⟨-, rfl, rfl⟩ | ⟨-, rfl, ho, hrep'⟩
        · exact ⟨node, leaf, hrep, id, hleaf⟩
        · exact ⟨node, _, hrep', ho, fun w hw => update_latest hv hw _ (hleaf w hw)⟩
      · rw [unmapPage_inval hv] at hcall
        cases hcall
        exact ⟨node, leaf, hrep, id, hleaf⟩

theorem Holds.step {hist : History} (hholds : Holds space s hist) (hh : Lawful space)
    (op : VmmOp) : Holds space (vmmStep space s op).2 ((op, (vmmStep space s op).1) :: hist) := by
  obtain ⟨node, leaf, hrep, hleaf⟩ := hholds
  obtain ⟨node', leaf', hrep', -, hleaf'⟩ := hrep.step hh hleaf op
  exact ⟨node', leaf', hrep', hleaf'⟩

/-- A space whose root table is all zero. -/
def RootZero (space : VmmSpace P) (s : VmmState P) : Prop :=
  ∀ t, space.physToVirt space.rootPaddr = some t → ∀ i, i < entriesPerTable → s.mem t i = 0

/-- The tree that has a root only. -/
def rootNode (space : VmmSpace P) (p : Name) : Option UInt64 :=
  if p = [] then some space.rootPaddr else none

omit [DecidableEq P] in
theorem RootZero.rep (hzero : RootZero space s) {t : P}
    (hroot : space.physToVirt space.rootPaddr = some t) :
    Rep space s (rootNode space) fun _ => none := by
  unfold rootNode
  refine ⟨rfl, fun p f hne hp => ?_, fun p q f hp hq => ?_, fun p f hp => ?_, fun i p hne => ?_,
    fun i p hne => ?_, fun p f t i hp ht _ hi => ?_, fun p f t i hp ht hlen _ => ?_⟩
  · rw [if_neg hne] at hp
    cases hp
  · split_ifs at hp hq with h1 h2
    rw [h1, h2]
  · split_ifs at hp with h1
    cases hp
    exact ⟨t, hroot⟩
  · rw [if_neg (List.cons_ne_nil i p)] at hne
    exact absurd rfl hne
  · exact absurd rfl hne
  · split_ifs at hp with hnil
    cases hp
    rw [if_neg (List.cons_ne_nil i p)]
    exact hzero t ht i hi
  · split_ifs at hp with hnil
    rw [hnil] at hlen
    cases hlen

theorem vmmRun_holds {s0 : VmmState P} {hist : History} (hh : Lawful space) {t : P}
    (hroot : space.physToVirt space.rootPaddr = some t) (hzero : RootZero space s0)
    (hrun : VmmRun space s0 hist s) : Holds space s hist := by
  induction hrun with
  | start => exact ⟨_, _, hzero.rep hroot, fun _ _ => rfl⟩
  | call op hrun ih => exact ih.step hh op

omit [DecidableEq P] in
/-- The answer of a lookup in a state that holds `hist`. -/
theorem Holds.query_eq {hist : History} (hholds : Holds space s hist) (hh : Lawful space)
    {v : UInt64} (hv : GoodAddr v) :
    queryPage space v s = match latestMap hist v with
      | none => .error .notFound
      | some (paddr, flags) =>
        .ok ⟨v, paddr &&& pteAddrMask, ptePresent ||| (flags &&& allowed)⟩ := by
  obtain ⟨node, leaf, hrep, hleaf⟩ := hholds
  rw [← hleaf v hv]
  exact hrep.queryPage_eq hh hv

/-- An operation on another address does not show in the history of `w`. -/
theorem latestMap_cons_of_ne {op : VmmOp} {ok : Bool} {hist : History} {w : UInt64}
    (hne : op.vaddr ≠ w) : latestMap ((op, ok) :: hist) w = latestMap hist w := by
  cases op <;> cases ok <;> first | rfl | exact if_neg hne

/-- In every state of every run a lookup answers with the latest map of the address,
`vmm_map_page` finds exactly the mapped addresses taken, `vmm_unmap_page` misses exactly the
others, and an operation on one address does not show at any other. -/
theorem vmmRun_finite_map {s0 : VmmState P} {hist : History} (hh : Honest space)
    (hzero : RootZero space s0) (hrun : VmmRun space s0 hist s) :
    (∀ v, GoodAddr v → queryPage space v s = match latestMap hist v with
      | none => .error .notFound
      | some (paddr, flags) =>
        .ok ⟨v, paddr &&& pteAddrMask, ptePresent ||| (flags &&& allowed)⟩) ∧
    (∀ v paddr flags, GoodAddr v → isAligned4k paddr = true →
      ((mapPage space v paddr flags s).1 = .error .exists ↔ (latestMap hist v).isSome)) ∧
    (∀ v, GoodAddr v →
      ((unmapPage space v s).1 = .error .notFound ↔ latestMap hist v = none)) ∧
    ∀ op w, op.vaddr ≠ w → queryPage space w (vmmStep space s op).2 = queryPage space w s := by
  obtain ⟨t, hroot⟩ := hh.virt_some _ (Or.inl rfl)
  have hholds := vmmRun_holds hh.lawful hroot hzero hrun
  obtain ⟨node, leaf, hrep, hleaf⟩ := id hholds
  refine ⟨fun v hv => hholds.query_eq hh.lawful hv, fun v pa fl hv hpa => ?_, fun v hv => ?_,
    fun op w hne => ?_⟩
  · rcases hcall : mapPage space v pa fl s with ⟨r, s'⟩
    rw [← hleaf v hv, Option.isSome_iff_ne_none]
    obtain ⟨-, -, ⟨hm, rfl, -⟩ | ⟨hm, rfl, -⟩ | ⟨hm, ⟨rc, rfl | rfl, rfl⟩, -⟩⟩ :=
      hrep.mapPage hh.lawful hv hpa hcall <;> simp [hm]
  · rcases hcall : unmapPage space v s with ⟨r, s'⟩
    rw [← hleaf v hv]
    rcases hrep.unmapPage hh.lawful hv hcall with ⟨hm, rfl, -⟩ | ⟨hm, rfl, -⟩ <;> simp [hm]
  · by_cases hw : GoodAddr w
    · rw [(hholds.step hh.lawful op).query_eq hh.lawful hw, hholds.query_eq hh.lawful hw,
        latestMap_cons_of_ne hne]
    · rw [queryPage_inval hw, queryPage_inval hw]

/-- Identity-mapped tables in 64 frames, the first of which are frame 1 for the root and frame
2 for the first call of `alloc_frame`; a recycled frame is full of `0xA5`. -/
def smallSpace : VmmSpace UInt64 :=
  { rootPaddr := 0x1000
    allocFrame := fun n =>
      (if n < 62 then UInt64.ofNat ((n + 2) * 4096) else invalidPhys, fun _ => 0xA5A5A5A5A5A5A5A5)
    freeFrame := true
    physToVirt := fun f => some f }

theorem smallSpace_frame {n : Nat} (h : (smallSpace.allocFrame n).1 ≠ invalidPhys) :
    n < 62 ∧ (smallSpace.allocFrame n).1.toNat = (n + 2) * 4096 := by
  have hn : n < 62 := by
    by_contra hge
    exact h (if_neg hge)
  refine ⟨hn, ?_⟩
  show (if n < 62 then UInt64.ofNat ((n + 2) * 4096) else invalidPhys).toNat = _
  rw [if_pos hn, UInt64.toNat_ofNat']
  exact Nat.mod_eq_of_lt (by omega)

theorem smallSpace_honest : Honest smallSpace := by
  refine ⟨by decide, fun n hn => ?_, fun n hn => ⟨fun hroot => ?_, fun m hm heq => ?_⟩,
    fun f _ => ⟨f, rfl⟩, fun f g _ _ h => Option.some.inj h⟩
  · obtain ⟨hlt, hval⟩ := smallSpace_frame hn
    rw [isAligned4k_iff, hval]
    omega
  · obtain ⟨-, hval⟩ := smallSpace_frame hn
    rw [hroot, show smallSpace.rootPaddr.toNat = 4096 from rfl] at hval
    omega
  · obtain ⟨-, hval⟩ := smallSpace_frame hn
    obtain ⟨-, hval'⟩ := smallSpace_frame (heq ▸ hn : (smallSpace.allocFrame m).1 ≠ invalidPhys)
    rw [heq, hval] at hval'
    omega

/-- A kernel page that has been mapped is found. -/
theorem vmmRun_finite_map_small :
    ∃ hist s, VmmRun smallSpace ⟨fun _ _ => 0, 0, []⟩ hist s ∧
      queryPage smallSpace 0xFFFF800000200000 s =
        .ok ⟨0xFFFF800000200000, 0x300000, 0x8000000000000103⟩ := by
  have hstart : VmmRun smallSpace ⟨fun _ _ => 0, 0, []⟩ [] ⟨fun _ _ => 0, 0, []⟩ := .start
  have hrun := hstart.call (.map 0xFFFF800000200000 0x300000 0x8000000000000102)
  have hok : (vmmStep smallSpace ⟨fun _ _ => 0, 0, []⟩
      (.map 0xFFFF800000200000 0x300000 0x8000000000000102)).1 = true := by decide +kernel
  rw [hok] at hrun
  have h := (vmmRun_finite_map smallSpace_honest (fun _ _ _ _ => rfl) hrun).1
    0xFFFF800000200000 ⟨by decide, by decide⟩
  exact ⟨_, _, hrun, h⟩

end Mcsos.Vmm
