import Mcsos.Mm.VmmEntry

set_option autoImplicit false

/-! # The tree of page tables

A table is named by the indices that lead to it from the root, the last one first: the root
is `[]`, a page table proper has three indices. `Rep` says that the tables in memory are the
tree given by `node` (the frame of every table) and `leaf` (the mapping at every entry of the
last level): no two names share a frame, every frame has a table, and every entry of a table is
the one that its name calls for. The lookups follow the tree, and the updates change one place of it.
-/

namespace Mcsos.Vmm

variable {P : Type}

/-! ## The callbacks -/

/-- The root and every frame that `alloc_frame` hands out. -/
def Frame (space : VmmSpace P) (f : UInt64) : Prop :=
  f = space.rootPaddr ∨ ∃ n, (space.allocFrame n).1 = f ∧ f ≠ invalidPhys

/-- What the code relies on. `alloc_frame` answers `VMM_INVALID_PHYS` or an aligned frame below
`2 ^ 52` that is not a table yet: every frame it has handed out has become one. `phys_to_virt`
gives every table frame a table of its own. -/
structure Honest (space : VmmSpace P) : Prop where
  root_aligned : isAligned4k space.rootPaddr = true
  alloc_aligned : ∀ n, (space.allocFrame n).1 ≠ invalidPhys →
    isAligned4k (space.allocFrame n).1 = true ∧ (space.allocFrame n).1.toNat < 2 ^ 52
  alloc_fresh : ∀ n, (space.allocFrame n).1 ≠ invalidPhys →
    (space.allocFrame n).1 ≠ space.rootPaddr ∧
      ∀ m, m < n → (space.allocFrame m).1 ≠ (space.allocFrame n).1
  virt_some : ∀ f, Frame space f → ∃ table, space.physToVirt f = some table
  virt_inj : ∀ f g, Frame space f → Frame space g →
    space.physToVirt f = space.physToVirt g → f = g

/-- What the code relies on where `phys_to_virt` may reject frames, the same ones at every call. A
frame that it accepts is fresh as before; one that it rejects is given back, and may be handed out
again. -/
structure Lawful (space : VmmSpace P) : Prop where
  root_aligned : isAligned4k space.rootPaddr = true
  alloc_aligned : ∀ n, (space.allocFrame n).1 ≠ invalidPhys →
    isAligned4k (space.allocFrame n).1 = true ∧ (space.allocFrame n).1.toNat < 2 ^ 52
  alloc_fresh : ∀ n table, (space.allocFrame n).1 ≠ invalidPhys →
    space.physToVirt (space.allocFrame n).1 = some table →
    (space.allocFrame n).1 ≠ space.rootPaddr ∧
      ∀ m, m < n → (space.allocFrame m).1 ≠ (space.allocFrame n).1
  virt_inj : ∀ f g table, Frame space f → Frame space g → space.physToVirt f = some table →
    space.physToVirt g = some table → f = g

theorem Honest.lawful {space : VmmSpace P} (h : Honest space) : Lawful space where
  root_aligned := h.root_aligned
  alloc_aligned := h.alloc_aligned
  alloc_fresh := fun n _ hn _ => h.alloc_fresh n hn
  virt_inj := fun f g _ hf hg hft hgt => h.virt_inj f g hf hg (hft.trans hgt.symm)

namespace Lawful

variable {space : VmmSpace P}

theorem frame_aligned (h : Lawful space) {f : UInt64} (hf : Frame space f) :
    isAligned4k f = true := by
  rcases hf with rfl | ⟨n, rfl, hn⟩
  · exact h.root_aligned
  · exact (h.alloc_aligned n hn).1

theorem tableFromPhys_eq (h : Lawful space) {f : UInt64} (hf : Frame space f) :
    tableFromPhys space f = space.physToVirt f := by
  unfold tableFromPhys
  rw [h.frame_aligned hf]
  rfl

end Lawful

/-! ## The tree -/

/-- Names of tables, and of entries of the last level. -/
abbrev Name := List Nat

structure Rep (space : VmmSpace P) (s : VmmState P) (node : Name → Option UInt64)
    (leaf : Name → Option (UInt64 × UInt64)) : Prop where
  root : node [] = some space.rootPaddr
  frame : ∀ p f, p ≠ [] → node p = some f →
    ∃ n, n < s.calls ∧ (space.allocFrame n).1 = f ∧ f ≠ invalidPhys
  inj : ∀ p q f, node p = some f → node q = some f → p = q
  virt : ∀ p f, node p = some f → ∃ t, space.physToVirt f = some t
  parent : ∀ i p, node (i :: p) ≠ none → node p ≠ none ∧ p.length < 3 ∧ i < 512
  leaf_parent : ∀ i p, leaf (i :: p) ≠ none → node p ≠ none
  table : ∀ p f t i, node p = some f → space.physToVirt f = some t → p.length < 3 → i < 512 →
    s.mem t i = tableEntry (node (i :: p))
  entry : ∀ p f t i, node p = some f → space.physToVirt f = some t → p.length = 3 → i < 512 →
    s.mem t i = leafEntry (leaf (i :: p))

variable {space : VmmSpace P} {s : VmmState P} {node : Name → Option UInt64}
variable {leaf : Name → Option (UInt64 × UInt64)}

/-- `t` is the table with name `p`. -/
def TableAt (space : VmmSpace P) (node : Name → Option UInt64) (p : Name) (t : P) : Prop :=
  ∃ f, node p = some f ∧ space.physToVirt f = some t

theorem TableAt.virt_eq {p : Name} {f : UInt64} {t t' : P} (h : TableAt space node p t)
    (hf : node p = some f) (ht' : space.physToVirt f = some t') : t' = t := by
  obtain ⟨g, hg, hgt⟩ := h
  obtain rfl : g = f := Option.some.inj (hg.symm.trans hf)
  exact Option.some.inj (ht'.symm.trans hgt)

namespace Rep

theorem isFrame (hrep : Rep space s node leaf) {p : Name} {f : UInt64} (hp : node p = some f) :
    Frame space f := by
  by_cases hroot : p = []
  · subst hroot
    rw [hrep.root] at hp
    cases hp
    exact Or.inl rfl
  · obtain ⟨n, -, hn, hvalid⟩ := hrep.frame p f hroot hp
    exact Or.inr ⟨n, hn, hvalid⟩

/-- A table frame other than the root survives the address mask. -/
theorem addr_eq (hrep : Rep space s node leaf) (hh : Lawful space) {p : Name} {f : UInt64}
    (hne : p ≠ []) (hp : node p = some f) : f &&& pteAddrMask = f := by
  obtain ⟨n, -, rfl, hvalid⟩ := hrep.frame p f hne hp
  obtain ⟨ha, hlt⟩ := hh.alloc_aligned n hvalid
  exact and_addrMask ha hlt

theorem tableAt_root (hrep : Rep space s node leaf) (hh : Lawful space) :
    ∃ t, tableFromPhys space space.rootPaddr = some t ∧ TableAt space node [] t := by
  have hroot : Frame space space.rootPaddr := Or.inl rfl
  obtain ⟨t, ht⟩ := hrep.virt [] _ hrep.root
  exact ⟨t, by rw [hh.tableFromPhys_eq hroot, ht], space.rootPaddr, hrep.root, ht⟩

theorem tableAt_of_node (hrep : Rep space s node leaf) (hh : Lawful space) {p : Name}
    {f : UInt64} (hp : node p = some f) :
    ∃ t, tableFromPhys space f = some t ∧ TableAt space node p t := by
  have hf := hrep.isFrame hp
  obtain ⟨t, ht⟩ := hrep.virt p f hp
  exact ⟨t, by rw [hh.tableFromPhys_eq hf, ht], f, hp, ht⟩

/-- Different names, different tables. -/
theorem tableAt_inj (hrep : Rep space s node leaf) (hh : Lawful space) {p q : Name} {t : P}
    (hp : TableAt space node p t) (hq : TableAt space node q t) : p = q := by
  obtain ⟨f, hf, hft⟩ := hp
  obtain ⟨g, hg, hgt⟩ := hq
  have hfg := hh.virt_inj f g t (hrep.isFrame hf) (hrep.isFrame hg) hft hgt
  subst hfg
  exact hrep.inj p q f hf hg

/-- No table and no mapping has a name right below a table that is not there. -/
theorem empty_below (hrep : Rep space s node leaf) {q : Name} (hnone : node q = none) (j : Nat) :
    node (j :: q) = none ∧ leaf (j :: q) = none := by
  constructor
  · by_contra hne
    exact (hrep.parent j q hne).1 hnone
  · by_contra hne
    exact hrep.leaf_parent j q hne hnone

/-- A link that is missing leaves no table anywhere below it. -/
theorem none_under (hrep : Rep space s node leaf) {p : Name} (hnone : node p = none) (q : Name) :
    node (q ++ p) = none := by
  induction q with
  | nil => exact hnone
  | cons i q ih => exact (hrep.empty_below ih i).1

/-! ## Lookups -/

/-- One level down. -/
theorem nextTable_eq (hrep : Rep space s node leaf) (hh : Lawful space) {p : Name} {t : P}
    {i : Nat} (ht : TableAt space node p t) (hp : p.length < 3) (hi : i < 512) :
    (node (i :: p) = none ∧ nextTable space t i s = .error .notFound) ∨
    ∃ t', TableAt space node (i :: p) t' ∧ nextTable space t i s = .ok t' := by
  obtain ⟨f, hf, hft⟩ := ht
  have hentry := hrep.table p f t i hf hft hp hi
  unfold nextTable
  rw [hentry]
  cases hnode : node (i :: p) with
  | none =>
      left
      refine ⟨rfl, ?_⟩
      rw [if_pos (Or.inl (by decide))]
  | some g =>
      right
      obtain ⟨t', ht', hat⟩ := hrep.tableAt_of_node hh hnode
      refine ⟨t', hat, ?_⟩
      have hlink : ¬(tableEntry (some g) &&& ptePresent = 0 ∨
          tableEntry (some g) &&& pteHuge ≠ 0) := by
        rw [not_or, not_not]
        exact ⟨tableEntry_present g, tableEntry_huge g⟩
      rw [if_neg hlink, tableEntry_addr, hrep.addr_eq hh (List.cons_ne_nil i p) hnode, ht']

theorem index_lt (v : UInt64) : idxPml4 v < 512 ∧ idxPdpt v < 512 ∧ idxPd v < 512 ∧
    idxPt v < 512 := by
  rw [idxPml4_eq, idxPdpt_eq, idxPd_eq, idxPt_eq]
  omega

/-- The walk ends at the table of the address, or finds a link missing. -/
theorem walkToPt_eq (hrep : Rep space s node leaf) (hh : Lawful space) {v : UInt64}
    (hv : GoodAddr v) :
    (node (path v) = none ∧ walkToPt space v s = .error .notFound) ∨
    ∃ t, TableAt space node (path v) t ∧ walkToPt space v s = .ok t := by
  obtain ⟨h4, h3, h2, -⟩ := index_lt v
  obtain ⟨t4, hroot, hat4⟩ := hrep.tableAt_root hh
  have hgood : ¬((!isCanonical v) = true ∨ (!isAligned4k v) = true) := by
    simp [hv.1, hv.2]
  unfold walkToPt
  rw [if_neg hgood, hroot]
  simp only
  rcases hrep.nextTable_eq hh hat4 (by decide) h4 with ⟨hnone, hnext⟩ | ⟨t3, hat3, hnext⟩
  · left
    rw [hnext]
    exact ⟨hrep.none_under hnone [idxPd v, idxPdpt v], rfl⟩
  rw [hnext]
  rcases hrep.nextTable_eq hh hat3 (by simp) h3 with ⟨hnone, hnext⟩ | ⟨t2, hat2, hnext⟩
  · left
    refine ⟨hrep.none_under hnone [idxPd v], ?_⟩
    show (nextTable space t3 (idxPdpt v) s >>= _) = _
    rw [hnext]
    rfl
  rcases hrep.nextTable_eq hh hat2 (by simp) h2 with ⟨hnone, hlast⟩ | ⟨t1, hat1, hlast⟩
  · left
    refine ⟨hnone, ?_⟩
    show (nextTable space t3 (idxPdpt v) s >>= _) = _
    rw [hnext]
    exact hlast
  · right
    refine ⟨t1, hat1, ?_⟩
    show (nextTable space t3 (idxPdpt v) s >>= _) = _
    rw [hnext]
    exact hlast

/-- A lookup answers what the tree has for the address. -/
theorem queryPage_eq (hrep : Rep space s node leaf) (hh : Lawful space) {v : UInt64}
    (hv : GoodAddr v) :
    queryPage space v s = match leaf (idxPt v :: path v) with
      | none => .error .notFound
      | some (paddr, flags) =>
        .ok ⟨v, paddr &&& pteAddrMask, ptePresent ||| (flags &&& allowed)⟩ := by
  unfold queryPage
  rcases hrep.walkToPt_eq hh hv with ⟨hnone, hwalk⟩ | ⟨t, ⟨f, hf, hft⟩, hwalk⟩
  · rw [hwalk]
    cases hleaf : leaf (idxPt v :: path v) with
    | none => rfl
    | some m => exact absurd hnone (hrep.leaf_parent _ _ (by rw [hleaf]; simp))
  · have hentry := hrep.entry (path v) f t (idxPt v) hf hft rfl (index_lt v).2.2.2
    rw [hwalk]
    simp only
    rw [hentry]
    cases hleaf : leaf (idxPt v :: path v) with
    | none => rw [if_pos (by decide)]
    | some m =>
        obtain ⟨paddr, flags⟩ := m
        rw [if_neg (leafEntry_present paddr flags), leafEntry_addr, leafEntry_flags]

/-! ## Updates -/

/-- The next answer of `alloc_frame` is no table yet. -/
theorem alloc_not_node (hrep : Rep space s node leaf) (hh : Lawful space)
    (hvalid : (space.allocFrame s.calls).1 ≠ invalidPhys) {t' : P}
    (ht' : space.physToVirt (space.allocFrame s.calls).1 = some t') {q : Name} {g : UInt64}
    (hq : node q = some g) : g ≠ (space.allocFrame s.calls).1 := by
  obtain ⟨hroot, hold⟩ := hh.alloc_fresh _ _ hvalid ht'
  by_cases hnil : q = []
  · subst hnil
    rw [hrep.root] at hq
    cases hq
    exact hroot.symm
  · obtain ⟨n, hn, rfl, -⟩ := hrep.frame q g hnil hq
    exact hold n hn

theorem alloc_not_table (hrep : Rep space s node leaf) (hh : Lawful space)
    (hvalid : (space.allocFrame s.calls).1 ≠ invalidPhys) {t' : P}
    (ht' : space.physToVirt (space.allocFrame s.calls).1 = some t') {q : Name} {u : P}
    (hu : TableAt space node q u) : u ≠ t' := by
  obtain ⟨g, hg, hgu⟩ := hu
  rintro rfl
  have hframe : Frame space (space.allocFrame s.calls).1 := Or.inr ⟨s.calls, rfl, hvalid⟩
  exact hrep.alloc_not_node hh hvalid ht' hg (hh.virt_inj g _ u (hrep.isFrame hg) hframe hgu ht')

variable [DecidableEq P]

/-- Writing one entry of the last level. -/
theorem setLeaf (hrep : Rep space s node leaf) (hh : Lawful space) {p : Name} {t : P} {i : Nat}
    (ht : TableAt space node p t) (hp : p.length = 3) (x : Option (UInt64 × UInt64)) :
    Rep space (s.set t i (leafEntry x)) node (Function.update leaf (i :: p) x) := by
  have hother : ∀ q f t' j, node q = some f → space.physToVirt f = some t' → q ≠ p →
      (s.set t i (leafEntry x)).mem t' j = s.mem t' j := by
    intro q f t' j hq hft' hqp
    have hne : t' ≠ t := fun h => hqp (hrep.tableAt_inj hh ⟨f, hq, h ▸ hft'⟩ ht)
    show Function.update s.mem t _ t' j = _
    rw [Function.update_of_ne hne]
  refine ⟨hrep.root, hrep.frame, hrep.inj, hrep.virt, hrep.parent, fun j q hj => ?_,
    fun q f t' j hq hft' hlen hj => ?_, fun q f t' j hq hft' hlen hj => ?_⟩
  · by_cases hname : j :: q = i :: p
    · obtain ⟨f, hf, -⟩ := ht
      rw [(List.cons.inj hname).2, hf]
      exact Option.some_ne_none f
    · rw [Function.update_of_ne hname] at hj
      exact hrep.leaf_parent j q hj
  · rw [hother q f t' j hq hft' (fun h => by rw [h, hp] at hlen; omega)]
    exact hrep.table q f t' j hq hft' hlen hj
  · by_cases hqp : q = p
    · subst hqp
      have htt : t' = t := by
        obtain ⟨g, hg, hgt⟩ := ht
        rw [hq] at hg
        cases hg
        rw [hft'] at hgt
        cases hgt
        rfl
      subst htt
      show Function.update s.mem t' (Function.update (s.mem t') i (leafEntry x)) t' j = _
      rw [Function.update_self]
      by_cases hji : j = i
      · rw [hji, Function.update_self, Function.update_self]
      · have hname : j :: q ≠ i :: q := fun h => hji (List.cons.inj h).1
        rw [Function.update_of_ne hji, Function.update_of_ne hname]
        exact hrep.entry q f t' j hq hft' hlen hj
    · have hname : j :: q ≠ i :: p := fun h => hqp (List.cons.inj h).2
      rw [hother q f t' j hq hft' hqp, Function.update_of_ne hname]
      exact hrep.entry q f t' j hq hft' hlen hj

/-- The state in which a new frame `f`, zeroed, is linked at entry `i` of table `t`. -/
def link (s : VmmState P) (t t' : P) (i : Nat) (f : UInt64) (dirt : Nat → UInt64) : VmmState P :=
  (zeroPage t' { s with mem := Function.update s.mem t' dirt, calls := s.calls + 1 }).set t i
    (tableEntry (some f))

theorem link_self {t t' : P} {i : Nat} {f : UInt64} {dirt : Nat → UInt64} :
    (link s t t' i f dirt).mem t i = tableEntry (some f) := by
  unfold link VmmState.set
  simp only [Function.update_self]

theorem link_new {t t' : P} {i j : Nat} {f : UInt64} {dirt : Nat → UInt64} (hne : t' ≠ t)
    (hj : j < 512) : (link s t t' i f dirt).mem t' j = 0 := by
  unfold link VmmState.set zeroPage
  simp only [Function.update_of_ne hne, Function.update_self, entriesPerTable, if_pos hj]

theorem link_other {t t' u : P} {i j : Nat} {f : UInt64} {dirt : Nat → UInt64} (hne : u ≠ t')
    (hu : ¬(u = t ∧ j = i)) : (link s t t' i f dirt).mem u j = s.mem u j := by
  unfold link VmmState.set zeroPage
  by_cases hut : u = t
  · subst hut
    have hji : j ≠ i := fun h => hu ⟨rfl, h⟩
    simp only [Function.update_self, Function.update_of_ne hji, Function.update_of_ne hne]
  · simp only [Function.update_of_ne hut, Function.update_of_ne hne]

/-- Linking the frame of the next `alloc_frame` call at an empty entry. -/
theorem grow (hrep : Rep space s node leaf) (hh : Lawful space) {p : Name} {t t' : P} {i : Nat}
    (ht : TableAt space node p t) (hp : p.length < 3) (hi : i < 512) (hnone : node (i :: p) = none)
    {f : UInt64} (hf : (space.allocFrame s.calls).1 = f) (hvalid : f ≠ invalidPhys)
    (ht' : space.physToVirt f = some t') (dirt : Nat → UInt64) :
    Rep space (link s t t' i f dirt) (Function.update node (i :: p) (some f)) leaf := by
  subst hf
  have hfresh : ∀ q g, node q = some g → g ≠ (space.allocFrame s.calls).1 := fun q g hq =>
    hrep.alloc_not_node hh hvalid ht' hq
  have hnew : ∀ q u, TableAt space node q u → u ≠ t' := fun q u hu =>
    hrep.alloc_not_table hh hvalid ht' hu
  have hbelow := hrep.empty_below hnone
  -- a table has its name from before, or is the new one
  have hold : ∀ q g, Function.update node (i :: p) (some (space.allocFrame s.calls).1) q = some g →
      (q = i :: p ∧ g = (space.allocFrame s.calls).1) ∨ (q ≠ i :: p ∧ node q = some g) := by
    intro q g hq
    by_cases hname : q = i :: p
    · subst hname
      rw [Function.update_self] at hq
      exact Or.inl ⟨rfl, (Option.some.inj hq).symm⟩
    · rw [Function.update_of_ne hname] at hq
      exact Or.inr ⟨hname, hq⟩
  refine ⟨?_, fun q g hq hg => ?_, fun q r g hq hr => ?_, fun q g hq => ?_, fun j q hj => ?_,
    fun j q hj => ?_, fun q g u j hg hu hlen hj => ?_, fun q g u j hg hu hlen hj => ?_⟩
  · rw [Function.update_of_ne (List.cons_ne_nil i p).symm]
    exact hrep.root
  · rcases hold q g hg with ⟨-, rfl⟩ | ⟨-, hg⟩
    · exact ⟨s.calls, Nat.lt_succ_self _, rfl, hvalid⟩
    · obtain ⟨n, hn, h⟩ := hrep.frame q g hq hg
      exact ⟨n, Nat.lt_succ_of_lt hn, h⟩
  · rcases hold q g hq with ⟨rfl, rfl⟩ | ⟨hqi, hq⟩
    · rcases hold r _ hr with ⟨rfl, -⟩ | ⟨-, hr⟩
      · rfl
      · exact absurd rfl (hfresh r _ hr)
    · rcases hold r _ hr with ⟨rfl, hgf⟩ | ⟨-, hr⟩
      · exact absurd hgf (hfresh q _ hq)
      · exact hrep.inj q r g hq hr
  · rcases hold q g hq with ⟨-, rfl⟩ | ⟨-, hq⟩
    · exact ⟨t', ht'⟩
    · exact hrep.virt q g hq
  · have hparent : node q ≠ none ∧ q.length < 3 ∧ j < 512 := by
      by_cases hname : j :: q = i :: p
      · obtain ⟨rfl, rfl⟩ := List.cons.inj hname
        obtain ⟨ft, hft, -⟩ := ht
        exact ⟨by rw [hft]; exact Option.some_ne_none ft, hp, hi⟩
      · rw [Function.update_of_ne hname] at hj
        exact hrep.parent j q hj
    refine ⟨?_, hparent.2⟩
    by_cases hname : q = i :: p
    · rw [hname, Function.update_self]
      exact Option.some_ne_none _
    · rw [Function.update_of_ne hname]
      exact hparent.1
  · have hleaf := hrep.leaf_parent j q hj
    have hname : q ≠ i :: p := fun h => hleaf (h ▸ hnone)
    rwa [Function.update_of_ne hname]
  · rcases hold q g hg with ⟨rfl, rfl⟩ | ⟨-, hg'⟩
    · -- an entry of the new table, which is all zeros
      obtain rfl : t' = u := Option.some.inj (ht'.symm.trans hu)
      have hname : j :: i :: p ≠ i :: p := fun h => by simpa using congrArg List.length h
      rw [link_new (hnew p t ht).symm hj, Function.update_of_ne hname, (hbelow j).1]
      rfl
    by_cases hname : j :: q = i :: p
    · -- the entry that the new table is linked at
      obtain ⟨rfl, rfl⟩ := List.cons.inj hname
      obtain rfl : u = t := ht.virt_eq hg' hu
      rw [link_self, Function.update_self]
    · rw [Function.update_of_ne hname, link_other (hnew q u ⟨g, hg', hu⟩)]
      · exact hrep.table q g u j hg' hu hlen hj
      · rintro ⟨rfl, rfl⟩
        exact hname (by rw [hrep.tableAt_inj hh ⟨g, hg', hu⟩ ht])
  · rcases hold q g hg with ⟨rfl, rfl⟩ | ⟨-, hg'⟩
    · obtain rfl : t' = u := Option.some.inj (ht'.symm.trans hu)
      rw [link_new (hnew p t ht).symm hj, (hbelow j).2]
      rfl
    · rw [link_other (hnew q u ⟨g, hg', hu⟩)]
      · exact hrep.entry q g u j hg' hu hlen hj
      · rintro ⟨rfl, rfl⟩
        have hqp := hrep.tableAt_inj hh ⟨g, hg', hu⟩ ht
        rw [hqp] at hlen
        omega

end Rep

/-! ## The frames -/

/-- The answers of the first `n` calls of `alloc_frame`, the latest first. -/
def answers (space : VmmSpace P) : Nat → List UInt64
  | 0 => []
  | n + 1 => (space.allocFrame n).1 :: answers space n

/-- The answer is a frame, but `phys_to_virt` has no table for it. -/
def rejects (space : VmmSpace P) (f : UInt64) : Bool :=
  decide (f ≠ invalidPhys) && (space.physToVirt f).isNone

theorem rejects_iff {f : UInt64} :
    rejects space f = true ↔ f ≠ invalidPhys ∧ space.physToVirt f = none := by
  unfold rejects
  rw [Bool.and_eq_true, decide_eq_true_iff, Option.isNone_iff_eq_none]

/-- Every frame that `alloc_frame` has handed out is a table of the tree, or has been given back. -/
structure Owned (space : VmmSpace P) (s : VmmState P) (node : Name → Option UInt64) : Prop where
  linked : ∀ f, f ∈ answers space s.calls → f ≠ invalidPhys → space.physToVirt f ≠ none →
    ∃ p, p ≠ [] ∧ node p = some f
  freed : space.freeFrame = true → s.freed = (answers space s.calls).filter (rejects space)

/-- One more call of `alloc_frame`, and what becomes of the answer. -/
theorem Owned.call {s' : VmmState P} {node' : Name → Option UInt64} (h : Owned space s node)
    (hcalls : s'.calls = s.calls + 1) (hkeep : ∀ p f, node p = some f → node' p = some f)
    (hnew : (space.allocFrame s.calls).1 ≠ invalidPhys →
      space.physToVirt (space.allocFrame s.calls).1 ≠ none →
      ∃ p, p ≠ [] ∧ node' p = some (space.allocFrame s.calls).1)
    (hfreed : space.freeFrame = true → s'.freed =
      if rejects space (space.allocFrame s.calls).1 then (space.allocFrame s.calls).1 :: s.freed
      else s.freed) : Owned space s' node' := by
  refine ⟨fun f hf hvalid hvirt => ?_, fun hfree => ?_⟩
  · rw [hcalls, answers, List.mem_cons] at hf
    rcases hf with rfl | hf
    · exact hnew hvalid hvirt
    · obtain ⟨p, hp, hnode⟩ := h.linked f hf hvalid hvirt
      exact ⟨p, hp, hkeep p f hnode⟩
  · rw [hcalls, answers, List.filter_cons, hfreed hfree, h.freed hfree]

end Mcsos.Vmm
