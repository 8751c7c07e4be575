import Mcsos.Mm.VmmRuns

set_option autoImplicit false

/-! # What becomes of the frames

A `vmm_map_page` that fails may have linked new tables on its way down. They stay in the tree, with
no mapping below them, and the next map of that region finds them there. Here `phys_to_virt` may
reject frames and `alloc_frame` may have none at any of its calls: no translation changes, and no
frame is lost.
-/

namespace Mcsos.Vmm

variable {P : Type} {space : VmmSpace P} {s : VmmState P} {node : Name → Option UInt64}
variable {leaf : Name → Option (UInt64 × UInt64)}

/-! ## The tables in memory -/

/-- The frame of the table with this name, as the links in memory have it. -/
def frameAt (space : VmmSpace P) (s : VmmState P) : Name → Option UInt64
  | [] => some space.rootPaddr
  | i :: p =>
    match frameAt space s p with
    | none => none
    | some f =>
      match tableFromPhys space f with
      | none => none
      | some table =>
        let e := s.mem table i
        if p.length < 3 ∧ i < entriesPerTable ∧ e &&& ptePresent ≠ 0 ∧ e &&& pteHuge = 0 then
          some (e &&& pteAddrMask)
        else none

/-- The links in memory are those of the tree. -/
theorem Rep.frameAt_eq (hrep : Rep space s node leaf) (hh : Lawful space) (p : Name) :
    frameAt space s p = node p := by
  induction p with
  | nil => rw [frameAt, hrep.root]
  | cons i p ih =>
      rw [frameAt, ih]
      cases hp : node p with
      | none => exact (hrep.empty_below hp i).1.symm
      | some f =>
          obtain ⟨t, ht, -⟩ := hrep.tableAt_of_node hh hp
          have hvirt := (hh.tableFromPhys_eq (hrep.isFrame hp)).symm.trans ht
          simp only [ht]
          by_cases hplace : p.length < 3 ∧ i < entriesPerTable
          · -- the entry of a table that links tables
            rw [hrep.table p f t i hp hvirt hplace.1 hplace.2]
            cases hnode : node (i :: p) with
            | none =>
                have hempty : ¬(p.length < 3 ∧ i < entriesPerTable ∧
                    tableEntry none &&& ptePresent ≠ 0 ∧ tableEntry none &&& pteHuge = 0) := by
                  rintro ⟨-, -, hpresent, -⟩
                  exact hpresent (by decide)
                rw [if_neg hempty]
            | some g =>
                rw [if_pos ⟨hplace.1, hplace.2, tableEntry_present g, tableEntry_huge g⟩,
                  tableEntry_addr, hrep.addr_eq hh (List.cons_ne_nil i p) hnode]
          · rw [if_neg fun h => hplace ⟨h.1, h.2.1⟩]
            by_contra hne
            exact hplace (hrep.parent i p (Ne.symm hne)).2

/-- The frame is a table below the root, and linked at one entry only. -/
def LinkedOnce (space : VmmSpace P) (s : VmmState P) (f : UInt64) : Prop :=
  ∃ p, p ≠ [] ∧ ∀ q, frameAt space s q = some f ↔ q = p

/-- The frame is no table, and has been given back as often as it was handed out. -/
def GivenBack (space : VmmSpace P) (s : VmmState P) (f : UInt64) : Prop :=
  (∀ p, frameAt space s p ≠ some f) ∧ s.freed.count f = (answers space s.calls).count f

/-- No frame is lost, and none that is in use is given back. -/
def NoneLost (space : VmmSpace P) (s : VmmState P) : Prop :=
  ∀ f, f ∈ answers space s.calls → f ≠ invalidPhys →
    (LinkedOnce space s f ∧ f ∉ s.freed) ∨ GivenBack space s f

theorem Owned.noneLost (ho : Owned space s node) (hrep : Rep space s node leaf) (hh : Lawful space)
    (hfree : space.freeFrame = true) : NoneLost space s := by
  intro f hf hvalid
  have hat := hrep.frameAt_eq hh
  cases hvirt : space.physToVirt f with
  | none =>
      right
      refine ⟨fun p hp => ?_, ?_⟩
      · rw [hat] at hp
        obtain ⟨t, ht⟩ := hrep.virt p f hp
        rw [hvirt] at ht
        cases ht
      · rw [ho.freed hfree]
        exact List.count_filter (rejects_iff.mpr ⟨hvalid, hvirt⟩)
  | some t =>
      left
      obtain ⟨p, hne, hp⟩ := ho.linked f hf hvalid (by rw [hvirt]; exact Option.some_ne_none t)
      refine ⟨⟨p, hne, fun q => ?_⟩, fun hmem => ?_⟩
      · rw [hat]
        constructor
        · exact fun hq => hrep.inj q p f hq hp
        · rintro rfl
          exact hp
      · rw [ho.freed hfree] at hmem
        have hrej := rejects_iff.mp (List.mem_filter.mp hmem).2
        rw [hvirt] at hrej
        cases hrej.2

/-! ## Runs -/

variable [DecidableEq P]

/-- The state that a space starts in: its root table is all zero, and nothing has been called. -/
structure Start (space : VmmSpace P) (s : VmmState P) : Prop where
  root : RootZero space s
  calls : s.calls = 0
  freed : s.freed = []

omit [DecidableEq P] in
theorem Start.owned (hs : Start space s) (node : Name → Option UInt64) : Owned space s node := by
  refine ⟨fun f hf => ?_, fun _ => ?_⟩
  · rw [hs.calls] at hf
    cases hf
  · rw [hs.calls, hs.freed]
    rfl

/-- The tree of a run, with its history and the account of the frames. -/
theorem vmmRun_owned {s0 : VmmState P} {hist : History} (hh : Lawful space) (hs : Start space s0)
    {t : P} (hroot : space.physToVirt space.rootPaddr = some t) (hrun : VmmRun space s0 hist s) :
    ∃ node leaf, Rep space s node leaf ∧ Owned space s node ∧
      ∀ v, GoodAddr v → leaf (entryName v) = latestMap hist v := by
  induction hrun with
  | start => exact ⟨_, _, hs.root.rep hroot, hs.owned _, fun _ _ => rfl⟩
  | call op hrun ih =>
      obtain ⟨node, leaf, hrep, ho, hleaf⟩ := ih
      obtain ⟨node', leaf', hrep', ho', hleaf'⟩ := hrep.step hh hleaf op
      exact ⟨node', leaf', hrep', ho' ho, hleaf'⟩

section Rejected

variable (hroot : tableFromPhys space space.rootPaddr = none)

include hroot

omit [DecidableEq P] in
theorem walkToPt_rejected (v : UInt64) : walkToPt space v s = .error .inval := by
  unfold walkToPt
  rw [hroot]
  split <;> rfl

/-- Without a root table no call does anything. -/
theorem vmmStep_rejected (op : VmmOp) : (vmmStep space s op).2 = s := by
  cases op with
  | map v pa fl =>
      show (mapPage space v pa fl s).2 = s
      unfold mapPage
      rw [hroot]
      split <;> rfl
  | query v => rfl
  | unmap v =>
      show (unmapPage space v s).2 = s
      unfold unmapPage
      rw [walkToPt_rejected hroot]

theorem vmmRun_rejected {s0 : VmmState P} {hist : History} (hrun : VmmRun space s0 hist s) :
    s = s0 := by
  induction hrun with
  | start => rfl
  | call op hrun ih => rw [vmmStep_rejected hroot, ih]

end Rejected

/-- A map that fails changes no translation: the tree may have new tables, but no new mapping. -/
theorem Holds.map_failed {hist : History} (hholds : Holds space s hist) (hh : Lawful space)
    {v pa fl : UInt64} {rc : VmmErr} (hfail : (mapPage space v pa fl s).1 = .error rc) {w : UInt64}
    (hw : GoodAddr w) : queryPage space w (mapPage space v pa fl s).2 = queryPage space w s := by
  have hstep := hholds.step hh (.map v pa fl)
  simp only [vmmStep, hfail, isOk] at hstep
  rw [hstep.query_eq hh hw, hholds.query_eq hh hw]
  rfl

/-- In every state of every run, a `vmm_map_page` that fails leaves the answer of
`vmm_query_page` as it was at every address, and whether it fails or not, every frame that
`alloc_frame` has handed out is linked once or has been given back. -/
theorem vmmRun_map_frames {s0 : VmmState P} {hist : History} (hh : Lawful space)
    (hfree : space.freeFrame = true) (hs : Start space s0) (hrun : VmmRun space s0 hist s)
    (v pa fl : UInt64) :
    (∀ rc, (mapPage space v pa fl s).1 = .error rc → ∀ w, GoodAddr w →
      queryPage space w (mapPage space v pa fl s).2 = queryPage space w s) ∧
    NoneLost space (mapPage space v pa fl s).2 := by
  have hnext : VmmRun space s0 _ (mapPage space v pa fl s).2 := hrun.call (.map v pa fl)
  cases hroot : space.physToVirt space.rootPaddr with
  | none =>
      -- the root is rejected: every call returns at once, and no frame is ever asked for
      have htable : tableFromPhys space space.rootPaddr = none := by
        rw [hh.tableFromPhys_eq (Or.inl rfl), hroot]
      rw [vmmRun_rejected htable hnext, vmmRun_rejected htable hrun]
      refine ⟨fun _ _ _ _ => rfl, fun f hf => ?_⟩
      rw [hs.calls] at hf
      cases hf
  | some t =>
      obtain ⟨node, leaf, hrep, ho, -⟩ := vmmRun_owned hh hs hroot hnext
      exact ⟨fun rc hfail w hw => (vmmRun_holds hh hroot hs.root hrun).map_failed hh hfail hw,
        ho.noneLost hrep hh hfree⟩

/-- The frames of `smallSpace` with one, the fifth that `alloc_frame` hands out, that
`phys_to_virt` rejects. -/
def pickySpace : VmmSpace UInt64 :=
  { smallSpace with physToVirt := fun f => if f = 0x6000 then none else some f }

theorem pickySpace_lawful : Lawful pickySpace where
  root_aligned := smallSpace_honest.root_aligned
  alloc_aligned := smallSpace_honest.alloc_aligned
  alloc_fresh := fun n _ hn _ => smallSpace_honest.alloc_fresh n hn
  virt_inj := by
    intro f g table _ _ hf hg
    have hself : ∀ a : UInt64, pickySpace.physToVirt a = some table → a = table := by
      intro a ha
      change (if a = 0x6000 then none else some a) = some table at ha
      split at ha
      · cases ha
      · exact Option.some.inj ha
    rw [hself f hf, hself g hg]

/-- The second map links one table and is refused the next. -/
theorem vmmRun_map_frames_picky :
    ∃ hist s, VmmRun pickySpace ⟨fun _ _ => 0, 0, []⟩ hist s ∧ s.calls = 3 ∧
      (mapPage pickySpace 0x400000 0x500000 2 s).1 = .error .inval ∧
      queryPage pickySpace 0xFFFF800000200000 (mapPage pickySpace 0x400000 0x500000 2 s).2 =
        queryPage pickySpace 0xFFFF800000200000 s ∧
      NoneLost pickySpace (mapPage pickySpace 0x400000 0x500000 2 s).2 := by
  have hstart : VmmRun pickySpace ⟨fun _ _ => 0, 0, []⟩ [] ⟨fun _ _ => 0, 0, []⟩ := .start
  have hrun := hstart.call (.map 0xFFFF800000200000 0x300000 0x8000000000000102)
  have hs : Start pickySpace ⟨fun _ _ => 0, 0, []⟩ := ⟨fun _ _ _ _ => rfl, rfl, rfl⟩
  obtain ⟨hfail, hlost⟩ := vmmRun_map_frames pickySpace_lawful rfl hs hrun 0x400000 0x500000 2
  have hinval : (mapPage pickySpace 0x400000 0x500000 2 (vmmStep pickySpace ⟨fun _ _ => 0, 0, []⟩
      (.map 0xFFFF800000200000 0x300000 0x8000000000000102)).2).1 = .error .inval := by
    decide +kernel
  exact ⟨_, _, hrun, by decide +kernel, hinval, hfail _ hinval _ ⟨by decide, by decide⟩, hlost⟩

end Mcsos.Vmm
