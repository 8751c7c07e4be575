import Mcsos.Mm.VmmRuns

set_option autoImplicit false

/-! # The rights of a page

The processor takes the rights of a page from all four entries of its walk. `vmm_map_page` puts the
flags it is asked for into the last one; the other three link tables, and which call has made them
does not matter: `get_or_alloc_next_table` gives all of them the same flags. A page is writable and
not executable as it was asked for, but never accessible to the user, as these links are not.
-/

namespace Mcsos.Vmm

variable {P : Type}

/-- What may be done with a page. -/
structure Rights where
  writable : Bool
  user : Bool
  noExecute : Bool
  deriving DecidableEq, Repr

/-- The rights that the processor grants, given the entries of the walk. -/
def rightsOf (entries : List UInt64) : Rights where
  writable := entries.all fun e => decide (e &&& pteWritable ≠ 0)
  user := entries.all fun e => decide (e &&& pteUser ≠ 0)
  noExecute := entries.any fun e => decide (e &&& pteNoExecute ≠ 0)

/-- The rights that the flags of a mapping say. -/
def askedRights (flags : UInt64) : Rights where
  writable := decide (flags &&& pteWritable ≠ 0)
  user := decide (flags &&& pteUser ≠ 0)
  noExecute := decide (flags &&& pteNoExecute ≠ 0)

/-- The entries of the walk for `vaddr`, from the root on. -/
def walkEntries (space : VmmSpace P) (vaddr : UInt64) (s : VmmState P) :
    Except VmmErr (List UInt64) :=
  match tableFromPhys space space.rootPaddr with
  | none => .error .inval
  | some pml4 => do
    let pdpt ← nextTable space pml4 (idxPml4 vaddr) s
    let pd ← nextTable space pdpt (idxPdpt vaddr) s
    let pt ← nextTable space pd (idxPd vaddr) s
    pure [s.mem pml4 (idxPml4 vaddr), s.mem pdpt (idxPdpt vaddr), s.mem pd (idxPd vaddr),
      s.mem pt (idxPt vaddr)]

/-- The page has the rights that the flags say. -/
def HasRights (space : VmmSpace P) (s : VmmState P) (vaddr flags : UInt64) : Prop :=
  ∃ entries, walkEntries space vaddr s = .ok entries ∧ rightsOf entries = askedRights flags

/-- Three links to tables leave the rights of the last entry but the access of the user. -/
theorem rightsOf_walk (f g h paddr flags : UInt64) :
    rightsOf [tableEntry (some f), tableEntry (some g), tableEntry (some h),
      leafEntry (some (paddr, flags))] = { askedRights flags with user := false } := by
  have hw : ∀ f, tableEntry (some f) &&& pteWritable ≠ 0 := fun f => by
    rw [tableEntry_flag (by decide)]
    decide
  have hu : ∀ f, tableEntry (some f) &&& pteUser = 0 := fun f => by
    rw [tableEntry_flag (by decide)]
    decide
  have hx : ∀ f, tableEntry (some f) &&& pteNoExecute = 0 := fun f => by
    rw [tableEntry_flag (by decide)]
    decide
  have hleaf : leafEntry (some (paddr, flags)) &&& pteWritable = flags &&& pteWritable ∧
      leafEntry (some (paddr, flags)) &&& pteNoExecute = flags &&& pteNoExecute :=
    ⟨leafEntry_flag (by decide) (by decide) (by decide) paddr flags,
      leafEntry_flag (by decide) (by decide) (by decide) paddr flags⟩
  simp [rightsOf, askedRights, hw, hu, hx, hleaf]

section Walk

variable {space : VmmSpace P} {s : VmmState P} {node : Name → Option UInt64}
variable {leaf : Name → Option (UInt64 × UInt64)}

/-- The step of a walk to a table that is there. -/
theorem Rep.nextTable_child (hrep : Rep space s node leaf) (hh : Lawful space) {p : Name} {t : P}
    {i : Nat} (ht : TableAt space node p t) (hchild : node (i :: p) ≠ none) :
    ∃ f t', s.mem t i = tableEntry (some f) ∧ nextTable space t i s = .ok t' ∧
      TableAt space node (i :: p) t' := by
  obtain ⟨-, hp, hi⟩ := hrep.parent i p hchild
  obtain ⟨g, hg, hgt⟩ := id ht
  obtain ⟨f, hf⟩ := Option.ne_none_iff_exists'.mp hchild
  rcases hrep.nextTable_eq hh ht hp hi with ⟨hnone, -⟩ | ⟨t', hat, hnext⟩
  · exact absurd hnone hchild
  · refine ⟨f, t', ?_, hnext, hat⟩
    rw [hrep.table p g t i hg hgt hp hi, hf]

/-- The walk for an address that is mapped. -/
theorem Rep.walkEntries_eq (hrep : Rep space s node leaf) (hh : Lawful space) {v : UInt64}
    (hmapped : leaf (entryName v) ≠ none) :
    ∃ f g h, walkEntries space v s =
      .ok [tableEntry (some f), tableEntry (some g), tableEntry (some h),
        leafEntry (leaf (entryName v))] := by
  have h1 : node (path v) ≠ none := hrep.leaf_parent _ _ hmapped
  have h2 := (hrep.parent _ _ h1).1
  have h3 := (hrep.parent _ _ h2).1
  obtain ⟨t4, hroot, hat4⟩ := hrep.tableAt_root hh
  obtain ⟨f, t3, he4, hn4, hat3⟩ := hrep.nextTable_child hh hat4 h3
  obtain ⟨g, t2, he3, hn3, hat2⟩ := hrep.nextTable_child hh hat3 h2
  obtain ⟨h, t1, he2, hn2, f1, hf1, hft1⟩ := hrep.nextTable_child hh hat2 h1
  have he1 := hrep.entry (path v) f1 t1 (idxPt v) hf1 hft1 rfl (Rep.index_lt v).2.2.2
  refine ⟨f, g, h, ?_⟩
  unfold walkEntries
  simp only [hroot, bind, Except.bind, pure, Except.pure, hn4, hn3, hn2, he4, he3, he2, he1]
  rfl

end Walk

/-! ## Runs -/

variable [DecidableEq P] {space : VmmSpace P} {s : VmmState P}

theorem mapPage_ok {v pa fl : UInt64} (h : (mapPage space v pa fl s).1 = .ok ()) :
    GoodAddr v ∧ ∃ t, tableFromPhys space space.rootPaddr = some t := by
  constructor
  · by_contra hv
    rw [mapPage_inval fun hargs => hv hargs.1] at h
    cases h
  · by_contra hroot
    have hnone := Option.eq_none_iff_forall_ne_some.mpr fun t ht => hroot ⟨t, ht⟩
    unfold mapPage at h
    rw [hnone] at h
    split at h <;> cases h

/-- An address that is mapped is a valid one, of a space that has a root table. -/
theorem VmmRun.mapped {s0 : VmmState P} {hist : History} (hrun : VmmRun space s0 hist s)
    {v : UInt64} {m : UInt64 × UInt64} (hm : latestMap hist v = some m) :
    GoodAddr v ∧ ∃ t, tableFromPhys space space.rootPaddr = some t := by
  induction hrun with
  | start => cases hm
  | @call hist s op hrun ih =>
      by_cases hop : op.vaddr = v
      · -- a call that fails leaves the history of the address as it was
        cases op with
        | map vaddr pa fl =>
            obtain rfl : vaddr = v := hop
            rcases hr : (mapPage space vaddr pa fl s).1 with e | u
            · simp only [vmmStep, hr, isOk, latestMap] at hm
              exact ih hm
            · exact mapPage_ok hr
        | query vaddr => exact ih hm
        | unmap vaddr =>
            obtain rfl : vaddr = v := hop
            rcases hr : (unmapPage space vaddr s).1 with e | u
            · simp only [vmmStep, hr, isOk, latestMap] at hm
              exact ih hm
            · simp only [vmmStep, hr, isOk, latestMap, if_true] at hm
              cases hm
      · rw [latestMap_cons_of_ne hop] at hm
        exact ih hm

/-- The rights of a page in every state of every run. -/
theorem vmmRun_rights {s0 : VmmState P} {hist : History} (hh : Lawful space)
    (hzero : RootZero space s0) (hrun : VmmRun space s0 hist s) {v pa fl : UInt64}
    (hm : latestMap hist v = some (pa, fl)) : ∃ entries, walkEntries space v s = .ok entries ∧
      rightsOf entries = { askedRights fl with user := false } := by
  obtain ⟨hv, t, ht⟩ := hrun.mapped hm
  rw [hh.tableFromPhys_eq (Or.inl rfl)] at ht
  obtain ⟨node, leaf, hrep, hleaf⟩ := vmmRun_holds hh ht hzero hrun
  have hentry : leaf (entryName v) = some (pa, fl) := (hleaf v hv).trans hm
  obtain ⟨f, g, h, hwalk⟩ := hrep.walkEntries_eq hh (by rw [hentry]; exact Option.some_ne_none _)
  rw [hentry] at hwalk
  exact ⟨_, hwalk, rightsOf_walk f g h pa fl⟩

/-- A page that has been mapped has the rights that its flags say exactly if they do not say that
the user may access it. -/
theorem vmmRun_rights_iff {s0 : VmmState P} {hist : History} (hh : Lawful space)
    (hzero : RootZero space s0) (hrun : VmmRun space s0 hist s) {v pa fl : UInt64}
    (hm : latestMap hist v = some (pa, fl)) : HasRights space s v fl ↔ fl &&& pteUser = 0 := by
  obtain ⟨entries, hwalk, hrights⟩ := vmmRun_rights hh hzero hrun hm
  constructor
  · rintro ⟨entries', hwalk', hasked⟩
    obtain rfl : entries' = entries := Except.ok.inj (hwalk'.symm.trans hwalk)
    have huser : decide (fl &&& pteUser ≠ 0) = false :=
      congrArg Rights.user (hasked.symm.trans hrights)
    exact not_not.mp (of_decide_eq_false huser)
  · intro huser
    refine ⟨entries, hwalk, hrights.trans ?_⟩
    have hno : decide (fl &&& pteUser ≠ 0) = false := decide_eq_false (not_not.mpr huser)
    unfold askedRights
    rw [hno]

/-- A page for the user, the first one mapped. -/
theorem mapPage_not_user : ¬∀ (space : VmmSpace UInt64) s0 hist s, Lawful space →
    RootZero space s0 → VmmRun space s0 hist s →
    ∀ v pa fl, latestMap hist v = some (pa, fl) → HasRights space s v fl := by
  intro hall
  have hstart : VmmRun smallSpace ⟨fun _ _ => 0, 0, []⟩ [] ⟨fun _ _ => 0, 0, []⟩ := .start
  have hrun := hstart.call (.map 0x400000 0x500000 6)
  have hmap : latestMap [(.map 0x400000 0x500000 6,
      (vmmStep smallSpace ⟨fun _ _ => 0, 0, []⟩ (.map 0x400000 0x500000 6)).1)] 0x400000 =
      some (0x500000, 6) := by decide +kernel
  obtain ⟨entries, hwalk, hrights⟩ :=
    hall _ _ _ _ smallSpace_honest.lawful (fun _ _ _ _ => rfl) hrun _ _ _ hmap
  have hentries : walkEntries smallSpace 0x400000 (vmmStep smallSpace ⟨fun _ _ => 0, 0, []⟩
      (.map 0x400000 0x500000 6)).2 = .ok [0x2003, 0x3003, 0x4003, 0x500007] := by decide +kernel
  obtain rfl : entries = _ := Except.ok.inj (hwalk.symm.trans hentries)
  exact absurd hrights (by decide)

/-- The kernel page of `vmmRun_finite_map_small`, and a page of another region after it. -/
theorem vmmRun_rights_small : ∃ hist s, VmmRun smallSpace ⟨fun _ _ => 0, 0, []⟩ hist s ∧
    (HasRights smallSpace s 0x400000 0 ↔ (0 : UInt64) &&& pteUser = 0) := by
  have hstart : VmmRun smallSpace ⟨fun _ _ => 0, 0, []⟩ [] ⟨fun _ _ => 0, 0, []⟩ := .start
  have hrun := (hstart.call (.map 0xFFFF800000200000 0x300000 0x8000000000000102)).call
    (.map 0x400000 0x500000 0)
  exact ⟨_, _, hrun, vmmRun_rights_iff smallSpace_honest.lawful (fun _ _ _ _ => rfl) hrun
    (show latestMap _ _ = some (0x500000, 0) by decide +kernel)⟩

end Mcsos.Vmm
