import Mcsos.Mm.KernelRuns

set_option autoImplicit false

/-! # What a map costs

A map takes one frame for each table that is missing on the way to its page, and no other. So what
it returns can be told from the tree and the number of free frames: there are enough, or it takes
all there are and fails.
-/

namespace Mcsos.Vmm

variable {P : Type} {space : VmmSpace P} {s : VmmState P} {node : Name → Option UInt64}
variable {leaf : Name → Option (UInt64 × UInt64)}

/-- One frame where there is no table with this name. -/
def need (node : Name → Option UInt64) (p : Name) : Nat := if node p = none then 1 else 0

/-- The tables that are missing on the way to the page of `v`. -/
def missing (node : Name → Option UInt64) (v : UInt64) : Nat :=
  need node [idxPml4 v] + need node [idxPdpt v, idxPml4 v] +
    need node [idxPd v, idxPdpt v, idxPml4 v]

theorem need_le_one (node : Name → Option UInt64) (p : Name) : need node p ≤ 1 := by
  unfold need
  split <;> omega

theorem missing_le_three (node : Name → Option UInt64) (v : UInt64) : missing node v ≤ 3 := by
  have h4 := need_le_one node [idxPml4 v]
  have h3 := need_le_one node [idxPdpt v, idxPml4 v]
  have h2 := need_le_one node [idxPd v, idxPdpt v, idxPml4 v]
  unfold missing
  omega

/-! ## One level -/

variable [DecidableEq P]

/-- With a frame where one is needed, the next table is there afterwards, and no other is new. -/
theorem Rep.getOrAlloc_ok (hrep : Rep space s node leaf) (hh : Honest space) {p : Name} {t : P}
    {i : Nat} (ht : TableAt space node p t) (hp : p.length < 3) (hi : i < 512)
    (hroom : node (i :: p) = none → (space.allocFrame s.calls).1 ≠ invalidPhys) :
    ∃ t' s' node', getOrAllocNextTable space t i s = (.ok t', s') ∧ Rep space s' node' leaf ∧
      TableAt space node' (i :: p) t' ∧ s'.calls = s.calls + need node (i :: p) ∧
      s'.freed = s.freed ∧ ∀ q, q ≠ i :: p → node' q = node q := by
  obtain ⟨ft, hft, hftt⟩ := id ht
  have hentry := hrep.table p ft t i hft hftt hp hi
  cases hnode : node (i :: p) with
  | some g =>
      obtain ⟨t', hvirt, hat⟩ := hrep.tableAt_of_node hh.lawful hnode
      rw [hnode] at hentry
      have haddr := hrep.addr_eq hh.lawful (List.cons_ne_nil i p) hnode
      refine ⟨t', s, node, getOrAlloc_linked hentry haddr hvirt, hrep, hat, ?_, rfl,
        fun _ _ => rfl⟩
      simp [need, hnode]
  | none =>
      rw [hnode] at hentry
      have hvalid := hroom hnode
      have hframe : Frame space (space.allocFrame s.calls).1 := Or.inr ⟨s.calls, rfl, hvalid⟩
      have hal := hh.lawful.frame_aligned hframe
      obtain ⟨t', hvirt⟩ := hh.virt_some _ hframe
      refine ⟨t', _, _, getOrAlloc_new hentry rfl hvalid hal hvirt,
        hrep.grow hh.lawful ht hp hi hnode rfl hvalid hvirt _,
        ⟨_, Function.update_self _ _ _, hvirt⟩, ?_, rfl, fun q hq => Function.update_of_ne hq _ _⟩
      simp [need, hnode]
      rfl

/-- Without one, the level ends the map. -/
theorem Rep.getOrAlloc_none (hrep : Rep space s node leaf) {p : Name} {t : P} {i : Nat}
    (ht : TableAt space node p t) (hp : p.length < 3) (hi : i < 512) (hnode : node (i :: p) = none)
    (hinvalid : (space.allocFrame s.calls).1 = invalidPhys) :
    getOrAllocNextTable space t i s = (.error .nomem, { s with calls := s.calls + 1 }) := by
  obtain ⟨ft, hft, hftt⟩ := ht
  have hentry := hrep.table p ft t i hft hftt hp hi
  rw [hnode] at hentry
  exact getOrAlloc_nomem hentry rfl hinvalid

/-! ## A map -/

/-- The answers of `alloc_frame` from now on: `n` frames, and then no more. -/
def Room (space : VmmSpace P) (s : VmmState P) (n : Nat) : Prop :=
  (∀ m, m < n → (space.allocFrame (s.calls + m)).1 ≠ invalidPhys) ∧
    (space.allocFrame (s.calls + n)).1 = invalidPhys

/-- What a map returns, and how often it has called `alloc_frame`: `n` frames are left. -/
structure MapCost (s : VmmState P) (need n : Nat) (mapped : Bool)
    (r : Except VmmErr Unit × VmmState P) : Prop where
  result : r.1 = if n < need then .error .nomem else if mapped then .error .exists else .ok ()
  calls : r.2.calls = s.calls + if n < need then n + 1 else need
  freed : r.2.freed = s.freed

omit [DecidableEq P] in
theorem Room.take {n k : Nat} (h : Room space s n) {s' : VmmState P}
    (hcalls : s'.calls = s.calls + k) (hk : k ≤ n) : Room space s' (n - k) := by
  refine ⟨fun m hm => ?_, ?_⟩
  · rw [hcalls, Nat.add_assoc]
    exact h.1 (k + m) (by omega)
  · rw [hcalls, Nat.add_assoc, Nat.add_sub_cancel' hk]
    exact h.2

/-- One level, with `n` frames left. -/
theorem Rep.level (hrep : Rep space s node leaf) (hh : Honest space) {p : Name} {t : P} {i n : Nat}
    (ht : TableAt space node p t) (hp : p.length < 3) (hi : i < 512) (hroom : Room space s n) :
    (n < need node (i :: p) ∧
      getOrAllocNextTable space t i s = (.error .nomem, { s with calls := s.calls + 1 })) ∨
    (need node (i :: p) ≤ n ∧ ∃ t' s' node', getOrAllocNextTable space t i s = (.ok t', s') ∧
      Rep space s' node' leaf ∧ TableAt space node' (i :: p) t' ∧
      Room space s' (n - need node (i :: p)) ∧ s'.calls = s.calls + need node (i :: p) ∧
      s'.freed = s.freed ∧ ∀ q, q ≠ i :: p → node' q = node q) := by
  rcases Nat.lt_or_ge n (need node (i :: p)) with hlt | hge
  · have hnode : node (i :: p) = none := by
      by_contra hne
      rw [need, if_neg hne] at hlt
      omega
    have hzero : n = 0 := by
      have := need_le_one node (i :: p)
      omega
    subst hzero
    exact Or.inl ⟨hlt, hrep.getOrAlloc_none ht hp hi hnode hroom.2⟩
  · refine Or.inr ⟨hge, ?_⟩
    have hfirst : node (i :: p) = none → (space.allocFrame s.calls).1 ≠ invalidPhys := by
      intro hnode
      rw [need, if_pos hnode] at hge
      exact hroom.1 0 hge
    obtain ⟨t', s', node', hcall, hrep', hat, hcalls, hfreed, hother⟩ :=
      hrep.getOrAlloc_ok hh ht hp hi hfirst
    exact ⟨t', s', node', hcall, hrep', hat, hroom.take hcalls hge, hcalls, hfreed, hother⟩

/-- A map takes a frame for each missing table, or all that are left and then fails. -/
theorem Rep.mapPage_cost (hrep : Rep space s node leaf) (hh : Honest space) {v pa : UInt64}
    (fl : UInt64) (hv : GoodAddr v) (hpa : isAligned4k pa = true) {n : Nat} (hroom : Room space s n) :
    MapCost s (missing node v) n (leaf (entryName v)).isSome
      (Vmm.mapPage space v pa fl s) := by
  obtain ⟨h4, h3, h2, h1⟩ := Rep.index_lt v
  obtain ⟨t4, hroot, hat4⟩ := hrep.tableAt_root hh.lawful
  have hargs : ¬((!isCanonical v) = true ∨ (!isAligned4k v) = true ∨ (!isAligned4k pa) = true) := by
    simp [hv.1, hv.2, hpa]
  unfold Vmm.mapPage
  rw [if_neg hargs, hroot]
  simp only
  rcases hrep.level hh hat4 (by simp) h4 hroom with ⟨hshort, hcall⟩ |
    ⟨hroom4, t3, s3, node3, hcall, hrep3, hat3, hroom3, hcalls3, hfreed3, hother3⟩
  · -- no frame for the second table
    have hlt : n < missing node v := by
      unfold missing
      omega
    have hone := need_le_one node [idxPml4 v]
    rw [hcall]
    refine ⟨by rw [if_pos hlt], ?_, rfl⟩
    show s.calls + 1 = s.calls + if n < missing node v then n + 1 else missing node v
    rw [if_pos hlt]
    omega
  rw [hcall]
  simp only
  have hneed3 : need node3 [idxPdpt v, idxPml4 v] = need node [idxPdpt v, idxPml4 v] := by
    unfold need
    rw [hother3 _ (by simp)]
  rcases hrep3.level hh hat3 (by simp) h3 hroom3 with ⟨hshort, hcall⟩ |
    ⟨hroom2, t2, s2, node2, hcall, hrep2, hat2, hroom2', hcalls2, hfreed2, hother2⟩
  · -- no frame for the third
    rw [hneed3] at hshort
    have hlt : n < missing node v := by
      unfold missing
      omega
    have hone := need_le_one node [idxPdpt v, idxPml4 v]
    rw [hcall]
    refine ⟨by rw [if_pos hlt], ?_, hfreed3⟩
    show s3.calls + 1 = s.calls + if n < missing node v then n + 1 else missing node v
    rw [if_pos hlt]
    omega
  rw [hcall]
  simp only
  have hneed2 : need node2 [idxPd v, idxPdpt v, idxPml4 v] =
      need node [idxPd v, idxPdpt v, idxPml4 v] := by
    unfold need
    rw [hother2 _ (by simp), hother3 _ (by simp)]
  rw [hneed3] at hroom2 hcalls2 hroom2'
  rcases hrep2.level hh hat2 (by simp) h2 hroom2' with ⟨hshort, hcall⟩ |
    ⟨hroom1, t1, s1, node1, hcall, hrep1, hat1, -, hcalls1, hfreed1, -⟩
  · -- no frame for the page table
    rw [hneed2] at hshort
    have hlt : n < missing node v := by
      unfold missing
      omega
    have hone := need_le_one node [idxPd v, idxPdpt v, idxPml4 v]
    rw [hcall]
    refine ⟨by rw [if_pos hlt], ?_, hfreed2.trans hfreed3⟩
    show s2.calls + 1 = s.calls + if n < missing node v then n + 1 else missing node v
    rw [if_pos hlt]
    omega
  rw [hcall]
  simp only
  rw [hneed2] at hroom1 hcalls1
  have hge : ¬n < missing node v := by
    unfold missing
    omega
  have hcalls : s1.calls = s.calls + missing node v := by
    unfold missing
    omega
  have hfreed : s1.freed = s.freed := hfreed1.trans (hfreed2.trans hfreed3)
  obtain ⟨f1, hf1, hft1⟩ := id hat1
  have hentry : s1.mem t1 (idxPt v) = leafEntry (leaf (entryName v)) :=
    hrep1.entry (path v) f1 t1 (idxPt v) hf1 hft1 rfl h1
  rw [hentry]
  cases hleaf : leaf (entryName v) with
  | some m =>
      rw [if_pos (leafEntry_present m.1 m.2)]
      exact ⟨by rw [if_neg hge]; rfl, by rw [if_neg hge]; exact hcalls, hfreed⟩
  | none =>
      have hempty : leafEntry none &&& ptePresent = 0 := by decide
      rw [if_neg (not_not.mpr hempty)]
      exact ⟨by rw [if_neg hge]; rfl, by rw [if_neg hge]; exact hcalls, hfreed⟩

end Mcsos.Vmm

namespace Mcsos.KernelMemory

open Pmm Vmm

/-- `vmm_map_page` with the kernel space. -/
def kernelMapPage (root : UInt64) (s : KernelVm) (vaddr paddr flags : UInt64) :
    Except VmmErr Unit × KernelVm :=
  let (rc, t) := mapPage (spaceOver root s) vaddr paddr flags ⟨s.mem, 0, []⟩
  (rc, finish s t)

/-! ## The frames that are left -/

section Left

variable {pmm : PmmState}

theorem kernelVmmAlloc_left (hi : PmmInv pmm) :
    (kernelVmmAlloc pmm).2.freeFrames = pmm.freeFrames - 1 ∧
      (UInt64.ofNat (kernelVmmAlloc pmm).1 = invalidPhys ↔ pmm.freeFrames = 0) := by
  have hcard := hi.core.free_card
  rcases kernelVmmAlloc_cases hi with ⟨hempty, hinvalid, hsame⟩ | ⟨f, hf, hanswer, hinv, hcount, hbits⟩
  · rw [hempty, Finset.card_empty] at hcard
    rw [hsame, hcard]
    exact ⟨rfl, fun _ => rfl, fun _ => hinvalid⟩
  · obtain ⟨hfc, hfree⟩ := mem_freeSet.mp hf
    have hset : freeSet (kernelVmmAlloc pmm).2 = (freeSet pmm).erase f := by
      ext g
      rw [mem_freeSet, Finset.mem_erase, mem_freeSet, hcount, hbits]
      simp only [Bool.or_eq_false_iff, decide_eq_false_iff_not]
      tauto
    have hpos := Finset.card_pos.mpr ⟨f, hf⟩
    refine ⟨?_, fun h => ?_, fun h => ?_⟩
    · rw [hinv.core.free_card, hset, Finset.card_erase_of_mem hf, ← hcard]
    · exact absurd (hanswer.symm.trans h) (frameAddr_ne_invalid (frame_lt hi hfc))
    · omega

theorem afterAllocs_left (hi : PmmInv pmm) (n : Nat) :
    (afterAllocs pmm n).freeFrames = pmm.freeFrames - n := by
  induction n with
  | zero => rfl
  | succ n ih =>
      rw [afterAllocs, (kernelVmmAlloc_left (afterAllocs_inv hi n).1).1, ih]
      omega

theorem allocAnswer_invalid_iff (hi : PmmInv pmm) (n : Nat) :
    allocAnswer pmm n = invalidPhys ↔ pmm.freeFrames ≤ n := by
  rw [allocAnswer, (kernelVmmAlloc_left (afterAllocs_inv hi n).1).2, afterAllocs_left hi]
  omega

end Left

/-! ## The kernel space -/

section Kernel

variable {root : UInt64} {boot : PmmState} {past : Nat → UInt64 × (Nat → UInt64)} {k : Nat}
variable {before : List UInt64} {node : Name → Option UInt64}
variable {leaf : Name → Option (UInt64 × UInt64)} {held : List UInt64} {s : KernelVm}

theorem tablePointer_of_small {f : Nat} (h : f * 4096 < 2 ^ 47) :
    tablePointer (frameAddr f) ≠ none := by
  have hne : kernelPhysToVirt staticHhdmOffset (frameAddr f) ≠ 0 := by
    intro hzero
    have hnat := congrArg UInt64.toNat hzero
    unfold kernelPhysToVirt at hnat
    rw [UInt64.toNat_add, frameAddr_toNat (by omega)] at hnat
    have hoffset : staticHhdmOffset.toNat = 2 ^ 64 - 2 ^ 47 := by decide
    have hz : (0 : UInt64).toNat = 0 := rfl
    omega
  simp [tablePointer, hne]

/-- Below 128 TiB `kernel_phys_to_virt` has a table for every frame. -/
theorem KernelInv.honest (h : KernelInv root boot past k before node leaf held s)
    (hsmall : boot.frameCount * 4096 ≤ 2 ^ 47) :
    Honest (withPast past k (spaceOver root s)) := by
  have hl := h.lawful
  have hframe : ∀ f, Frame (withPast past k (spaceOver root s)) f → tablePointer f ≠ none := by
    rintro f (hf | ⟨n, rfl, hvalid⟩)
    · obtain ⟨g, hg, hroot, -⟩ := h.table [] root h.rep.root
      rw [show f = frameAddr g from hf.trans hroot]
      exact tablePointer_of_small (by omega)
    · rcases Nat.lt_or_ge n k with hn | hn
      · rw [withPast_old hn] at hvalid ⊢
        obtain ⟨g, hg, heq⟩ := h.past_frame n hn hvalid
        rw [heq]
        exact tablePointer_of_small (by omega)
      · obtain ⟨j, rfl⟩ := Nat.exists_eq_add_of_le hn
        rw [withPast_new] at hvalid ⊢
        obtain ⟨g, hg, heq, -⟩ := h.answer_free hvalid
        rw [show ((spaceOver root s).allocFrame j).1 = frameAddr g from heq]
        exact tablePointer_of_small (by omega)
  refine ⟨hl.root_aligned, hl.alloc_aligned, fun n hvalid => ?_, fun f hf => ?_,
    fun f g hf hg heq => ?_⟩
  · obtain ⟨t, ht⟩ := Option.ne_none_iff_exists'.mp (hframe _ (Or.inr ⟨n, rfl, hvalid⟩))
    exact hl.alloc_fresh n t hvalid ht
  · exact Option.ne_none_iff_exists'.mp (hframe f hf)
  · obtain ⟨t, ht⟩ := Option.ne_none_iff_exists'.mp (hframe f hf)
    exact hl.virt_inj f g t hf hg ht (heq ▸ ht)

/-- What a map returns in a state of a run, and the frames that are left. -/
theorem KernelInv.mapPage_exact (h : KernelInv root boot past k before node leaf held s)
    (hsmall : boot.frameCount * 4096 ≤ 2 ^ 47) {v pa fl : UInt64} (hv : GoodAddr v)
    (hpa : isAligned4k pa = true) :
    (kernelMapPage root s v pa fl).1 =
      (if s.pmm.freeFrames < missing node v then .error .nomem
      else if (leaf (entryName v)).isSome then .error .exists else .ok ()) ∧
    (kernelMapPage root s v pa fl).2.pmm.freeFrames = s.pmm.freeFrames - missing node v := by
  have hanswer : ∀ m, ((withPast past k (spaceOver root s)).allocFrame (k + m)).1 =
      allocAnswer s.pmm m := fun m => by rw [withPast_new]; rfl
  have hroom : Room (withPast past k (spaceOver root s)) ⟨s.mem, k, before⟩ s.pmm.freeFrames := by
    refine ⟨fun m hm => ?_, ?_⟩
    · show ((withPast past k (spaceOver root s)).allocFrame (k + m)).1 ≠ invalidPhys
      rw [hanswer, ne_eq, allocAnswer_invalid_iff h.pmm]
      omega
    · show ((withPast past k (spaceOver root s)).allocFrame (k + _)).1 = invalidPhys
      rw [hanswer, allocAnswer_invalid_iff h.pmm]
  have hcost := h.rep.mapPage_cost (h.honest hsmall) fl hv hpa hroom
  have hlater : mapPage (withPast past k (spaceOver root s)) v pa fl ⟨s.mem, k, before⟩ = _ :=
    mapPage_later (s := ⟨s.mem, 0, []⟩) v pa fl
  rw [hlater] at hcost
  obtain ⟨hresult, hcalls, hfreed⟩ := hcost
  rcases hmap : mapPage (spaceOver root s) v pa fl ⟨s.mem, 0, []⟩ with ⟨rc, t⟩
  rw [hmap] at hresult hcalls hfreed
  have hpage : kernelMapPage root s v pa fl = (rc, KernelMemory.finish s t) := by
    rw [kernelMapPage, hmap]
  rw [hpage]
  refine ⟨hresult, ?_⟩
  have hnone : t.freed = [] := List.append_left_eq_self.mp hfreed
  have hcount : k + t.calls = k + if s.pmm.freeFrames < missing node v then s.pmm.freeFrames + 1
    else missing node v := hcalls
  show (t.freed.foldr kernelVmmFree (afterAllocs s.pmm t.calls)).freeFrames = _
  rw [hnone, List.foldr_nil, afterAllocs_left h.pmm]
  split at hcount <;> omega

/-- **What a map returns, and what it costs.** In every state of every run, a map takes one free
frame for each table that is missing. It fails for want of a frame just when there are fewer, and
then takes all of them; it never fails otherwise, but for a bad address or a page that is mapped. -/
theorem kernelMap_exact {regions : List BootMemRegion} {storage : Bytes} {bytes max : UInt64}
    {s s' : KernelState} {w : KernelWorld}
    (hinit : pmmInitFromMap regions storage bytes max = some boot) (hmax : max.toNat ≤ 2 ^ 47)
    (hup : bringUp (some storage) bytes max (some regions) s = (.ok (), s'))
    (hrun : KernelRun s'.kernelSpace.rootPaddr (afterBringUp s') w) (v pa fl : UInt64) :
    (GoodAddr v ∧ isAligned4k pa = true →
      (kernelMapPage s'.kernelSpace.rootPaddr w.vm v pa fl).1 =
        (if w.vm.pmm.freeFrames < missing (tableFrame s'.kernelSpace.rootPaddr w.vm) v then
          .error .nomem
        else if (latestMap w.hist v).isSome then .error .exists else .ok ()) ∧
      (kernelMapPage s'.kernelSpace.rootPaddr w.vm v pa fl).2.pmm.freeFrames =
        w.vm.pmm.freeFrames - missing (tableFrame s'.kernelSpace.rootPaddr w.vm) v) ∧
    (¬(GoodAddr v ∧ isAligned4k pa = true) →
      kernelMapPage s'.kernelSpace.rootPaddr w.vm v pa fl = (.error .inval, w.vm)) := by
  have hres := pmmInitFromMap_result hinit
  have hsmall : boot.frameCount * 4096 ≤ 2 ^ 47 := by
    have hcount := hres.frameCount
    omega
  have hready := bringUp_rootReady hinit hup
  have htable : tablePointer s'.kernelSpace.rootPaddr ≠ none := by
    rcases kernelVmmAlloc_cases hres.inv with ⟨-, hinvalid, -⟩ | ⟨f, hf, hanswer, -⟩
    · exact absurd (hready.answer.symm.trans hinvalid) hready.valid
    · have hfc := (mem_freeSet.mp hf).1
      rw [hready.answer.symm.trans hanswer]
      exact tablePointer_of_small (by omega)
  obtain ⟨past, k, before, node, leaf, hinv, hleaf⟩ :=
    (hready.worldInv hres.inv htable (by omega)).run hrun
  have hnode : tableFrame s'.kernelSpace.rootPaddr w.vm = node := funext hinv.tableFrame_eq
  refine ⟨fun ⟨hv, hpa⟩ => ?_, fun hbad => ?_⟩
  · rw [hnode, ← hleaf v hv]
    exact hinv.mapPage_exact hsmall hv hpa
  · unfold kernelMapPage
    rw [mapPage_inval hbad]
    rfl

/-- The small machine has more frames left than a map can take. -/
theorem kernelMap_exact_small :
    (kernelMapPage smallMachine.kernelSpace.rootPaddr (afterBringUp smallMachine).vm
      0x400000 0x9000 2).1 = .ok () := by
  obtain ⟨boot, hinit⟩ := Option.isSome_iff_exists.mp
    (by decide : (pmmInitFromMap plainMap Bytes.zero 2 0x10000).isSome = true)
  have hup : bringUp (some Bytes.zero) 2 0x10000 (some plainMap)
      ⟨pmmBlank Bytes.zero 0, fun _ => 0xff, 0, 0, none, none, none⟩ = (.ok (), smallMachine) :=
    Prog.eq_of_ok (by decide +kernel)
  have hleft : 3 ≤ (afterBringUp smallMachine).vm.pmm.freeFrames := by decide +kernel
  have hcost := (kernelMap_exact hinit (by decide) hup .refl 0x400000 0x9000 2).1
    ⟨⟨by decide, by decide⟩, by decide⟩
  have hmissing := missing_le_three
    (tableFrame smallMachine.kernelSpace.rootPaddr (afterBringUp smallMachine).vm) 0x400000
  refine hcost.1.trans ?_
  rw [if_neg (by omega)]
  rfl

end Kernel

end Mcsos.KernelMemory
