import Mcsos.Mm.PmmInit

set_option autoImplicit false

/-! # Runs of the frame allocator

The invariant `PmmInv` ties the counter, the bitmap and the hint together. Initialisation
establishes it and the three operations keep it, so it holds along every run; the early exit
on `free_frames == 0`, the scan from the hint and the wrap-around scan are right because of
it. A run also records the frames handed out and not freed since.
-/

namespace Mcsos.Pmm

open Loop

variable {pmm : PmmState}

/-- The invariant of an initialised frame allocator. -/
structure PmmInv (pmm : PmmState) : Prop where
  core : PmmCore pmm
  initialized : pmm.initialized = true
  zero_used : bitmapTest pmm 0 = true

theorem InitResult.inv {regions : List BootMemRegion} {max : UInt64}
    (h : InitResult regions max pmm) : PmmInv pmm := by
  refine ⟨h.core, h.initialized, ?_⟩
  by_contra hbit
  exact ((h.free_iff 0 h.pos).mp (by simpa using hbit)).1 rfl

/-! ## One operation at a time -/

/-- With the invariant, the two scans find the lowest free frame. -/
theorem findFreeFrame_eq_some (hc : PmmCore pmm) {f : Nat} :
    findFreeFrame pmm = some f ↔ f ∈ freeSet pmm ∧ ∀ g ∈ freeSet pmm, f ≤ g := by
  have hle := hc.hint_le
  have hlow : findFrom (fun f => !bitmapTest pmm f) 0 pmm.nextHint = none := by
    rw [findFrom_none_iff]
    intro j _ hj
    simp [hc.hint_used j (by omega)]
  have hscan : findFreeFrame pmm =
      findFrom (fun f => !bitmapTest pmm f) pmm.nextHint (pmm.frameCount - pmm.nextHint) := by
    unfold findFreeFrame
    rw [hlow]
    cases findFrom (fun f => !bitmapTest pmm f) pmm.nextHint (pmm.frameCount - pmm.nextHint) <;>
      rfl
  rw [hscan, findFrom_some_iff]
  constructor
  · rintro ⟨h1, h2, h3, h4⟩
    refine ⟨mem_freeSet.mpr ⟨by omega, by simpa using h3⟩, fun g hg => ?_⟩
    obtain ⟨-, hgbit⟩ := mem_freeSet.mp hg
    by_contra hlt
    by_cases hgh : g < pmm.nextHint
    · rw [hc.hint_used g hgh] at hgbit
      cases hgbit
    · have := h4 g (by omega) (by omega)
      simp [hgbit] at this
  · rintro ⟨hf, hmin⟩
    obtain ⟨hfc, hbit⟩ := mem_freeSet.mp hf
    have hge : pmm.nextHint ≤ f := by
      by_contra hlt
      rw [hc.hint_used f (by omega)] at hbit
      cases hbit
    refine ⟨hge, by omega, by simp [hbit], fun j h1 h2 => ?_⟩
    by_contra hj
    have hleast := hmin j (mem_freeSet.mpr ⟨by omega, by simpa using hj⟩)
    omega

/-- The two outcomes of `pmm_alloc_frame`: nothing is free and nothing changes, or the
lowest free frame is handed out. -/
theorem pmmAllocFrame_cases (hi : PmmInv pmm) :
    (freeSet pmm = ∅ ∧ pmmAllocFrame pmm = (pmmInvalidFrame, pmm)) ∨
    ∃ f, f ∈ freeSet pmm ∧ (∀ g ∈ freeSet pmm, f ≤ g) ∧
      pmmAllocFrame pmm =
        (f * pmmPageSize, { markFrameUsed f pmm with nextHint := f + 1 }) := by
  unfold pmmAllocFrame
  by_cases hempty : freeSet pmm = ∅
  · refine Or.inl ⟨hempty, if_pos (Or.inr ?_)⟩
    rw [hi.core.free_card, hempty]
    rfl
  · right
    have hne : (freeSet pmm).Nonempty := Finset.nonempty_iff_ne_empty.mpr hempty
    have hmem := Finset.min'_mem (freeSet pmm) hne
    have hmin : ∀ g ∈ freeSet pmm, (freeSet pmm).min' hne ≤ g :=
      fun g hg => Finset.min'_le _ g hg
    have hfree : pmm.freeFrames ≠ 0 := by
      rw [hi.core.free_card]
      exact Finset.card_ne_zero_of_mem hmem
    refine ⟨_, hmem, hmin, ?_⟩
    rw [if_neg (by simp [hi.initialized, hfree]), (findFreeFrame_eq_some hi.core).mpr ⟨hmem, hmin⟩]

theorem frame_addr_ne_invalid (f : Nat) : f * pmmPageSize ≠ pmmInvalidFrame := by
  unfold pmmPageSize pmmInvalidFrame
  omega

/-- Raising the hint past the lowest free frame keeps the invariant. -/
theorem PmmInv.alloc (hi : PmmInv pmm) {f : Nat} (hf : f ∈ freeSet pmm)
    (hmin : ∀ g ∈ freeSet pmm, f ≤ g) :
    PmmInv { markFrameUsed f pmm with nextHint := f + 1 } := by
  obtain ⟨hfc, -⟩ := mem_freeSet.mp hf
  have hc := hi.core.markFrameUsed hfc
  have hsh := markFrameUsed_shape f pmm
  refine ⟨⟨hc.maxPhys_eq, hc.maxPhys_lt, hc.free_card, hc.total, ?_, ?_⟩, ?_, ?_⟩
  · show f + 1 ≤ (markFrameUsed f pmm).frameCount
    rw [hsh.frameCount]
    omega
  · intro g hg
    show bitmapTest (markFrameUsed f pmm) g = true
    change g < f + 1 at hg
    rw [markFrameUsed_test hfc]
    by_cases hgf : g = f
    · simp [hgf]
    · by_contra hbit
      have hleast := hmin g (mem_freeSet.mpr ⟨by omega, by simpa [hgf] using hbit⟩)
      omega
  · show (markFrameUsed f pmm).initialized = true
    rw [hsh.initialized]
    exact hi.initialized
  · show bitmapTest (markFrameUsed f pmm) 0 = true
    rw [markFrameUsed_test hfc, hi.zero_used, Bool.or_true]

/-- The two outcomes of `pmm_free_frame`: refused, or a used frame other than 0 is freed. -/
theorem pmmFreeFrame_cases (hi : PmmInv pmm) (a : UInt64) :
    pmmFreeFrame a pmm = (false, pmm) ∨
    ∃ f, 0 < f ∧ f < pmm.frameCount ∧ bitmapTest pmm f = true ∧ a.toNat = f * pmmPageSize ∧
      pmmFreeFrame a pmm = (true, markFrameFree f pmm) := by
  unfold pmmFreeFrame
  rw [if_neg (by simp [hi.initialized])]
  by_cases hbad : a &&& (4096 - 1) ≠ 0 ∨ a = 0 ∨ pmm.maxPhys ≤ a.toNat
  · rw [if_pos hbad]
    exact Or.inl rfl
  · rw [if_neg hbad]
    push Not at hbad
    obtain ⟨hmask, hzero, hmax⟩ := hbad
    have halign := and_4095_eq_zero hmask
    have hpos : a.toNat ≠ 0 := fun h0 => hzero (UInt64.toNat_inj.mp h0)
    have hphys : pmm.maxPhys = pmm.frameCount * 4096 := hi.core.maxPhys_eq
    by_cases hbit : bitmapTest pmm (a.toNat / pmmPageSize) = true
    · refine Or.inr ⟨a.toNat / pmmPageSize, ?_, ?_, hbit, ?_, ?_⟩
      · unfold pmmPageSize; omega
      · unfold pmmPageSize; omega
      · unfold pmmPageSize; omega
      · simp [hbit]
    · exact Or.inl (by simp [hbit])

theorem PmmInv.free (hi : PmmInv pmm) {f : Nat} (h0 : 0 < f) (hf : f < pmm.frameCount) :
    PmmInv (markFrameFree f pmm) := by
  have hsh := markFrameFree_shape f pmm
  refine ⟨hi.core.markFrameFree hf, by rw [hsh.initialized]; exact hi.initialized, ?_⟩
  rw [markFrameFree_test hf, hi.zero_used]
  simp [show (0 : Nat) ≠ f by omega]

theorem PmmInv.marks_used (hi : PmmInv pmm) {P : Nat → Prop} {q : PmmState}
    (hm : Marks true P pmm q) (hpos : 0 < pmm.frameCount) : PmmInv q := by
  refine ⟨hm.core hi.core, by rw [hm.shape.initialized]; exact hi.initialized, ?_⟩
  by_cases h0 : P 0
  · exact hm.hit 0 hpos h0
  · rw [hm.miss 0 hpos h0]
    exact hi.zero_used

/-! ## Runs -/

/-- A call of the interface after initialisation. -/
inductive PmmOp where
  | alloc
  | free (physAddr : UInt64)
  | reserve (base length : UInt64)

/-- The state along a run: the allocator and the addresses handed out and not freed since. -/
structure PmmRun where
  pmm : PmmState
  live : List Nat

def PmmOp.step (s : PmmRun) : PmmOp → PmmRun
  | .alloc =>
    let (a, pmm) := pmmAllocFrame s.pmm
    ⟨pmm, if a = pmmInvalidFrame then s.live else a :: s.live⟩
  | .free physAddr =>
    let (ok, pmm) := pmmFreeFrame physAddr s.pmm
    ⟨pmm, if ok then s.live.filter (fun a => a ≠ physAddr.toNat) else s.live⟩
  | .reserve base length => ⟨(pmmReserveRange base length s.pmm).2, s.live⟩

/-- The run of a list of calls, from an allocator that has handed out nothing. -/
def pmmRun (pmm : PmmState) (ops : List PmmOp) : PmmRun := ops.foldl PmmOp.step ⟨pmm, []⟩

/-- The invariant of a run: live addresses are distinct and belong to used frames. -/
structure RunInv (s : PmmRun) : Prop where
  inv : PmmInv s.pmm
  pos : 0 < s.pmm.frameCount
  nodup : s.live.Nodup
  live_used : ∀ a ∈ s.live, ∃ f, f < s.pmm.frameCount ∧ a = f * pmmPageSize ∧
    bitmapTest s.pmm f = true

theorem RunInv.step {s : PmmRun} (h : RunInv s) (op : PmmOp) : RunInv (op.step s) := by
  cases op with
  | alloc =>
      rcases pmmAllocFrame_cases h.inv with ⟨-, heq⟩ | ⟨f, hf, hmin, heq⟩
      · simp only [PmmOp.step, heq]
        exact h
      · obtain ⟨hfc, hbit⟩ := mem_freeSet.mp hf
        have hsh := markFrameUsed_shape f s.pmm
        have hinv := h.inv.alloc hf hmin
        simp only [PmmOp.step, heq, if_neg (frame_addr_ne_invalid f)]
        refine ⟨hinv, ?_, ?_, ?_⟩
        · show 0 < (markFrameUsed f s.pmm).frameCount
          rw [hsh.frameCount]
          exact h.pos
        · -- a live address belongs to a used frame, the new one to a free frame
          refine List.nodup_cons.mpr ⟨fun hmem => ?_, h.nodup⟩
          obtain ⟨g, -, hg, hgbit⟩ := h.live_used _ hmem
          have hgf : f = g := by unfold pmmPageSize at hg; omega
          rw [← hgf, hbit] at hgbit
          cases hgbit
        · intro a ha
          show ∃ g, g < (markFrameUsed f s.pmm).frameCount ∧ a = g * pmmPageSize ∧
            bitmapTest (markFrameUsed f s.pmm) g = true
          rw [hsh.frameCount]
          rcases List.mem_cons.mp ha with rfl | ha
          · exact ⟨f, hfc, rfl, by rw [markFrameUsed_test hfc]; simp⟩
          · obtain ⟨g, hgc, hg, hgbit⟩ := h.live_used a ha
            exact ⟨g, hgc, hg, by rw [markFrameUsed_test hfc, hgbit, Bool.or_true]⟩
  | free physAddr =>
      rcases pmmFreeFrame_cases h.inv physAddr with heq | ⟨f, h0, hfc, -, haddr, heq⟩
      · simp only [PmmOp.step, heq, Bool.false_eq_true, if_false]
        exact h
      · have hsh := markFrameFree_shape f s.pmm
        simp only [PmmOp.step, heq, if_true]
        refine ⟨h.inv.free h0 hfc, ?_, h.nodup.filter _, ?_⟩
        · rw [hsh.frameCount]
          exact h.pos
        · intro a ha
          obtain ⟨hmem, hne⟩ := List.mem_filter.mp ha
          obtain ⟨g, hgc, hg, hgbit⟩ := h.live_used a hmem
          -- the freed address has left the list, and any other one is of another frame
          have hgf : g ≠ f := by
            intro hgf
            rw [hg, hgf, ← haddr] at hne
            simp at hne
          refine ⟨g, by rw [hsh.frameCount]; exact hgc, hg, ?_⟩
          rw [markFrameFree_test hfc, hgbit]
          simp [hgf]
  | reserve base length =>
      show RunInv ⟨(pmmReserveRange base length s.pmm).2, s.live⟩
      unfold pmmReserveRange
      split_ifs with hbad
      · exact h
      · -- a reservation only sets bits
        have hm := marks_markRangeUsed h.inv.core base length
        refine ⟨h.inv.marks_used hm h.pos, by rw [hm.shape.frameCount]; exact h.pos, h.nodup, ?_⟩
        intro a ha
        obtain ⟨g, hgc, hg, hgbit⟩ := h.live_used a ha
        refine ⟨g, by rw [hm.shape.frameCount]; exact hgc, hg, ?_⟩
        by_cases hP : ReservesFrame base length g
        · exact hm.hit g hgc hP
        · rw [hm.miss g hgc hP]
          exact hgbit

theorem RunInv.run {s : PmmRun} (h : RunInv s) (ops : List PmmOp) :
    RunInv (ops.foldl PmmOp.step s) := by
  induction ops generalizing s with
  | nil => exact h
  | cons op ops ih => exact ih (h.step op)

theorem InitResult.runInv {regions : List BootMemRegion} {max : UInt64}
    (h : InitResult regions max pmm) (ops : List PmmOp) : RunInv (pmmRun pmm ops) :=
  RunInv.run ⟨h.inv, h.pos, List.nodup_nil, fun a ha => by cases ha⟩ ops

/-- The number of clear bits below `frame_count`. -/
def clearBits (pmm : PmmState) : Nat :=
  (List.range pmm.frameCount).countP (fun f => !bitmapTest pmm f)

theorem clearBits_eq_card (pmm : PmmState) : clearBits pmm = (freeSet pmm).card := by
  unfold clearBits freeSet
  rw [List.countP_eq_length_filter]
  have h : (Finset.range pmm.frameCount).filter (fun f => bitmapTest pmm f = false) =
      ((List.range pmm.frameCount).filter (fun f => !bitmapTest pmm f)).toFinset := by
    ext f
    simp
  rw [h, List.toFinset_card_of_nodup (List.nodup_range.filter _)]

/-- The contract of one `pmm_alloc_frame` call. -/
structure AllocContract (pmm : PmmState) : Prop where
  invalid_iff : (pmmAllocFrame pmm).1 = pmmInvalidFrame ↔
    ∀ f, f < pmm.frameCount → bitmapTest pmm f = true
  unchanged : (pmmAllocFrame pmm).1 = pmmInvalidFrame → (pmmAllocFrame pmm).2 = pmm
  lowest : (pmmAllocFrame pmm).1 ≠ pmmInvalidFrame →
    ∃ f, (pmmAllocFrame pmm).1 = f * pmmPageSize ∧ f ≠ 0 ∧ f < pmm.frameCount ∧
      bitmapTest pmm f = false ∧ (∀ g, g < f → bitmapTest pmm g = true) ∧
      ∀ g, bitmapTest (pmmAllocFrame pmm).2 g = (decide (g = f) || bitmapTest pmm g)

theorem PmmInv.allocContract (hi : PmmInv pmm) : AllocContract pmm := by
  rcases pmmAllocFrame_cases hi with ⟨hempty, heq⟩ | ⟨f, hf, hmin, heq⟩
  · have hall : ∀ f, f < pmm.frameCount → bitmapTest pmm f = true := by
      intro f hfc
      by_contra hbit
      have hmem : f ∈ freeSet pmm := mem_freeSet.mpr ⟨hfc, by simpa using hbit⟩
      rw [hempty] at hmem
      simp at hmem
    refine ⟨?_, ?_, ?_⟩
    · rw [heq]
      exact ⟨fun _ => hall, fun _ => rfl⟩
    · intro _
      rw [heq]
    · intro hne
      rw [heq] at hne
      exact absurd rfl hne
  · obtain ⟨hfc, hbit⟩ := mem_freeSet.mp hf
    have hvalid := frame_addr_ne_invalid f
    refine ⟨?_, ?_, ?_⟩
    · rw [heq]
      refine ⟨fun h => absurd h hvalid, fun h => ?_⟩
      rw [h f hfc] at hbit
      cases hbit
    · intro h
      rw [heq] at h
      exact absurd h hvalid
    · intro _
      rw [heq]
      refine ⟨f, rfl, ?_, hfc, hbit, ?_, fun g => markFrameUsed_test hfc g⟩
      · rintro rfl
        rw [hi.zero_used] at hbit
        cases hbit
      · intro g hg
        by_contra hgbit
        have hleast := hmin g (mem_freeSet.mpr ⟨by omega, by simpa using hgbit⟩)
        omega

/-- **The frame allocator is correct along every run.** -/
theorem pmmRun_correct {regions : List BootMemRegion} {storage : Bytes} {bytes max : UInt64}
    {pmm0 : PmmState} (h : pmmInitFromMap regions storage bytes max = some pmm0)
    (ops : List PmmOp) :
    let s := pmmRun pmm0 ops
    s.pmm.freeFrames = clearBits s.pmm ∧
    s.pmm.freeFrames + s.pmm.usedFrames = s.pmm.frameCount ∧
    (∀ f, f < s.pmm.nextHint → f < s.pmm.frameCount ∧ bitmapTest s.pmm f = true) ∧
    AllocContract s.pmm ∧
    s.live.Nodup := by
  intro s
  have hr : RunInv s := (pmmInitFromMap_result h).runInv ops
  have hc := hr.inv.core
  refine ⟨?_, hc.total, fun f hf => ⟨?_, hc.hint_used f hf⟩, hr.inv.allocContract, hr.nodup⟩
  · rw [clearBits_eq_card]
    exact hc.free_card
  · have hhint := hc.hint_le
    omega

theorem pmmRun_correct_plain :
    ∃ pmm0, pmmInitFromMap plainMap Bytes.zero 2 0x10000 = some pmm0 ∧
      AllocContract (pmmRun pmm0 [.alloc, .alloc, .free 0x1000, .reserve 0x5000 1, .alloc]).pmm ∧
      (pmmRun pmm0 [.alloc, .alloc, .free 0x1000, .reserve 0x5000 1, .alloc]).live.Nodup := by
  obtain ⟨pmm0, h⟩ := Option.isSome_iff_exists.mp
    (by decide : (pmmInitFromMap plainMap Bytes.zero 2 0x10000).isSome = true)
  have hrun := pmmRun_correct h [.alloc, .alloc, .free 0x1000, .reserve 0x5000 1, .alloc]
  exact ⟨pmm0, h, hrun.2.2.2.1, hrun.2.2.2.2⟩

end Mcsos.Pmm
