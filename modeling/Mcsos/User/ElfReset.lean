import Mcsos.Lib.Loop
import Mcsos.User.ElfPlan

set_option autoImplicit false

/-! # The plan of a rejected image (`kernel/user/m11_elf_loader.c`)

The caller hands in the memory of the plan, with anything in it. The loader is written down here as
it changes that memory, with a reset at each place where the source has one, and it is shown that
what the memory held before does not matter. Of all the ways to fail, one has no reset: the loop
ends without a segment, and the entry point has been stored by then.
-/

namespace Mcsos.User

/-! ## The loader on the caller's memory -/

/-- The memory of a plan has room for `M11_MAX_LOAD_SEGMENTS` segments. -/
structure PlanMemory where
  plan : ProcessImagePlan
  slots : plan.segments.length = maxLoadSegments

/-- `m11_zero_plan`. -/
def m11ZeroPlan (plan : ProcessImagePlan) : ProcessImagePlan where
  entry := 0
  segmentCount := 0
  segments :=
    Loop.forRange 0 maxLoadSegments 1 (fun i segments => segments.set i zeroSegment) plan.segments

/-- The `n` turns of the segment loop from header `i` on: the return value and the plan. -/
def planSegmentsInto (image : Image) (region : UserRegion) (phoff : Nat) :
    (n i : Nat) → ProcessImagePlan → Option (Int × ProcessImagePlan)
  | 0, _, plan => some (m11Ok, plan)
  | n + 1, i, plan => do
    let ph ← image.readPhdr (phoff + phdrSize.toNat * i)
    if ph.pType ≠ ptLoad then planSegmentsInto image region phoff n (i + 1) plan
    else if maxLoadSegments ≤ plan.segmentCount.toNat then
      some (m11ErrSegcount, m11ZeroPlan plan)
    else
      let rc := validateLoadSegment ph image.size region
      if rc ≠ m11Ok then some (rc, m11ZeroPlan plan)
      else planSegmentsInto image region phoff n (i + 1) (plan.push ph.segment)

/-- `m11_elf64_plan_load` on the memory `out`. -/
def elf64PlanLoadInto (image : Image) (region : UserRegion) (out : PlanMemory) :
    Option (Int × ProcessImagePlan) :=
  let plan := m11ZeroPlan out.plan
  if image.size < ehdrSize.toUInt64 then some (m11ErrSize, plan)
  else do
    let eh ← image.readEhdr
    let rc := validateIdent eh
    if rc ≠ m11Ok then some (rc, plan)
    else if eh.eType ≠ etExec ∧ eh.eType ≠ etDyn then some (m11ErrType, plan)
    else if eh.eMachine ≠ emX86_64 then some (m11ErrMachine, plan)
    else if eh.eEhsize ≠ ehdrSize then some (m11ErrEhsize, plan)
    else
      let rc := validatePhdrBounds eh image.size
      if rc ≠ m11Ok then some (rc, plan)
      else if validateUserRange region eh.eEntry 1 ≠ m11Ok then some (m11ErrEntry, plan)
      else
        let (rc, plan) ← planSegmentsInto image region eh.ePhoff.toNat eh.ePhnum.toNat 0
          { plan with entry := eh.eEntry }
        if rc ≠ m11Ok then some (rc, plan)
        else if plan.segmentCount = 0 then some (m11ErrSegcount, plan)
        else some (m11Ok, plan)

/-! ## What the memory held before -/

/-- A list of eight segments that are set one after the other. -/
theorem m11ZeroPlan_eq {plan : ProcessImagePlan} (h : plan.segments.length = maxLoadSegments) :
    m11ZeroPlan plan = zeroPlan := by
  have hzeros : ∀ segments : List SegmentPlan, segments.length = 8 →
      Loop.forRange 0 8 1 (fun i l => l.set i zeroSegment) segments =
        List.replicate 8 zeroSegment := by
    intro segments hlen
    match segments, hlen with
    | [_, _, _, _, _, _, _, _], _ => rfl
  exact congrArg (ProcessImagePlan.mk 0 0) (hzeros plan.segments h)

theorem push_length (plan : ProcessImagePlan) (seg : SegmentPlan) :
    (plan.push seg).segments.length = plan.segments.length := List.length_set

/-- The loop ends as it does on a plan of its own, and clears the memory where it fails. -/
theorem planSegmentsInto_eq (image : Image) (region : UserRegion) (phoff n i : Nat)
    {plan : ProcessImagePlan} (h : plan.segments.length = maxLoadSegments) :
    planSegmentsInto image region phoff n i plan =
      (planSegments image region phoff n i plan).map fun
        | .error rc => (rc, zeroPlan)
        | .ok plan => (m11Ok, plan) := by
  induction n generalizing i plan with
  | zero => rfl
  | succ n ih =>
      rw [planSegmentsInto, planSegments]
      cases image.readPhdr (phoff + phdrSize.toNat * i) with
      | none => rfl
      | some ph =>
          simp only [Option.bind_eq_bind, Option.bind_some, m11ZeroPlan_eq h, ih (i + 1) h,
            ih (i + 1) ((push_length plan ph.segment).trans h)]
          split_ifs <;> rfl

theorem planSegments_error {image : Image} {region : UserRegion} {phoff n i : Nat}
    {plan : ProcessImagePlan} {rc : Int}
    (h : planSegments image region phoff n i plan = some (.error rc)) : rc ≠ m11Ok := by
  induction n generalizing i plan with
  | zero => simp [planSegments] at h
  | succ n ih =>
      rw [planSegments] at h
      cases hread : image.readPhdr (phoff + phdrSize.toNat * i) with
      | none => simp [hread] at h
      | some ph =>
          simp only [hread, Option.bind_eq_bind, Option.bind_some] at h
          split_ifs at h with htype hfull hseg
          · exact ih h
          · obtain rfl : m11ErrSegcount = rc := by simpa using h
            decide
          · obtain rfl : validateLoadSegment ph image.size region = rc := by simpa using h
            exact hseg
          · exact ih h

/-- What the loader returns behind the loop. -/
def afterSegments : Except Int ProcessImagePlan → Option (Int × ProcessImagePlan)
  | .error rc => some (rc, zeroPlan)
  | .ok plan => if plan.segmentCount = 0 then some (m11ErrSegcount, plan) else some (m11Ok, plan)

theorem afterSegments_eq (image : Image) (region : UserRegion) (phoff n : Nat)
    {plan : ProcessImagePlan} (h : plan.segments.length = maxLoadSegments) :
    ((planSegmentsInto image region phoff n 0 plan).bind fun r =>
      if r.1 ≠ m11Ok then some (r.1, r.2)
      else if r.2.segmentCount = 0 then some (m11ErrSegcount, r.2)
      else some (m11Ok, r.2)) =
    (planSegments image region phoff n 0 plan).bind afterSegments := by
  rw [planSegmentsInto_eq image region phoff n 0 h]
  cases hloop : planSegments image region phoff n 0 plan with
  | none => rfl
  | some result =>
      cases result with
      | error rc => simp [afterSegments, planSegments_error hloop]
      | ok plan => simp [afterSegments]

/-- The loader does the same whatever the memory held. -/
theorem elf64PlanLoadInto_eq (image : Image) (region : UserRegion) (out : PlanMemory) :
    elf64PlanLoadInto image region out = elf64PlanLoad image region := by
  have hslots : ∀ entry, ({ zeroPlan with entry := entry } : ProcessImagePlan).segments.length =
      maxLoadSegments := fun _ => rfl
  rw [elf64PlanLoadInto, elf64PlanLoad, m11ZeroPlan_eq out.slots]
  cases image.readEhdr with
  | none => rfl
  | some eh =>
      simp only [Option.bind_eq_bind, Option.bind_some,
        afterSegments_eq image region _ _ (hslots eh.eEntry)]
      rfl

/-! ## Failures -/

/-- The plan of an image that has not been loaded: all is zero. -/
def ProcessImagePlan.Empty (plan : ProcessImagePlan) : Prop :=
  plan.entry = 0 ∧ plan.segmentCount = 0 ∧ plan.segments.length = 8 ∧
    ∀ seg ∈ plan.segments, seg = zeroSegment

/-- If the loader fails on the image, it leaves an empty plan in the memory. -/
def LeavesEmpty (image : Image) (region : UserRegion) (out : PlanMemory) : Prop :=
  ∃ rc plan, elf64PlanLoadInto image region out = some (rc, plan) ∧ (rc ≠ m11Ok → plan.Empty)

theorem zeroPlan_empty : zeroPlan.Empty :=
  ⟨rfl, rfl, rfl, fun _ hseg => List.eq_of_mem_replicate hseg⟩

/-- A failure leaves an empty plan, unless the image has no loadable segment, is fine otherwise, and
has an entry point other than 0: that is left in the plan. -/
theorem elf64PlanLoad_leavesEmpty_iff (image : Image) (region : UserRegion) (out : PlanMemory) :
    LeavesEmpty image region out ↔
      ¬(ReachesSegments image region ∧ image.loads = [] ∧ image.ehdr.eEntry ≠ 0) := by
  rw [LeavesEmpty, elf64PlanLoadInto_eq]
  rcases elf64PlanLoad_cases image region with
    ⟨hacc, hplan⟩ | ⟨hreach, hnil, hplan⟩ | ⟨-, hnot, rc, hrc, hplan⟩
  · refine iff_of_true ⟨_, _, hplan, fun h => absurd rfl h⟩ ?_
    rintro ⟨-, hnil, -⟩
    have hsome := hacc.some_load
    simp [hnil] at hsome
  · have hne : m11ErrSegcount ≠ m11Ok := by decide
    simp only [hplan, hreach, hnil, true_and, not_not, Option.some.injEq, Prod.mk.injEq]
    constructor
    · rintro ⟨rc, plan, ⟨rfl, rfl⟩, hempty⟩
      exact (hempty hne).1
    · intro hentry
      exact ⟨_, _, ⟨rfl, rfl⟩, fun _ => ⟨hentry, zeroPlan_empty.2⟩⟩
  · refine iff_of_true ⟨rc, _, hplan, fun _ => zeroPlan_empty⟩ ?_
    rintro ⟨hreach, hnil, -⟩
    exact hnot ⟨hreach, hnil⟩

/-- One program header, of type 0. -/
def noSegmentImage : Image where
  size := 120
  bytes :=
    let ident := (Bytes.zero.store 0 7 0x010102464c457f).store 16 2 2
    let kind := ((ident.store 18 2 62).store 20 4 1).store 24 8 0x401000
    ((kind.store 32 8 64).store 52 2 64).store 54 2 56 |>.store 56 2 1

def noSegmentRegion : UserRegion := ⟨0x400000, 0x8000000000⟩

/-- An image without a segment is rejected, and its entry point is left in the plan. -/
theorem elf64PlanLoad_leaves_entry : ∃ rc plan,
    elf64PlanLoadInto noSegmentImage noSegmentRegion ⟨zeroPlan, rfl⟩ = some (rc, plan) ∧
      rc ≠ m11Ok ∧ plan.entry = 0x401000 ∧
      ¬LeavesEmpty noSegmentImage noSegmentRegion ⟨zeroPlan, rfl⟩ := by
  have hplan : elf64PlanLoadInto noSegmentImage noSegmentRegion ⟨zeroPlan, rfl⟩ =
      some (m11ErrSegcount, { zeroPlan with entry := 0x401000 }) := by
    rw [elf64PlanLoadInto_eq]
    decide +kernel
  have hne : m11ErrSegcount ≠ m11Ok := by decide
  refine ⟨_, _, hplan, hne, rfl, ?_⟩
  rintro ⟨rc, plan, hload, hempty⟩
  obtain ⟨rfl, rfl⟩ : m11ErrSegcount = rc ∧ _ = plan := by simpa using hplan.symm.trans hload
  exact absurd (hempty hne).1 (by decide)

end Mcsos.User
