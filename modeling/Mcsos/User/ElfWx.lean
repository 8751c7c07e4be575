import Mcsos.User.ElfPlan

set_option autoImplicit false

/-! # Writable or executable (`kernel/user/m11_elf_loader.c`)

The loader refuses a segment that is both writable and executable. It looks at one segment at a
time and compares no two, so a writable and an executable segment may lie over each other: the
policy holds of segments, and of addresses as far as the segments lie apart.
-/

namespace Mcsos.User

namespace SegmentPlan

def Writable (seg : SegmentPlan) : Prop := seg.flags.toNat.testBit 1 = true

def Executable (seg : SegmentPlan) : Prop := seg.flags.toNat.testBit 0 = true

/-- Address `a` is in the memory range of the segment. -/
def Covers (seg : SegmentPlan) (a : Nat) : Prop :=
  seg.vaddr.toNat ≤ a ∧ a < seg.vaddr.toNat + seg.memsz.toNat

/-- Each of the two segments begins before the other one ends. -/
def Overlap (seg seg' : SegmentPlan) : Prop :=
  seg.vaddr.toNat < seg'.vaddr.toNat + seg'.memsz.toNat ∧
    seg'.vaddr.toNat < seg.vaddr.toNat + seg.memsz.toNat

theorem overlap_of_covers {seg seg' : SegmentPlan} {a : Nat} (h : seg.Covers a)
    (h' : seg'.Covers a) : seg.Overlap seg' := ⟨h.1.trans_lt h'.2, h'.1.trans_lt h.2⟩

/-- Where two segments that are not empty overlap, they share the later of their first bytes. -/
theorem covers_of_overlap {seg seg' : SegmentPlan} (h : seg.Overlap seg')
    (hpos : 0 < seg.memsz.toNat) (hpos' : 0 < seg'.memsz.toNat) :
    ∃ a, seg.Covers a ∧ seg'.Covers a := by
  have hmax := h.1
  have hmax' := h.2
  refine ⟨max seg.vaddr.toNat seg'.vaddr.toNat, ⟨le_max_left _ _, ?_⟩, le_max_right _ _, ?_⟩
  · omega
  · omega

end SegmentPlan

/-- The segments that a plan lists. -/
def ProcessImagePlan.planned (plan : ProcessImagePlan) : List SegmentPlan :=
  plan.segments.take plan.segmentCount.toNat

theorem planOf_planned {loads : List Phdr} (h : loads.length ≤ 8) (entry : UInt64) :
    (planOf entry loads).planned = loads.map Phdr.segment := by
  rw [ProcessImagePlan.planned, planOf_count h]
  exact List.take_left' (List.length_map ..)

/-- A plan is for an acceptable image, and lists its loadable segments. -/
theorem elf64PlanLoad_ok {image : Image} {region : UserRegion} {plan : ProcessImagePlan}
    (h : elf64PlanLoad image region = some (m11Ok, plan)) :
    Acceptable image region ∧ plan.planned = image.loads.map Phdr.segment := by
  rcases elf64PlanLoad_cases image region with
    ⟨hacc, hplan⟩ | ⟨-, -, hplan⟩ | ⟨-, -, rc, hrc, hplan⟩
  · obtain rfl : plan = planOf image.ehdr.eEntry image.loads :=
      congrArg Prod.snd (Option.some.inj (h.symm.trans hplan))
    exact ⟨hacc, planOf_planned hacc.few_loads _⟩
  · exact absurd (congrArg Prod.fst (Option.some.inj (hplan.symm.trans h)))
      (show m11ErrSegcount ≠ m11Ok by decide)
  · exact absurd (congrArg Prod.fst (Option.some.inj (hplan.symm.trans h))) hrc

theorem planned_loadOk {image : Image} {region : UserRegion} {plan : ProcessImagePlan}
    (h : elf64PlanLoad image region = some (m11Ok, plan)) {seg : SegmentPlan}
    (hseg : seg ∈ plan.planned) :
    ∃ ph, LoadOk region image.size.toNat ph ∧ ph.segment = seg := by
  obtain ⟨hacc, hplanned⟩ := elf64PlanLoad_ok h
  rw [hplanned] at hseg
  obtain ⟨ph, hph, rfl⟩ := List.mem_map.mp hseg
  exact ⟨ph, hacc.loads ph hph, rfl⟩

/-! ## Two segments that lie over each other -/

/-- A `PT_LOAD` header for the page at `0x400000`. -/
def storePageHeader (b : Bytes) (off flags : Nat) : Bytes :=
  (((b.store off 4 1).store (off + 4) 4 flags).store (off + 16) 8 0x400000).store (off + 40) 8 4096

/-- An image that maps one page twice, to be executed and to be written. -/
def overlapImage : Image where
  size := 176
  bytes :=
    let ident := (Bytes.zero.store 0 7 0x010102464c457f).store 16 2 2
    let kind := ((ident.store 18 2 62).store 20 4 1).store 24 8 0x400000
    let sizes := (((kind.store 32 8 64).store 52 2 64).store 54 2 56).store 56 2 2
    storePageHeader (storePageHeader sizes 64 5) 120 6

def overlapRegion : UserRegion := ⟨0x400000, 0x8000000000⟩

def executablePage : SegmentPlan := ⟨0, 0x400000, 0, 4096, 0, 5⟩

def writablePage : SegmentPlan := ⟨0, 0x400000, 0, 4096, 0, 6⟩

theorem overlapImage_plan : elf64PlanLoad overlapImage overlapRegion =
    some (m11Ok, ⟨0x400000, 2,
      [executablePage, writablePage] ++ List.replicate 6 zeroSegment⟩) := by decide +kernel

/-- One address is in a writable and in an executable segment of an accepted image. -/
theorem elf64PlanLoad_overlap : ∃ image region plan seg seg' a,
    elf64PlanLoad image region = some (m11Ok, plan) ∧ seg ∈ plan.planned ∧ seg' ∈ plan.planned ∧
      seg.Writable ∧ seg'.Executable ∧ seg.Covers a ∧ seg'.Covers a := by
  refine ⟨_, _, _, writablePage, executablePage, 0x400000, overlapImage_plan, ?_, ?_, rfl, rfl,
    ⟨by decide, by decide⟩, ⟨by decide, by decide⟩⟩
  · show writablePage ∈ [executablePage, writablePage]
    simp
  · show executablePage ∈ [executablePage, writablePage]
    simp

/-- No planned segment is both writable and executable; an address is in a writable and in an
executable one just where two different planned segments of these kinds overlap. -/
theorem elf64PlanLoad_wx {image : Image} {region : UserRegion} {plan : ProcessImagePlan}
    (h : elf64PlanLoad image region = some (m11Ok, plan)) :
    (∀ seg ∈ plan.planned, ¬(seg.Writable ∧ seg.Executable)) ∧
    ((∃ a, (∃ seg ∈ plan.planned, seg.Writable ∧ seg.Covers a) ∧
        ∃ seg ∈ plan.planned, seg.Executable ∧ seg.Covers a) ↔
      ∃ seg ∈ plan.planned, ∃ seg' ∈ plan.planned, seg ≠ seg' ∧ seg.Writable ∧
        seg'.Executable ∧ seg.Overlap seg') := by
  have hboth : ∀ seg ∈ plan.planned, ¬(seg.Writable ∧ seg.Executable) := by
    intro seg hseg
    obtain ⟨ph, hph, rfl⟩ := planned_loadOk h hseg
    exact hph.not_both
  refine ⟨hboth, ?_, ?_⟩
  · rintro ⟨a, ⟨seg, hseg, hw, hcov⟩, seg', hseg', hx, hcov'⟩
    refine ⟨seg, hseg, seg', hseg', ?_, hw, hx, SegmentPlan.overlap_of_covers hcov hcov'⟩
    rintro rfl
    exact hboth seg hseg ⟨hw, hx⟩
  · rintro ⟨seg, hseg, seg', hseg', -, hw, hx, hover⟩
    obtain ⟨ph, hph, rfl⟩ := planned_loadOk h hseg
    obtain ⟨ph', hph', rfl⟩ := planned_loadOk h hseg'
    obtain ⟨a, ha, ha'⟩ := SegmentPlan.covers_of_overlap hover hph.nonempty hph'.nonempty
    exact ⟨a, ⟨_, hseg, hw, ha⟩, _, hseg', hx, ha'⟩

/-- On the image that maps one page twice, no segment is both. -/
theorem elf64PlanLoad_wx_page : ¬(writablePage.Writable ∧ writablePage.Executable) :=
  (elf64PlanLoad_wx overlapImage_plan).1 writablePage (by
    show writablePage ∈ [executablePage, writablePage]
    simp)

end Mcsos.User
