import Mcsos.User.ElfWx

set_option autoImplicit false

/-! # Where a program starts (`kernel/user/m11_elf_loader.c`)

The loader checks the entry point against the user region, before it has looked at any segment, and
never again. So a program starts somewhere in the region; that there is code is up to the program
headers.
-/

namespace Mcsos.User

/-- The address of the entry point is in the memory range of the header. -/
def Phdr.CoversEntry (ph : Phdr) (eh : Ehdr) : Prop :=
  ph.pVaddr.toNat ≤ eh.eEntry.toNat ∧ eh.eEntry.toNat < ph.pVaddr.toNat + ph.pMemsz.toNat

/-- The program starts in a planned segment that is executable. -/
def ProcessImagePlan.StartsInCode (plan : ProcessImagePlan) : Prop :=
  ∃ seg ∈ plan.planned, seg.Executable ∧ seg.Covers plan.entry.toNat

/-- A page to be executed, and behind it a page to be written, on which the program starts. -/
def behindCodeImage : Image where
  size := 12288
  bytes :=
    let ident := (Bytes.zero.store 0 7 0x010102464c457f).store 16 2 2
    let kind := ((ident.store 18 2 62).store 20 4 1).store 24 8 0x401000
    let sizes := (((kind.store 32 8 64).store 52 2 64).store 54 2 56).store 56 2 2
    let code := (((((sizes.store 64 4 1).store 68 4 5).store 72 8 0x1000).store 80 8 0x400000).store
      96 8 16).store 104 8 4096
    let data := ((((((code.store 112 8 4096).store 120 4 1).store 124 4 6).store 128 8 0x2000).store
      136 8 0x401000).store 152 8 8).store 160 8 4096
    data.store 168 8 4096

def behindCodePlan : ProcessImagePlan :=
  ⟨0x401000, 2, [⟨0x1000, 0x400000, 16, 4096, 4096, 5⟩, ⟨0x2000, 0x401000, 8, 4096, 4096, 6⟩] ++
    List.replicate 6 zeroSegment⟩

theorem behindCodeImage_plan :
    elf64PlanLoad behindCodeImage overlapRegion = some (m11Ok, behindCodePlan) := by
  decide +kernel

theorem behindCodePlan_behind : ¬behindCodePlan.StartsInCode := by
  rintro ⟨seg, hseg, hx, hcov⟩
  have hplanned : behindCodePlan.planned =
      [⟨0x1000, 0x400000, 16, 4096, 4096, 5⟩, ⟨0x2000, 0x401000, 8, 4096, 4096, 6⟩] := rfl
  rw [hplanned, List.mem_cons, List.mem_singleton] at hseg
  rcases hseg with rfl | rfl
  · exact absurd hcov.2 (by decide)
  · exact absurd hx (by simp [SegmentPlan.Executable])

/-- The valid image of the loader's own test starts behind its code. -/
theorem elf64PlanLoad_behind_code : ∃ image region plan,
    elf64PlanLoad image region = some (m11Ok, plan) ∧ ¬plan.StartsInCode :=
  ⟨_, _, _, behindCodeImage_plan, behindCodePlan_behind⟩

/-- A planned program starts where its header says, in the region of all its segments; it starts in
code just where a loadable executable segment of the image covers the entry point. -/
theorem elf64PlanLoad_entry {image : Image} {region : UserRegion} {plan : ProcessImagePlan}
    (h : elf64PlanLoad image region = some (m11Ok, plan)) :
    plan.entry = image.ehdr.eEntry ∧
    (region.base.toNat ≤ plan.entry.toNat ∧ plan.entry.toNat < region.limit.toNat) ∧
    (plan.StartsInCode ↔ ∃ ph ∈ image.loads, ph.Executable ∧ ph.CoversEntry image.ehdr) := by
  obtain ⟨hacc, hplanned⟩ := elf64PlanLoad_ok h
  obtain ⟨rc, plan', hplan, -, hok⟩ := elf64PlanLoad_iff image region
  obtain ⟨rfl, rfl⟩ : m11Ok = rc ∧ plan = plan' := by simpa using h.symm.trans hplan
  have hentry : plan.entry = image.ehdr.eEntry := (hok rfl).1
  refine ⟨hentry, hentry ▸ hacc.entry, ?_⟩
  rw [ProcessImagePlan.StartsInCode, hplanned, hentry]
  constructor
  · rintro ⟨seg, hseg, hx, hcov⟩
    obtain ⟨ph, hph, rfl⟩ := List.mem_map.mp hseg
    exact ⟨ph, hph, hx, hcov⟩
  · rintro ⟨ph, hph, hx, hcov⟩
    exact ⟨ph.segment, List.mem_map_of_mem hph, hx, hcov⟩

/-- The image that starts behind its code: in the region, and no executable header of it covers the
entry point. -/
theorem elf64PlanLoad_entry_behind : behindCodePlan.entry = behindCodeImage.ehdr.eEntry ∧
    behindCodePlan.entry.toNat < overlapRegion.limit.toNat ∧
    ¬∃ ph ∈ behindCodeImage.loads, ph.Executable ∧ ph.CoversEntry behindCodeImage.ehdr := by
  obtain ⟨hentry, ⟨-, hlimit⟩, hcode⟩ := elf64PlanLoad_entry behindCodeImage_plan
  exact ⟨hentry, hlimit, fun hcovered => behindCodePlan_behind (hcode.mpr hcovered)⟩

end Mcsos.User
