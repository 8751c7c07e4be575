import Mcsos.Mm.KernelMemory
import Mcsos.Mm.PmmRuns
import Mcsos.Mm.VmmLater

set_option autoImplicit false

/-! # The kernel space over the frame allocator (`src/kernel_memory.c`)

The kernel space takes its tables from the frame allocator that everybody else uses too. While one
call of the virtual memory runs nobody else does, so `alloc_frame` answers in it what the successive
states of the allocator answer, and what the call gives back is given back at its end: a rejected
frame ends the call. Here are the call and what it does to the allocator; the runs are in
`Mm/KernelRuns.lean`.
-/

namespace Mcsos.KernelMemory

open Pmm Vmm

/-- The frame allocator, and the entries of all pages by their virtual addresses. -/
structure KernelVm where
  pmm : PmmState
  mem : UInt64 → Nat → UInt64

/-- The frame allocator after `n` calls of `kernel_vmm_alloc`. -/
def afterAllocs (pmm : PmmState) : Nat → PmmState
  | 0 => pmm
  | n + 1 => (kernelVmmAlloc (afterAllocs pmm n)).2

/-- What the call of `kernel_vmm_alloc` after `n` others answers. -/
def allocAnswer (pmm : PmmState) (n : Nat) : UInt64 :=
  UInt64.ofNat (kernelVmmAlloc (afterAllocs pmm n)).1

/-- `kernel_phys_to_virt` with the offset of the kernel space; `none` is `NULL`. -/
def tablePointer (paddr : UInt64) : Option UInt64 :=
  let pointer := kernelPhysToVirt staticHhdmOffset paddr
  if pointer = 0 then none else some pointer

/-- The kernel space as one call of the virtual memory sees it. A frame is handed out with what is
in it at that time. -/
def spaceOver (root : UInt64) (s : KernelVm) : VmmSpace UInt64 where
  rootPaddr := root
  allocFrame n :=
    let answer := allocAnswer s.pmm n
    (answer, s.mem (kernelPhysToVirt staticHhdmOffset answer))
  freeFrame := true
  physToVirt := tablePointer

/-- What is left of a call: its writes to memory, and its calls of the frame allocator. -/
def finish (s : KernelVm) (t : VmmState UInt64) : KernelVm :=
  ⟨t.freed.foldr kernelVmmFree (afterAllocs s.pmm t.calls), t.mem⟩

/-- A call of `vmm_map_page`, `vmm_query_page` or `vmm_unmap_page` with the kernel space. -/
def vmmCall (root : UInt64) (s : KernelVm) (op : VmmOp) : Bool × KernelVm :=
  let (ok, t) := vmmStep (spaceOver root s) ⟨s.mem, 0, []⟩ op
  (ok, finish s t)

/-- The address of a frame, as the callbacks pass it on. -/
def frameAddr (frame : Nat) : UInt64 := UInt64.ofNat (frame * pmmPageSize)

/-! ## Frames and their addresses -/

section Frames

variable {pmm : PmmState} {f g : Nat}

theorem frame_lt (hi : PmmInv pmm) (hf : f < pmm.frameCount) : f * 4096 < 2 ^ 64 := by
  have h1 := hi.core.maxPhys_eq
  have h2 := hi.core.maxPhys_lt
  unfold pmmPageSize at h1
  omega

theorem frameAddr_toNat (h : f * 4096 < 2 ^ 64) : (frameAddr f).toNat = f * 4096 := by
  unfold frameAddr pmmPageSize
  rw [UInt64.toNat_ofNat', Nat.mod_eq_of_lt h]

theorem frameAddr_inj (hf : f * 4096 < 2 ^ 64) (hg : g * 4096 < 2 ^ 64)
    (h : frameAddr f = frameAddr g) : f = g := by
  have hnat := congrArg UInt64.toNat h
  rw [frameAddr_toNat hf, frameAddr_toNat hg] at hnat
  omega

theorem frameAddr_aligned (h : f * 4096 < 2 ^ 64) : isAligned4k (frameAddr f) = true := by
  rw [isAligned4k_iff, frameAddr_toNat h]
  omega

theorem frameAddr_ne_invalid (h : f * 4096 < 2 ^ 64) : frameAddr f ≠ invalidPhys := by
  intro heq
  have hnat := congrArg UInt64.toNat heq
  rw [frameAddr_toNat h] at hnat
  have hinvalid : invalidPhys.toNat = 2 ^ 64 - 1 := by decide
  omega

theorem tablePointer_eq {a t : UInt64} (h : tablePointer a = some t) :
    t = kernelPhysToVirt staticHhdmOffset a := by
  simp only [tablePointer] at h
  split at h
  · cases h
  · exact (Option.some.inj h).symm

theorem tablePointer_inj {a b t : UInt64} (ha : tablePointer a = some t)
    (hb : tablePointer b = some t) : a = b := by
  have h := (tablePointer_eq ha).symm.trans (tablePointer_eq hb)
  unfold kernelPhysToVirt at h
  grind

end Frames

/-! ## The allocator in a call -/

section Allocator

variable {pmm : PmmState}

/-- What one call of `kernel_vmm_alloc` does: there is nothing free, or a free frame is used now. -/
theorem kernelVmmAlloc_cases (hi : PmmInv pmm) :
    (freeSet pmm = ∅ ∧ UInt64.ofNat (kernelVmmAlloc pmm).1 = invalidPhys ∧
      (kernelVmmAlloc pmm).2 = pmm) ∨
    ∃ f, f ∈ freeSet pmm ∧ UInt64.ofNat (kernelVmmAlloc pmm).1 = frameAddr f ∧
      PmmInv (kernelVmmAlloc pmm).2 ∧
      (kernelVmmAlloc pmm).2.frameCount = pmm.frameCount ∧
      ∀ g, bitmapTest (kernelVmmAlloc pmm).2 g = (decide (g = f) || bitmapTest pmm g) := by
  rcases pmmAllocFrame_cases hi with ⟨hempty, heq⟩ | ⟨f, hf, hmin, heq⟩
  · left
    rw [kernelVmmAlloc, heq]
    exact ⟨hempty, rfl, rfl⟩
  · right
    obtain ⟨hfc, -⟩ := mem_freeSet.mp hf
    refine ⟨f, hf, ?_, ?_, ?_, ?_⟩
    · rw [kernelVmmAlloc, heq]
      rfl
    · rw [kernelVmmAlloc, heq]
      exact hi.alloc hf hmin
    · rw [kernelVmmAlloc, heq]
      exact (markFrameUsed_shape f pmm).frameCount
    · rw [kernelVmmAlloc, heq]
      exact markFrameUsed_test hfc

/-- The invariant, the number of frames, and what was used: none of it is lost by allocating. -/
theorem afterAllocs_inv (hi : PmmInv pmm) (n : Nat) :
    PmmInv (afterAllocs pmm n) ∧ (afterAllocs pmm n).frameCount = pmm.frameCount := by
  induction n with
  | zero => exact ⟨hi, rfl⟩
  | succ n ih =>
      rcases kernelVmmAlloc_cases ih.1 with ⟨-, -, hsame⟩ | ⟨f, -, -, hinv, hcount, -⟩
      · rw [afterAllocs, hsame]
        exact ih
      · exact ⟨hinv, hcount.trans ih.2⟩

/-- What a call of `kernel_vmm_alloc` answers after `n` others, and what is used after it. -/
theorem allocAnswer_cases (hi : PmmInv pmm) (n : Nat) :
    (allocAnswer pmm n = invalidPhys ∧ afterAllocs pmm (n + 1) = afterAllocs pmm n) ∨
    ∃ f, f < pmm.frameCount ∧ bitmapTest (afterAllocs pmm n) f = false ∧
      allocAnswer pmm n = frameAddr f ∧
      ∀ g, bitmapTest (afterAllocs pmm (n + 1)) g =
        (decide (g = f) || bitmapTest (afterAllocs pmm n) g) := by
  obtain ⟨hinv, hcount⟩ := afterAllocs_inv hi n
  rcases kernelVmmAlloc_cases hinv with ⟨-, hanswer, hsame⟩ | ⟨f, hf, hanswer, -, -, hbits⟩
  · exact Or.inl ⟨hanswer, hsame⟩
  · obtain ⟨hfc, hbit⟩ := mem_freeSet.mp hf
    exact Or.inr ⟨f, hcount ▸ hfc, hbit, hanswer, hbits⟩

theorem afterAllocs_mono (hi : PmmInv pmm) {m n : Nat} (hmn : m ≤ n) {g : Nat}
    (h : bitmapTest (afterAllocs pmm m) g = true) : bitmapTest (afterAllocs pmm n) g = true := by
  induction n, hmn using Nat.le_induction with
  | base => exact h
  | succ n _ ih =>
      rcases allocAnswer_cases hi n with ⟨-, hsame⟩ | ⟨f, -, -, -, hbits⟩
      · rw [hsame, ih]
      · rw [hbits, ih, Bool.or_true]

/-- A frame that is handed out was free, and is used from then on. -/
theorem allocAnswer_valid (hi : PmmInv pmm) {n : Nat} (h : allocAnswer pmm n ≠ invalidPhys) :
    ∃ f, f < pmm.frameCount ∧ allocAnswer pmm n = frameAddr f ∧
      (∀ m, m ≤ n → bitmapTest (afterAllocs pmm m) f = false) ∧
      ∀ m, n < m → bitmapTest (afterAllocs pmm m) f = true := by
  rcases allocAnswer_cases hi n with ⟨hinvalid, -⟩ | ⟨f, hf, hfree, hanswer, hbits⟩
  · exact absurd hinvalid h
  · refine ⟨f, hf, hanswer, fun m hm => ?_, fun m hm => ?_⟩
    · by_contra hused
      rw [Bool.not_eq_false] at hused
      rw [afterAllocs_mono hi hm hused] at hfree
      cases hfree
    · refine afterAllocs_mono hi hm ?_
      rw [hbits]
      simp

/-- No frame is handed out twice. -/
theorem allocAnswer_ne (hi : PmmInv pmm) {m n : Nat} (hmn : m < n)
    (h : allocAnswer pmm n ≠ invalidPhys) : allocAnswer pmm m ≠ allocAnswer pmm n := by
  intro heq
  obtain ⟨f, hf, hanswer, hfree, -⟩ := allocAnswer_valid hi h
  obtain ⟨g, hg, hanswer', -, hused⟩ := allocAnswer_valid hi (heq ▸ h : allocAnswer pmm m ≠ _)
  have hfg : f = g := frameAddr_inj (frame_lt hi hf) (frame_lt hi hg)
    (by rw [← hanswer, ← hanswer', heq])
  have h1 := hfree n le_rfl
  rw [hfg, hused n hmn] at h1
  cases h1

/-- What is used after `n` calls: what was used before them, and what they have handed out. -/
theorem afterAllocs_test (hi : PmmInv pmm) (n : Nat) {g : Nat} (hg : g < pmm.frameCount) :
    bitmapTest (afterAllocs pmm n) g = true ↔
      bitmapTest pmm g = true ∨ ∃ m, m < n ∧ allocAnswer pmm m = frameAddr g := by
  induction n with
  | zero =>
      refine ⟨Or.inl, ?_⟩
      rintro (h | ⟨m, hm, -⟩)
      · exact h
      · omega
  | succ n ih =>
      have hsplit : (∃ m, m < n + 1 ∧ allocAnswer pmm m = frameAddr g) ↔
          (∃ m, m < n ∧ allocAnswer pmm m = frameAddr g) ∨ allocAnswer pmm n = frameAddr g := by
        constructor
        · rintro ⟨m, hm, h⟩
          rcases Nat.lt_succ_iff_lt_or_eq.mp hm with hlt | rfl
          · exact Or.inl ⟨m, hlt, h⟩
          · exact Or.inr h
        · rintro (⟨m, hm, h⟩ | h)
          · exact ⟨m, by omega, h⟩
          · exact ⟨n, by omega, h⟩
      rw [hsplit, ← or_assoc, ← ih]
      have hglt := frame_lt hi hg
      rcases allocAnswer_cases hi n with ⟨hinvalid, hsame⟩ | ⟨f, hf, -, hanswer, hbits⟩
      · rw [hsame, hinvalid]
        have hne := frameAddr_ne_invalid hglt
        exact ⟨Or.inl, fun h => h.resolve_right fun heq => hne heq.symm⟩
      · have hflt := frame_lt hi hf
        rw [hbits, hanswer, Bool.or_eq_true, decide_eq_true_iff, or_comm]
        refine or_congr Iff.rfl ⟨fun h => by rw [h], fun h => (frameAddr_inj hflt hglt h).symm⟩

/-- `kernel_vmm_free` of a frame other than frame 0 leaves it free, and all others as they were. -/
theorem kernelVmmFree_spec (hi : PmmInv pmm) {f : Nat} (hpos : 0 < f) (hf : f < pmm.frameCount) :
    PmmInv (kernelVmmFree (frameAddr f) pmm) ∧
    (kernelVmmFree (frameAddr f) pmm).frameCount = pmm.frameCount ∧
    ∀ g, bitmapTest (kernelVmmFree (frameAddr f) pmm) g =
      (bitmapTest pmm g && !decide (g = f)) := by
  have hlt := frame_lt hi hf
  have hnat := frameAddr_toNat hlt
  have hfree : kernelVmmFree (frameAddr f) pmm = markFrameFree f pmm ∨
      (bitmapTest pmm f = false ∧ kernelVmmFree (frameAddr f) pmm = pmm) := by
    unfold kernelVmmFree pmmFreeFrame
    have hframe : (frameAddr f).toNat / pmmPageSize = f := by
      rw [hnat]
      exact Nat.mul_div_cancel f (by decide)
    have hmask : frameAddr f &&& 4095 = 0 := of_decide_eq_true (frameAddr_aligned hlt)
    have hzero : frameAddr f ≠ 0 := by
      intro h
      rw [h] at hnat
      have : (0 : UInt64).toNat = 0 := rfl
      omega
    have hmax : ¬pmm.maxPhys ≤ (frameAddr f).toNat := by
      rw [hnat, hi.core.maxPhys_eq]
      unfold pmmPageSize
      omega
    rw [if_neg (by simp [hi.initialized]), if_neg (by simp [hmask, hzero, hmax])]
    simp only [hframe]
    by_cases hbit : bitmapTest pmm f = true
    · rw [if_neg (by simp [hbit])]
      exact Or.inl rfl
    · rw [if_pos (by simp [hbit])]
      exact Or.inr ⟨by simpa using hbit, rfl⟩
  rcases hfree with heq | ⟨hbit, heq⟩
  · rw [heq]
    refine ⟨hi.free hpos hf, (markFrameFree_shape f pmm).frameCount, fun g => ?_⟩
    rw [markFrameFree_test hf, Bool.and_comm]
  · rw [heq]
    refine ⟨hi, rfl, fun g => ?_⟩
    by_cases hgf : g = f
    · rw [hgf, hbit]
      rfl
    · simp [hgf]

/-- Giving back a list of frames. -/
theorem foldr_kernelVmmFree (hi : PmmInv pmm) {l : List UInt64}
    (hl : ∀ a ∈ l, ∃ f, 0 < f ∧ f < pmm.frameCount ∧ a = frameAddr f) :
    PmmInv (l.foldr kernelVmmFree pmm) ∧
    (l.foldr kernelVmmFree pmm).frameCount = pmm.frameCount ∧
    ∀ g, g < pmm.frameCount → bitmapTest (l.foldr kernelVmmFree pmm) g =
      (bitmapTest pmm g && !decide (frameAddr g ∈ l)) := by
  induction l with
  | nil => exact ⟨hi, rfl, fun g _ => by simp⟩
  | cons a l ih =>
      obtain ⟨hinv, hcount, hbits⟩ := ih fun b hb => hl b (List.mem_cons_of_mem a hb)
      obtain ⟨f, hpos, hf, rfl⟩ := hl a List.mem_cons_self
      obtain ⟨hinv', hcount', hbits'⟩ := kernelVmmFree_spec hinv hpos (by rw [hcount]; exact hf)
      refine ⟨hinv', hcount'.trans hcount, fun g hg => ?_⟩
      have hmem : frameAddr g ∈ frameAddr f :: l ↔ g = f ∨ frameAddr g ∈ l := by
        rw [List.mem_cons]
        refine or_congr ⟨fun h => ?_, fun h => by rw [h]⟩ Iff.rfl
        exact frameAddr_inj (frame_lt hi hg) (frame_lt hi hf) h
      rw [List.foldr_cons, hbits' g, hbits g hg]
      simp only [hmem, Bool.decide_or, Bool.not_or]
      cases bitmapTest pmm g <;> cases decide (g = f) <;> cases decide (frameAddr g ∈ l) <;> rfl

end Allocator

/-! ## What a call leaves -/

section Finish

variable {root : UInt64} {s : KernelVm} {t : VmmState UInt64}

/-- What is used after a call: what was used before it, and the frames that it has taken and not
given back. -/
theorem finish_spec (hi : PmmInv s.pmm) (hfreed : t.freed =
    (answers (spaceOver root s) t.calls).filter (rejects (spaceOver root s))) :
    PmmInv (finish s t).pmm ∧ (finish s t).pmm.frameCount = s.pmm.frameCount ∧
    ∀ g, g < s.pmm.frameCount → (bitmapTest (finish s t).pmm g = true ↔
      bitmapTest s.pmm g = true ∨
        ∃ n, n < t.calls ∧ allocAnswer s.pmm n = frameAddr g ∧
          tablePointer (frameAddr g) ≠ none) := by
  obtain ⟨hinv, hcount⟩ := afterAllocs_inv hi t.calls
  -- what is given back was free before the call, and has no table
  have hgiven : ∀ a ∈ t.freed, tablePointer a = none ∧ ∃ f, f < s.pmm.frameCount ∧
      a = frameAddr f ∧ bitmapTest s.pmm f = false := by
    intro a ha
    rw [hfreed, List.mem_filter, mem_answers] at ha
    obtain ⟨⟨n, -, hn⟩, hrej⟩ := ha
    obtain ⟨hvalid, hvirt⟩ := rejects_iff.mp hrej
    obtain ⟨f, hf, hanswer, hfree, -⟩ := allocAnswer_valid hi (n := n) fun h => hvalid (hn ▸ h)
    exact ⟨hvirt, f, hf, hn.symm.trans hanswer, hfree 0 (Nat.zero_le n)⟩
  have hback : ∀ a ∈ t.freed, ∃ f, 0 < f ∧ f < (afterAllocs s.pmm t.calls).frameCount ∧
      a = frameAddr f := by
    intro a ha
    obtain ⟨-, f, hf, heq, hfree⟩ := hgiven a ha
    refine ⟨f, Nat.pos_of_ne_zero fun h => ?_, by rw [hcount]; exact hf, heq⟩
    rw [h, hi.zero_used] at hfree
    cases hfree
  obtain ⟨hinv', hcount', hbits⟩ := foldr_kernelVmmFree hinv hback
  refine ⟨hinv', hcount'.trans hcount, fun g hg => ?_⟩
  have hbit : bitmapTest (finish s t).pmm g =
      (bitmapTest (afterAllocs s.pmm t.calls) g && !decide (frameAddr g ∈ t.freed)) :=
    hbits g (by rw [hcount]; exact hg)
  rw [hbit, Bool.and_eq_true, afterAllocs_test hi t.calls hg, Bool.not_eq_true',
    decide_eq_false_iff_not]
  constructor
  · rintro ⟨hused | ⟨n, hn, hanswer⟩, hkept⟩
    · exact Or.inl hused
    · refine Or.inr ⟨n, hn, hanswer, fun hnone => hkept ?_⟩
      rw [hfreed, List.mem_filter, mem_answers]
      exact ⟨⟨n, hn, hanswer⟩,
        rejects_iff.mpr ⟨frameAddr_ne_invalid (frame_lt hi hg), hnone⟩⟩
  · rintro (hused | ⟨n, hn, hanswer, hsome⟩)
    · refine ⟨Or.inl hused, fun hmem => ?_⟩
      obtain ⟨-, f, hf, heq, hfree⟩ := hgiven _ hmem
      rw [frameAddr_inj (frame_lt hi hg) (frame_lt hi hf) heq, hfree] at hused
      cases hused
    · exact ⟨Or.inr ⟨n, hn, hanswer⟩, fun hmem => hsome (hgiven _ hmem).1⟩

end Finish

end Mcsos.KernelMemory
