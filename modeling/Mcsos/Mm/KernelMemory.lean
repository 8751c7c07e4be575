import Mcsos.Klib.Memory
import Mcsos.Lib.Loop
import Mcsos.Lib.Prog
import Mcsos.Mm.PmmReserved
import Mcsos.Mm.VmmEntry

set_option autoImplicit false

/-! # Memory bring-up (`src/kernel_memory.c`)

`kernel_memory_init` makes the frame allocator from the boot map, takes a frame for the root table
of the kernel space and zeroes it. The `pmm_state` that `get_kernel_pmm_state` returns is part of
the state. `kernel_panic_at` does not return: a run that gets there ends with its message. What
`serial_print` prints is left out.
-/

namespace Mcsos.KernelMemory

open Pmm Klib

/-- `struct vmm_space` with callbacks that work on the frame allocator. The context is a pointer to
a constant, and stands here for its value. -/
structure KernelSpace where
  rootPaddr : UInt64
  ctx : UInt64
  allocFrame : Option (PmmState → Nat × PmmState)
  freeFrame : Option (UInt64 → PmmState → PmmState)
  physToVirt : Option (UInt64 → UInt64 → UInt64)

/-- What `kernel_memory_init` works on: the frame allocator, memory by virtual addresses, and
`kernel_space`. -/
structure KernelState where
  pmm : PmmState
  mem : Mem
  kernelSpace : KernelSpace

/-- Kernel code that may end in a panic. -/
abbrev Boot := Prog KernelState String

/-- `kernel_panic_at`; file and line are left out. -/
def kernelPanicAt (msg : String) : Boot Unit := fun s => (.error msg, s)

def staticHhdmOffset : UInt64 := 0xFFFF800000000000

/-- `local_memzero` -/
def localMemzero (ptr : UInt64) (size : Nat) (m : Mem) : Mem :=
  Loop.forRange 0 size 1 (fun i m => Function.update m (byteAt ptr i) 0) m

def kernelVmmAlloc (pmm : PmmState) : Nat × PmmState := pmmAllocFrame pmm

def kernelVmmFree (framePaddr : UInt64) (pmm : PmmState) : PmmState := (pmmFreeFrame framePaddr pmm).2

def kernelPhysToVirt (hhdm paddr : UInt64) : UInt64 := hhdm + paddr

/-- `pmm_init_from_map` with the checks of its pointers; `none` is `NULL`. -/
def callPmmInitFromMap (regions : Option (List BootMemRegion)) (bitmapStorage : Option Bytes)
    (bitmapStorageBytes maxPhysBytes : UInt64) (pmm : PmmState) : Bool × PmmState :=
  match regions, bitmapStorage with
  | some regions, some storage =>
    match pmmInitFromMap regions storage bitmapStorageBytes maxPhysBytes with
    | some pmm => (true, pmm)
    | none => (false, pmm)
  | _, _ => (false, pmm)

/-- `vmm_space_init`; `none` where the code returns `VMM_ERR_INVAL`. -/
def vmmSpaceInit (rootPaddr ctx : UInt64) (allocFrame : Option (PmmState → Nat × PmmState))
    (freeFrame : Option (UInt64 → PmmState → PmmState))
    (physToVirt : Option (UInt64 → UInt64 → UInt64)) : Option KernelSpace :=
  if physToVirt.isNone ∨ !Vmm.isAligned4k rootPaddr then none
  else some ⟨rootPaddr, ctx, allocFrame, freeFrame, physToVirt⟩

/-- The body of `kernel_memory_init`, with the bitmap storage, its size and the bound of memory that
it passes to `pmm_init_from_map` as arguments. -/
def bringUp (bitmapStorage : Option Bytes) (bitmapStorageBytes maxPhysBytes : UInt64)
    (regions : Option (List BootMemRegion)) : Boot Unit := fun s =>
  let (pmmOk, pmm) :=
    callPmmInitFromMap regions bitmapStorage bitmapStorageBytes maxPhysBytes s.pmm
  let s := { s with pmm := pmm }
  if !pmmOk then kernelPanicAt "M7: Gagal inisialisasi PMM dari boot map" s
  else
    let (root, pmm) := pmmAllocFrame s.pmm
    let root := UInt64.ofNat root
    let s := { s with pmm := pmm }
    if root = Vmm.invalidPhys then kernelPanicAt "M7: cannot allocate root page table" s
    else
      let rootVirt := kernelPhysToVirt staticHhdmOffset root
      let s := { s with mem := localMemzero rootVirt Vmm.pageSize.toNat s.mem }
      match vmmSpaceInit root staticHhdmOffset (some kernelVmmAlloc) (some kernelVmmFree)
        (some kernelPhysToVirt) with
      | none => kernelPanicAt "M7: vmm_space_init failed" s
      | some space => (.ok (), { s with kernelSpace := space })

/-- `kernel_memory_init`: no storage for the bitmap, of 0 bytes, for a memory of 0 bytes. -/
def kernelMemoryInit (regions : Option (List BootMemRegion)) : Boot Unit := bringUp none 0 0 regions

/-! ## The machine, and what is to become of it -/

/-- `PMM_MAX_PHYS_BYTES`: 64 GiB. -/
def pmmMaxPhysBytes : UInt64 := 0x1000000000

/-- `PMM_BITMAP_BYTES`: a bit for every frame below it. -/
def pmmBitmapBytes : UInt64 := pmmMaxPhysBytes / 4096 / 8

/-- The frame that the root table is to be in. -/
structure LowestUsable (regions : List BootMemRegion) (f : Nat) : Prop where
  usable : UsableFrame regions f
  below : f * pmmPageSize < pmmMaxPhysBytes.toNat
  lowest : ∀ g, UsableFrame regions g → f ≤ g

/-- No region comes near the end of the address space, and there is a frame to use below 64 GiB. -/
structure UsableMachine (regions : List BootMemRegion) : Prop where
  endsBelow : ∀ r ∈ regions, r.EndsBelow
  usable : ∃ f, UsableFrame regions f ∧ f * pmmPageSize < pmmMaxPhysBytes.toNat

/-- The frame `f` is the root of the kernel space: used, and all zeros where the kernel sees it. -/
structure RootAt (s : KernelState) (f : Nat) : Prop where
  root : s.kernelSpace.rootPaddr.toNat = f * pmmPageSize
  used : bitmapTest s.pmm f = true
  zero : ∀ i, i < pmmPageSize →
    s.mem (byteAt (kernelPhysToVirt s.kernelSpace.ctx s.kernelSpace.rootPaddr) i) = 0

/-- Bring-up has ended without a panic, with the root table in the lowest frame there is. -/
def BroughtUp (regions : List BootMemRegion) (r : Except String Unit × KernelState) : Prop :=
  r.1 = .ok () ∧ ∃ f, LowestUsable regions f ∧ RootAt r.2 f

theorem UsableMachine.exists_lowest {regions : List BootMemRegion} (h : UsableMachine regions) :
    ∃ f, LowestUsable regions f := by
  classical
  obtain ⟨g, hg, hbelow⟩ := h.usable
  have hex : ∃ f, UsableFrame regions f := ⟨g, hg⟩
  have hle := Nat.find_min' hex hg
  refine ⟨Nat.find hex, Nat.find_spec hex, ?_, fun k hk => Nat.find_min' hex hk⟩
  exact lt_of_le_of_lt (Nat.mul_le_mul_right pmmPageSize hle) hbelow

theorem LowestUsable.unique {regions : List BootMemRegion} {f g : Nat} (hf : LowestUsable regions f)
    (hg : LowestUsable regions g) : f = g :=
  le_antisymm (hf.lowest g hg.usable) (hg.lowest f hf.usable)

/-! ## The steps of bring-up -/

theorem localMemzero_apply (ptr : UInt64) {size i : Nat} (hi : i < size) (m : Mem) :
    localMemzero ptr size m (byteAt ptr i) = 0 := by
  unfold localMemzero
  refine Loop.forRange_induct (fun k (m : Mem) => ∀ i, i < k → m (byteAt ptr i) = 0)
    (fun i hi => ?_) ?_ i hi
  · exact absurd hi (Nat.not_lt_zero i)
  · intro k m hk hzero j hj
    by_cases hsame : byteAt ptr j = byteAt ptr k
    · rw [hsame, Function.update_self]
    · rw [Function.update_of_ne hsame]
      refine hzero j (lt_of_le_of_ne (Nat.le_of_lt_succ hj) ?_)
      rintro rfl
      exact hsame rfl

/-- What `pmm_init_from_map` asks of its arguments. -/
theorem pmmInitFromMap_isSome_iff {regions : List BootMemRegion} {storage : Bytes}
    {bytes max : UInt64} : (pmmInitFromMap regions storage bytes max).isSome = true ↔
      regions ≠ [] ∧ max ≠ 0 ∧ max.toNat % pmmPageSize = 0 ∧
        (max.toNat / pmmPageSize + 7) / 8 ≤ bytes.toNat := by
  have halign : max &&& (4096 - 1) = 0 ↔ max.toNat % pmmPageSize = 0 := by
    rw [← UInt64.toNat_inj, and_4095]
    rfl
  unfold pmmInitFromMap
  rw [← halign]
  split_ifs with hregions hmax hbytes
  · exact ⟨nofun, fun h => absurd (List.length_eq_zero_iff.mp hregions) h.1⟩
  · refine ⟨nofun, fun h => ?_⟩
    rcases hmax with hzero | hodd
    · exact absurd hzero h.2.1
    · exact absurd h.2.2.1 hodd
  · exact ⟨nofun, fun h => absurd h.2.2.2 (not_le.mpr hbytes)⟩
  · obtain ⟨hzero, hodd⟩ := not_or.mp hmax
    exact ⟨fun _ => ⟨fun h => hregions (List.length_eq_zero_iff.mpr h), hzero, not_not.mp hodd,
      not_lt.mp hbytes⟩, fun _ => rfl⟩

section Steps

variable {regions : List BootMemRegion} {bytes max : UInt64} {s : KernelState}

/-- The first panic: there is no frame allocator. -/
theorem bringUp_refused {storage : Option Bytes} (s : KernelState)
    (h : ∀ b, storage = some b → pmmInitFromMap regions b bytes max = none) :
    bringUp storage bytes max (some regions) s =
      (.error "M7: Gagal inisialisasi PMM dari boot map", s) := by
  have hcall : callPmmInitFromMap (some regions) storage bytes max s.pmm = (false, s.pmm) := by
    cases storage with
    | none => rfl
    | some b =>
      unfold callPmmInitFromMap
      dsimp only
      rw [h b rfl]
  unfold bringUp
  rw [hcall]
  rfl

/-- With a frame allocator, bring-up panics as there is no frame, or puts the root table into the
lowest free one. -/
theorem bringUp_taken {storage : Bytes} {pmm : PmmState} (s : KernelState) (hinv : PmmInv pmm)
    (hinit : pmmInitFromMap regions storage bytes max = some pmm) :
    (freeSet pmm = ∅ ∧ (bringUp (some storage) bytes max (some regions) s).1 =
      .error "M7: cannot allocate root page table") ∨
    ∃ f s', f ∈ freeSet pmm ∧ (∀ g ∈ freeSet pmm, f ≤ g) ∧
      bringUp (some storage) bytes max (some regions) s = (.ok (), s') ∧ RootAt s' f := by
  have hcall : callPmmInitFromMap (some regions) (some storage) bytes max s.pmm = (true, pmm) := by
    unfold callPmmInitFromMap
    dsimp only
    rw [hinit]
  rcases pmmAllocFrame_cases hinv with ⟨hempty, halloc⟩ | ⟨f, hf, hmin, halloc⟩
  · refine Or.inl ⟨hempty, ?_⟩
    have hinvalid : UInt64.ofNat pmmInvalidFrame = Vmm.invalidPhys := by decide
    unfold bringUp
    rw [hcall]
    dsimp only
    rw [halloc]
    dsimp only
    rw [if_neg (by decide), if_pos hinvalid]
    rfl
  · obtain ⟨hfc, -⟩ := mem_freeSet.mp hf
    have hphys : pmm.maxPhys = pmm.frameCount * 4096 := hinv.core.maxPhys_eq
    have hlt := hinv.core.maxPhys_lt
    have hroot : (UInt64.ofNat (f * pmmPageSize)).toNat = f * pmmPageSize := by
      rw [UInt64.toNat_ofNat', Nat.mod_eq_of_lt]
      unfold pmmPageSize
      omega
    have hvalid : UInt64.ofNat (f * pmmPageSize) ≠ Vmm.invalidPhys := fun he => by
      rw [he] at hroot
      exact frame_addr_ne_invalid f hroot.symm
    have haligned : Vmm.isAligned4k (UInt64.ofNat (f * pmmPageSize)) = true := by
      rw [Vmm.isAligned4k_iff, hroot]
      exact Nat.mul_mod_left f 4096
    have hspace : vmmSpaceInit (UInt64.ofNat (f * pmmPageSize)) staticHhdmOffset
        (some kernelVmmAlloc) (some kernelVmmFree) (some kernelPhysToVirt) =
        some ⟨UInt64.ofNat (f * pmmPageSize), staticHhdmOffset, some kernelVmmAlloc,
          some kernelVmmFree, some kernelPhysToVirt⟩ := by
      unfold vmmSpaceInit
      rw [haligned, if_neg (by simp)]
    refine Or.inr ⟨f, ?_, hf, hmin, ?_, ?_⟩
    rotate_left
    · unfold bringUp
      rw [hcall]
      dsimp only
      rw [halloc]
      dsimp only
      rw [if_neg (by decide), if_neg hvalid, hspace]
    · refine ⟨hroot, ?_, fun i hi => ?_⟩
      · show bitmapTest (markFrameUsed f pmm) f = true
        rw [markFrameUsed_test hfc]
        simp
      · have hsize : Vmm.pageSize.toNat = pmmPageSize := by decide
        dsimp only
        rw [hsize, localMemzero_apply _ hi]

/-- **What bring-up needs.** It ends with the root table in the lowest usable frame just when it
has storage for the bitmap, a bound of memory that is a whole number of pages and that the storage
is enough for, and this frame is below the bound. -/
theorem bringUp_iff {storage : Option Bytes} {f : Nat} (hends : ∀ r ∈ regions, r.EndsBelow)
    (hf : LowestUsable regions f) : BroughtUp regions (bringUp storage bytes max (some regions) s) ↔
      storage.isSome = true ∧ max.toNat % pmmPageSize = 0 ∧
        (max.toNat / pmmPageSize + 7) / 8 ≤ bytes.toNat ∧ f * pmmPageSize < max.toNat := by
  have hne : regions ≠ [] := by
    rintro rfl
    obtain ⟨-, ⟨r, hr, -⟩, -⟩ := hf.usable
    exact absurd hr List.not_mem_nil
  cases storage with
  | none =>
    have hnone : ∀ b, (none : Option Bytes) = some b →
        pmmInitFromMap regions b bytes max = none := nofun
    rw [bringUp_refused s hnone]
    exact ⟨fun h => (nomatch h.1), nofun⟩
  | some storage =>
    cases hinit : pmmInitFromMap regions storage bytes max with
    | none =>
      rw [bringUp_refused s fun b hb => Option.some.inj hb ▸ hinit]
      refine ⟨fun h => (nomatch h.1), fun h => ?_⟩
      obtain ⟨-, halign, hbytes, hbelow⟩ := h
      have hmax : max ≠ 0 := by
        rintro rfl
        exact absurd hbelow (Nat.not_lt_zero _)
      have hsome : (pmmInitFromMap regions storage bytes max).isSome = true :=
        pmmInitFromMap_isSome_iff.mpr ⟨hne, hmax, halign, hbytes⟩
      rw [hinit] at hsome
      exact nomatch hsome
    | some pmm =>
      have hresult := pmmInitFromMap_result hinit
      obtain ⟨-, -, halign, hbytes⟩ :=
        pmmInitFromMap_isSome_iff.mp (Option.isSome_iff_exists.mpr ⟨pmm, hinit⟩)
      rcases bringUp_taken s hresult.inv hinit with
        ⟨hempty, hpanic⟩ | ⟨g, s', hg, hmin, hrun, hroot⟩
      · refine ⟨fun h => ?_, fun h => ?_⟩
        · have hok := h.1
          rw [hpanic] at hok
          exact nomatch hok
        · have hmem := (hresult.mem_freeSet hends).mpr ⟨h.2.2.2, hf.usable⟩
          rw [hempty] at hmem
          exact absurd hmem (Finset.notMem_empty f)
      · obtain ⟨hbelow, husable⟩ := (hresult.mem_freeSet hends).mp hg
        rw [hrun]
        refine ⟨fun h => ?_, fun h => ⟨rfl, f, hf, ?_⟩⟩
        · -- the root is in one frame only, so the one taken is the lowest
          obtain ⟨-, k, hk, hrootk⟩ := h
          have hsame : g * pmmPageSize = f * pmmPageSize := by
            rw [hf.unique hk, ← hrootk.root, hroot.root]
          exact ⟨rfl, halign, hbytes, hsame ▸ hbelow⟩
        · have hle := hmin f ((hresult.mem_freeSet hends).mpr ⟨h.2.2.2, hf.usable⟩)
          rwa [le_antisymm (hf.lowest g husable) hle]

/-- With the sizes of `pmm.h` it succeeds on every usable machine. -/
theorem UsableMachine.broughtUp (h : UsableMachine regions) (storage : Bytes) (s : KernelState) :
    BroughtUp regions
      (bringUp (some storage) pmmBitmapBytes pmmMaxPhysBytes (some regions) s) := by
  obtain ⟨f, hf⟩ := h.exists_lowest
  exact (bringUp_iff h.endsBelow hf).mpr ⟨rfl, by decide, by decide, hf.below⟩

end Steps

/-! ## `kernel_memory_init`

It has neither storage nor a bound to give to the frame allocator, which asks for both.
-/

/-- **The kernel does not come up.** On every machine, `kernel_memory_init` ends in its first panic,
with nothing done. -/
theorem kernelMemoryInit_panics (regions : List BootMemRegion) (s : KernelState) :
    kernelMemoryInit (some regions) s = (.error "M7: Gagal inisialisasi PMM dari boot map", s) :=
  bringUp_refused s nofun

/-- So no memory map at all leads to a kernel space. -/
theorem kernelMemoryInit_never (regions : List BootMemRegion) (s : KernelState) :
    ¬BroughtUp regions (kernelMemoryInit (some regions) s) := by
  rw [kernelMemoryInit_panics]
  exact fun h => nomatch h.1

/-- One mebibyte of usable memory from 1 MiB on. -/
def oneRegion : List BootMemRegion := [⟨0x100000, 0x100000, bootMemUsable⟩]

theorem oneRegion_usableMachine : UsableMachine oneRegion where
  endsBelow := by
    intro r hr
    rw [List.mem_singleton.mp hr]
    unfold BootMemRegion.EndsBelow
    decide
  usable := by
    have hmem : (⟨0x100000, 0x100000, bootMemUsable⟩ : BootMemRegion) ∈ oneRegion :=
      List.mem_singleton.mpr rfl
    refine ⟨0x100, ⟨by decide, ⟨_, hmem, rfl, ?_⟩, fun r hr htype => ?_⟩, by decide⟩
    · unfold BootMemRegion.Contains
      decide
    · rw [List.mem_singleton.mp hr] at htype
      exact absurd rfl htype

/-- A machine with a mebibyte to use, from any state: bring-up panics. -/
theorem kernelMemoryInit_panics_on_usable : ¬∀ regions s, UsableMachine regions →
    BroughtUp regions (kernelMemoryInit (some regions) s) := by
  intro h
  let s : KernelState := ⟨pmmBlank (fun _ => 0) 0, fun _ => 0, 0, 0, none, none, none⟩
  have hup := (h oneRegion s oneRegion_usableMachine).1
  rw [kernelMemoryInit_panics] at hup
  exact nomatch hup

end Mcsos.KernelMemory
