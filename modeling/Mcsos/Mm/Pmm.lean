import Mcsos.Lib.Bitmap
import Mcsos.Lib.Loop

set_option autoImplicit false

/-! # The physical frame allocator (`src/pmm.c`)

One bit of a bitmap for every 4 KiB frame below `max_phys`: set means used or reserved,
clear means free. Arguments that come from outside (region bounds, addresses, lengths) are
64-bit words, and the roundings and sums made of them wrap as in C. Frame numbers and the
free and used counters stay below `2 ^ 52` and are natural numbers; the two statistics that
only ever grow wrap at `2 ^ 64`.
-/

namespace Mcsos.Pmm

open Loop

def pmmPageSize : Nat := 4096

def pmmInvalidFrame : Nat := 0xffffffffffffffff

def bootMemUsable : UInt32 := 1

/-- `struct boot_mem_region` -/
structure BootMemRegion where
  base : UInt64
  length : UInt64
  type : UInt32
  deriving DecidableEq, Repr

/-- `struct pmm_state` -/
structure PmmState where
  bitmap : Bytes
  bitmapBytes : Nat
  maxPhys : Nat
  frameCount : Nat
  freeFrames : Nat
  usedFrames : Nat
  reservedFrames : Nat
  ignoredFrames : Nat
  nextHint : Nat
  initialized : Bool

/-! ## Roundings and sums -/

def alignDown (value align : UInt64) : UInt64 := value &&& ~~~(align - 1)

def alignUp (value align : UInt64) : UInt64 := (value + align - 1) &&& ~~~(align - 1)

/-- `none` where the sum would exceed `UINT64_MAX`. -/
def checkedAddU64 (a b : UInt64) : Option UInt64 :=
  if 0xffffffffffffffff - a < b then none else some (a + b)

/-! ## Marking -/

def bitmapTest (pmm : PmmState) (frame : Nat) : Bool := Bitmap.test pmm.bitmap frame

def markFrameFree (frame : Nat) (pmm : PmmState) : PmmState :=
  if pmm.frameCount ≤ frame then pmm
  else if bitmapTest pmm frame then
    { pmm with
      bitmap := Bitmap.clear pmm.bitmap frame
      freeFrames := pmm.freeFrames + 1
      usedFrames := if 0 < pmm.usedFrames then pmm.usedFrames - 1 else pmm.usedFrames
      nextHint := if frame < pmm.nextHint then frame else pmm.nextHint }
  else pmm

def markFrameUsed (frame : Nat) (pmm : PmmState) : PmmState :=
  if pmm.frameCount ≤ frame then pmm
  else if !bitmapTest pmm frame then
    { pmm with
      bitmap := Bitmap.set pmm.bitmap frame
      freeFrames := if 0 < pmm.freeFrames then pmm.freeFrames - 1 else pmm.freeFrames
      usedFrames := pmm.usedFrames + 1 }
  else pmm

def markRangeFree (base length : UInt64) (pmm : PmmState) : PmmState :=
  if length = 0 then pmm else
  match checkedAddU64 base length with
  | none => pmm
  | some stopAddr =>
    let start := (alignUp base 4096).toNat
    let stop := (alignDown stopAddr 4096).toNat
    if stop ≤ start then pmm
    else if pmm.maxPhys ≤ start then pmm
    else if pmm.maxPhys < stop then
      forRange start pmm.maxPhys pmmPageSize (fun addr => markFrameFree (addr / pmmPageSize))
        { pmm with ignoredFrames :=
            (pmm.ignoredFrames + (stop - pmm.maxPhys) / pmmPageSize) % 2 ^ 64 }
    else
      forRange start stop pmmPageSize (fun addr => markFrameFree (addr / pmmPageSize)) pmm

/-- The body of the loop of `mark_range_used`. -/
def markAddrUsed (addr : Nat) (pmm : PmmState) : PmmState :=
  let wasFree := !bitmapTest pmm (addr / pmmPageSize)
  let pmm := markFrameUsed (addr / pmmPageSize) pmm
  if wasFree then { pmm with reservedFrames := (pmm.reservedFrames + 1) % 2 ^ 64 } else pmm

def markRangeUsed (base length : UInt64) (pmm : PmmState) : PmmState :=
  if length = 0 then pmm else
  match checkedAddU64 base length with
  | none => pmm
  | some stopAddr =>
    let start := (alignDown base 4096).toNat
    let stop := (alignUp stopAddr 4096).toNat
    if stop ≤ start then pmm
    else if pmm.maxPhys ≤ start then pmm
    else if pmm.maxPhys < stop then forRange start pmm.maxPhys pmmPageSize markAddrUsed pmm
    else forRange start stop pmmPageSize markAddrUsed pmm

/-! ## The interface -/

/-- The state `pmm_init_from_map` starts marking from: every frame used. -/
def pmmBlank (storage : Bytes) (maxPhysBytes : UInt64) : PmmState :=
  let frameCount := maxPhysBytes.toNat / pmmPageSize
  let requiredBitmapBytes := (frameCount + 7) / 8
  { bitmap := storage.fill 0 requiredBitmapBytes 0xff
    bitmapBytes := requiredBitmapBytes
    maxPhys := maxPhysBytes.toNat
    frameCount := frameCount
    freeFrames := 0
    usedFrames := frameCount
    reservedFrames := 0
    ignoredFrames := 0
    nextHint := 0
    initialized := false }

/-- The first loop of `pmm_init_from_map`. -/
def freeUsableRegions (regions : List BootMemRegion) (pmm : PmmState) : PmmState :=
  regions.foldl (fun pmm r =>
    if r.type = bootMemUsable then markRangeFree r.base r.length pmm else pmm) pmm

/-- The second loop of `pmm_init_from_map`. -/
def reserveOtherRegions (regions : List BootMemRegion) (pmm : PmmState) : PmmState :=
  regions.foldl (fun pmm r =>
    if r.type ≠ bootMemUsable then markRangeUsed r.base r.length pmm else pmm) pmm

/-- `none` where the code returns false. -/
def pmmInitFromMap (regions : List BootMemRegion) (storage : Bytes)
    (bitmapStorageBytes maxPhysBytes : UInt64) : Option PmmState :=
  if regions.length = 0 then none
  else if maxPhysBytes = 0 ∨ maxPhysBytes &&& (4096 - 1) ≠ 0 then none
  else if bitmapStorageBytes.toNat < (maxPhysBytes.toNat / pmmPageSize + 7) / 8 then none
  else
    let pmm := freeUsableRegions regions (pmmBlank storage maxPhysBytes)
    let pmm := markRangeUsed 0 4096 pmm
    let pmm := reserveOtherRegions regions pmm
    some { pmm with initialized := true }

/-- The scans of `pmm_alloc_frame`: from the hint up, then below the hint. -/
def findFreeFrame (pmm : PmmState) : Option Nat :=
  match findFrom (fun f => !bitmapTest pmm f) pmm.nextHint (pmm.frameCount - pmm.nextHint) with
  | some frame => some frame
  | none => findFrom (fun f => !bitmapTest pmm f) 0 pmm.nextHint

def pmmAllocFrame (pmm : PmmState) : Nat × PmmState :=
  if !pmm.initialized ∨ pmm.freeFrames = 0 then (pmmInvalidFrame, pmm)
  else
    match findFreeFrame pmm with
    | some frame =>
      (frame * pmmPageSize, { markFrameUsed frame pmm with nextHint := frame + 1 })
    | none => (pmmInvalidFrame, pmm)

def pmmFreeFrame (physAddr : UInt64) (pmm : PmmState) : Bool × PmmState :=
  if !pmm.initialized then (false, pmm)
  else if physAddr &&& (4096 - 1) ≠ 0 ∨ physAddr = 0 ∨ pmm.maxPhys ≤ physAddr.toNat then
    (false, pmm)
  else
    let frame := physAddr.toNat / pmmPageSize
    if !bitmapTest pmm frame then (false, pmm)
    else (true, markFrameFree frame pmm)

def pmmReserveRange (base length : UInt64) (pmm : PmmState) : Bool × PmmState :=
  if !pmm.initialized ∨ length = 0 then (false, pmm)
  else (true, markRangeUsed base length pmm)

def pmmIsFrameFree (pmm : PmmState) (physAddr : UInt64) : Bool :=
  if !pmm.initialized then false
  else if physAddr &&& (4096 - 1) ≠ 0 ∨ pmm.maxPhys ≤ physAddr.toNat then false
  else !bitmapTest pmm (physAddr.toNat / pmmPageSize)

end Mcsos.Pmm
