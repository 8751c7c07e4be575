import Mathlib.Tactic

set_option autoImplicit false

/-! # Four-level page tables (`src/vmm.c`)

`P` is the type of pointers to page tables. What the kernel around the code provides is a
parameter: `physToVirt` is the callback `phys_to_virt`, with `none` for `NULL`,
`allocFrame n` the answer to the `n`-th call of `alloc_frame`, together with what the frame
still holds from its last use, and `freeFrame` says whether there is a callback `free_frame`.
-/

namespace Mcsos.Vmm

def ptePresent : UInt64 := (1 : UInt64) <<< 0
def pteWritable : UInt64 := (1 : UInt64) <<< 1
def pteUser : UInt64 := (1 : UInt64) <<< 2
def pteWriteThrough : UInt64 := (1 : UInt64) <<< 3
def pteCacheDisable : UInt64 := (1 : UInt64) <<< 4
def pteHuge : UInt64 := (1 : UInt64) <<< 7
def pteGlobal : UInt64 := (1 : UInt64) <<< 8
def pteNoExecute : UInt64 := (1 : UInt64) <<< 63
def pteAddrMask : UInt64 := 0x000FFFFFFFFFF000
def invalidPhys : UInt64 := 0xFFFFFFFFFFFFFFFF
def pageSize : UInt64 := 4096
def entriesPerTable : Nat := 512

/-- `VMM_ERR_*` -/
inductive VmmErr where
  | inval | nomem | exists | notFound
  deriving DecidableEq, Repr

/-- The callbacks and the root of a `struct vmm_space`. -/
structure VmmSpace (P : Type) where
  rootPaddr : UInt64
  allocFrame : Nat → UInt64 × (Nat → UInt64)
  freeFrame : Bool
  physToVirt : UInt64 → Option P

/-- The entries of all page tables, how often `alloc_frame` has been called, and the frames that
`free_frame` has been called with, the latest first. -/
structure VmmState (P : Type) where
  mem : P → Nat → UInt64
  calls : Nat
  freed : List UInt64

/-- `struct vmm_mapping` -/
structure VmmMapping where
  vaddr : UInt64
  paddr : UInt64
  flags : UInt64
  deriving DecidableEq, Repr

def isAligned4k (value : UInt64) : Bool := value &&& (pageSize - 1) = 0

def isCanonical (vaddr : UInt64) : Bool :=
  let sign := (vaddr >>> 47) &&& 1
  let upper := vaddr >>> 48
  if sign ≠ 0 then upper = 0xFFFF else upper = 0

def idxPml4 (vaddr : UInt64) : Nat := ((vaddr >>> 39) &&& 0x1FF).toNat
def idxPdpt (vaddr : UInt64) : Nat := ((vaddr >>> 30) &&& 0x1FF).toNat
def idxPd (vaddr : UInt64) : Nat := ((vaddr >>> 21) &&& 0x1FF).toNat
def idxPt (vaddr : UInt64) : Nat := ((vaddr >>> 12) &&& 0x1FF).toNat

variable {P : Type}

def tableFromPhys (space : VmmSpace P) (paddr : UInt64) : Option P :=
  if !isAligned4k paddr then none else space.physToVirt paddr

/-- One level of the walk of `vmm_query_page` and `vmm_unmap_page`, which do not allocate. -/
def nextTable (space : VmmSpace P) (table : P) (index : Nat) (s : VmmState P) :
    Except VmmErr P :=
  let e := s.mem table index
  if e &&& ptePresent = 0 ∨ e &&& pteHuge ≠ 0 then .error .notFound
  else
    match tableFromPhys space (e &&& pteAddrMask) with
    | none => .error .inval
    | some next => .ok next

/-- The page table that holds the entry of `vaddr`: the common part of `vmm_query_page` and
`vmm_unmap_page`. -/
def walkToPt (space : VmmSpace P) (vaddr : UInt64) (s : VmmState P) : Except VmmErr P :=
  if !isCanonical vaddr ∨ !isAligned4k vaddr then .error .inval
  else
    match tableFromPhys space space.rootPaddr with
    | none => .error .inval
    | some pml4 => do
      let pdpt ← nextTable space pml4 (idxPml4 vaddr) s
      let pd ← nextTable space pdpt (idxPdpt vaddr) s
      nextTable space pd (idxPd vaddr) s

def queryPage (space : VmmSpace P) (vaddr : UInt64) (s : VmmState P) :
    Except VmmErr VmmMapping :=
  match walkToPt space vaddr s with
  | .error rc => .error rc
  | .ok pt =>
    let e := s.mem pt (idxPt vaddr)
    if e &&& ptePresent = 0 then .error .notFound
    else .ok ⟨vaddr, e &&& pteAddrMask, e &&& ~~~pteAddrMask⟩

/-- The call of `free_frame`. -/
def callFreeFrame (space : VmmSpace P) (paddr : UInt64) (s : VmmState P) : VmmState P :=
  if space.freeFrame then { s with freed := paddr :: s.freed } else s

@[simp] theorem callFreeFrame_mem (space : VmmSpace P) (paddr : UInt64) (s : VmmState P) :
    (callFreeFrame space paddr s).mem = s.mem := by
  unfold callFreeFrame
  split <;> rfl

@[simp] theorem callFreeFrame_calls (space : VmmSpace P) (paddr : UInt64) (s : VmmState P) :
    (callFreeFrame space paddr s).calls = s.calls := by
  unfold callFreeFrame
  split <;> rfl

variable [DecidableEq P]

namespace VmmState

/-- `table[index] = entry` -/
def set (s : VmmState P) (table : P) (index : Nat) (entry : UInt64) : VmmState P :=
  { s with mem := Function.update s.mem table (Function.update (s.mem table) index entry) }

end VmmState

/-- `vmm_zero_page` -/
def zeroPage (page : P) (s : VmmState P) : VmmState P :=
  let zeroed := fun i => if i < entriesPerTable then 0 else s.mem page i
  { s with mem := Function.update s.mem page zeroed }

/-- The call of `alloc_frame`: the frame it answers has its old content. -/
def callAllocFrame (space : VmmSpace P) (s : VmmState P) : UInt64 × VmmState P :=
  let answer := space.allocFrame s.calls
  let s := { s with calls := s.calls + 1 }
  if answer.1 = invalidPhys then (answer.1, s)
  else
    match space.physToVirt answer.1 with
    | none => (answer.1, s)
    | some page => (answer.1, { s with mem := Function.update s.mem page answer.2 })

/-- `get_or_alloc_next_table` -/
def getOrAllocNextTable (space : VmmSpace P) (table : P) (index : Nat) (s : VmmState P) :
    Except VmmErr P × VmmState P :=
  let entry := s.mem table index
  if entry &&& ptePresent ≠ 0 then
    if entry &&& pteHuge ≠ 0 then (.error .exists, s)
    else
      match tableFromPhys space (entry &&& pteAddrMask) with
      | none => (.error .inval, s)
      | some next => (.ok next, s)
  else
    let (newPaddr, s) := callAllocFrame space s
    if newPaddr = invalidPhys ∨ !isAligned4k newPaddr then (.error .nomem, s)
    else
      match tableFromPhys space newPaddr with
      | none => (.error .inval, callFreeFrame space newPaddr s)
      | some newTable =>
        let s := zeroPage newTable s
        (.ok newTable,
          s.set table index ((newPaddr &&& pteAddrMask) ||| ptePresent ||| pteWritable))

/-- `allowed` in `vmm_map_page` -/
def allowed : UInt64 :=
  pteWritable ||| pteUser ||| pteWriteThrough ||| pteCacheDisable ||| pteGlobal ||| pteNoExecute

def mapPage (space : VmmSpace P) (vaddr paddr flags : UInt64) (s : VmmState P) :
    Except VmmErr Unit × VmmState P :=
  if !isCanonical vaddr ∨ !isAligned4k vaddr ∨ !isAligned4k paddr then (.error .inval, s)
  else
    match tableFromPhys space space.rootPaddr with
    | none => (.error .inval, s)
    | some pml4 =>
      match getOrAllocNextTable space pml4 (idxPml4 vaddr) s with
      | (.error rc, s) => (.error rc, s)
      | (.ok pdpt, s) =>
        match getOrAllocNextTable space pdpt (idxPdpt vaddr) s with
        | (.error rc, s) => (.error rc, s)
        | (.ok pd, s) =>
          match getOrAllocNextTable space pd (idxPd vaddr) s with
          | (.error rc, s) => (.error rc, s)
          | (.ok pt, s) =>
            if s.mem pt (idxPt vaddr) &&& ptePresent ≠ 0 then (.error .exists, s)
            else
              (.ok (), s.set pt (idxPt vaddr)
                ((paddr &&& pteAddrMask) ||| ptePresent ||| (flags &&& allowed)))

def unmapPage (space : VmmSpace P) (vaddr : UInt64) (s : VmmState P) :
    Except VmmErr Unit × VmmState P :=
  match walkToPt space vaddr s with
  | .error rc => (.error rc, s)
  | .ok pt =>
    if s.mem pt (idxPt vaddr) &&& ptePresent = 0 then (.error .notFound, s)
    else (.ok (), s.set pt (idxPt vaddr) 0)

end Mcsos.Vmm
