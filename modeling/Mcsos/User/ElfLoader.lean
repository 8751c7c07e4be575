import Mcsos.Lib.Bytes

set_option autoImplicit false

/-! # The ELF loader (`kernel/user/m11_elf_loader.c`)

The loader reads an ELF64 image and makes a plan: where the process starts, and which parts of the
image go where. An `Image` is a memory of which the first `size` bytes are the image. A read that
leaves them has no result, so what the loader returns says whether it made one.
-/

namespace Mcsos.User

def m11Ok : Int := 0
def m11ErrSize : Int := -2
def m11ErrMagic : Int := -3
def m11ErrClass : Int := -4
def m11ErrEndian : Int := -5
def m11ErrVersion : Int := -6
def m11ErrType : Int := -7
def m11ErrMachine : Int := -8
def m11ErrEhsize : Int := -9
def m11ErrPhentsize : Int := -10
def m11ErrPhbounds : Int := -11
def m11ErrAlign : Int := -12
def m11ErrSegbounds : Int := -13
def m11ErrSegrange : Int := -14
def m11ErrSegcount : Int := -15
def m11ErrEntry : Int := -16
def m11ErrFlags : Int := -17

def elfMag0 : UInt8 := 0x7f
def elfMag1 : UInt8 := 0x45
def elfMag2 : UInt8 := 0x4c
def elfMag3 : UInt8 := 0x46
def elfClass64 : UInt8 := 2
def elfData2Lsb : UInt8 := 1
def evCurrent : UInt8 := 1
def etExec : UInt16 := 2
def etDyn : UInt16 := 3
def emX86_64 : UInt16 := 62
def ptLoad : UInt32 := 1
def pfX : UInt32 := 1
def pfW : UInt32 := 2
def pfR : UInt32 := 4
def maxLoadSegments : Nat := 8

/-- `sizeof(struct m11_elf64_ehdr)`. -/
def ehdrSize : UInt16 := 64

/-- `sizeof(struct m11_elf64_phdr)`. -/
def phdrSize : UInt16 := 56

/-- What the loader uses of `struct m11_elf64_ehdr`. -/
structure Ehdr where
  eIdent : Fin 16 → UInt8
  eType : UInt16
  eMachine : UInt16
  eVersion : UInt32
  eEntry : UInt64
  ePhoff : UInt64
  eEhsize : UInt16
  ePhentsize : UInt16
  ePhnum : UInt16

/-- What the loader uses of `struct m11_elf64_phdr`. -/
structure Phdr where
  pType : UInt32
  pFlags : UInt32
  pOffset : UInt64
  pVaddr : UInt64
  pFilesz : UInt64
  pMemsz : UInt64
  pAlign : UInt64

/-- `struct m11_user_region`. -/
structure UserRegion where
  base : UInt64
  limit : UInt64

/-- `struct m11_segment_plan`. -/
structure SegmentPlan where
  fileOffset : UInt64
  vaddr : UInt64
  filesz : UInt64
  memsz : UInt64
  align : UInt64
  flags : UInt32
  deriving DecidableEq

/-- `struct m11_process_image_plan`; there are always `M11_MAX_LOAD_SEGMENTS` segments. -/
structure ProcessImagePlan where
  entry : UInt64
  segmentCount : UInt32
  segments : List SegmentPlan
  deriving DecidableEq

/-! ## The image -/

structure Image where
  bytes : Bytes
  size : UInt64

def Ehdr.ofBytes (b : Bytes) : Ehdr where
  eIdent := fun i => b i
  eType := .ofNat (b.load 16 2)
  eMachine := .ofNat (b.load 18 2)
  eVersion := .ofNat (b.load 20 4)
  eEntry := .ofNat (b.load 24 8)
  ePhoff := .ofNat (b.load 32 8)
  eEhsize := .ofNat (b.load 52 2)
  ePhentsize := .ofNat (b.load 54 2)
  ePhnum := .ofNat (b.load 56 2)

def Phdr.ofBytes (b : Bytes) (off : Nat) : Phdr where
  pType := .ofNat (b.load off 4)
  pFlags := .ofNat (b.load (off + 4) 4)
  pOffset := .ofNat (b.load (off + 8) 8)
  pVaddr := .ofNat (b.load (off + 16) 8)
  pFilesz := .ofNat (b.load (off + 32) 8)
  pMemsz := .ofNat (b.load (off + 40) 8)
  pAlign := .ofNat (b.load (off + 48) 8)

/-- Read the header; a header that is not in the image whole has no result. -/
def Image.readEhdr (image : Image) : Option Ehdr :=
  if ehdrSize.toNat ≤ image.size.toNat then some (Ehdr.ofBytes image.bytes) else none

/-- Read a program header. -/
def Image.readPhdr (image : Image) (off : Nat) : Option Phdr :=
  if off + phdrSize.toNat ≤ image.size.toNat then some (Phdr.ofBytes image.bytes off) else none

/-! ## The checks -/

/-- `m11_add_overflow_u64`: the sum, where it does not wrap. -/
def addOverflowU64 (a b : UInt64) : Option UInt64 :=
  let r := a + b
  if r < a then none else some r

def isPowerOfTwoU64 (v : UInt64) : Bool := v ≠ 0 && v &&& (v - 1) = 0

def zeroSegment : SegmentPlan := ⟨0, 0, 0, 0, 0, 0⟩

/-- What `m11_zero_plan` leaves. -/
def zeroPlan : ProcessImagePlan := ⟨0, 0, List.replicate maxLoadSegments zeroSegment⟩

def validateUserRange (region : UserRegion) (base size : UInt64) : Int :=
  if region.limit ≤ region.base then m11ErrSegrange
  else if size = 0 then m11ErrSegrange
  else
    match addOverflowU64 base size with
    | none => m11ErrSegrange
    | some end_ =>
      if base < region.base ∨ region.limit < end_ ∨ end_ ≤ base then m11ErrSegrange else m11Ok

def validateIdent (eh : Ehdr) : Int :=
  if eh.eIdent 0 ≠ elfMag0 ∨ eh.eIdent 1 ≠ elfMag1 ∨ eh.eIdent 2 ≠ elfMag2 ∨
      eh.eIdent 3 ≠ elfMag3 then m11ErrMagic
  else if eh.eIdent 4 ≠ elfClass64 then m11ErrClass
  else if eh.eIdent 5 ≠ elfData2Lsb then m11ErrEndian
  else if eh.eIdent 6 ≠ evCurrent ∨ eh.eVersion ≠ evCurrent.toUInt32 then m11ErrVersion
  else m11Ok

def validatePhdrBounds (eh : Ehdr) (imageSize : UInt64) : Int :=
  if eh.ePhnum = 0 then m11ErrPhbounds
  else if eh.ePhentsize ≠ phdrSize then m11ErrPhentsize
  else
    let phTableBytes := eh.ePhentsize.toUInt64 * eh.ePhnum.toUInt64
    if eh.ePhnum ≠ 0 ∧ phTableBytes / eh.ePhnum.toUInt64 ≠ eh.ePhentsize.toUInt64 then
      m11ErrPhbounds
    else
      match addOverflowU64 eh.ePhoff phTableBytes with
      | none => m11ErrPhbounds
      | some phEnd =>
        if imageSize < phEnd ∨ imageSize < eh.ePhoff then m11ErrPhbounds else m11Ok

def validateLoadSegment (ph : Phdr) (imageSize : UInt64) (region : UserRegion) : Int :=
  if ph.pFlags &&& ~~~(pfR ||| pfW ||| pfX) ≠ 0 then m11ErrFlags
  else if ph.pFlags &&& pfW ≠ 0 ∧ ph.pFlags &&& pfX ≠ 0 then m11ErrFlags
  else if ph.pMemsz < ph.pFilesz then m11ErrSegbounds
  else if ph.pAlign ≠ 0 ∧ ph.pAlign ≠ 1 ∧ ¬isPowerOfTwoU64 ph.pAlign then m11ErrAlign
  else if ph.pAlign ≠ 0 ∧ ph.pAlign ≠ 1 ∧ ph.pVaddr % ph.pAlign ≠ ph.pOffset % ph.pAlign then
    m11ErrAlign
  else
    match addOverflowU64 ph.pOffset ph.pFilesz with
    | none => m11ErrSegbounds
    | some fileEnd =>
      if imageSize < fileEnd ∨ imageSize < ph.pOffset then m11ErrSegbounds
      else validateUserRange region ph.pVaddr ph.pMemsz

/-! ## The plan -/

/-- The fields that a planned segment takes from its header. -/
def Phdr.segment (ph : Phdr) : SegmentPlan :=
  ⟨ph.pOffset, ph.pVaddr, ph.pFilesz, ph.pMemsz, ph.pAlign, ph.pFlags⟩

/-- One more segment. -/
def ProcessImagePlan.push (plan : ProcessImagePlan) (seg : SegmentPlan) : ProcessImagePlan :=
  { plan with
    segments := plan.segments.set plan.segmentCount.toNat seg
    segmentCount := plan.segmentCount + 1 }

/-- The `n` turns of the segment loop from header `i` on: the plan, or the error it stops with. -/
def planSegments (image : Image) (region : UserRegion) (phoff : Nat) :
    (n i : Nat) → ProcessImagePlan → Option (Except Int ProcessImagePlan)
  | 0, _, plan => some (.ok plan)
  | n + 1, i, plan => do
    let ph ← image.readPhdr (phoff + phdrSize.toNat * i)
    if ph.pType ≠ ptLoad then planSegments image region phoff n (i + 1) plan
    else if maxLoadSegments ≤ plan.segmentCount.toNat then some (.error m11ErrSegcount)
    else
      let rc := validateLoadSegment ph image.size region
      if rc ≠ m11Ok then some (.error rc)
      else planSegments image region phoff n (i + 1) (plan.push ph.segment)

/-- `m11_elf64_plan_load`: the return value and the plan, whatever the plan held before. -/
def elf64PlanLoad (image : Image) (region : UserRegion) : Option (Int × ProcessImagePlan) :=
  if image.size < ehdrSize.toUInt64 then some (m11ErrSize, zeroPlan)
  else do
    let eh ← image.readEhdr
    let rc := validateIdent eh
    if rc ≠ m11Ok then some (rc, zeroPlan)
    else if eh.eType ≠ etExec ∧ eh.eType ≠ etDyn then some (m11ErrType, zeroPlan)
    else if eh.eMachine ≠ emX86_64 then some (m11ErrMachine, zeroPlan)
    else if eh.eEhsize ≠ ehdrSize then some (m11ErrEhsize, zeroPlan)
    else
      let rc := validatePhdrBounds eh image.size
      if rc ≠ m11Ok then some (rc, zeroPlan)
      else if validateUserRange region eh.eEntry 1 ≠ m11Ok then some (m11ErrEntry, zeroPlan)
      else
        match ← planSegments image region eh.ePhoff.toNat eh.ePhnum.toNat 0
          { zeroPlan with entry := eh.eEntry } with
        | .error rc => some (rc, zeroPlan)
        | .ok plan =>
          if plan.segmentCount = 0 then some (m11ErrSegcount, plan) else some (m11Ok, plan)

end Mcsos.User
