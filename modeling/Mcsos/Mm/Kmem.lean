import Mcsos.Lib.Bytes

set_option autoImplicit false

/-! # The kernel heap (`kernel/mm/kmem.c`)

The heap lives in raw memory: `struct kmem_header` takes 40 bytes in front of every payload
and links the blocks through `next`. The model keeps the memory as bytes and reads and writes
the header fields in it, in the order of the source, so that a stray header or an
overlapping one behaves as it would in C. `uintptr_t` and `size_t` arithmetic wraps at
`2 ^ 64`; a pointer is its address and `NULL` is 0.

A loop over the list takes at most one turn per header. It is given `g_heap_bytes + 1`
turns, more than a heap can hold headers, and `none` stands for a list that runs in a circle.
-/

namespace Mcsos.Kmem

/-- `sizeof(struct kmem_header)` -/
def headerSize : Nat := 40

def kmemAlign : Nat := 16

def kmemMagic : Nat := 0x4d43534f53484541

/-- The globals `g_heap_base`, `g_heap_bytes`, `g_kmem_ready` and the memory they live in. -/
structure KmemState where
  mem : Bytes
  heapBase : Nat
  heapBytes : Nat
  ready : Bool

/-! ## Header fields -/

def magic (mem : Bytes) (p : Nat) : Nat := mem.load p 8
def size (mem : Bytes) (p : Nat) : Nat := mem.load (p + 8) 8
def next (mem : Bytes) (p : Nat) : Nat := mem.load (p + 16) 8
def isFree (mem : Bytes) (p : Nat) : Nat := mem.load (p + 24) 4

def setMagic (mem : Bytes) (p v : Nat) : Bytes := mem.store p 8 v
def setSize (mem : Bytes) (p v : Nat) : Bytes := mem.store (p + 8) 8 v
def setNext (mem : Bytes) (p v : Nat) : Bytes := mem.store (p + 16) 8 v
def setIsFree (mem : Bytes) (p v : Nat) : Bytes := mem.store (p + 24) 4 v

/-! ## `kmem_init` -/

def kmemInit (base bytes : UInt64) (s : KmemState) : Int × KmemState :=
  if s.ready then (-1, s)
  else if base = 0 ∨ bytes.toNat < headerSize + kmemAlign then (-2, s)
  else
    let addr := base.toNat
    let payloadAddr := (addr + headerSize) % 2 ^ 64
    -- the mask is widened to `uintptr_t` before it is inverted
    let alignedPayload := (payloadAddr + (kmemAlign - 1)) % 2 ^ 64 &&& 0xfffffffffffffff0
    let finalHeaderAddr := (alignedPayload + 2 ^ 64 - headerSize) % 2 ^ 64
    let offset := (finalHeaderAddr + 2 ^ 64 - addr) % 2 ^ 64
    if bytes.toNat ≤ (offset + headerSize) % 2 ^ 64 then (-2, s)
    else
      let heapBytes := (bytes.toNat + 2 ^ 64 - offset) % 2 ^ 64
      let mem := setMagic s.mem finalHeaderAddr kmemMagic
      let mem := setSize mem finalHeaderAddr ((heapBytes + 2 ^ 64 - headerSize) % 2 ^ 64)
      let mem := setNext mem finalHeaderAddr 0
      let mem := setIsFree mem finalHeaderAddr 1
      (0, { mem := mem, heapBase := finalHeaderAddr, heapBytes := heapBytes, ready := true })

/-! ## `kmem_alloc` and `kmem_calloc` -/

/-- `(bytes + (KMEM_ALIGN - 1)) & ~(KMEM_ALIGN - 1)` in `kmem_alloc`. `KMEM_ALIGN` is an
`unsigned int`, so the inverted mask is the 32-bit `0xfffffff0`. -/
def roundUp (bytes : Nat) : Nat := (bytes + (kmemAlign - 1)) % 2 ^ 64 &&& 0xfffffff0

/-- `needed_space` -/
def neededSpace (alignedSize : Nat) : Nat := roundUp ((alignedSize + headerSize) % 2 ^ 64)

/-- What `kmem_alloc` does to the block it has found at `curr`: split it if the rest is
worth a block, then mark it used. -/
def takeBlock (alignedSize curr : Nat) (mem : Bytes) : Bytes :=
  let needed := neededSpace alignedSize
  let mem :=
    if (needed + headerSize + kmemAlign) % 2 ^ 64 ≤ size mem curr then
      let nextBlock := (curr + needed) % 2 ^ 64
      let mem := setMagic mem nextBlock kmemMagic
      let mem := setSize mem nextBlock ((size mem curr + 2 ^ 64 - needed) % 2 ^ 64)
      let mem := setNext mem nextBlock (next mem curr)
      let mem := setIsFree mem nextBlock 1
      let mem := setSize mem curr ((needed + 2 ^ 64 - headerSize) % 2 ^ 64)
      setNext mem curr nextBlock
    else mem
  setIsFree mem curr 0

/-- The search loop of `kmem_alloc` from header `curr` on. -/
def allocLoop (alignedSize : Nat) : Nat → Nat → Bytes → Option (Nat × Bytes)
  | 0, _, _ => none
  | fuel + 1, curr, mem =>
    if curr = 0 then some (0, mem)
    else if magic mem curr ≠ kmemMagic then some (0, mem)
    else if isFree mem curr ≠ 0 ∧ alignedSize ≤ size mem curr then
      some ((curr + headerSize) % 2 ^ 64, takeBlock alignedSize curr mem)
    else allocLoop alignedSize fuel (next mem curr) mem

def kmemAlloc (bytes : UInt64) (s : KmemState) : Option (Nat × KmemState) :=
  if !s.ready ∨ bytes = 0 then some (0, s)
  else (allocLoop (roundUp bytes.toNat) (s.heapBytes + 1) s.heapBase s.mem).map
    (fun r => (r.1, { s with mem := r.2 }))

def kmemCalloc (count bytes : UInt64) (s : KmemState) : Option (Nat × KmemState) :=
  if count = 0 ∨ bytes = 0 then some (0, s)
  else if 0xffffffffffffffff / bytes < count then some (0, s)
  else
    (kmemAlloc (count * bytes) s).map (fun r =>
      if r.1 ≠ 0 then
        (r.1, { r.2 with mem := r.2.mem.fill r.1 (count * bytes).toNat 0 })
      else r)

/-! ## `kmem_free_checked` -/

/-- `curr` takes in the block after it. -/
def absorbNext (curr : Nat) (mem : Bytes) : Bytes :=
  let mem := setSize mem curr
    ((size mem curr + (headerSize + size mem (next mem curr))) % 2 ^ 64)
  setNext mem curr (next mem (next mem curr))

/-- The inner loop: `curr` absorbs free right neighbours. `inr` is the early return. -/
def absorbLoop : Nat → Nat → Bytes → Option (Bytes ⊕ Int × Bytes)
  | 0, _, _ => none
  | fuel + 1, curr, mem =>
    if isFree mem curr ≠ 0 ∧ next mem curr ≠ 0 ∧ isFree mem (next mem curr) ≠ 0 then
      if magic mem (next mem curr) ≠ kmemMagic then some (.inr (-4, mem))
      else absorbLoop fuel curr (absorbNext curr mem)
    else some (.inl mem)

/-- The outer loop of `kmem_free_checked`, from header `curr` on; `inner` bounds the turns of
each inner loop. -/
def coalesceLoop (inner : Nat) : Nat → Nat → Bytes → Option (Int × Bytes)
  | 0, _, _ => none
  | fuel + 1, curr, mem =>
    if curr = 0 then some (0, mem)
    else if magic mem curr ≠ kmemMagic then some (-4, mem)
    else
      match absorbLoop inner curr mem with
      | none => none
      | some (.inr r) => some r
      | some (.inl mem) => coalesceLoop inner fuel (next mem curr) mem

def kmemFreeChecked (ptr : UInt64) (s : KmemState) : Option (Int × KmemState) :=
  if !s.ready then some (-1, s)
  else if ptr = 0 then some (0, s)
  else if ptr.toNat ≤ s.heapBase ∨ (s.heapBase + s.heapBytes) % 2 ^ 64 ≤ ptr.toNat then
    some (-3, s)
  else
    let block := (ptr.toNat + 2 ^ 64 - headerSize) % 2 ^ 64
    if magic s.mem block ≠ kmemMagic then some (-4, s)
    else if isFree s.mem block ≠ 0 then some (-2, s)
    else
      (coalesceLoop (s.heapBytes + 1) (s.heapBytes + 1) s.heapBase
        (setIsFree s.mem block 1)).map (fun r => (r.1, { s with mem := r.2 }))

/-! ## `kmem_get_stats` -/

structure KmemStats where
  totalBytes : Nat
  usedBytes : Nat
  freeBytes : Nat
  blockCount : Nat
  freeCount : Nat
  largestFree : Nat
  deriving DecidableEq, Repr

/-- One turn of the loop of `kmem_get_stats`, for the block at `curr`. -/
def KmemStats.add (out : KmemStats) (mem : Bytes) (curr : Nat) : KmemStats :=
  if isFree mem curr ≠ 0 then
    { out with
      blockCount := (out.blockCount + 1) % 2 ^ 64
      freeCount := (out.freeCount + 1) % 2 ^ 64
      freeBytes := (out.freeBytes + size mem curr) % 2 ^ 64
      largestFree := if out.largestFree < size mem curr then size mem curr else out.largestFree }
  else
    { out with
      blockCount := (out.blockCount + 1) % 2 ^ 64
      usedBytes := (out.usedBytes + size mem curr) % 2 ^ 64 }

def statsLoop (mem : Bytes) : Nat → Nat → KmemStats → Option KmemStats
  | 0, _, _ => none
  | fuel + 1, curr, out =>
    if curr = 0 then some out
    else if magic mem curr ≠ kmemMagic then some out
    else statsLoop mem fuel (next mem curr) (out.add mem curr)

def kmemGetStats (s : KmemState) : Option KmemStats :=
  if !s.ready then some ⟨0, 0, 0, 0, 0, 0⟩
  else statsLoop s.mem (s.heapBytes + 1) s.heapBase ⟨s.heapBytes, 0, 0, 0, 0, 0⟩

/-! ## `kmem_validate` -/

/-- The loop of `kmem_validate` from header `curr` on. -/
def validateLoop (s : KmemState) : Nat → Nat → Option Int
  | 0, _ => none
  | fuel + 1, curr =>
    if curr = 0 then some 0
    else if curr < s.heapBase ∨ (s.heapBase + s.heapBytes) % 2 ^ 64 ≤ curr then some (-2)
    else if magic s.mem curr ≠ kmemMagic then some (-3)
    else validateLoop s fuel (next s.mem curr)

def kmemValidate (s : KmemState) : Option Int :=
  if !s.ready then some (-1) else validateLoop s (s.heapBytes + 1) s.heapBase

end Mcsos.Kmem
