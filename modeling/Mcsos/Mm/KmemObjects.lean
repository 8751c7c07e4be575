import Mcsos.Lib.Machine
import Mcsos.Mm.KmemRuns

set_option autoImplicit false

/-! # What the kernel heap is for

A heap of objects: a list of blocks, and the bytes of the used ones that somebody has written. A
request takes the first free block that is large enough, a free merges neighbours, and nothing
touches the bytes of another object. Left open are the requests that the 32-bit mask cuts, a free of
a pointer that nobody holds, and the value of a byte that was never written.
-/

namespace Mcsos.Kmem

open BlockList

/-! ## Objects -/

/-- The blocks of the heap, and the bytes that have been written. -/
structure Objects where
  blocks : List Blk
  bytes : Nat → Option UInt8

/-- Takes the first free block with room for `n` bytes; the address is that of its payload. -/
def takeFirst (n : Nat) : List Blk → Option (Nat × List Blk)
  | [] => none
  | b :: bs =>
    if b.free = true ∧ n ≤ b.size then some (b.addr + 40, take n b ++ bs)
    else (takeFirst n bs).map fun r => (r.1, b :: r.2)

namespace Objects

/-- One free block in `bytes` bytes of memory from `base` on, with an aligned payload. -/
def init (base bytes : Nat) : Objects :=
  let first := (base + 55) / 16 * 16 - 40
  ⟨[⟨first, base + bytes - first - 40, true⟩], fun _ => none⟩

/-- The used block with the payload `p`. -/
def block (o : Objects) (p : Nat) : Option Blk :=
  o.blocks.find? fun b => !b.free && b.addr + 40 == p

def alloc (o : Objects) (n : Nat) : Nat × Objects :=
  if n = 0 then (0, o)
  else
    match takeFirst ((n + 15) / 16 * 16) o.blocks with
    | none => (0, o)
    | some (p, bs) => (p, { o with blocks := bs })

/-- The `n` bytes from `p` on become `f 0`, `f 1` and so on. -/
def setBytes (o : Objects) (p n : Nat) (f : Nat → Option UInt8) : Objects :=
  { o with bytes := fun i => if p ≤ i ∧ i < p + n then f (i - p) else o.bytes i }

/-- The block becomes free, and its bytes are lost. -/
def release (o : Objects) (b : Blk) : Objects :=
  { o.setBytes (b.addr + 40) b.size fun _ => none with
    blocks := coalesce 40 (o.blocks.map fun c =>
      if c.addr = b.addr then { c with free := true } else c) }

def stats (o : Objects) : KmemStats where
  totalBytes := (o.blocks.map fun b => 40 + b.size).sum
  usedBytes := ((o.blocks.filter fun b => !b.free).map Blk.size).sum
  freeBytes := ((o.blocks.filter Blk.free).map Blk.size).sum
  blockCount := o.blocks.length
  freeCount := (o.blocks.filter Blk.free).length
  largestFree := ((o.blocks.filter Blk.free).map Blk.size).foldl max 0

end Objects

/-! ## Calls -/

inductive ObjectCall where
  | alloc (bytes : UInt64)
  | calloc (count bytes : UInt64)
  | free (ptr : UInt64)
  | getStats
  | validate
  /-- the owner of the payload `p` reads or writes `n` bytes from its byte `off` on -/
  | load (p off n : Nat)
  | store (p off n : Nat) (src : Bytes)

inductive ObjectAnswer where
  | ptr (p : Nat)
  | code (rc : Int)
  | stats (out : KmemStats)
  | bytes (data : List UInt8)
  | done
  deriving DecidableEq

/-- A call on the heap in memory. -/
def objectStep : ObjectCall → KmemState → Option (ObjectAnswer × KmemState)
  | .alloc n, s => (kmemAlloc n s).map fun r => (.ptr r.1, r.2)
  | .calloc c n, s => (kmemCalloc c n s).map fun r => (.ptr r.1, r.2)
  | .free p, s => (kmemFreeChecked p s).map fun r => (.code r.1, r.2)
  | .getStats, s => (kmemGetStats s).map fun out => (.stats out, s)
  | .validate, s => (kmemValidate s).map fun rc => (.code rc, s)
  | .load p off n, s => some (.bytes (s.mem.slice (p + off) n), s)
  | .store p off n src, s => some (.done, { s with mem := s.mem.copy (p + off) src 0 n })

/-- The same call on the objects; `none` where it is left open. -/
def Objects.exec : ObjectCall → Objects → Option (ObjectAnswer × Objects)
  | .alloc n, o =>
    if 2 ^ 32 - 64 < n.toNat then none else some (.ptr (o.alloc n.toNat).1, (o.alloc n.toNat).2)
  | .calloc c n, o =>
    let total := c.toNat * n.toNat
    if 2 ^ 64 ≤ total then some (.ptr 0, o)
    else if 2 ^ 32 - 64 < total then none
    else
      let r := o.alloc total
      some (.ptr r.1, if r.1 = 0 then r.2 else r.2.setBytes r.1 total fun _ => some 0)
  | .free p, o =>
    if p = 0 then some (.code 0, o)
    else (o.block p.toNat).map fun b => (.code 0, o.release b)
  | .getStats, o => some (.stats o.stats, o)
  | .validate, o => some (.code 0, o)
  | .load p off n, o =>
    (o.block p).bind fun b =>
      if b.size < off + n ∨ ∃ k, k < n ∧ o.bytes (p + off + k) = none then none
      else some (.bytes ((List.range n).map fun k => (o.bytes (p + off + k)).getD 0), o)
  | .store p off n src, o =>
    (o.block p).bind fun b =>
      if b.size < off + n then none
      else some (.done, o.setBytes (p + off) n fun k => some (src k))

/-! ## The heap in memory and its objects -/

/-- A byte of the payload of a used block. -/
def InPayload (bs : List Blk) (i : Nat) : Prop :=
  ∃ b ∈ bs, b.free = false ∧ b.addr + 40 ≤ i ∧ i < b.addr + 40 + b.size

/-- The memory has the blocks and the bytes of the objects. -/
structure HoldsObjects (s : KmemState) (o : Objects) : Prop where
  inv : HeapInv s o.blocks
  top : s.heapBase + s.heapBytes < 2 ^ 64
  byte : ∀ i v, o.bytes i = some v → s.mem i = v
  payload : ∀ i v, o.bytes i = some v → InPayload o.blocks i

end Mcsos.Kmem
