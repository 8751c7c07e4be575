import Mcsos.Block.Blk
import Mcsos.Lib.Loop

set_option autoImplicit false

/-! # The block cache (`kernel/block/bcache.c`)

The state is the `mcsos_bcache_t`, the entries, the data pool they point into and the
contents of the devices. `clock_hand` is a `u64`, the victim index a `u32`: the index
`(start + pass) % entry_count` is computed modulo `2 ^ 32` first.
-/

namespace Mcsos.Block

open Loop

variable {D : Type}

/-- `mcsos_bcache_entry_t`; `data` is an offset into the data pool, a `NULL` device is `none`. -/
structure BcacheEntry (D : Type) where
  data : Nat
  capacity : Nat
  lba : Nat
  valid : Bool
  dirty : Bool
  dev : Option D

/-- The cache, its entries and its data pool; the disks; the number of driver calls made. -/
structure BcacheState (D : Type) where
  entries : Nat → BcacheEntry D
  entryCount : Nat
  blockSize : Nat
  clockHand : Nat
  pool : Bytes
  disk : D → Nat → Bytes
  calls : Nat

namespace BcacheState

def setEntry (s : BcacheState D) (i : Nat) (e : BcacheEntry D) : BcacheState D :=
  { s with entries := Function.update s.entries i e }

end BcacheState

/-! ## One block from and to a device -/

/-- `mcsos_blk_read(dev, lba, 1, buffer)` with the buffer at `off` of the pool. -/
def blkRead (hw : Hardware D) (dev : D) (lba off : Nat) (s : BcacheState D) :
    BlkStatus × BcacheState D :=
  if blkValidateRange hw dev lba 1 ≠ .ok then (blkValidateRange hw dev lba 1, s)
  else
    match hw.fault s.calls with
    | none =>
      (.ok, { s with
        pool := s.pool.copy off (s.disk dev lba) 0 (hw.blockSize dev), calls := s.calls + 1 })
    | some f =>
      (f.status, { s with
        pool := s.pool.copy off f.scribble 0 (hw.blockSize dev), calls := s.calls + 1 })

variable [DecidableEq D]

/-- `mcsos_blk_write(dev, lba, 1, buffer)` with the buffer at `off` of the pool. -/
def blkWrite (hw : Hardware D) (dev : D) (lba off : Nat) (s : BcacheState D) :
    BlkStatus × BcacheState D :=
  if blkValidateRange hw dev lba 1 ≠ .ok then (blkValidateRange hw dev lba 1, s)
  else
    match hw.fault s.calls with
    | none =>
      (.ok, { s with
        disk := Function.update s.disk dev (Function.update (s.disk dev) lba
          ((s.disk dev lba).copy 0 s.pool off (hw.blockSize dev)))
        calls := s.calls + 1 })
    | some f => (f.status, { s with calls := s.calls + 1 })

/-! ## Entries -/

/-- `mcsos_bcache_find` -/
def bcacheFind (dev : D) (lba : Nat) (s : BcacheState D) : Option Nat :=
  findFrom (fun i => (s.entries i).valid && decide ((s.entries i).dev = some dev) &&
    decide ((s.entries i).lba = lba)) 0 s.entryCount

/-- `mcsos_bcache_flush_entry` -/
def bcacheFlushEntry (hw : Hardware D) (i : Nat) (s : BcacheState D) :
    BlkStatus × BcacheState D :=
  let e := s.entries i
  if e.valid = false ∨ e.dirty = false then (.ok, s)
  else
    match e.dev with
    | none => (.einval, s)
    | some dev =>
      let r := blkWrite hw dev e.lba e.data s
      if r.1 ≠ .ok then r
      else (.ok, r.2.setEntry i { e with dirty := false })

/-- `mcsos_bcache_select_victim`: the first unused entry from the clock hand on, or else the
entry at the hand, written back if it is dirty. `none` when the write-back fails. -/
def bcacheSelectVictim (hw : Hardware D) (s : BcacheState D) :
    BlkStatus × Option Nat × BcacheState D :=
  if s.entryCount = 0 then (.einval, none, s)
  else
    let start := s.clockHand % s.entryCount
    let idx := fun pass => (start + pass) % 2 ^ 32 % s.entryCount
    match findFrom (fun pass => !(s.entries (idx pass)).valid) 0 s.entryCount with
    | some pass => (.ok, some (idx pass), { s with clockHand := (idx pass + 1) % 2 ^ 32 })
    | none =>
      let r := bcacheFlushEntry hw start { s with clockHand := (start + 1) % 2 ^ 32 }
      if r.1 ≠ .ok then (r.1, none, r.2) else (.ok, some start, r.2)

/-! ## The interface -/

/-- The entries that `mcsos_bcache_init` sets up. -/
def bcacheInitEntry (blockSize i : Nat) : BcacheEntry D :=
  { data := i * blockSize, capacity := blockSize, lba := 0, valid := false, dirty := false,
    dev := none }

/-- `mcsos_bcache_init`; the entries from `entry_count` on are not the cache's. -/
def bcacheInit (entryCount blockSize : Nat) (s : BcacheState D) : BlkStatus × BcacheState D :=
  if entryCount = 0 ∨ blockSize = 0 then (.einval, s)
  else
    (.ok, { s with
      entries := fun i => if i < entryCount then bcacheInitEntry blockSize i else s.entries i
      entryCount := entryCount
      blockSize := blockSize
      clockHand := 0 })

/-- `mcsos_bcache_read`; the second component is the caller's buffer. -/
def bcacheRead (hw : Hardware D) (dev : D) (lba : Nat) (buffer : Bytes) (s : BcacheState D) :
    BlkStatus × Bytes × BcacheState D :=
  let hit := fun (i : Nat) (s : BcacheState D) =>
    (BlkStatus.ok, buffer.copy 0 s.pool (s.entries i).data s.blockSize, s)
  if s.blockSize ≠ hw.blockSize dev then (.einval, buffer, s)
  else
    match bcacheFind dev lba s with
    | some i => hit i s
    | none =>
      match bcacheSelectVictim hw s with
      | (st, none, s) => (st, buffer, s)
      | (_, some i, s) =>
        let e := s.entries i
        let r := blkRead hw dev lba e.data s
        if r.1 ≠ .ok then (r.1, buffer, r.2.setEntry i { e with valid := false })
        else
          hit i (r.2.setEntry i { e with dev := some dev, lba := lba, valid := true, dirty := false })

/-- `mcsos_bcache_write` -/
def bcacheWrite (hw : Hardware D) (dev : D) (lba : Nat) (buffer : Bytes) (s : BcacheState D) :
    BlkStatus × BcacheState D :=
  let hit := fun (i : Nat) (s : BcacheState D) =>
    let s := { s with pool := s.pool.copy (s.entries i).data buffer 0 s.blockSize }
    (BlkStatus.ok, s.setEntry i { s.entries i with dirty := true })
  if s.blockSize ≠ hw.blockSize dev then (.einval, s)
  else
    match bcacheFind dev lba s with
    | some i => hit i s
    | none =>
      match bcacheSelectVictim hw s with
      | (st, none, s) => (st, s)
      | (_, some i, s) =>
        hit i (s.setEntry i
          { s.entries i with dev := some dev, lba := lba, valid := true, dirty := false })

/-- The loop of `mcsos_bcache_flush_all` from entry `i` on, `n` entries left. -/
def flushLoop (hw : Hardware D) (i : Nat) : Nat → BcacheState D → BlkStatus × BcacheState D
  | 0, s => (.ok, s)
  | n + 1, s =>
    let r := bcacheFlushEntry hw i s
    if r.1 ≠ .ok then r else flushLoop hw (i + 1) n r.2

/-- `mcsos_bcache_flush_all` -/
def bcacheFlushAll (hw : Hardware D) (s : BcacheState D) : BlkStatus × BcacheState D :=
  flushLoop hw 0 s.entryCount s

end Mcsos.Block
