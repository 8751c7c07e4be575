import Mcsos.Lib.Bytes
import Mcsos.Lib.Prog

set_option autoImplicit false

/-! # The journal of MCSFS1J (`kernel/fs/mcsfs1j/m16_mcsfs_journal.c`)

The block device, the transaction record, commit and recovery. A block is 512 bytes; on-disk
structures are read and written through their field offsets. `fail_after` injects faults: once
it has counted down to 0, every write fails.
-/

namespace Mcsos.Mcsfs1j

def blockSize : Nat := 512
def maxBlocks : Nat := 128
def jMagic : Nat := 0x4d43534a524e4c31
def version : Nat := 1
def jEmpty : Nat := 0
def jCommitted : Nat := 2
def journalMaxRecords : Nat := 8
def journalStart : Nat := 1
def journalBlocks : Nat := 1 + 2 * journalMaxRecords

/-- `M16_E_*` other than `M16_E_OK`, and `wild` for an access outside a block. -/
inductive M16Err where
  | inval | io | nospc | exists | noent | corrupt | toolong | wild
  deriving DecidableEq, Repr

/-- `struct m16_blockdev`. `log` is a ghost that no function reads: the blocks that have been written,
the first one first. -/
structure Blockdev where
  blocks : Nat → Bytes
  totalBlocks : Nat
  writes : Nat
  failAfter : Int
  log : List (Nat × Bytes)

/-- A function of the file system on the device. -/
abbrev M16 := Prog Blockdev M16Err

/-- `m16_checksum`: FNV-1a over the first `n` bytes. -/
def checksum (b : Bytes) (n : Nat) : UInt32 :=
  (List.range n).foldl (fun h i => (h ^^^ (b i).toUInt32) * 16777619) 2166136261

/-! ## Blocks -/

def validLba (dev : Blockdev) (lba : Nat) : Prop := lba < dev.totalBlocks ∧ lba < maxBlocks

instance (dev : Blockdev) (lba : Nat) : Decidable (validLba dev lba) :=
  inferInstanceAs (Decidable (_ ∧ _))

/-- `m16_read_block`; the block that is read fills the caller's buffer. -/
def readBlock (lba : Nat) : M16 Bytes := fun dev =>
  if ¬validLba dev lba then (.error .inval, dev) else (.ok (dev.blocks lba), dev)

/-- `m16_write_block` -/
def writeBlock (lba : Nat) (data : Bytes) : M16 Unit := fun dev =>
  if ¬validLba dev lba then (.error .inval, dev)
  else if dev.failAfter = 0 then (.error .io, dev)
  else
    (.ok (), { dev with
      failAfter := if 0 < dev.failAfter then dev.failAfter - 1 else dev.failAfter
      blocks := Function.update dev.blocks lba (Bytes.clip blockSize data)
      writes := (dev.writes + 1) % 2 ^ 64
      log := dev.log ++ [(lba, Bytes.clip blockSize data)] })

/-- `m16_dev_init` -/
def devInit : Blockdev := ⟨fun _ => Bytes.zero, maxBlocks, 0, -1, []⟩

/-! ## Transactions -/

/-- `struct m16_jrec` -/
structure JRec where
  targetLba : Nat
  payload : Bytes

/-- `struct m16_tx` -/
structure Tx where
  count : Nat
  recs : Nat → JRec

/-- The transaction after `m16_zero`. -/
def Tx.empty : Tx := ⟨0, fun _ => ⟨0, Bytes.zero⟩⟩

/-- `m16_tx_add` -/
def txAdd (tx : Tx) (lba : Nat) (payload : Bytes) : Except M16Err Tx :=
  if journalMaxRecords ≤ tx.count then .error .nospc
  else .ok ⟨tx.count + 1, Function.update tx.recs tx.count ⟨lba, payload⟩⟩

/-! ## `struct m16_journal_header` and `struct m16_journal_desc` -/

def hMagic (h : Bytes) : Nat := h.load 0 8
def hVersion (h : Bytes) : Nat := h.load 8 4
def hState (h : Bytes) : Nat := h.load 12 4
def hCount (h : Bytes) : Nat := h.load 20 4
def hChecksum (h : Bytes) : Nat := h.load 24 4

def dMagic (d : Bytes) : Nat := d.load 0 8
def dTargetLba (d : Bytes) : Nat := d.load 8 4
def dPayloadChecksum (d : Bytes) : Nat := d.load 12 4

/-- `m16_header_checksum`: the checksum with the checksum field zeroed. -/
def headerChecksum (h : Bytes) : Nat := (checksum (h.store 24 4 0) blockSize).toNat

/-- The descriptor that `m16_journal_commit` writes for a record. -/
def mkDesc (r : JRec) : Bytes :=
  ((Bytes.zero.store 0 8 jMagic).store 8 4 r.targetLba).store 12 4
    (checksum r.payload blockSize).toNat

/-- The header that `m16_journal_commit` writes. -/
def mkHeader (seq count : Nat) : Bytes :=
  let h := (Bytes.zero.store 0 8 jMagic).store 8 4 version
  let h := ((h.store 12 4 jCommitted).store 16 4 seq).store 20 4 count
  h.store 24 4 (headerChecksum h)

def descLba (i : Nat) : Nat := journalStart + 1 + i * 2
def dataLba (i : Nat) : Nat := descLba i + 1

/-- `m16_journal_clear` -/
def journalClear : M16 Unit := writeBlock journalStart Bytes.zero

/-! ## `m16_journal_commit` -/

/-- The first loop: descriptors and payloads, from record `i` on, `n` records left. -/
def commitRecords (tx : Tx) (i : Nat) : Nat → M16 Unit
  | 0 => pure ()
  | n + 1 => do
    writeBlock (descLba i) (mkDesc (tx.recs i))
    writeBlock (dataLba i) (tx.recs i).payload
    commitRecords tx (i + 1) n

/-- The second loop: the payloads to their home locations. -/
def commitHome (tx : Tx) (i : Nat) : Nat → M16 Unit
  | 0 => pure ()
  | n + 1 => do
    writeBlock (tx.recs i).targetLba (tx.recs i).payload
    commitHome tx (i + 1) n

def journalCommit (tx : Tx) (seq : Nat) (stopAfterCommitRecord : Bool) : M16 Unit := do
  Prog.failIf (journalMaxRecords < tx.count) .inval
  journalClear
  commitRecords tx 0 tx.count
  writeBlock journalStart (mkHeader seq tx.count)
  if stopAfterCommitRecord then pure ()
  else do
    commitHome tx 0 tx.count
    journalClear

/-! ## `m16_journal_recover` -/

/-- The body of the replay loop. -/
def replayRecord (i : Nat) : M16 Unit := do
  let d ← readBlock (descLba i)
  let dev ← Prog.asks id
  Prog.failIf (dMagic d ≠ jMagic ∨ ¬validLba dev (dTargetLba d)) .corrupt
  let payload ← readBlock (dataLba i)
  Prog.failIf ((checksum payload blockSize).toNat ≠ dPayloadChecksum d) .corrupt
  writeBlock (dTargetLba d) payload

/-- The replay loop from record `i` on, `n` records left. -/
def replay (i : Nat) : Nat → M16 Unit
  | 0 => pure ()
  | n + 1 => do
    replayRecord i
    replay (i + 1) n

def journalRecover : M16 Unit := do
  let h ← readBlock journalStart
  if hMagic h = 0 ∧ hState h = jEmpty then pure ()
  else do
    Prog.failIf (hMagic h ≠ jMagic ∨ hVersion h ≠ version ∨ hState h ≠ jCommitted ∨
      journalMaxRecords < hCount h) .corrupt
    Prog.failIf (headerChecksum h ≠ hChecksum h) .corrupt
    replay 0 (hCount h)
    journalClear

end Mcsos.Mcsfs1j
