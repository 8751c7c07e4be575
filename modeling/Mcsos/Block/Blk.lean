import Mcsos.Lib.Bytes

set_option autoImplicit false

/-! # Block devices (`kernel/block/blk.c`)

A device is known by its pointer; `D` is the type of device pointers other than `NULL`.
`Hardware` has what does not change: the geometry of the devices and, for every driver call
in the order the calls are made, whether it fails and how. A failing write leaves the device
as it was, a failing read leaves arbitrary bytes in the buffer it was given.
-/

namespace Mcsos.Block

/-- `mcsos_blk_status_t` -/
inductive BlkStatus where
  | ok | einval | erange | efull | eio | enodev
  deriving DecidableEq, Repr

/-- A failing driver call: what it returns, and what a failing read leaves in its buffer. -/
structure Fault where
  status : BlkStatus
  status_ne : status ≠ .ok
  scribble : Bytes

/-- The devices: `block_size`, `block_count`, whether `ops` is set, and which of the driver
calls fail. -/
structure Hardware (D : Type) where
  blockSize : D → Nat
  blockCount : D → Nat
  hasOps : D → Bool
  fault : Nat → Option Fault

variable {D : Type}

/-- `mcsos_blk_validate_range` -/
def blkValidateRange (hw : Hardware D) (dev : D) (lba count : Nat) : BlkStatus :=
  if count = 0 ∨ hw.hasOps dev = false then .einval
  else if hw.blockCount dev ≤ lba ∨ hw.blockCount dev - lba < count then .erange
  else .ok

end Mcsos.Block
