import Mcsos.Block.Blk

set_option autoImplicit false

/-! # The RAM block device (`kernel/block/ramblk.c`)

A RAM disk keeps its blocks one after the other in a byte array. The block layer checks a request
in blocks, the driver checks it again in bytes, with 64-bit products; `lba`, `storage_size` and
`block_count` are `uint64_t`, `count` and `block_size` are `uint32_t`, and all of them wrap here as
they do in C. Pointers are not `NULL`, and the caller's buffer is not part of the storage.
-/

namespace Mcsos.Block.Ram

/-- `mcsos_ramblk_t` -/
structure Ramblk where
  storage : Bytes
  storageSize : UInt64

/-- The `mcsos_blk_device_t` of a RAM disk: `ops` are the functions of this driver and
`driver_data` is `ram`. -/
structure RamDevice where
  blockSize : UInt32
  blockCount : UInt64
  ram : Ramblk

/-- `mcsos_is_power_of_two_u32_local` -/
def isPowerOfTwoU32 (value : UInt32) : Bool := value ≠ 0 && value &&& (value - 1) = 0

/-- `mcsos_ramblk_init` -/
def ramblkInit (storage : Bytes) (storageSize : UInt64) (blockSize : UInt32) (dev : RamDevice) :
    BlkStatus × RamDevice :=
  if blockSize < 512 ∨ isPowerOfTwoU32 blockSize = false then (.einval, dev)
  else if storageSize < blockSize.toUInt64 ∨ storageSize % blockSize.toUInt64 ≠ 0 then
    (.einval, dev)
  else
    (.ok, { blockSize := blockSize, blockCount := storageSize / blockSize.toUInt64,
            ram := { storage := storage, storageSize := storageSize } })

/-- `byte_offset` -/
def byteOffset (dev : RamDevice) (lba : UInt64) : UInt64 := lba * dev.blockSize.toUInt64

/-- `byte_count` -/
def byteCount (dev : RamDevice) (count : UInt32) : UInt64 :=
  count.toUInt64 * dev.blockSize.toUInt64

/-- `mcsos_ramblk_rw`: the status, the caller's buffer and the device. -/
def ramblkRw (isWrite : Bool) (lba : UInt64) (count : UInt32) (buffer : Bytes)
    (dev : RamDevice) : BlkStatus × Bytes × RamDevice :=
  let offset := byteOffset dev lba
  let n := byteCount dev count
  if dev.ram.storageSize < offset ∨ dev.ram.storageSize - offset < n then (.erange, buffer, dev)
  else if isWrite then
    (.ok, buffer, { dev with ram := { dev.ram with
      storage := dev.ram.storage.copy offset.toNat buffer 0 n.toNat } })
  else (.ok, buffer.copy 0 dev.ram.storage offset.toNat n.toNat, dev)

/-- The device as the block layer sees it. -/
def RamDevice.hardware (dev : RamDevice) : Hardware Unit :=
  { blockSize := fun _ => dev.blockSize.toNat, blockCount := fun _ => dev.blockCount.toNat
    hasOps := fun _ => true, fault := fun _ => none }

/-- `mcsos_blk_read` and `mcsos_blk_write`: check the range, then call the driver. -/
def blkRw (isWrite : Bool) (lba : UInt64) (count : UInt32) (buffer : Bytes) (dev : RamDevice) :
    BlkStatus × Bytes × RamDevice :=
  let st := blkValidateRange dev.hardware () lba.toNat count.toNat
  if st ≠ .ok then (st, buffer, dev) else ramblkRw isWrite lba count buffer dev

/-- `mcsos_blk_read` -/
def blkRead (lba : UInt64) (count : UInt32) (buffer : Bytes) (dev : RamDevice) :
    BlkStatus × Bytes × RamDevice := blkRw false lba count buffer dev

/-- `mcsos_blk_write` -/
def blkWrite (lba : UInt64) (count : UInt32) (buffer : Bytes) (dev : RamDevice) :
    BlkStatus × Bytes × RamDevice := blkRw true lba count buffer dev

/-! ## Ranges and products -/

/-- The request lies on the device. -/
def InRange (dev : RamDevice) (lba : UInt64) (count : UInt32) : Prop :=
  1 ≤ count.toNat ∧ lba.toNat + count.toNat ≤ dev.blockCount.toNat

/-- The storage is made of the blocks. -/
structure RamWf (dev : RamDevice) : Prop where
  size_pos : 0 < dev.blockSize.toNat
  size_eq : dev.blockCount.toNat * dev.blockSize.toNat = dev.ram.storageSize.toNat

theorem ramblkInit_ok {storage : Bytes} {storageSize : UInt64} {blockSize : UInt32}
    {dev0 dev : RamDevice} (h : ramblkInit storage storageSize blockSize dev0 = (.ok, dev)) :
    RamWf dev ∧ dev.ram.storage = storage ∧ dev.ram.storageSize = storageSize ∧
      dev.blockSize = blockSize := by
  unfold ramblkInit at h
  split_ifs at h with hsize hstorage
  · cases h
  · cases h
  obtain ⟨-, rfl⟩ := Prod.mk.inj h
  push Not at hsize hstorage
  have hbs : (512 : UInt32).toNat ≤ blockSize.toNat := 
    UInt32.le_iff_toNat_le.mp (UInt32.not_lt.mp hsize.1)
  change 512 ≤ blockSize.toNat at hbs
  refine ⟨⟨by simp only; omega, ?_⟩, rfl, rfl, rfl⟩
  have hmod : storageSize.toNat % blockSize.toNat = 0 := by
    have hz := congrArg UInt64.toNat hstorage.2
    rwa [UInt64.toNat_mod, UInt32.toNat_toUInt64] at hz
  show (storageSize / blockSize.toUInt64).toNat * blockSize.toNat = storageSize.toNat
  rw [UInt64.toNat_div, UInt32.toNat_toUInt64]
  exact Nat.div_mul_cancel (Nat.dvd_of_mod_eq_zero hmod)

theorem blkValidateRange_eq (dev : RamDevice) (lba count : Nat) :
    blkValidateRange dev.hardware () lba count =
      if count = 0 then .einval
      else if dev.blockCount.toNat ≤ lba ∨ dev.blockCount.toNat - lba < count then .erange
      else .ok := by
  unfold blkValidateRange
  by_cases hzero : count = 0
  · rw [if_pos (Or.inl hzero), if_pos hzero]
  · rw [if_neg (not_or.mpr ⟨hzero, Bool.noConfusion⟩), if_neg hzero]
    rfl

theorem blkValidateRange_ok_iff (dev : RamDevice) (lba : UInt64) (count : UInt32) :
    blkValidateRange dev.hardware () lba.toNat count.toNat = .ok ↔ InRange dev lba count := by
  rw [blkValidateRange_eq]
  unfold InRange
  split_ifs with hzero hrange
  · exact iff_of_false (by decide) (by omega)
  · exact iff_of_false (by decide) (by omega)
  · exact iff_of_true rfl (by omega)

/-- The block layer answers `ERANGE` exactly to what runs past the last block. -/
theorem blkValidateRange_erange_iff (dev : RamDevice) (lba : UInt64) (count : UInt32) :
    blkValidateRange dev.hardware () lba.toNat count.toNat = .erange ↔
      1 ≤ count.toNat ∧ dev.blockCount.toNat < lba.toNat + count.toNat := by
  rw [blkValidateRange_eq]
  split_ifs with hzero hrange
  · exact iff_of_false (by decide) (by omega)
  · exact iff_of_true rfl (by omega)
  · exact iff_of_false (by decide) (by omega)

/-- On a request in range no product wraps, and the bytes lie in the storage. -/
theorem RamWf.products {dev : RamDevice} (hwf : RamWf dev) {lba : UInt64} {count : UInt32}
    (hin : InRange dev lba count) :
    (byteOffset dev lba).toNat = lba.toNat * dev.blockSize.toNat ∧
      (byteCount dev count).toNat = count.toNat * dev.blockSize.toNat ∧
      lba.toNat * dev.blockSize.toNat + count.toNat * dev.blockSize.toNat ≤
        dev.ram.storageSize.toNat := by
  have hend : lba.toNat * dev.blockSize.toNat + count.toNat * dev.blockSize.toNat ≤
      dev.ram.storageSize.toNat := by
    rw [← Nat.add_mul, ← hwf.size_eq]
    exact Nat.mul_le_mul_right _ hin.2
  have hlt := dev.ram.storageSize.toNat_lt
  refine ⟨?_, ?_, hend⟩
  · unfold byteOffset
    rw [UInt64.toNat_mul, UInt32.toNat_toUInt64]
    exact Nat.mod_eq_of_lt (by omega)
  · unfold byteCount
    rw [UInt64.toNat_mul, UInt32.toNat_toUInt64, UInt32.toNat_toUInt64]
    exact Nat.mod_eq_of_lt (by omega)

/-! ## Requests -/

/-- What the driver does with a request in range: it never refuses it. -/
theorem ramblkRw_eq {dev : RamDevice} (hwf : RamWf dev) {lba : UInt64} {count : UInt32}
    (hin : InRange dev lba count) (isWrite : Bool) (buffer : Bytes) :
    ramblkRw isWrite lba count buffer dev =
      if isWrite then
        (.ok, buffer, { dev with ram := { dev.ram with
          storage := dev.ram.storage.copy (lba.toNat * dev.blockSize.toNat) buffer 0
            (count.toNat * dev.blockSize.toNat) } })
      else
        (.ok, buffer.copy 0 dev.ram.storage (lba.toNat * dev.blockSize.toNat)
          (count.toNat * dev.blockSize.toNat), dev) := by
  obtain ⟨hoff, hn, hend⟩ := hwf.products hin
  have hpass : ¬(dev.ram.storageSize < byteOffset dev lba ∨
      dev.ram.storageSize - byteOffset dev lba < byteCount dev count) := by
    have hle : byteOffset dev lba ≤ dev.ram.storageSize := by
      rw [UInt64.le_iff_toNat_le, hoff]
      omega
    rintro (h | h)
    · exact UInt64.not_lt.mpr hle h
    · rw [UInt64.lt_iff_toNat_lt, UInt64.toNat_sub_of_le _ _ hle, hoff, hn] at h
      omega
  unfold ramblkRw
  simp only [if_neg hpass, hoff, hn]

theorem ramblkRw_ok {dev : RamDevice} (hwf : RamWf dev) {lba : UInt64} {count : UInt32}
    (hin : InRange dev lba count) (isWrite : Bool) (buffer : Bytes) :
    (ramblkRw isWrite lba count buffer dev).1 = .ok := by
  rw [ramblkRw_eq hwf hin]
  cases isWrite <;> rfl

/-- A request of the block layer: refused, and then nothing happens, or handed to the driver. -/
theorem blkRw_cases (isWrite : Bool) (lba : UInt64) (count : UInt32) (buffer : Bytes)
    (dev : RamDevice) :
    (InRange dev lba count ∧
      blkRw isWrite lba count buffer dev = ramblkRw isWrite lba count buffer dev) ∨
    (¬InRange dev lba count ∧ ∃ st, st ≠ .ok ∧
      blkValidateRange dev.hardware () lba.toNat count.toNat = st ∧
      blkRw isWrite lba count buffer dev = (st, buffer, dev)) := by
  unfold blkRw
  by_cases hin : InRange dev lba count
  · refine Or.inl ⟨hin, ?_⟩
    rw [(blkValidateRange_ok_iff dev lba count).mpr hin]
    exact if_neg (not_not.mpr rfl)
  · have hst : blkValidateRange dev.hardware () lba.toNat count.toNat ≠ .ok :=
      fun h => hin ((blkValidateRange_ok_iff dev lba count).mp h)
    exact Or.inr ⟨hin, _, hst, rfl, if_pos hst⟩

theorem blkRw_erange_iff {dev : RamDevice} (hwf : RamWf dev) (isWrite : Bool) (lba : UInt64)
    (count : UInt32) (buffer : Bytes) :
    (blkRw isWrite lba count buffer dev).1 = .erange ↔
      1 ≤ count.toNat ∧ dev.blockCount.toNat < lba.toNat + count.toNat := by
  rcases blkRw_cases isWrite lba count buffer dev with ⟨hin, heq⟩ | ⟨-, st, -, hst, heq⟩
  · rw [heq, ramblkRw_ok hwf hin]
    unfold InRange at hin
    exact iff_of_false (by decide) (by omega)
  · rw [heq, ← hst]
    exact blkValidateRange_erange_iff dev lba count

/-- A request is done exactly if its blocks are there. -/
theorem blkRw_ok_iff {dev : RamDevice} (hwf : RamWf dev) (isWrite : Bool) (lba : UInt64)
    (count : UInt32) (buffer : Bytes) :
    (blkRw isWrite lba count buffer dev).1 = .ok ↔ InRange dev lba count := by
  rcases blkRw_cases isWrite lba count buffer dev with ⟨hin, heq⟩ | ⟨hout, st, hst, -, heq⟩
  · rw [heq]
    exact iff_of_true (ramblkRw_ok hwf hin isWrite buffer) hin
  · rw [heq]
    exact iff_of_false hst hout

/-! ## Runs -/

inductive RamOp where
  | read (lba : UInt64) (count : UInt32) (buffer : Bytes)
  | write (lba : UInt64) (count : UInt32) (buffer : Bytes)

def ramStep (dev : RamDevice) : RamOp → BlkStatus × RamDevice
  | .read lba count buffer =>
    ((blkRead lba count buffer dev).1, (blkRead lba count buffer dev).2.2)
  | .write lba count buffer =>
    ((blkWrite lba count buffer dev).1, (blkWrite lba count buffer dev).2.2)

/-- The requests of a run with what they returned, the latest first. -/
abbrev RamHistory := List (RamOp × BlkStatus)

/-- The devices that a run from `dev0` can reach, with the history. -/
inductive RamRun (dev0 : RamDevice) : RamHistory → RamDevice → Prop
  | start : RamRun dev0 [] dev0
  | request {hist : RamHistory} {dev : RamDevice} (op : RamOp) (hrun : RamRun dev0 hist dev) :
      RamRun dev0 ((op, (ramStep dev op).1) :: hist) (ramStep dev op).2

/-- Byte `i` of a disk with blocks of `b` bytes: that of the latest successful write to cover it,
or else the one it had initially. -/
def latestByte (b : Nat) (initial : Bytes) : RamHistory → Nat → UInt8
  | [], i => initial i
  | (.write lba count buffer, .ok) :: hist, i =>
    if lba.toNat * b ≤ i ∧ i < (lba.toNat + count.toNat) * b then buffer (i - lba.toNat * b)
    else latestByte b initial hist i
  | _ :: hist, i => latestByte b initial hist i

theorem latestByte_of_ne {b : Nat} {initial : Bytes} {hist : RamHistory} {lba : UInt64}
    {count : UInt32} {buffer : Bytes} {st : BlkStatus} (hst : st ≠ .ok) :
    latestByte b initial ((.write lba count buffer, st) :: hist) =
      latestByte b initial hist := by
  funext i
  cases st <;> first | rfl | exact absurd rfl hst

/-- Along a run the geometry stays, and every byte is that of the latest write. -/
theorem ramRun_storage {dev0 dev : RamDevice} {hist : RamHistory} (hwf : RamWf dev0)
    (hrun : RamRun dev0 hist dev) :
    RamWf dev ∧ dev.blockSize = dev0.blockSize ∧ dev.blockCount = dev0.blockCount ∧
      dev.ram.storage = latestByte dev0.blockSize.toNat dev0.ram.storage hist := by
  induction hrun with
  | start => exact ⟨hwf, rfl, rfl, rfl⟩
  | @request hist dev op hrun ih =>
      obtain ⟨hwf', hbs, hbc, hsto⟩ := ih
      cases op with
      | read lba count buffer =>
          have hdev : (blkRead lba count buffer dev).2.2 = dev := by
            unfold blkRead
            rcases blkRw_cases false lba count buffer dev with ⟨hin, heq⟩ | ⟨-, st, -, -, heq⟩
            · rw [heq, ramblkRw_eq hwf' hin]
              rfl
            · rw [heq]
          simp only [ramStep, hdev]
          exact ⟨hwf', hbs, hbc, hsto⟩
      | write lba count buffer =>
          simp only [ramStep, blkWrite]
          rcases blkRw_cases true lba count buffer dev with ⟨hin, heq⟩ | ⟨-, st, hst, -, heq⟩
          · -- the bytes of the request are replaced, the others stay
            rw [heq, ramblkRw_eq hwf' hin, if_pos rfl]
            refine ⟨⟨hwf'.size_pos, hwf'.size_eq⟩, hbs, hbc, ?_⟩
            funext i
            show dev.ram.storage.copy _ buffer 0 _ i = if _ then _ else _
            rw [← hsto, hbs, Bytes.copy, Nat.add_mul, Nat.zero_add]
          · rw [heq, latestByte_of_ne hst]
            exact ⟨hwf', hbs, hbc, hsto⟩

/-- A RAM disk in a given state, asked for `count` blocks from `lba` on, acts as an array of
blocks whose bytes are `content`. -/
structure ExactArray (content : Bytes) (dev : RamDevice) (lba : UInt64) (count : UInt32) :
    Prop where
  erange_iff : ∀ isWrite buffer, (blkRw isWrite lba count buffer dev).1 = .erange ↔
    1 ≤ count.toNat ∧ dev.blockCount.toNat < lba.toNat + count.toNat
  ok_iff : ∀ isWrite buffer, (blkRw isWrite lba count buffer dev).1 = .ok ↔
    1 ≤ count.toNat ∧ lba.toNat + count.toNat ≤ dev.blockCount.toNat
  /-- the driver refuses nothing that the block layer lets through, and no product wraps -/
  passed : blkValidateRange dev.hardware () lba.toNat count.toNat = .ok →
    (∀ isWrite buffer, (ramblkRw isWrite lba count buffer dev).1 = .ok) ∧
    (byteOffset dev lba).toNat = lba.toNat * dev.blockSize.toNat ∧
    (byteCount dev count).toNat = count.toNat * dev.blockSize.toNat
  untouched : ∀ isWrite buffer i, ¬(lba.toNat * dev.blockSize.toNat ≤ i ∧
      i < (lba.toNat + count.toNat) * dev.blockSize.toNat) →
    (blkRw isWrite lba count buffer dev).2.2.ram.storage i = dev.ram.storage i
  write_buffer : ∀ buffer, (blkWrite lba count buffer dev).2.1 = buffer
  read_device : ∀ buffer, (blkRead lba count buffer dev).2.2 = dev
  read_bytes : ∀ buffer, (blkRead lba count buffer dev).1 = .ok →
    ∀ k, (blkRead lba count buffer dev).2.1 k =
      if k < count.toNat * dev.blockSize.toNat then content (lba.toNat * dev.blockSize.toNat + k)
      else buffer k

theorem RamWf.exactArray {dev : RamDevice} (hwf : RamWf dev) (lba : UInt64) (count : UInt32) :
    ExactArray dev.ram.storage dev lba count := by
  refine ⟨fun isWrite buffer => blkRw_erange_iff hwf isWrite lba count buffer,
    fun isWrite buffer => blkRw_ok_iff hwf isWrite lba count buffer, fun hst => ?_,
    fun isWrite buffer i hi => ?_, fun buffer => ?_, fun buffer => ?_, fun buffer hok k => ?_⟩
  · have hin := (blkValidateRange_ok_iff dev lba count).mp hst
    obtain ⟨hoff, hn, -⟩ := hwf.products hin
    exact ⟨fun isWrite buffer => ramblkRw_ok hwf hin isWrite buffer, hoff, hn⟩
  · rcases blkRw_cases isWrite lba count buffer dev with ⟨hin, heq⟩ | ⟨-, st, -, -, heq⟩
    · rw [heq, ramblkRw_eq hwf hin]
      cases isWrite with
      | false => rfl
      | true =>
          show dev.ram.storage.copy _ buffer 0 _ i = _
          rw [Bytes.copy, ← Nat.add_mul, if_neg hi]
    · rw [heq]
  · unfold blkWrite
    rcases blkRw_cases true lba count buffer dev with ⟨hin, heq⟩ | ⟨-, st, -, -, heq⟩
    · rw [heq, ramblkRw_eq hwf hin]
      rfl
    · rw [heq]
  · unfold blkRead
    rcases blkRw_cases false lba count buffer dev with ⟨hin, heq⟩ | ⟨-, st, -, -, heq⟩
    · rw [heq, ramblkRw_eq hwf hin]
      rfl
    · rw [heq]
  · unfold blkRead at hok ⊢
    rcases blkRw_cases false lba count buffer dev with ⟨hin, heq⟩ | ⟨-, st, hst, -, heq⟩
    · rw [heq, ramblkRw_eq hwf hin]
      show buffer.copy 0 dev.ram.storage _ _ k = _
      simp only [Bytes.copy, Nat.zero_le, true_and, Nat.zero_add, Nat.sub_zero]
    · rw [heq] at hok
      exact absurd hok hst

/-- **The RAM block device is an exact array of blocks**, after any run on any device that
`mcsos_ramblk_init` has set up. -/
theorem ramblk_exact {storage : Bytes} {storageSize : UInt64} {blockSize : UInt32}
    {dev00 dev0 dev : RamDevice} {hist : RamHistory}
    (hinit : ramblkInit storage storageSize blockSize dev00 = (.ok, dev0))
    (hrun : RamRun dev0 hist dev) (lba : UInt64) (count : UInt32) :
    dev.blockSize = blockSize ∧
    dev.blockCount.toNat * blockSize.toNat = storageSize.toNat ∧
    ExactArray (latestByte blockSize.toNat storage hist) dev lba count := by
  obtain ⟨hwf0, hsto0, hsize0, hbs0⟩ := ramblkInit_ok hinit
  obtain ⟨hwf, hbs, hbc, hsto⟩ := ramRun_storage hwf0 hrun
  rw [hbs0, hsto0] at hsto
  refine ⟨hbs.trans hbs0, ?_, ?_⟩
  · rw [hbc, ← hbs0, hwf0.size_eq, hsize0]
  · rw [← hsto]
    exact hwf.exactArray lba count

/-- A disk of two blocks. -/
def smallDisk : RamDevice :=
  (ramblkInit Bytes.zero 1024 512 ⟨0, 0, ⟨Bytes.zero, 0⟩⟩).2

/-- A read of both blocks after the second one has been written. -/
theorem ramblk_exact_small :
    ∃ hist dev, RamRun smallDisk hist dev ∧ hist.length = 1 ∧
      (blkRead 0 2 Bytes.zero dev).1 = .ok ∧
      ExactArray (latestByte 512 Bytes.zero hist) dev 0 2 := by
  have hinit : ramblkInit Bytes.zero 1024 512 ⟨0, 0, ⟨Bytes.zero, 0⟩⟩ = (.ok, smallDisk) :=
    Prod.ext (by decide) rfl
  have hstart : RamRun smallDisk [] smallDisk := .start
  have hrun := hstart.request (.write 1 1 (fun _ => 7))
  have hexact := (ramblk_exact hinit hrun 0 2).2.2
  refine ⟨_, _, hrun, rfl, (hexact.ok_iff false Bytes.zero).mpr ?_, hexact⟩
  decide +kernel

end Mcsos.Block.Ram
