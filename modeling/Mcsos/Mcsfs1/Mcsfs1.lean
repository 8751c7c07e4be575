import Mcsos.Lib.Bitmap
import Mcsos.Lib.CStr
import Mcsos.Lib.Loop
import Mcsos.Lib.Prog

set_option autoImplicit false

/-! # The file system MCSFS1 (`fs/mcsfs1/mcsfs1.c`)

Format, mount, create, write, read, unlink and fsck. There is no journal: an operation is a
sequence of block writes, and one that fails ends it there. On-disk structures are read and written
through their field offsets. The directory is one block of 16 entries; a name of 27 bytes fills its
field, and what is behind the last field of the block is behind the buffer: `past` is that byte. An
access outside an array or a buffer of the caller ends the call as `wild`: from there on the source
says nothing. So does a bit of a block from 4096 on, which is behind the buffer of the bitmap.
-/

namespace Mcsos.Mcsfs1

def blockSize : Nat := 512
def fsMagic : Nat := 0x31465343
def version : Nat := 1
def maxInodes : Nat := 32
def directBlocks : Nat := 8
def maxName : Nat := 27
def rootIno : Nat := 1
def modeFile : Nat := 1
def modeDir : Nat := 2
def sbLba : Nat := 0
def inodeBmapLba : Nat := 1
def blockBmapLba : Nat := 2
def inodeTableLba : Nat := 3
def inodeTableBlocks : Nat := 4
def rootDirLba : Nat := 7
def dataStartLba : Nat := 8
def minBlocks : Nat := 16
def direntCount : Nat := 16
/-- `sizeof(struct mcsfs1_inode_disk)` -/
def inodeSize : Nat := 60
/-- `sizeof(struct mcsfs1_dirent_disk)` -/
def direntSize : Nat := 32
/-- Inodes in a block of the inode table. -/
def perBlock : Nat := blockSize / inodeSize
/-- Bits in the buffer of a bitmap. -/
def bitmapBits : Nat := blockSize * 8

/-- `MCSFS1_ERR_*` other than `MCSFS1_ERR_OK`, and `wild` for an access outside an array. -/
inductive Mcsfs1Err where
  | inval | io | nospc | exist | noent | nametoolong | corrupt | isdir | range | wild
  deriving DecidableEq, Repr

/-- `struct mcsfs1_blkdev` and the device behind it: its blocks, which of the writes and flushes
fail, and how many there have been; which of the reads fail, and the blocks that have been asked
for, the latest first. -/
structure Blkdev where
  blockCount : Nat
  blocks : Nat → Bytes
  fails : Nat → Bool
  calls : Nat
  readFails : Nat → Bool
  reads : List Nat

/-- `struct mcsfs1_mount` -/
structure Mount where
  blockCount : Nat
  dataStart : Nat
  deriving DecidableEq

/-- A function of the file system on the device. -/
abbrev M15 := Prog Blkdev Mcsfs1Err

/-! ## Names -/

/-- `mcsfs_strlen_bound` -/
def strlenBound (s : Bytes) (maxPlusOne : Nat) : Nat := CStr.strlenFrom s 0 maxPlusOne

/-- The loop of `mcsfs_memcmp` from `i` on, `n` bytes left. -/
def memcmpFrom (a b : Bytes) (i : Nat) : Nat → Int
  | 0 => 0
  | n + 1 => if a i ≠ b i then (a i).toNat - (b i).toNat else memcmpFrom a b (i + 1) n

/-- `mcsfs_memcmp` -/
def memcmp (a b : Bytes) (n : Nat) : Int := memcmpFrom a b 0 n

/-- `valid_name`: the length of the name. -/
def validName (name : Bytes) : Except Mcsfs1Err Nat :=
  let n := strlenBound name (maxName + 1)
  if n = 0 then .error .inval
  else if maxName < n then .error .nametoolong
  else if (Loop.findFrom (fun i => name i == 0x2f) 0 n).isSome then .error .inval
  else .ok n

/-! ## The device -/

def devRead (lba : Nat) : M15 Bytes := fun dev =>
  if dev.blockCount ≤ lba then (.error .inval, dev)
  else if dev.readFails dev.reads.length then (.error .io, { dev with reads := lba :: dev.reads })
  else (.ok (dev.blocks lba), { dev with reads := lba :: dev.reads })

def devWrite (lba : Nat) (buf : Bytes) : M15 Unit := fun dev =>
  if dev.blockCount ≤ lba then (.error .inval, dev)
  else if dev.fails dev.calls then (.error .io, { dev with calls := dev.calls + 1 })
  else
    (.ok (), { dev with
      calls := dev.calls + 1
      blocks := Function.update dev.blocks lba (Bytes.clip blockSize buf) })

def devFlush : M15 Unit := fun dev =>
  if dev.fails dev.calls then (.error .io, { dev with calls := dev.calls + 1 })
  else (.ok (), { dev with calls := dev.calls + 1 })

/-! ## The super block, the inodes and the directory -/

def sMagic (sb : Bytes) : Nat := sb.load 0 4
def sVersion (sb : Bytes) : Nat := sb.load 4 4
def sBlockSize (sb : Bytes) : Nat := sb.load 8 4
def sBlockCount (sb : Bytes) : Nat := sb.load 12 4
def sInodeCount (sb : Bytes) : Nat := sb.load 16 4
def sInodeBmapLba (sb : Bytes) : Nat := sb.load 20 4
def sBlockBmapLba (sb : Bytes) : Nat := sb.load 24 4
def sInodeTableLba (sb : Bytes) : Nat := sb.load 28 4
def sRootIno (sb : Bytes) : Nat := sb.load 36 4
def sRootDirLba (sb : Bytes) : Nat := sb.load 40 4
def sDataStartLba (sb : Bytes) : Nat := sb.load 44 4

/-- The super block that `mcsfs1_format` writes. -/
def mkSuper (blockCount : Nat) : Bytes :=
  let sb := (Bytes.zero.store 0 4 fsMagic).store 4 4 version
  let sb := (sb.store 8 4 blockSize).store 12 4 blockCount
  let sb := (sb.store 16 4 maxInodes).store 20 4 inodeBmapLba
  let sb := (sb.store 24 4 blockBmapLba).store 28 4 inodeTableLba
  let sb := (sb.store 32 4 inodeTableBlocks).store 36 4 rootIno
  ((sb.store 40 4 rootDirLba).store 44 4 dataStartLba).store 48 4 1

def iMode (inode : Bytes) : Nat := inode.load 0 2
def iSize (inode : Bytes) : Nat := inode.load 4 4
def iDirect (inode : Bytes) (j : Nat) : Nat := inode.load (8 + 4 * j) 4

/-- An inode with `mode`, `links`, `size` and `direct[0]` set after `mcsfs_memset`. -/
def mkInode (mode size direct0 : Nat) : Bytes :=
  (((Bytes.zero.store 0 2 mode).store 2 2 1).store 4 4 size).store 8 4 direct0

def deIno (dir : Bytes) (i : Nat) : Nat := dir.load (i * direntSize) 4
def deType (dir : Bytes) (i : Nat) : Nat := (dir (i * direntSize + 4)).toNat
/-- `de[i].name` -/
def deName (dir : Bytes) (i : Nat) : Bytes := fun k => dir (i * direntSize + 5 + k)

/-- `ino`, `type` and `name` of a directory entry. -/
def setDirent (dir : Bytes) (i ino : Nat) (name : Bytes) (nameLen : Nat) : Bytes :=
  (((dir.store (i * direntSize) 4 ino).store (i * direntSize + 4) 1 modeFile).fill
    (i * direntSize + 5) maxName 0).copy (i * direntSize + 5) name 0 nameLen

/-- The directory block in the buffer of `find_dirent`, and what is behind the buffer. -/
def withPast (block : Bytes) (past : UInt8) : Bytes := fun k =>
  if k < blockSize then block k else past

/-- The test that `find_dirent` makes on entry `i`. -/
def direntMatches (dir name : Bytes) (nameLen i : Nat) : Bool :=
  deIno dir i ≠ 0 && strlenBound (deName dir i) (maxName + 1) = nameLen &&
    memcmp (deName dir i) name nameLen = 0

/-- The first entry of the directory with that name. -/
def findSlot (dir name : Bytes) (nameLen : Nat) : Option Nat :=
  Loop.findFrom (direntMatches dir name nameLen) 0 direntCount

def loadSuper : M15 Bytes := do
  let sb ← devRead sbLba
  let blockCount ← Prog.asks Blkdev.blockCount
  Prog.failIf (sMagic sb ≠ fsMagic ∨ sVersion sb ≠ version ∨ sBlockSize sb ≠ blockSize) .corrupt
  Prog.failIf (sBlockCount sb ≠ blockCount ∨ sInodeCount sb ≠ maxInodes) .corrupt
  Prog.failIf (sInodeBmapLba sb ≠ inodeBmapLba ∨ sBlockBmapLba sb ≠ blockBmapLba ∨
    sInodeTableLba sb ≠ inodeTableLba) .corrupt
  Prog.failIf (sRootIno sb ≠ rootIno ∨ sRootDirLba sb ≠ rootDirLba ∨
    sDataStartLba sb ≠ dataStartLba) .corrupt
  Prog.failIf (sBlockCount sb ≤ sDataStartLba sb) .corrupt
  pure sb

/-- The block of the inode table that has inode `ino`. -/
def inodeLba (ino : Nat) : Nat := inodeTableLba + (ino - 1) / perBlock

/-- The place of inode `ino` in its block. -/
def inodeOff (ino : Nat) : Nat := (ino - 1) % perBlock * inodeSize

def readInode (ino : Nat) : M15 Bytes := do
  Prog.failIf (ino = 0 ∨ maxInodes < ino) .inval
  Prog.failIf (dataStartLba ≤ inodeLba ino) .corrupt
  let block ← devRead (inodeLba ino)
  pure (Bytes.zero.copy 0 block (inodeOff ino) inodeSize)

def writeInode (ino : Nat) (inode : Bytes) : M15 Unit := do
  Prog.failIf (ino = 0 ∨ maxInodes < ino) .inval
  Prog.failIf (dataStartLba ≤ inodeLba ino) .corrupt
  let block ← devRead (inodeLba ino)
  devWrite (inodeLba ino) (block.copy (inodeOff ino) inode 0 inodeSize)

def storeBmaps (ib bb : Bytes) : M15 Unit := do
  devWrite inodeBmapLba ib
  devWrite blockBmapLba bb

/-- `find_dirent`: the slot and the inode of the name. -/
def findDirent (name : Bytes) (past : UInt8) : M15 (Nat × Nat) := do
  let nameLen ← Prog.ofExcept (validName name)
  let block ← devRead rootDirLba
  let dir := withPast block past
  let slot ← Prog.ofOption (findSlot dir name nameLen) .noent
  pure (slot, deIno dir slot)

/-! ## Allocation -/

def findFreeInode (ib : Bytes) : Option Nat :=
  Loop.findFrom (fun i => !Bitmap.test ib i) 2 (maxInodes - 1)

/-- The first free block among those that have a bit in the buffer. -/
def findFreeBlock (bb : Bytes) (blockCount : Nat) : Option Nat :=
  Loop.findFrom (fun b => !Bitmap.test bb b) dataStartLba
    (min blockCount bitmapBits - dataStartLba)

/-- What the loop comes to behind the blocks that have a bit: its end, or a bit behind the
buffer. -/
def noBlock (blockCount : Nat) : Mcsfs1Err := if bitmapBits < blockCount then .wild else .nospc

/-- `alloc_inode_block`: a new inode and a new block. -/
def allocInodeBlock : M15 (Nat × Nat) := do
  let ib ← devRead inodeBmapLba
  let bb ← devRead blockBmapLba
  let blockCount ← Prog.asks Blkdev.blockCount
  let ino ← Prog.ofOption (findFreeInode ib) .nospc
  let lba ← Prog.ofOption (findFreeBlock bb blockCount) (noBlock blockCount)
  storeBmaps (Bitmap.set ib ino) (Bitmap.set bb lba)
  pure (ino, lba)

def allocDataBlock : M15 Nat := do
  let ib ← devRead inodeBmapLba
  let bb ← devRead blockBmapLba
  let blockCount ← Prog.asks Blkdev.blockCount
  let b ← Prog.ofOption (findFreeBlock bb blockCount) (noBlock blockCount)
  storeBmaps ib (Bitmap.set bb b)
  pure b

/-- The loop of `free_inode_and_blocks`. -/
def clearDirect (blockCount : Nat) (inode bb : Bytes) : Bytes :=
  Loop.forStep 1 (fun j bb =>
    if iDirect inode j ≠ 0 ∧ iDirect inode j < blockCount then Bitmap.clear bb (iDirect inode j)
    else bb) directBlocks 0 bb

/-- A block of the device whose bit is behind the buffer. -/
def behindBmap (blockCount lba : Nat) : Bool := bitmapBits ≤ lba && lba < blockCount

def freeInodeAndBlocks (ino : Nat) (inode : Bytes) : M15 Unit := do
  let ib ← devRead inodeBmapLba
  let bb ← devRead blockBmapLba
  let blockCount ← Prog.asks Blkdev.blockCount
  Prog.failIf ((Loop.findFrom (fun j => behindBmap blockCount (iDirect inode j))
    0 directBlocks).isSome = true) .wild
  storeBmaps (Bitmap.clear ib ino) (clearDirect blockCount inode bb)

/-! ## `mcsfs1_format` and `mcsfs1_mount` -/

/-- The loop that writes zeros, from block `lba` on, `n` blocks left. -/
def zeroBlocks (lba : Nat) : Nat → M15 Unit
  | 0 => pure ()
  | n + 1 => do
    devWrite lba Bytes.zero
    zeroBlocks (lba + 1) n

/-- The block bitmap of an empty image: the first `n` blocks are in use. -/
def formatBlockBmap : Nat → Bytes
  | 0 => Bytes.zero
  | n + 1 => Bitmap.set (formatBlockBmap n) n

def format : M15 Unit := do
  let blockCount ← Prog.asks Blkdev.blockCount
  Prog.failIf (blockCount < minBlocks ∨ blockSize * 8 < blockCount) .inval
  zeroBlocks 0 blockCount
  devWrite sbLba (mkSuper blockCount)
  storeBmaps (Bitmap.set (Bitmap.set Bytes.zero 0) rootIno)
    (Bitmap.set (formatBlockBmap dataStartLba) rootDirLba)
  writeInode rootIno (mkInode modeDir blockSize rootDirLba)
  devFlush

def mount : M15 Mount := do
  let sb ← loadSuper
  let root ← readInode rootIno
  Prog.failIf (iMode root ≠ modeDir ∨ iDirect root 0 ≠ rootDirLba) .corrupt
  pure ⟨sBlockCount sb, sDataStartLba sb⟩

/-! ## `mcsfs1_create` -/

def findFreeDirent (dir : Bytes) : Option Nat :=
  Loop.findFrom (fun i => decide (deIno dir i = 0)) 0 direntCount

def create (name : Bytes) (past : UInt8) : M15 Unit := do
  let nameLen ← Prog.ofExcept (validName name)
  let found ← Prog.attempt (findDirent name past)
  Prog.failIf (found.isOk = true) .exist
  let dir ← devRead rootDirLba
  let slot ← Prog.ofOption (findFreeDirent dir) .nospc
  let (ino, firstData) ← allocInodeBlock
  writeInode ino (mkInode modeFile 0 firstData)
  devWrite rootDirLba (setDirent dir slot ino name nameLen)
  devFlush

/-! ## `mcsfs1_write` -/

/-- The blocks that `len` bytes take; the sum is a `uint32_t`. -/
def blocksNeeded (len : Nat) : Nat := (len + blockSize - 1) % 2 ^ 32 / blockSize

/-- The first loop of `mcsfs1_write`, from `direct[i]` on, `n` entries left: the inode with a block
wherever it had none. -/
def allocBlocks (inode : Bytes) (i : Nat) : Nat → M15 Bytes
  | 0 => pure inode
  | n + 1 =>
    if iDirect inode i = 0 then do
      let lba ← allocDataBlock
      allocBlocks (inode.store (8 + 4 * i) 4 lba) (i + 1) n
    else allocBlocks inode (i + 1) n

/-- The second loop, `written` bytes done. -/
def writeBlocks (inode buf : Bytes) (len i written : Nat) : Nat → M15 Unit
  | 0 => pure ()
  | n + 1 => do
    let remain := len - written
    let chunk := if blockSize < remain then blockSize else remain
    devWrite (iDirect inode i) (Bytes.zero.copy 0 buf written chunk)
    writeBlocks inode buf len (i + 1) (written + chunk) n

def write (name buf : Bytes) (len : Nat) (past : UInt8) : M15 Unit := do
  Prog.failIf (directBlocks * blockSize < len) .range
  let (_, ino) ← findDirent name past
  let inode ← readInode ino
  Prog.failIf (iMode inode ≠ modeFile) .isdir
  let needed := if blocksNeeded len = 0 then 1 else blocksNeeded len
  let inode ← allocBlocks inode 0 needed
  writeBlocks inode buf len 0 0 needed
  writeInode ino (inode.store 4 4 len)
  devFlush

/-! ## `mcsfs1_read` -/

/-- The loop of `mcsfs1_read`, `copied` bytes done: the bytes it copies out. `direct` has 8 entries
and the buffer `cap` bytes. -/
def readBlocks (mnt : Mount) (inode : Bytes) (cap i copied : Nat) : Nat → M15 (List UInt8)
  | 0 => pure []
  | n + 1 => do
    Prog.failIf (directBlocks ≤ i) .wild
    Prog.failIf (iDirect inode i = 0 ∨ mnt.blockCount ≤ iDirect inode i) .corrupt
    let block ← devRead (iDirect inode i)
    let remain := iSize inode - copied
    let chunk := if blockSize < remain then blockSize else remain
    Prog.failIf (cap < copied + chunk) .wild
    let rest ← readBlocks mnt inode cap (i + 1) (copied + chunk) n
    pure (block.slice 0 chunk ++ rest)

/-- What `mcsfs1_read` gives back: `*out_len`, and the bytes it has copied to the start of the
buffer. -/
structure ReadOut where
  outLen : Nat
  bytes : List UInt8
  deriving DecidableEq

/-- `mcsfs1_read` for a buffer of `cap` bytes. -/
def read (mnt : Mount) (name : Bytes) (cap : Nat) (past : UInt8) : M15 ReadOut := do
  let (_, ino) ← findDirent name past
  let inode ← readInode ino
  Prog.failIf (iMode inode ≠ modeFile) .isdir
  Prog.failIf (cap < iSize inode) .range
  let bytes ← readBlocks mnt inode cap 0 0 (blocksNeeded (iSize inode))
  pure ⟨iSize inode, bytes⟩

/-! ## `mcsfs1_unlink` -/

def unlink (name : Bytes) (past : UInt8) : M15 Unit := do
  let (slot, ino) ← findDirent name past
  let inode ← readInode ino
  Prog.failIf (iMode inode ≠ modeFile) .isdir
  let dir ← devRead rootDirLba
  devWrite rootDirLba (dir.fill (slot * direntSize) direntSize 0)
  freeInodeAndBlocks ino inode
  writeInode ino Bytes.zero
  devFlush

/-! ## `mcsfs1_fsck` -/

/-- The check of the blocks of a file, from `direct[j]` on, `n` entries left. -/
def fsckBlocks (bb inode : Bytes) (blockCount j : Nat) : Nat → M15 Unit
  | 0 => pure ()
  | n + 1 => do
    let lba := iDirect inode j
    Prog.failIf (lba < dataStartLba ∨ blockCount ≤ lba) .corrupt
    Prog.failIf (bitmapBits ≤ lba) .wild
    Prog.failIf (Bitmap.test bb lba = false) .corrupt
    fsckBlocks bb inode blockCount (j + 1) n

/-- The check of the directory, from entry `i` on, `n` entries left. -/
def fsckDirents (ib bb dir : Bytes) (blockCount i : Nat) : Nat → M15 Unit
  | 0 => pure ()
  | n + 1 =>
    if deIno dir i = 0 then fsckDirents ib bb dir blockCount (i + 1) n
    else do
      Prog.failIf (maxInodes < deIno dir i ∨ deType dir i ≠ modeFile ∨
        Bitmap.test ib (deIno dir i) = false) .corrupt
      let inode ← readInode (deIno dir i)
      Prog.failIf (iMode inode ≠ modeFile ∨ directBlocks * blockSize < iSize inode) .corrupt
      let needed := if blocksNeeded (iSize inode) = 0 then 1 else blocksNeeded (iSize inode)
      fsckBlocks bb inode blockCount 0 needed
      fsckDirents ib bb dir blockCount (i + 1) n

def fsck : M15 Unit := do
  let _ ← loadSuper
  let ib ← devRead inodeBmapLba
  let bb ← devRead blockBmapLba
  let blockCount ← Prog.asks Blkdev.blockCount
  Prog.failIf (Bitmap.test ib rootIno = false ∨ Bitmap.test bb rootDirLba = false) .corrupt
  Prog.failIf ((Loop.findFrom (fun b => !Bitmap.test bb b) 0 dataStartLba).isSome = true) .corrupt
  let root ← readInode rootIno
  Prog.failIf (iMode root ≠ modeDir ∨ iDirect root 0 ≠ rootDirLba) .corrupt
  let dir ← devRead rootDirLba
  fsckDirents ib bb dir blockCount 0 direntCount

end Mcsos.Mcsfs1
