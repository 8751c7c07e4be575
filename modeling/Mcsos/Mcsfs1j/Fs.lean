import Mcsos.Lib.Bitmap
import Mcsos.Lib.CStr
import Mcsos.Lib.Loop
import Mcsos.Mcsfs1j.Journal

set_option autoImplicit false

/-! # The file system MCSFS1J (`kernel/fs/mcsfs1j/m16_mcsfs_journal.c`)

Format, mount, write, read and fsck. A file has one data block; the root directory is the only
directory. A write is two transactions: bitmaps and inode table, then directory and data.
-/

namespace Mcsos.Mcsfs1j

def maxInodes : Nat := 16
def maxName : Nat := 32
def fsMagic : Nat := 0x4d43534631564a31
def inodeBitmapLba : Nat := journalStart + journalBlocks
def blockBitmapLba : Nat := inodeBitmapLba + 1
def inodeTableLba : Nat := blockBitmapLba + 1
def inodeTableBlocks : Nat := 4
def rootDirLba : Nat := inodeTableLba + inodeTableBlocks
def dataStartLba : Nat := rootDirLba + 1

/-- `sizeof(struct m16_inode)` -/
def inodeSize : Nat := 128
/-- `sizeof(struct m16_dirent)` -/
def direntSize : Nat := 40
/-- The entries of a directory block. -/
def dirCount : Nat := blockSize / direntSize

/-! ## Names -/

/-- `m16_strlen_bounded` -/
def strlenBounded (s : Bytes) (max : Nat) : Nat := CStr.strlenFrom s 0 max

/-- The loop of `m16_streq` from `i` on, `n` bytes left. -/
def streqFrom (a b : Bytes) (i : Nat) : Nat → Bool
  | 0 => true
  | n + 1 => if a i ≠ b i then false else if a i = 0 then true else streqFrom a b (i + 1) n

/-- `m16_streq` -/
def streq (a b : Bytes) : Bool := streqFrom a b 0 maxName

/-! ## `struct m16_super` -/

def sMagic (sb : Bytes) : Nat := sb.load 0 8
def sVersion (sb : Bytes) : Nat := sb.load 8 4
def sBlockSize (sb : Bytes) : Nat := sb.load 12 4
def sRootDirLba (sb : Bytes) : Nat := sb.load 44 4
def sDataStartLba (sb : Bytes) : Nat := sb.load 48 4
def sCleanGeneration (sb : Bytes) : Nat := sb.load 52 4

/-- The super block that `m16_format` writes. -/
def mkSuper (totalBlocks : Nat) : Bytes :=
  let sb := (Bytes.zero.store 0 8 fsMagic).store 8 4 version
  let sb := (sb.store 12 4 blockSize).store 16 4 totalBlocks
  let sb := (sb.store 20 4 journalStart).store 24 4 journalBlocks
  let sb := (sb.store 28 4 inodeBitmapLba).store 32 4 blockBitmapLba
  let sb := (sb.store 36 4 inodeTableLba).store 40 4 inodeTableBlocks
  ((sb.store 44 4 rootDirLba).store 48 4 dataStartLba).store 52 4 1

/-! ## The inode table and the directory -/

def iUsed (inodes : Bytes) (ino : Nat) : Nat := inodes.load (ino * inodeSize) 4
def iKind (inodes : Bytes) (ino : Nat) : Nat := inodes.load (ino * inodeSize + 4) 4
def iSize (inodes : Bytes) (ino : Nat) : Nat := inodes.load (ino * inodeSize + 8) 4
def iDirect0 (inodes : Bytes) (ino : Nat) : Nat := inodes.load (ino * inodeSize + 12) 4

/-- `used`, `kind`, `size` and `direct[0]` of an inode. -/
def setInode (inodes : Bytes) (ino kind size direct0 : Nat) : Bytes :=
  (((inodes.store (ino * inodeSize) 4 1).store (ino * inodeSize + 4) 4 kind).store
    (ino * inodeSize + 8) 4 size).store (ino * inodeSize + 12) 4 direct0

def dUsed (dir : Bytes) (i : Nat) : Nat := dir.load (i * direntSize) 4
def dIno (dir : Bytes) (i : Nat) : Nat := dir.load (i * direntSize + 4) 4
/-- `dir[i].name` -/
def dName (dir : Bytes) (i : Nat) : Bytes := fun k => dir (i * direntSize + 8 + k)

/-- `used`, `ino` and `name` of a directory entry. -/
def setDirent (dir : Bytes) (i ino : Nat) (name : Bytes) (nameLen : Nat) : Bytes :=
  (((dir.store (i * direntSize) 4 1).store (i * direntSize + 4) 4 ino).fill
    (i * direntSize + 8) maxName 0).copy (i * direntSize + 8) name 0 nameLen

def findFreeInode (ib : Bytes) : Option Nat :=
  Loop.findFrom (fun i => !Bitmap.test ib i) 1 (maxInodes - 1)

def findFreeBlock (bb : Bytes) : Option Nat :=
  Loop.findFrom (fun i => !Bitmap.test bb i) dataStartLba (maxBlocks - dataStartLba)

def findDirent (dir name : Bytes) : Option Nat :=
  Loop.findFrom (fun i => decide (dUsed dir i ≠ 0) && streq (dName dir i) name) 0 dirCount

def findFreeDirent (dir : Bytes) : Option Nat :=
  Loop.findFrom (fun i => decide (dUsed dir i = 0)) 0 dirCount

/-- Block `i` of the inode table. -/
def inodeBlock (inodes : Bytes) (i : Nat) : Bytes := fun k => inodes (i * blockSize + k)

/-- The loop of `m16_load_inode_table` from block `i` on, `n` blocks left. The array it fills is
all zeros here, as all of it is filled. -/
def loadInodes (inodes : Bytes) (i : Nat) : Nat → M16 Bytes
  | 0 => pure inodes
  | n + 1 => do
    let b ← readBlock (inodeTableLba + i)
    loadInodes (inodes.copy (i * blockSize) b 0 blockSize) (i + 1) n

def loadInodeTable : M16 Bytes := loadInodes Bytes.zero 0 inodeTableBlocks

/-- The loop of `m16_store_inode_table` from block `i` on, `n` blocks left. -/
def storeInodes (tx : Tx) (inodes : Bytes) (i : Nat) : Nat → Tx
  | 0 => tx
  | n + 1 =>
    storeInodes ⟨tx.count + 1,
      Function.update tx.recs tx.count ⟨inodeTableLba + i, inodeBlock inodes i⟩⟩ inodes (i + 1) n

def storeInodeTable (tx : Tx) (inodes : Bytes) : Except M16Err Tx :=
  if journalMaxRecords < tx.count + inodeTableBlocks then .error .nospc
  else .ok (storeInodes tx inodes 0 inodeTableBlocks)

/-! ## `m16_format` and `m16_mount` -/

/-- The block bitmap of an empty image: the first `n` blocks are in use. -/
def formatBitmap : Nat → Bytes
  | 0 => Bytes.zero
  | n + 1 => Bitmap.set (formatBitmap n) n

/-- The inode table of an empty image. -/
def formatInodes : Bytes := setInode Bytes.zero 0 2 0 rootDirLba

/-- The loop that writes the inode table, from block `i` on, `n` blocks left. -/
def writeInodes (inodes : Bytes) (i : Nat) : Nat → M16 Unit
  | 0 => pure ()
  | n + 1 => do
    writeBlock (inodeTableLba + i) (inodeBlock inodes i)
    writeInodes inodes (i + 1) n

def format : M16 Unit := do
  Prog.modify (fun dev => { dev with blocks := fun _ => Bytes.zero })
  let totalBlocks ← Prog.asks Blockdev.totalBlocks
  writeBlock 0 (mkSuper totalBlocks)
  writeBlock inodeBitmapLba (Bitmap.set Bytes.zero 0)
  writeBlock blockBitmapLba (formatBitmap dataStartLba)
  writeInodes formatInodes 0 inodeTableBlocks
  writeBlock rootDirLba Bytes.zero
  journalClear

/-- `m16_mount`; the super block that it has checked fills `*sb`. -/
def mount : M16 Bytes := do
  journalRecover
  let sb ← readBlock 0
  Prog.failIf (sMagic sb ≠ fsMagic ∨ sVersion sb ≠ version ∨ sBlockSize sb ≠ blockSize) .corrupt
  Prog.failIf (sDataStartLba sb ≠ dataStartLba ∨ sRootDirLba sb ≠ rootDirLba) .corrupt
  pure sb

/-! ## `m16_write_file_ex` -/

/-- The metadata of an image: bitmaps, inode table and root directory. -/
structure Meta where
  ib : Bytes
  bb : Bytes
  inodes : Bytes
  dir : Bytes

/-- The reads that `m16_write_file_ex` and `m16_fsck` begin with. -/
def readMeta : M16 Meta := do
  let ib ← readBlock inodeBitmapLba
  let bb ← readBlock blockBitmapLba
  let inodes ← loadInodeTable
  let dir ← readBlock rootDirLba
  pure ⟨ib, bb, inodes, dir⟩

/-- The first transaction: bitmaps and inode table. -/
def metaTx (m : Meta) : Except M16Err Tx := do
  let tx ← txAdd Tx.empty inodeBitmapLba m.ib
  let tx ← txAdd tx blockBitmapLba m.bb
  storeInodeTable tx m.inodes

/-- The second transaction: root directory and data. -/
def fileTx (m : Meta) (dataBlock : Nat) (dataBlk : Bytes) : Except M16Err Tx := do
  let tx ← txAdd Tx.empty rootDirLba m.dir
  txAdd tx dataBlock dataBlk

/-- Everything `m16_write_file_ex` does to the metadata of the new file. -/
def addFile (m : Meta) (ino dataBlock slot size : Nat) (name : Bytes) (nameLen : Nat) : Meta where
  ib := Bitmap.set m.ib ino
  bb := Bitmap.set m.bb dataBlock
  inodes := setInode m.inodes ino 1 size dataBlock
  dir := setDirent m.dir slot ino name nameLen

/-- `m16_write_file_ex` from the metadata on. -/
def writeNew (sb : Bytes) (m : Meta) (name data : Bytes) (size nameLen : Nat) (stop : Bool) :
    M16 Unit := do
  Prog.failIf ((findDirent m.dir name).isSome = true) .exists
  let ino ← Prog.ofOption (findFreeInode m.ib) .nospc
  let dataBlock ← Prog.ofOption (findFreeBlock m.bb) .nospc
  let slot ← Prog.ofOption (findFreeDirent m.dir) .nospc
  let dataBlk := Bytes.zero.copy 0 data 0 size
  let m := addFile m ino dataBlock slot size name nameLen
  let tx ← Prog.ofExcept (metaTx m)
  journalCommit tx (sCleanGeneration sb + 1) false
  let tx ← Prog.ofExcept (fileTx m dataBlock dataBlk)
  journalCommit tx (sCleanGeneration sb + 2) stop

def writeFileEx (name data : Bytes) (size : Nat) (stopAfterCommitRecord : Bool) : M16 Unit := do
  let nameLen := strlenBounded name maxName
  Prog.failIf (nameLen = 0 ∨ maxName ≤ nameLen) .toolong
  Prog.failIf (blockSize < size) .inval
  let sb ← mount
  let m ← readMeta
  writeNew sb m name data size nameLen stopAfterCommitRecord

def writeFile (name data : Bytes) (size : Nat) : M16 Unit := writeFileEx name data size false

/-! ## `m16_read_file` -/

/-- `m16_read_file` for a buffer of `outCap` bytes: the bytes it copies out, which are
`*out_size` many. The size is not compared with that of the block: more bytes than it has end the
call as `wild`. -/
def readFile (name : Bytes) (outCap : Nat) : M16 (List UInt8) := do
  let _ ← mount
  let inodes ← loadInodeTable
  let dir ← readBlock rootDirLba
  let slot ← Prog.ofOption (findDirent dir name) .noent
  let ino := dIno dir slot
  Prog.failIf (maxInodes ≤ ino ∨ iUsed inodes ino = 0 ∨ iKind inodes ino ≠ 1) .corrupt
  let totalBlocks ← Prog.asks Blockdev.totalBlocks
  Prog.failIf (outCap < iSize inodes ino ∨ totalBlocks ≤ iDirect0 inodes ino) .inval
  let blk ← readBlock (iDirect0 inodes ino)
  Prog.failIf (blockSize < iSize inodes ino) .wild
  pure (blk.slice 0 (iSize inodes ino))

/-! ## `m16_fsck` -/

/-- What `m16_fsck` finds wrong with a used directory entry. -/
def badEntry (m : Meta) (totalBlocks i : Nat) : Prop :=
  let ino := dIno m.dir i
  maxInodes ≤ ino ∨ Bitmap.test m.ib ino = false ∨
    iUsed m.inodes ino = 0 ∨ iKind m.inodes ino ≠ 1 ∨ blockSize < iSize m.inodes ino ∨
    iDirect0 m.inodes ino < dataStartLba ∨ totalBlocks ≤ iDirect0 m.inodes ino ∨
    Bitmap.test m.bb (iDirect0 m.inodes ino) = false

instance (m : Meta) (totalBlocks i : Nat) : Decidable (badEntry m totalBlocks i) :=
  inferInstanceAs (Decidable (_ ∨ _))

def fsck : M16 Unit := do
  let _ ← mount
  let m ← readMeta
  Prog.failIf (Bitmap.test m.ib 0 = false ∨ iUsed m.inodes 0 ≠ 1 ∨ iKind m.inodes 0 ≠ 2 ∨
    iDirect0 m.inodes 0 ≠ rootDirLba) .corrupt
  -- the two loops return at the first block that is not marked, the first entry that is bad
  Prog.failIf ((Loop.findFrom (fun b => !Bitmap.test m.bb b) 0 dataStartLba).isSome = true) .corrupt
  let totalBlocks ← Prog.asks Blockdev.totalBlocks
  Prog.failIf ((Loop.findFrom (fun i => decide (dUsed m.dir i ≠ 0) &&
    decide (badEntry m totalBlocks i)) 0 dirCount).isSome = true) .corrupt

end Mcsos.Mcsfs1j
