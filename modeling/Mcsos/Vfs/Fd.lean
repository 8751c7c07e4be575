import Mcsos.Vfs.Ramfs

set_option autoImplicit false

/-! # File descriptors (`kernel/vfs/fd.c`)

Every process has a table of sixteen open files, and a file keeps an offset and the node it is open
on. There is one file system, so the `fs` pointer of a file is left out. Processes are named by a
type `P`. A call that stores outside the data array has no result.
-/

namespace Mcsos.Vfs

def maxOpenFiles : Nat := 16
def oCreat : UInt32 := 0x100
def seekSet : Int := 0

/-- `mcs_file_t`. -/
structure File where
  used : Bool
  flags : UInt32
  offset : UInt64
  node : Nat

/-- `mcs_fd_table_t`. -/
abbrev FdTable := Nat → File

def fdTableInit (table : FdTable) : FdTable := fun i =>
  if i < maxOpenFiles then { table i with used := false } else table i

def fdGet (table : FdTable) (fd : Int) : Option File :=
  if fd < 0 ∨ fd.toNat ≥ maxOpenFiles ∨ ¬(table fd.toNat).used then none else some (table fd.toNat)

/-- The lowest unused descriptor, marked used; `none` is `MCS_ENFILE`. -/
def fdAlloc (table : FdTable) : Option (Nat × FdTable) :=
  (Loop.findFrom (fun i => !(table i).used) 0 maxOpenFiles).map fun i =>
    (i, Function.update table i { table i with used := true })

/-- The file system and the descriptor tables of all processes. -/
structure State (P : Type) where
  fs : Ramfs
  fds : P → FdTable

section Calls

variable {P : Type} [DecidableEq P]

def State.setTable (s : State P) (p : P) (table : FdTable) : State P :=
  { s with fds := Function.update s.fds p table }

def State.setFile (s : State P) (p : P) (fd : Int) (f : File) : State P :=
  s.setTable p (Function.update (s.fds p) fd.toNat f)

section

variable (past : Ramfs → Nat → Bytes)

/-- The node that `mcs_sys_open` opens, and the file system with it. -/
def lookupOrCreate (fs : Ramfs) (path : List UInt8) (flags : UInt32) : Option (Ramfs × Nat) :=
  match ramfsLookup past fs path with
  | some node => some (fs, node)
  | none =>
      if flags &&& oCreat = 0 then none
      else
        match ramfsCreateFile fs path with
        | .error _ => none
        | .ok created => some created

/-- `mcs_sys_open`; a NULL path is `none`. -/
def sysOpen (s : State P) (p : P) (path : Option (List UInt8)) (flags : UInt32) : Int × State P :=
  match path with
  | none => (einval, s)
  | some path =>
      if charAt path 0 ≠ 0x2f then (einval, s)
      else
        match fdAlloc (s.fds p) with
        | none => (enfile, s)
        | some (fd, table) =>
            match lookupOrCreate past s.fs path flags with
            | none =>
                (enoent, s.setTable p (Function.update table fd { table fd with used := false }))
            | some (fs, node) =>
                (fd, { s with fs := fs }.setTable p
                  (Function.update table fd ⟨true, flags, 0, node⟩))

end

/-- Byte `i` of a transfer through a file: `data_offset + offset + i`. -/
def transferIndex (fs : Ramfs) (f : File) (i : Nat) : Nat :=
  ((fs.nodes f.node).dataOffset + f.offset + UInt64.ofNat i).toNat

/-- `mcs_sys_read`: what it returns, the bytes it copies, and the new state. -/
def sysRead (s : State P) (p : P) (fd : Int) (len : UInt64) : Int64 × List UInt8 × State P :=
  match fdGet (s.fds p) fd with
  | none => (ebadf.toInt64, [], s)
  | some f =>
      let avail := (s.fs.nodes f.node).size - f.offset
      let n := if len < avail then len else avail
      (n.toInt64, (List.range n.toNat).map fun i => s.fs.data (transferIndex s.fs f i),
        s.setFile p fd { f with offset := f.offset + n })

def sysWrite (s : State P) (p : P) (fd : Int) (buf : Bytes) (len : UInt64) :
    Option (Int64 × State P) :=
  match fdGet (s.fds p) fd with
  | none => some (ebadf.toInt64, s)
  | some f =>
      (storeData ((s.fs.nodes f.node).dataOffset + f.offset) buf s.fs.data 0 len.toNat).map
        fun data =>
          let offset := f.offset + len
          let size := (s.fs.nodes f.node).size
          (len.toInt64,
            { s with fs := s.fs.setContent f.node data (if offset > size then offset else size) }.setFile
              p fd { f with offset := offset })

def sysClose (s : State P) (p : P) (fd : Int) : Int × State P :=
  match fdGet (s.fds p) fd with
  | none => (ebadf, s)
  | some f => (mcsOk, s.setFile p fd { f with used := false })

def sysLseek (s : State P) (p : P) (fd : Int) (offset : Int64) (whence : Int) : Int × State P :=
  match fdGet (s.fds p) fd with
  | none => (ebadf, s)
  | some f =>
      let f := if whence = seekSet then { f with offset := offset.toUInt64 } else f
      (f.offset.toUInt32.toInt32.toInt, s.setFile p fd f)

/-! ## Runs of calls -/

/-- A call of the file system or of one of its processes. -/
inductive Call (P : Type) where
  | seed (path : List UInt8) (data : Bytes) (len : UInt64)
  | open (p : P) (path : Option (List UInt8)) (flags : UInt32)
  | read (p : P) (fd : Int) (len : UInt64)
  | write (p : P) (fd : Int) (buf : Bytes) (len : UInt64)
  | lseek (p : P) (fd : Int) (offset : Int64) (whence : Int)
  | close (p : P) (fd : Int)

/-- The state behind a call, if it stays inside the data array. -/
def Call.exec (past : Ramfs → Nat → Bytes) (s : State P) : Call P → Option (State P)
  | .seed path data len => (ramfsSeedFile s.fs path data len).map fun r => { s with fs := r.2 }
  | .open p path flags => some (sysOpen past s p path flags).2
  | .read p fd len => some (sysRead s p fd len).2.2
  | .write p fd buf len => (sysWrite s p fd buf len).map Prod.snd
  | .lseek p fd offset whence => some (sysLseek s p fd offset whence).2
  | .close p fd => some (sysClose s p fd).2

/-- `mcs_ramfs_init`, and `mcs_fd_table_init` for every process. -/
def State.init (fs : Ramfs) (fds : P → FdTable) : State P :=
  ⟨ramfsInit fs, fun p => fdTableInit (fds p)⟩

end Calls

end Mcsos.Vfs
