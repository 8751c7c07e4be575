import Mcsos.Lib.Machine
import Mcsos.Vfs.RamfsPaths

set_option autoImplicit false

/-! # What the file system and its descriptors are for

Files by name, without nodes and a data array, and for every process the files it has open: a name
and an offset. A write behind the end of a file puts zeros in between. Some calls are left open: a
read behind the end, a write that the file has no room for, and a new file whose name is too long
for its field, or that a file has already. `Shows` says that the state of the program has these
files.
-/

namespace Mcsos.Vfs

/-! ## Bytes of a file -/

/-- `data` with `bytes` at `offset`, and zeros up to there. -/
def overwrite (data : List UInt8) (offset : Nat) (bytes : List UInt8) : List UInt8 :=
  (data ++ List.replicate (offset - data.length) 0).take offset ++ bytes ++
    data.drop (offset + bytes.length)

theorem overwrite_length (data : List UInt8) (offset : Nat) (bytes : List UInt8) :
    (overwrite data offset bytes).length = max data.length (offset + bytes.length) := by
  simp only [overwrite, List.length_append, List.length_take, List.length_replicate,
    List.length_drop]
  omega

/-- The bytes are at the offset, and the others are as before. -/
theorem getD_overwrite (data : List UInt8) (offset : Nat) (bytes : List UInt8) (k : Nat) :
    (overwrite data offset bytes).getD k 0 =
      if offset ≤ k ∧ k < offset + bytes.length then bytes.getD (k - offset) 0
      else data.getD k 0 := by
  have hhead : ((data ++ List.replicate (offset - data.length) 0).take offset).length = offset := by
    simp only [List.length_take, List.length_append, List.length_replicate]
    omega
  simp only [overwrite, List.getD_eq_getElem?_getD, List.append_assoc]
  by_cases hlt : k < offset
  · rw [if_neg (by omega), List.getElem?_append_left (by omega), List.getElem?_take, if_pos hlt]
    by_cases hdata : k < data.length
    · rw [List.getElem?_append_left hdata]
    · -- behind the end of the file, before the offset
      rw [List.getElem?_append_right (by omega), List.getElem?_replicate, if_pos (by omega),
        List.getElem?_eq_none (Nat.le_of_not_lt hdata)]
      rfl
  · rw [List.getElem?_append_right (by omega), hhead]
    by_cases hin : k < offset + bytes.length
    · rw [if_pos (by omega), List.getElem?_append_left (by omega)]
    · rw [if_neg (by omega), List.getElem?_append_right (by omega), List.getElem?_drop]
      congr 2
      omega

/-- Two lists of one length with the same bytes. -/
theorem ext_getD {a b : List UInt8} (hlen : a.length = b.length)
    (h : ∀ k, k < a.length → a.getD k 0 = b.getD k 0) : a = b := by
  refine List.ext_getElem hlen fun k hk hk' => ?_
  have hbyte := h k hk
  rwa [List.getD_eq_getElem?_getD, List.getD_eq_getElem?_getD, List.getElem?_eq_getElem hk,
    List.getElem?_eq_getElem hk'] at hbyte

/-! ## Files and descriptors -/

/-- A file: its bytes, and how many it has room for. -/
structure StoredFile where
  data : List UInt8
  room : Nat

/-- An open file. -/
structure OpenFile where
  name : List UInt8
  offset : Nat

/-- The files by their names, how many there are, and what each process has open. -/
structure FileStore (P : Type) where
  files : List UInt8 → Option StoredFile
  count : Nat
  opened : P → Nat → Option OpenFile

/-- The room of the file that is created when there are `n`, the root included: the array holds the
bytes of 32 files. -/
def roomOf (n : Nat) : Nat := if 0 < n ∧ 256 * n ≤ ramfsDataBytes then 256 else 0

namespace FileStore

variable {P : Type}

/-- The root has no bytes, and nothing is open. -/
def init : FileStore P :=
  ⟨fun name => if name = [] then some ⟨[], 0⟩ else none, 1, fun _ _ => none⟩

def get (t : FileStore P) (p : P) (fd : Int) : Option OpenFile :=
  if fd < 0 ∨ maxOpenFiles ≤ fd.toNat then none else t.opened p fd.toNat

/-- The lowest descriptor that is not open. -/
def lowest (t : FileStore P) (p : P) : Option Nat :=
  Loop.findFrom (fun i => (t.opened p i).isNone) 0 maxOpenFiles

def setFile (t : FileStore P) (name : List UInt8) (f : StoredFile) : FileStore P :=
  { t with files := Function.update t.files name (some f) }

theorem setFile_self (t : FileStore P) (name : List UInt8) (f : StoredFile) :
    (t.setFile name f).files name = some f := Function.update_self _ _ _

theorem setFile_ne (t : FileStore P) (f : StoredFile) {name name' : List UInt8}
    (h : name' ≠ name) : (t.setFile name f).files name' = t.files name' :=
  Function.update_of_ne h _ _

/-- A new file. -/
def create (t : FileStore P) (name data : List UInt8) : FileStore P :=
  { t.setFile name ⟨data, roomOf t.count⟩ with count := t.count + 1 }

variable [DecidableEq P]

def setOpen (t : FileStore P) (p : P) (fd : Nat) (o : Option OpenFile) : FileStore P :=
  { t with opened := Function.update t.opened p (Function.update (t.opened p) fd o) }

def seed (t : FileStore P) (path data : List UInt8) : Option ((Int × List UInt8) × FileStore P) :=
  if maxNodes ≤ t.count then some ((enospc, []), t)
  else if 0 ∈ path ∨ maxName ≤ (baseName path).length ∨ (t.files (baseName path)).isSome ∨
    roomOf t.count < data.length then none
  else some ((mcsOk, []), t.create (baseName path) data)

/-- An open finds the file, or creates it if it may. -/
def «open» (t : FileStore P) (p : P) (path : List UInt8) (flags : UInt32) :
    Option ((Int × List UInt8) × FileStore P) :=
  if charAt path 0 ≠ 0x2f then some ((einval, []), t)
  else
    match t.lowest p with
    | none => some ((enfile, []), t)
    | some fd =>
      let file := some (OpenFile.mk (baseName path) 0)
      if 0 ∈ path then none
      else if (t.files (baseName path)).isSome then some ((fd, []), t.setOpen p fd file)
      else if flags &&& oCreat = 0 ∨ maxNodes ≤ t.count then some ((enoent, []), t)
      else if maxName ≤ (baseName path).length then none
      else some ((fd, []), (t.create (baseName path) []).setOpen p fd file)

def read (t : FileStore P) (p : P) (fd : Int) (len : Nat) :
    Option ((Int × List UInt8) × FileStore P) :=
  match t.get p fd with
  | none => some ((ebadf, []), t)
  | some o =>
    (t.files o.name).bind fun f =>
      if f.data.length < o.offset ∧ len ≠ 0 then none
      else
        let bytes := (f.data.drop o.offset).take len
        some ((bytes.length, bytes),
          t.setOpen p fd.toNat (some ⟨o.name, o.offset + bytes.length⟩))

def write (t : FileStore P) (p : P) (fd : Int) (bytes : List UInt8) :
    Option ((Int × List UInt8) × FileStore P) :=
  match t.get p fd with
  | none => some ((ebadf, []), t)
  | some o =>
    (t.files o.name).bind fun f =>
      if f.room < o.offset + bytes.length then none
      else some ((bytes.length, []),
        (t.setFile o.name ⟨overwrite f.data o.offset bytes, f.room⟩).setOpen p fd.toNat
          (some ⟨o.name, o.offset + bytes.length⟩))

/-- A seek returns the offset as an `int`. -/
def lseek (t : FileStore P) (p : P) (fd : Int) (offset : Int64) (whence : Int) :
    (Int × List UInt8) × FileStore P :=
  match t.get p fd with
  | none => ((ebadf, []), t)
  | some o =>
    let offset := if whence = seekSet then offset.toUInt64.toNat else o.offset
    (((offset : Int).bmod (2 ^ 32), []), t.setOpen p fd.toNat (some ⟨o.name, offset⟩))

def close (t : FileStore P) (p : P) (fd : Int) : (Int × List UInt8) × FileStore P :=
  match t.get p fd with
  | none => ((ebadf, []), t)
  | some _ => ((mcsOk, []), t.setOpen p fd.toNat none)

/-- A call, with what it returns and the bytes it copies; `none` where the call is left open. -/
def exec : Call P → FileStore P → Option ((Int × List UInt8) × FileStore P)
  | .seed path data len, t => t.seed path (data.slice 0 len.toNat)
  | .open _ none _, t => some ((einval, []), t)
  | .open p (some path) flags, t => t.open p path flags
  | .read p fd len, t => t.read p fd len.toNat
  | .write p fd buf len, t => t.write p fd (buf.slice 0 len.toNat)
  | .lseek p fd offset whence, t => some (t.lseek p fd offset whence)
  | .close p fd, t => some (t.close p fd)

end FileStore

/-- The same call of the program; `none` if it leaves the data array. -/
def callStep {P : Type} [DecidableEq P] (past : Ramfs → Nat → Bytes) :
    Call P → State P → Option ((Int × List UInt8) × State P)
  | .seed path data len, s =>
    (ramfsSeedFile s.fs path data len).map fun r => ((r.1, []), { s with fs := r.2 })
  | .open p path flags, s =>
    some (((sysOpen past s p path flags).1, []), (sysOpen past s p path flags).2)
  | .read p fd len, s =>
    some (((sysRead s p fd len).1.toInt, (sysRead s p fd len).2.1), (sysRead s p fd len).2.2)
  | .write p fd buf len, s => (sysWrite s p fd buf len).map fun r => ((r.1.toInt, []), r.2)
  | .lseek p fd offset whence, s =>
    some (((sysLseek s p fd offset whence).1, []), (sysLseek s p fd offset whence).2)
  | .close p fd, s => some (((sysClose s p fd).1, []), (sysClose s p fd).2)

/-! ## States and stores -/

/-- The name that a path finds node `i` by. -/
def nodePath (fs : Ramfs) (i : Nat) : List UInt8 := if i = 0 then [] else storedName fs i

/-- Node `i` has the bytes of the file, and the rest of its extent is blank. -/
structure ShowsFile (fs : Ramfs) (i : Nat) (f : StoredFile) : Prop where
  room : f.room = roomOf i
  fits : f.data.length ≤ f.room
  size : (fs.nodes i).size.toNat = f.data.length
  byte : ∀ k, k < f.room → fs.data (256 * (i - 1) + k) = f.data.getD k 0

/-- What a process has open there. -/
def openedAs (fs : Ramfs) (f : File) : Option OpenFile :=
  if f.used then some ⟨nodePath fs f.node, f.offset.toNat⟩ else none

/-- The state has the files of the store, and the same ones are open. -/
structure Shows {P : Type} (s : State P) (t : FileStore P) : Prop where
  wf : Wf s
  named : Named s.fs
  named_pos : ∀ i, 0 < i → i < s.fs.nodeCount → storedName s.fs i ≠ []
  count : t.count = s.fs.nodeCount
  file : ∀ i, i < s.fs.nodeCount → ∃ f, t.files (nodePath s.fs i) = some f ∧ ShowsFile s.fs i f
  only : ∀ name, t.files name ≠ none → ∃ i, i < s.fs.nodeCount ∧ nodePath s.fs i = name
  blank : ∀ k, 256 * (s.fs.nodeCount - 1) ≤ k → k < ramfsDataBytes → s.fs.data k = 0
  opened : ∀ p i, i < maxOpenFiles → t.opened p i = openedAs s.fs (s.fds p i)

namespace Shows

variable {P : Type} {s : State P} {t : FileStore P}

theorem nodePath_inj (h : Shows s t) {i j : Nat} (hi : i < s.fs.nodeCount)
    (hj : j < s.fs.nodeCount) (heq : nodePath s.fs i = nodePath s.fs j) : i = j := by
  rw [nodePath, nodePath] at heq
  split_ifs at heq with h0 h1 h1
  · omega
  · exact absurd heq.symm (h.named_pos j (by omega) hj)
  · exact absurd heq (h.named_pos i (by omega) hi)
  · rcases Nat.lt_trichotomy i j with hlt | rfl | hlt
    · exact absurd heq (h.named.distinct i j (by omega) hlt hj)
    · rfl
    · exact absurd heq.symm (h.named.distinct j i (by omega) hlt hi)

/-- A path names node `i` if that is where its name leads. -/
theorem nodeOf_iff (h : Shows s t) {path : List UInt8} (hnul : 0 ∉ path) (hroot : IsRoot path ↔
    baseName path = []) {i : Nat} :
    NodeOf s.fs path i ↔ i < s.fs.nodeCount ∧ nodePath s.fs i = baseName path := by
  have hcount := h.wf.extents.count_pos
  constructor
  · rintro (⟨hpath, rfl⟩ | ⟨-, hpos, hlt, hname⟩)
    · exact ⟨hcount, (hpath.baseName hnul).symm⟩
    · exact ⟨hlt, by rw [nodePath, if_neg (by omega), hname]⟩
  · rintro ⟨hlt, hname⟩
    rw [nodePath] at hname
    split_ifs at hname with h0
    · exact Or.inl ⟨hroot.mpr hname.symm, h0⟩
    · refine Or.inr ⟨fun hpath => h.named_pos i (by omega) hlt ?_, by omega, hlt, hname⟩
      rw [hname, hroot.mp hpath]

/-- An open file of the store is one of the state, on a node that has its name. -/
theorem get_eq (h : Shows s t) (p : P) (fd : Int) :
    t.get p fd = (fdGet (s.fds p) fd).bind (openedAs s.fs) := by
  rw [FileStore.get, fdGet]
  by_cases hbad : fd < 0 ∨ maxOpenFiles ≤ fd.toNat
  · rw [if_pos hbad, if_pos (by tauto)]
    rfl
  · rw [if_neg hbad, h.opened p _ (by omega)]
    cases hused : (s.fds p fd.toNat).used with
    | true =>
        rw [if_neg (by simpa using hbad)]
        rfl
    | false =>
        rw [if_pos (by simp), openedAs, hused]
        rfl

theorem lowest_eq (h : Shows s t) (p : P) :
    t.lowest p = Loop.findFrom (fun i => !(s.fds p i).used) 0 maxOpenFiles := by
  apply Loop.findFrom_congr
  intro i _ hi
  rw [h.opened p i (by omega), openedAs]
  cases (s.fds p i).used <;> rfl

end Shows

end Mcsos.Vfs
