import Mcsos.Mcsfs1.Failed
import Mcsos.Mcsfs1.RoundTrip

set_option autoImplicit false

/-! # What the file system is for

A store of files by name, without blocks, inodes and a directory: it knows the bytes of each file
and counts the blocks. A file has at least one block and keeps the blocks that it has when it gets
shorter. Where the blocks run out, a write loses the ones that are left. `Holds` says that an image
has the files of a store.
-/

namespace Mcsos.Mcsfs1

/-- A file: its bytes, and how many blocks it has. -/
structure StoredFile where
  data : List UInt8
  blocks : Nat
  deriving DecidableEq

/-- The files by their names, the number of files, and the number of blocks that are free. -/
structure Store where
  files : List UInt8 → Option StoredFile
  used : Nat
  free : Nat

/-- Why a name is refused: it is empty, too long or has a slash. -/
def nameError (k : List UInt8) : Option Mcsfs1Err :=
  if k = [] then some .inval
  else if maxName < k.length then some .nametoolong
  else if 0x2f ∈ k then some .inval
  else none

/-- The blocks that `len` bytes take; an empty file has one too. -/
def blocksFor (len : Nat) : Nat := max 1 ((len + 511) / 512)

namespace Store

/-- A store with `free` free blocks and no files. -/
def empty (free : Nat) : Store := ⟨fun _ => none, 0, free⟩

def lookup (st : Store) (k : List UInt8) : Except Mcsfs1Err StoredFile :=
  match nameError k with
  | some e => .error e
  | none =>
    match st.files k with
    | some f => .ok f
    | none => .error .noent

/-- A new file is empty. The directory has room for 16 files. -/
def create (st : Store) (k : List UInt8) : Except Mcsfs1Err (List UInt8) × Store :=
  match nameError k with
  | some e => (.error e, st)
  | none =>
    if (st.files k).isSome then (.error .exist, st)
    else if st.used = direntCount ∨ st.free = 0 then (.error .nospc, st)
    else (.ok [], ⟨Function.update st.files k (some ⟨[], 1⟩), st.used + 1, st.free - 1⟩)

/-- The bytes replace those of the file. -/
def write (st : Store) (k data : List UInt8) : Except Mcsfs1Err (List UInt8) × Store :=
  if directBlocks * blockSize < data.length then (.error .range, st)
  else
    match st.lookup k with
    | .error e => (.error e, st)
    | .ok f =>
      if st.free < blocksFor data.length - f.blocks then (.error .nospc, { st with free := 0 })
      else (.ok [], { st with
        files := Function.update st.files k (some ⟨data, max f.blocks (blocksFor data.length)⟩)
        free := st.free - (blocksFor data.length - f.blocks) })

def read (st : Store) (k : List UInt8) (cap : Nat) : Except Mcsfs1Err (List UInt8) × Store :=
  match st.lookup k with
  | .error e => (.error e, st)
  | .ok f => if cap < f.data.length then (.error .range, st) else (.ok f.data, st)

def unlink (st : Store) (k : List UInt8) : Except Mcsfs1Err (List UInt8) × Store :=
  match st.lookup k with
  | .error e => (.error e, st)
  | .ok f => (.ok [], ⟨Function.update st.files k none, st.used - 1, st.free + f.blocks⟩)

/-- A call of the file system, for the store. -/
def exec : Call → Store → Except Mcsfs1Err (List UInt8) × Store
  | .create name _, st => st.create (key name)
  | .write name buf len _, st => st.write (key name) (buf.slice 0 len)
  | .read name cap _, st => st.read (key name) cap
  | .unlink name _, st => st.unlink (key name)

end Store

/-! ## The name of a call -/

/-- `valid_name` refuses the names that the store refuses. -/
theorem validName_eq (name : Bytes) : validName name =
    match nameError (key name) with
    | some e => .error e
    | none => .ok (key name).length := by
  have hlen : strlenBound name (maxName + 1) = (key name).length := by
    rw [strlenBound, CStr.strlenFrom_eq, Nat.zero_add, key]
  have hget : ∀ i (hi : i < (key name).length), (key name)[i] = name i := fun i hi => by
    have hi' := CStr.chars_get (s := name) (i := 0) (n := maxName + 1) hi
    rwa [Nat.zero_add] at hi'
  have hslash : (Loop.findFrom (fun i => name i == 0x2f) 0 (key name).length).isSome = true ↔
      0x2f ∈ key name := by
    rw [Option.isSome_iff_exists, List.mem_iff_getElem]
    constructor
    · rintro ⟨i, hi⟩
      obtain ⟨-, hlt, heq, -⟩ := Loop.findFrom_some_iff.mp hi
      rw [Nat.zero_add] at hlt
      exact ⟨i, hlt, (hget i hlt).trans (eq_of_beq heq)⟩
    · rintro ⟨i, hlt, heq⟩
      apply Option.ne_none_iff_exists'.mp
      intro hnone
      have hno := Loop.findFrom_none_iff.mp hnone i (Nat.zero_le i) (by omega)
      rw [← hget i hlt, heq] at hno
      cases hno
  unfold validName nameError
  dsimp only
  rw [hlen]
  split_ifs <;> simp_all

def Call.name : Call → Bytes
  | .create name _ => name
  | .write name _ _ _ => name
  | .read name _ _ => name
  | .unlink name _ => name

/-- The name does not fill its field. -/
def Call.Short (op : Call) : Prop := (key op.name).length ≠ maxName

instance (op : Call) : Decidable op.Short := inferInstanceAs (Decidable (_ ≠ _))

/-! ## Images and stores -/

/-- The slots of the directory that are in use. -/
def usedSlots (c : Blocks) : Finset Nat :=
  (Finset.range direntCount).filter fun i => deIno (c rootDirLba) i ≠ 0

/-- The file in slot `i` is `f`. -/
structure Stores (c : Blocks) (i : Nat) (f : StoredFile) : Prop where
  data : fileData c i = f.data
  blocks : ∀ j, ((metaOf c).file i).direct j ≠ 0 ↔ j < f.blocks

/-- The image has the files of the store. -/
structure Holds (D : Disk) (c : Blocks) (st : Store) : Prop where
  inv : Inv D.blockCount c
  inodes : InodesExact (metaOf c)
  listed : Listed (c rootDirLba) {k | (st.files k).isSome}
  short : ∀ k, (st.files k).isSome → k.length < maxName
  file : ∀ i, (metaOf c).Used i →
    ∃ f, st.files (slotKey (c rootDirLba) i) = some f ∧ Stores c i f
  used : (usedSlots c).card = st.used
  free : (freeBlocks D.blockCount (metaOf c)).card = st.free

theorem mem_usedSlots {c : Blocks} {i : Nat} : i ∈ usedSlots c ↔ (metaOf c).Used i := by
  rw [used_iff, usedSlots, Finset.mem_filter, Finset.mem_range, InUse]

theorem Stores.length {c : Blocks} {i : Nat} {f : StoredFile} (h : Stores c i f) :
    f.data.length = ((metaOf c).file i).size := by
  simp [← h.data, fileData]

section

variable {D : Disk} {c : Blocks} {st : Store} {name : Bytes} {past : UInt8}

theorem Holds.terminated (h : Holds D c st) (past : UInt8) : Terminated (c rootDirLba) past := by
  intro i hlt hino hfull
  have hmem : slotKey (c rootDirLba) i ∈ {k | (st.files k).isSome} :=
    (h.listed.mem_iff _).mpr ⟨i, ⟨hlt, hino⟩, rfl⟩
  exact absurd hfull (Nat.ne_of_lt (h.short _ hmem))

/-- Where `find_dirent` finds nothing, the store has no such file either. -/
theorem Holds.lookup_none (h : Holds D c st) (hnone : target c name past = none) :
    st.lookup (key name) = .error (findError name) := by
  have hv := validName_eq name
  unfold Store.lookup findError
  cases herr : nameError (key name) with
  | some e =>
      simp only [herr] at hv
      simp [hv]
  | none =>
      simp only [herr] at hv
      have hno : st.files (key name) = none := by
        simpa using h.listed.not_mem (h.terminated past) hv hnone
      simp [hv, hno]

/-- Where it finds a slot, that one has the file of the store. -/
theorem Holds.lookup_some (h : Holds D c st) {s : Nat} (hs : target c name past = some s) :
    ∃ f, st.lookup (key name) = .ok f ∧ st.files (key name) = some f ∧
      slotKey (c rootDirLba) s = key name ∧ Stores c s f := by
  have hv := validName_eq name
  cases herr : nameError (key name) with
  | some e =>
      simp only [herr] at hv
      simp [target, hv] at hs
  | none =>
      simp only [herr] at hv
      obtain ⟨huse, hkey⟩ := target_key hv hs
      obtain ⟨f, hf, hstores⟩ := h.file s ((used_iff c s).mpr huse)
      rw [hkey] at hf
      refine ⟨f, ?_, hf, hkey, hstores⟩
      simp [Store.lookup, herr, hf]

/-- A file that is in another slot has another name. -/
theorem Holds.other (h : Holds D c st) {i s : Nat} (hi : (metaOf c).Used i)
    (hs : (metaOf c).Used s) (hne : i ≠ s) :
    slotKey (c rootDirLba) i ≠ slotKey (c rootDirLba) s := fun he =>
  hne (h.listed.distinct i s ((used_iff c i).mp hi) ((used_iff c s).mp hs) he)

end

end Mcsos.Mcsfs1
