import Mcsos.Lib.Bytes
import Mcsos.Lib.Loop

set_option autoImplicit false

/-! # The RAM file system (`kernel/vfs/ramfs.c`)

All files share the array `data`. A file is a node, and a node says where in the array its bytes
start. A `size_t` is a `UInt64`, and the sums of offsets wrap as they do in the source. A store
outside the array has no result. A load there gives whatever lies behind the array, so `data` has
a byte for every index. Paths are lists of characters; a NUL follows them.
-/

namespace Mcsos.Vfs

def maxName : Nat := 32
def maxNodes : Nat := 64
def ramfsDataBytes : Nat := 8192

def mcsOk : Int := 0
def enoent : Int := -2
def ebadf : Int := -9
def einval : Int := -22
def enfile : Int := -23
def enospc : Int := -28

/-- `mcs_vnode_type_t`. -/
inductive VnodeType where
  | dir
  | file
  deriving DecidableEq

/-- `mcs_vnode_t`. -/
structure Vnode where
  used : UInt32
  id : UInt32
  type : VnodeType
  name : Bytes
  size : UInt64
  dataOffset : UInt64
  dataCapacity : UInt64

/-- `mcs_ramfs_t`. -/
structure Ramfs where
  nodes : Nat → Vnode
  nodeCount : Nat
  data : Bytes
  dataUsed : UInt64

/-- `path[j]`. -/
def charAt (path : List UInt8) (j : Nat) : UInt8 := path.getD j 0

/-- `(path[0] == '/') ? path + 1 : path`. -/
def baseName (path : List UInt8) : List UInt8 := if charAt path 0 = 0x2f then path.tail else path

/-- `while (name[j] == node[j] && name[j] != '\0') j++;`, where `name + j` is the list. -/
def matchEnd (node : Bytes) (j : Nat) : List UInt8 → Nat
  | [] => j
  | c :: cs => if c = node j ∧ c ≠ 0 then matchEnd node (j + 1) cs else j

/-- The comparison in `mcs_ramfs_lookup`. -/
def nameMatches (name : List UInt8) (node : Bytes) : Bool :=
  let j := matchEnd node 0 name
  charAt name j = 0 ∧ node j = 0

section

/- What lies behind the name field of a node: the comparison goes on into it when the field holds no
NUL. -/
variable (past : Ramfs → Nat → Bytes)

/-- The bytes from the name field of node `i` on. -/
def nodeName (fs : Ramfs) (i : Nat) : Bytes := fun j =>
  if j < maxName then (fs.nodes i).name j else past fs i (j - maxName)

/-- The node of a path; `none` is `MCS_ENOENT`. -/
def ramfsLookup (fs : Ramfs) (path : List UInt8) : Option Nat :=
  if charAt path 0 = 0x2f ∧ charAt path 1 = 0 then some 0
  else
    Loop.findFrom (fun i => nameMatches (baseName path) (nodeName past fs i)) 1 (fs.nodeCount - 1)

end

/-- New contents of the array, and a new size of one node. -/
def Ramfs.setContent (fs : Ramfs) (node : Nat) (data : Bytes) (size : UInt64) : Ramfs :=
  { fs with
    data := data
    nodes := Function.update fs.nodes node { fs.nodes node with size := size } }

def ramfsInit (fs : Ramfs) : Ramfs :=
  { fs with
    nodeCount := 1
    dataUsed := 0
    nodes := Function.update fs.nodes 0
      { fs.nodes 0 with
        used := 1
        id := 0
        type := .dir
        name := Function.update (Function.update (fs.nodes 0).name 0 0x2f) 1 0
        size := 0 } }

/-- `for (i = 0; i < MCS_MAX_NAME - 1; i++) { node[i] = name[i]; if (name[i] == '\0') break; }`, from
`i` on with `n` turns to go. -/
def copyName (name : List UInt8) (node : Bytes) (i : Nat) : Nat → Bytes
  | 0 => node
  | n + 1 =>
      let node := Function.update node i (charAt name i)
      if charAt name i = 0 then node else copyName name node (i + 1) n

def ramfsCreateFile (fs : Ramfs) (path : List UInt8) : Except Int (Ramfs × Nat) :=
  if fs.nodeCount ≥ maxNodes then .error enospc
  else
    let node := fs.nodes fs.nodeCount
    .ok ({ fs with
      nodes := Function.update fs.nodes fs.nodeCount
        { used := 1
          id := UInt32.ofNat fs.nodeCount
          type := .file
          name := copyName (baseName path) node.name 0 (maxName - 1)
          size := 0
          dataOffset := fs.dataUsed
          dataCapacity := 256 }
      nodeCount := fs.nodeCount + 1
      dataUsed := fs.dataUsed + 256 }, fs.nodeCount)

/-- `for (i = 0; i < len; i++) data[dst + i] = src[i];`, from `i` on with `n` turns to go. -/
def storeData (dst : UInt64) (src : Bytes) (data : Bytes) (i : Nat) : Nat → Option Bytes
  | 0 => some data
  | n + 1 =>
      let at_ := (dst + UInt64.ofNat i).toNat
      if at_ < ramfsDataBytes then storeData dst src (Function.update data at_ (src i)) (i + 1) n
      else none

def ramfsSeedFile (fs : Ramfs) (path : List UInt8) (data : Bytes) (len : UInt64) :
    Option (Int × Ramfs) :=
  match ramfsCreateFile fs path with
  | .error rc => some (rc, fs)
  | .ok (fs, node) =>
      (storeData (fs.nodes node).dataOffset data fs.data 0 len.toNat).map fun stored =>
        (mcsOk, fs.setContent node stored len)

/-! ## New contents -/

section

variable (fs : Ramfs) (node : Nat) (data : Bytes) (size : UInt64)

@[simp] theorem setContent_nodeCount : (fs.setContent node data size).nodeCount = fs.nodeCount := rfl

@[simp] theorem setContent_dataUsed : (fs.setContent node data size).dataUsed = fs.dataUsed := rfl

@[simp] theorem setContent_data : (fs.setContent node data size).data = data := rfl

theorem setContent_node_self :
    (fs.setContent node data size).nodes node = { fs.nodes node with size := size } :=
  Function.update_self _ _ _

theorem setContent_node_ne {i : Nat} (h : i ≠ node) :
    (fs.setContent node data size).nodes i = fs.nodes i := Function.update_of_ne h _ _

/-- A node only changes its size. -/
theorem setContent_node (i : Nat) :
    (fs.setContent node data size).nodes i =
      { fs.nodes i with size := ((fs.setContent node data size).nodes i).size } := by
  by_cases h : i = node
  · rw [h, setContent_node_self]
  · rw [setContent_node_ne fs node data size h]

end

/-! ## Stores -/

/-- A store whose bytes all lie in the array is a copy. -/
theorem storeData_eq {dst : UInt64} (src data : Bytes) (i n : Nat)
    (h : dst.toNat + i + n ≤ ramfsDataBytes) :
    storeData dst src data i n = some (data.copy (dst.toNat + i) src i n) := by
  induction n generalizing i data with
  | zero =>
      rw [storeData, Option.some_inj]
      funext k
      rw [Bytes.copy, if_neg (by omega)]
  | succ n ih =>
      have hmax : ramfsDataBytes = 8192 := rfl
      have hat : (dst + UInt64.ofNat i).toNat = dst.toNat + i := by
        rw [UInt64.toNat_add, UInt64.toNat_ofNat']
        omega
      rw [storeData, hat, if_pos (by omega), ih _ (i + 1) (by omega), Option.some_inj]
      funext k
      by_cases hk : k = dst.toNat + i
      · rw [hk, Bytes.copy, if_neg (by omega), Function.update_self, Bytes.copy_apply_of_mem
          (Nat.le_refl _) (by omega), Nat.sub_self, Nat.add_zero]
      · rw [Bytes.copy, Bytes.copy, Function.update_of_ne hk]
        by_cases hin : dst.toNat + i ≤ k ∧ k < dst.toNat + i + (n + 1)
        · rw [if_pos hin, if_pos (by omega)]
          congr 1
          omega
        · rw [if_neg hin, if_neg (by omega)]

/-! ## Lookup and creation -/

theorem ramfsLookup_lt {past : Ramfs → Nat → Bytes} {fs : Ramfs} {path : List UInt8} {i : Nat}
    (hcount : 0 < fs.nodeCount) (h : ramfsLookup past fs path = some i) : i < fs.nodeCount := by
  rw [ramfsLookup] at h
  split at h
  · cases h
    exact hcount
  · obtain ⟨_, hi, _⟩ := Loop.findFrom_some_iff.mp h
    omega

/-- What creating a file makes of the file system. -/
structure CreatedFile (fs fs' : Ramfs) (node : Nat) : Prop where
  index : node = fs.nodeCount
  room : fs.nodeCount < maxNodes
  count : fs'.nodeCount = fs.nodeCount + 1
  data : fs'.data = fs.data
  dataUsed : fs'.dataUsed = fs.dataUsed + 256
  type : (fs'.nodes node).type = .file
  size : (fs'.nodes node).size = 0
  dataOffset : (fs'.nodes node).dataOffset = fs.dataUsed
  dataCapacity : (fs'.nodes node).dataCapacity = 256
  others : ∀ i, i ≠ node → fs'.nodes i = fs.nodes i

theorem ramfsCreateFile_cases (fs : Ramfs) (path : List UInt8) :
    (maxNodes ≤ fs.nodeCount ∧ ramfsCreateFile fs path = .error enospc) ∨
      ∃ fs' node, ramfsCreateFile fs path = .ok (fs', node) ∧ CreatedFile fs fs' node := by
  by_cases hroom : fs.nodeCount ≥ maxNodes
  · exact Or.inl ⟨hroom, if_pos hroom⟩
  · refine Or.inr ⟨_, _, if_neg hroom, ?_⟩
    exact {
      index := rfl
      room := Nat.lt_of_not_le hroom
      count := rfl
      data := rfl
      dataUsed := rfl
      type := by simp
      size := by simp
      dataOffset := by simp
      dataCapacity := by simp
      others := fun i hi => Function.update_of_ne hi _ _ }

theorem ramfsCreateFile_ok {fs fs' : Ramfs} {path : List UInt8} {node : Nat}
    (h : ramfsCreateFile fs path = .ok (fs', node)) : CreatedFile fs fs' node := by
  rcases ramfsCreateFile_cases fs path with ⟨_, herr⟩ | ⟨fs1, node1, hok, hcreated⟩
  · rw [herr] at h
    cases h
  · rw [hok] at h
    cases h
    exact hcreated

end Mcsos.Vfs
