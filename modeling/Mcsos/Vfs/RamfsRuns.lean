import Mcsos.Vfs.FdCalls

set_option autoImplicit false

/-! # Runs of the RAM file system

Every file gets an extent of 256 bytes, one behind the other. No call checks it: a write goes
wherever the offset and the length lead. The files stay apart in a run in which every seed and
every write fits into the extent of its file.
-/

namespace Mcsos.Vfs

/-! ## The extents -/

/-- A file node and its extent. -/
structure FileNode (fs : Ramfs) (i : Nat) : Prop where
  type : (fs.nodes i).type = .file
  dataOffset : (fs.nodes i).dataOffset.toNat = 256 * (i - 1)
  dataCapacity : (fs.nodes i).dataCapacity = 256

/-- Where the extents of the files are. It holds whatever is written. -/
structure Extents (fs : Ramfs) : Prop where
  count_pos : 0 < fs.nodeCount
  count_le : fs.nodeCount ≤ maxNodes
  dataUsed : fs.dataUsed.toNat = 256 * (fs.nodeCount - 1)
  root : (fs.nodes 0).type = .dir
  file : ∀ i, 0 < i → i < fs.nodeCount → FileNode fs i

theorem extents_init (fs : Ramfs) : Extents (ramfsInit fs) where
  count_pos := Nat.one_pos
  count_le := (by decide : 1 ≤ maxNodes)
  dataUsed := rfl
  root := by simp [ramfsInit]
  file := fun i hi hlt => absurd hlt (by simp [ramfsInit]; omega)

theorem Extents.create {fs fs' : Ramfs} {node : Nat} (h : Extents fs)
    (hc : CreatedFile fs fs' node) : Extents fs' := by
  have hpos := h.count_pos
  have hroom := hc.room
  have hmax : maxNodes = 64 := rfl
  constructor
  · rw [hc.count]
    omega
  · rw [hc.count]
    omega
  · rw [hc.dataUsed, hc.count, UInt64.toNat_add, h.dataUsed]
    simp only [UInt64.reduceToNat]
    omega
  · rw [hc.others 0 (by rw [hc.index]; omega)]
    exact h.root
  · intro i hi hlt
    rw [hc.count] at hlt
    by_cases hnew : i = node
    · rw [hnew]
      refine ⟨hc.type, ?_, hc.dataCapacity⟩
      rw [hc.dataOffset, h.dataUsed, hc.index]
    · have hi' := hc.index
      have hold := h.file i hi (by omega)
      have hsame := hc.others i hnew
      exact ⟨by rw [hsame, hold.type], by rw [hsame, hold.dataOffset],
        by rw [hsame, hold.dataCapacity]⟩

/-- New contents and sizes leave the extents where they are. -/
theorem Extents.setContent {fs : Ramfs} (h : Extents fs) (node : Nat) (data : Bytes)
    (size : UInt64) : Extents (fs.setContent node data size) where
  count_pos := h.count_pos
  count_le := h.count_le
  dataUsed := h.dataUsed
  root := by rw [setContent_node]; exact h.root
  file := fun i hi hlt => by
    obtain ⟨htype, hoffset, hcapacity⟩ := h.file i hi hlt
    constructor
    · rw [setContent_node]; exact htype
    · rw [setContent_node]; exact hoffset
    · rw [setContent_node]; exact hcapacity

/-! ## Descriptors -/

section

variable {P : Type} [DecidableEq P]

/-- Every open file is open on a node. -/
def OnNodes (s : State P) : Prop :=
  ∀ p fd f, fdGet (s.fds p) fd = some f → f.node < s.fs.nodeCount

/-- One entry of one table changes, to a file that is closed or open on a node. -/
theorem OnNodes.update {s : State P} (h : OnNodes s) {fs : Ramfs} {p : P} {fd : Nat} {f : File}
    (hcount : s.fs.nodeCount ≤ fs.nodeCount) (hf : f.used = true → f.node < fs.nodeCount) :
    OnNodes ({ s with fs := fs }.setTable p (Function.update (s.fds p) fd f)) := by
  intro q fd' g hg
  exact openFiles_update h (fun g hnode => Nat.lt_of_lt_of_le hnode hcount) hf hg

theorem OnNodes.setFile {s : State P} (h : OnNodes s) {fs : Ramfs} {p : P} {fd : Int} {f g : File}
    (hcount : s.fs.nodeCount = fs.nodeCount) (hf : fdGet (s.fds p) fd = some f)
    (hnode : g.node = f.node) : OnNodes ({ s with fs := fs }.setFile p fd g) :=
  h.update hcount.le fun _ => by
    rw [hnode, ← hcount]
    exact h p fd f hf

omit [DecidableEq P] in
theorem onNodes_init (fs : Ramfs) (fds : P → FdTable) : OnNodes (State.init fs fds) := by
  intro p fd f hf
  rw [fdGet_init] at hf
  cases hf

variable {past : Ramfs → Nat → Bytes}

/-! ## The invariants -/

/-- What holds in every run. -/
structure Wf (s : State P) : Prop where
  extents : Extents s.fs
  onNodes : OnNodes s

theorem Wf.exec {s s' : State P} {c : Call P} (h : Wf s) (hx : c.exec past s = some s') : Wf s' := by
  cases exec_cases hx with
  | refused => exact h
  | @seed _ data len fs node stored hcreated _ =>
      refine ⟨(h.extents.create hcreated).setContent node stored len, ?_⟩
      intro p fd f hf
      have hnode := h.onNodes p fd f hf
      show f.node < fs.nodeCount
      rw [hcreated.count]
      omega
  | @«open» p _ _ fs fd node _ _ hnode =>
      rcases lookupOrCreate_cases hnode with ⟨rfl, hfound⟩ | hcreated
      · exact ⟨h.extents, h.onNodes.update (Nat.le_refl _)
          fun _ => ramfsLookup_lt h.extents.count_pos hfound⟩
      · have hcount := hcreated.count
        have hindex := hcreated.index
        exact ⟨h.extents.create hcreated, h.onNodes.update (by omega)
          fun _ => show node < fs.nodeCount by omega⟩
  | write hf => exact ⟨h.extents.setContent _ _ _, h.onNodes.setFile rfl hf rfl⟩
  | read hf => exact ⟨h.extents, h.onNodes.setFile rfl hf rfl⟩
  | lseek hf => exact ⟨h.extents, h.onNodes.setFile rfl hf (sought_node _ _ _)⟩
  | close hf => exact ⟨h.extents, h.onNodes.setFile rfl hf rfl⟩

/-- Every file is inside its extent, and the root is empty. -/
structure Contained (fs : Ramfs) : Prop where
  root : (fs.nodes 0).size = 0
  file : ∀ i, 0 < i → i < fs.nodeCount → (fs.nodes i).size.toNat ≤ 256

theorem Contained.create {fs fs' : Ramfs} {node : Nat} (h : Contained fs) (hpos : 0 < fs.nodeCount)
    (hc : CreatedFile fs fs' node) : Contained fs' := by
  have hindex := hc.index
  constructor
  · rw [hc.others 0 (by omega)]
    exact h.root
  · intro i hi hlt
    rw [hc.count] at hlt
    by_cases hnew : i = node
    · rw [hnew, hc.size]
      decide
    · rw [hc.others i hnew]
      exact h.file i hi (by omega)

theorem Contained.setContent {fs : Ramfs} (h : Contained fs) {node : Nat} (data : Bytes)
    {size : UInt64} (hroot : node = 0 → size = 0) (hfile : 0 < node → size.toNat ≤ 256) :
    Contained (fs.setContent node data size) := by
  constructor
  · by_cases h0 : 0 = node
    · rw [h0, setContent_node_self]
      exact hroot h0.symm
    · rw [setContent_node_ne _ _ _ _ h0]
      exact h.root
  · intro i hi hlt
    by_cases hnode : i = node
    · rw [hnode, setContent_node_self]
      exact hfile (hnode ▸ hi)
    · rw [setContent_node_ne _ _ _ _ hnode]
      exact h.file i hi hlt

/-! ## Calls that fit -/

/-- A write of `len` bytes through `f` leaves the file as it is, or it is a write to a regular file
that ends in the extent of the file and inside the array. -/
def WriteFits (fs : Ramfs) (f : File) (len : UInt64) : Prop :=
  (len = 0 ∧ f.offset ≤ (fs.nodes f.node).size) ∨
    ((fs.nodes f.node).type = .file ∧
      f.offset.toNat + len.toNat ≤ (fs.nodes f.node).dataCapacity.toNat ∧
      (len = 0 ∨
        (fs.nodes f.node).dataOffset.toNat + f.offset.toNat + len.toNat ≤ ramfsDataBytes))

/-- The contents that a call stores fit into the extent of the file and into the array. -/
def Fits (s : State P) : Call P → Prop
  | .seed _ _ len => s.fs.nodeCount < maxNodes →
      len.toNat ≤ 256 ∧ (len = 0 ∨ s.fs.dataUsed.toNat + len.toNat ≤ ramfsDataBytes)
  | .write p fd _ len => ∀ f, fdGet (s.fds p) fd = some f → WriteFits s.fs f len
  | _ => True

theorem Extents.ne_root {fs : Ramfs} (h : Extents fs) {i : Nat} (hfile : (fs.nodes i).type = .file) :
    0 < i := by
  rw [Nat.pos_iff_ne_zero]
  rintro rfl
  rw [h.root] at hfile
  cases hfile

/-- What a fitting write stores lies in the extent of its file. -/
theorem WriteFits.store {fs : Ramfs} {f : File} {len : UInt64} (h : WriteFits fs f len)
    (he : Extents fs) (hnode : f.node < fs.nodeCount) (buf : Bytes) :
    ∃ data, storeData ((fs.nodes f.node).dataOffset + f.offset) buf fs.data 0 len.toNat =
        some data ∧
      ∀ k, data k ≠ fs.data k → 256 * (f.node - 1) ≤ k ∧ k < 256 * f.node := by
  by_cases hlen : len = 0
  · subst hlen
    exact ⟨fs.data, rfl, fun k hk => absurd rfl hk⟩
  · obtain ⟨htype, hcap, hend⟩ := h.resolve_left fun h0 => hlen h0.1
    have hend := hend.resolve_left hlen
    have hpos := he.ne_root htype
    obtain ⟨_, hoffset, hcapacity⟩ := he.file f.node hpos hnode
    have hmax : ramfsDataBytes = 8192 := rfl
    have hcap' : (fs.nodes f.node).dataCapacity.toNat = 256 := by rw [hcapacity]; rfl
    -- the sum does not wrap: extents end at 64 * 256
    have hdst : ((fs.nodes f.node).dataOffset + f.offset).toNat =
        256 * (f.node - 1) + f.offset.toNat := by
      rw [UInt64.toNat_add, hoffset]
      omega
    refine ⟨_, storeData_eq buf fs.data 0 len.toNat (by omega), fun k hk => ?_⟩
    by_contra hout
    refine hk ?_
    rw [Bytes.copy, if_neg (by omega)]

theorem WriteFits.size {fs : Ramfs} {f : File} {len : UInt64} (h : WriteFits fs f len)
    (he : Extents fs) (hc : Contained fs) (hnode : f.node < fs.nodeCount) :
    (f.node = 0 → sizeAfter fs f len = 0) ∧ (0 < f.node → (sizeAfter fs f len).toNat ≤ 256) := by
  rcases h with ⟨rfl, hle⟩ | ⟨htype, hcap, _⟩
  · have hsame : sizeAfter fs f 0 = (fs.nodes f.node).size := by
      rw [sizeAfter, if_neg]
      rw [UInt64.add_zero]
      exact UInt64.not_lt.mpr hle
    rw [hsame]
    refine ⟨fun h0 => ?_, fun hpos => hc.file f.node hpos hnode⟩
    rw [h0]
    exact hc.root
  · have hpos := he.ne_root htype
    refine ⟨fun h0 => absurd h0 (by omega), fun _ => ?_⟩
    have hcap' : (fs.nodes f.node).dataCapacity.toNat = 256 := by
      rw [(he.file f.node hpos hnode).dataCapacity]
      rfl
    have hold := hc.file f.node hpos hnode
    rw [sizeAfter]
    split
    · rw [UInt64.toNat_add]
      omega
    · exact hold

/-! ## Isolation -/

/-- The first `size` bytes of a node. -/
def nodeBytes (fs : Ramfs) (i : Nat) : List UInt8 :=
  (List.range (fs.nodes i).size.toNat).map fun k =>
    fs.data ((fs.nodes i).dataOffset + UInt64.ofNat k).toNat

/-- The write stays inside the array, and no node but the one of the descriptor changes its size or
its bytes. -/
def WriteIsolated (s : State P) (p : P) (fd : Int) (buf : Bytes) (len : UInt64) : Prop :=
  ∃ r, sysWrite s p fd buf len = some r ∧
    ∀ i, i < s.fs.nodeCount → (∀ f, fdGet (s.fds p) fd = some f → f.node ≠ i) →
      (r.2.fs.nodes i).size = (s.fs.nodes i).size ∧ nodeBytes r.2.fs i = nodeBytes s.fs i

/-- The bytes of a node lie in its extent. -/
theorem nodeBytes_congr {fs fs' : Ramfs} {i : Nat} (he : Extents fs) (hc : Contained fs)
    (hi : i < fs.nodeCount) (hnode : fs'.nodes i = fs.nodes i)
    (hdata : ∀ k, 256 * (i - 1) ≤ k → k < 256 * i → fs'.data k = fs.data k) :
    nodeBytes fs' i = nodeBytes fs i := by
  rw [nodeBytes, nodeBytes, hnode, List.map_inj_left]
  intro k hk
  rw [List.mem_range] at hk
  rcases Nat.eq_zero_or_pos i with rfl | hpos
  · rw [hc.root] at hk
    exact absurd hk (Nat.not_lt_zero k)
  · have hsize := hc.file i hpos hi
    have hoffset := (he.file i hpos hi).dataOffset
    have hcount := he.count_le
    have hmax : maxNodes = 64 := rfl
    have hindex : ((fs.nodes i).dataOffset + UInt64.ofNat k).toNat = 256 * (i - 1) + k := by
      rw [UInt64.toNat_add, UInt64.toNat_ofNat', hoffset]
      omega
    rw [hindex]
    exact hdata _ (by omega) (by omega)

theorem writeIsolated_of_fits {s : State P} (h : Wf s) (hc : Contained s.fs) {p : P} {fd : Int}
    {buf : Bytes} {len : UInt64} (hfits : Fits s (.write p fd buf len)) :
    WriteIsolated s p fd buf len := by
  cases hf : fdGet (s.fds p) fd with
  | none =>
      refine ⟨(ebadf.toInt64, s), ?_, fun i _ _ => ⟨rfl, rfl⟩⟩
      exact (sys_badf hf).2.1 buf len
  | some f =>
      have hnode := h.onNodes p fd f hf
      obtain ⟨data, hdata, hsame⟩ := (hfits f hf).store h.extents hnode buf
      refine ⟨_, sysWrite_some hf hdata, fun i hi hother => ?_⟩
      have hne : i ≠ f.node := fun heq => hother f hf heq.symm
      have hkept := setContent_node_ne s.fs f.node data (sizeAfter s.fs f len) hne
      refine ⟨congrArg Vnode.size hkept, nodeBytes_congr h.extents hc hi hkept fun k hlo hhi => ?_⟩
      -- a byte that has changed is one of the extent of the written file
      by_contra hk
      have hextent := hsame k hk
      omega

/-- A fitting call keeps every file inside its extent. -/
theorem Contained.exec {s s' : State P} {c : Call P} (hc : Contained s.fs) (h : Wf s)
    (hfits : Fits s c) (hx : c.exec past s = some s') : Contained s'.fs := by
  cases exec_cases hx with
  | refused => exact hc
  | @seed _ data len fs node stored hcreated _ =>
      have hpos := h.extents.count_pos
      have hindex := hcreated.index
      apply (hc.create hpos hcreated).setContent stored
      · intro h0
        omega
      · intro _
        exact (hfits hcreated.room).1
  | «open» _ _ hnode =>
      rcases lookupOrCreate_cases hnode with ⟨rfl, _⟩ | hcreated
      · exact hc
      · exact hc.create h.extents.count_pos hcreated
  | @write p fd _ len f data hf =>
      obtain ⟨hroot, hfile⟩ := (hfits f hf).size h.extents hc (h.onNodes p fd f hf)
      exact hc.setContent data hroot hfile
  | read | lseek | close => exact hc

/-! ## Runs -/

/-- A run of calls, each allowed in the state it is made in. -/
inductive CallRun (past : Ramfs → Nat → Bytes) (allowed : State P → Call P → Prop) :
    State P → List (Call P) → State P → Prop where
  | nil (s : State P) : CallRun past allowed s [] s
  | cons {s s' s'' : State P} {c : Call P} {cs : List (Call P)} (hc : allowed s c)
      (hx : c.exec past s = some s') (hrun : CallRun past allowed s' cs s'') :
      CallRun past allowed s (c :: cs) s''

theorem CallRun.contained {s s' : State P} {cs : List (Call P)} (hrun : CallRun past Fits s cs s')
    (h : Wf s) (hc : Contained s.fs) : Wf s' ∧ Contained s'.fs := by
  induction hrun with
  | nil s => exact ⟨h, hc⟩
  | cons hfits hx _ ih => exact ih (h.exec hx) (hc.exec h hfits hx)

omit [DecidableEq P] in
theorem wf_init (fs : Ramfs) (fds : P → FdTable) : Wf (State.init fs fds) :=
  ⟨extents_init fs, onNodes_init fs fds⟩

omit [DecidableEq P] in
theorem contained_init (fs : Ramfs) (fds : P → FdTable) : Contained (State.init fs fds).fs where
  root := by simp [State.init, ramfsInit]
  file := fun i hi hlt => absurd hlt (by simp [State.init, ramfsInit]; omega)

/-- **Isolation.** In a run of fitting calls every write stays inside the array, and changes no file
but its own. -/
theorem vfsRun_writeIsolated (fs : Ramfs) (fds : P → FdTable) (cs : List (Call P)) (s : State P)
    (hrun : CallRun past Fits (State.init fs fds) cs s) (p : P) (fd : Int) (buf : Bytes)
    (len : UInt64) (hfits : Fits s (.write p fd buf len)) : WriteIsolated s p fd buf len := by
  obtain ⟨h, hc⟩ := hrun.contained (wf_init fs fds) (contained_init fs fds)
  exact writeIsolated_of_fits h hc hfits

end

/-- Zeroed memory, and a table of closed files. -/
def blankFs : Ramfs := ⟨fun _ => ⟨0, 0, .dir, Bytes.zero, 0, 0, 0⟩, 0, Bytes.zero, 0⟩

def blankFds : Unit → FdTable := fun _ _ => ⟨false, 0, 0, 0⟩

def openCall (name : UInt8) : Call Unit := .open () (some [0x2f, name]) oCreat

/-- Two files with a byte in the second, and then the whole extent of the first. -/
theorem vfsRun_writeIsolated_two : ∃ s,
    CallRun (fun _ _ => Bytes.zero) Fits (State.init blankFs blankFds)
      [openCall 0x61, openCall 0x62, .write () 1 (fun _ => 0x42) 1] s ∧
    s.fs.nodeCount = 3 ∧ nodeBytes s.fs 2 = [0x42] ∧ WriteIsolated s () 0 (fun _ => 0x58) 256 := by
  obtain ⟨s, hrun, hcount, hbytes, hfits⟩ : ∃ s,
      CallRun (fun _ _ => Bytes.zero) Fits (State.init blankFs blankFds)
        [openCall 0x61, openCall 0x62, .write () 1 (fun _ => 0x42) 1] s ∧
      s.fs.nodeCount = 3 ∧ nodeBytes s.fs 2 = [0x42] ∧
      Fits s (.write () 0 (fun _ => 0x58) 256) := by
    refine ⟨_, CallRun.cons trivial rfl (CallRun.cons trivial rfl (CallRun.cons (fun f hf => ?_) rfl
      (CallRun.nil _))), rfl, rfl, fun f hf => ?_⟩
    · obtain rfl : (⟨true, oCreat, 0, 2⟩ : File) = f := Option.some_inj.mp hf
      exact Or.inr ⟨rfl, by decide, Or.inr (by decide)⟩
    · obtain rfl : (⟨true, oCreat, 0, 1⟩ : File) = f := Option.some_inj.mp hf
      exact Or.inr ⟨rfl, by decide, Or.inr (by decide)⟩
  exact ⟨s, hrun, hcount, hbytes, vfsRun_writeIsolated blankFs blankFds _ s hrun () 0 _ 256 hfits⟩

/-- Two files, a byte in the second, and the first at the end of its extent. -/
def besideExtent : List (Call Unit) :=
  [openCall 0x61, openCall 0x62, .write () 1 (fun _ => 0x42) 1, .lseek () 0 256 seekSet]

/-- A write behind the extent of a file changes the next file. -/
theorem vfsRun_write_crosses :
    ∃ s, CallRun (fun _ _ => Bytes.zero) (fun _ _ => True) (State.init blankFs blankFds)
        besideExtent s ∧ ¬WriteIsolated s () 0 (fun _ => 0x58) 1 := by
  -- node 2 is `/b`: its byte is the first one behind the extent of `/a`
  refine ⟨_, CallRun.cons trivial rfl (CallRun.cons trivial rfl (CallRun.cons trivial rfl
    (CallRun.cons trivial rfl (CallRun.nil _)))), ?_⟩
  rintro ⟨r, hr, hothers⟩
  obtain rfl := Option.some_inj.mp hr
  obtain ⟨_, hbytes⟩ := hothers 2 (by decide) fun f hf => by
    obtain rfl : (⟨true, oCreat, 256, 1⟩ : File) = f := Option.some_inj.mp hf
    decide
  exact absurd hbytes (by decide)

end Mcsos.Vfs
