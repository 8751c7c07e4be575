import Mcsos.Vfs.Fd

set_option autoImplicit false

/-! # What the calls on files do (`kernel/vfs/fd.c`)

Each call is read once here: which entry of which table it changes, and what it does to the file
system. A failed open has taken a descriptor and given it back, so that nothing has changed.
-/

namespace Mcsos.Vfs

/-! ## Descriptors -/

theorem fdGet_some_iff {table : FdTable} {fd : Int} {f : File} :
    fdGet table fd = some f ↔
      0 ≤ fd ∧ fd.toNat < maxOpenFiles ∧ (table fd.toNat).used = true ∧ table fd.toNat = f := by
  rw [fdGet]
  split
  · rename_i h
    refine iff_of_false (by simp) ?_
    rintro ⟨h0, hlt, hused, _⟩
    rcases h with h | h | h
    · omega
    · omega
    · exact h hused
  · rename_i h
    push Not at h
    rw [Option.some_inj]
    exact ⟨fun hf => ⟨h.1, h.2.1, h.2.2, hf⟩, fun hf => hf.2.2.2⟩

/-- A descriptor of a changed table is the changed one or an old one. -/
theorem fdGet_update {table : FdTable} {fd : Nat} {fd' : Int} {f g : File}
    (h : fdGet (Function.update table fd f) fd' = some g) :
    (g = f ∧ f.used = true) ∨ fdGet table fd' = some g := by
  obtain ⟨h0, hlt, hused, hg⟩ := fdGet_some_iff.mp h
  by_cases hfd : fd'.toNat = fd
  · rw [hfd, Function.update_self] at hused hg
    exact Or.inl ⟨hg.symm, hused⟩
  · rw [Function.update_of_ne hfd] at hused hg
    exact Or.inr (fdGet_some_iff.mpr ⟨h0, hlt, hused, hg⟩)

/-- Nothing is open at the start. -/
theorem fdGet_init {P : Type} (fs : Ramfs) (fds : P → FdTable) (p : P) (fd : Int) :
    fdGet ((State.init fs fds).fds p) fd = none := by
  rw [fdGet, if_pos]
  by_cases hlt : fd.toNat < maxOpenFiles
  · exact Or.inr (Or.inr (by simp [State.init, fdTableInit, hlt]))
  · exact Or.inr (Or.inl (Nat.le_of_not_lt hlt))

/-- What holds of all open files still does when one entry of one table changes, if the change of the
rest of the state keeps it and the new file has it. -/
theorem openFiles_update {P : Type} [DecidableEq P] {s : State P} {R R' : File → Prop}
    (h : ∀ p fd f, fdGet (s.fds p) fd = some f → R f) {fs : Ramfs} {p : P} {fd : Nat} {f : File}
    (hkept : ∀ g, R g → R' g) (hf : f.used = true → R' f) {q : P} {fd' : Int} {g : File}
    (hg : fdGet (({ s with fs := fs }.setTable p (Function.update (s.fds p) fd f)).fds q) fd' =
      some g) : R' g := by
  simp only [State.setTable] at hg
  by_cases hq : q = p
  · rw [hq, Function.update_self] at hg
    rcases fdGet_update hg with ⟨rfl, hused⟩ | hold
    · exact hf hused
    · exact hkept g (h p fd' g hold)
  · rw [Function.update_of_ne hq] at hg
    exact hkept g (h q fd' g hg)

theorem fdGet_setFile {P : Type} [DecidableEq P] {s : State P} {p : P} {fd : Int} {f : File}
    (hf : fdGet (s.fds p) fd = some f) (fs : Ramfs) (g : File) (hused : g.used = true) :
    fdGet (({ s with fs := fs }.setFile p fd g).fds p) fd = some g := by
  obtain ⟨h0, hlt, -, -⟩ := fdGet_some_iff.mp hf
  simp only [State.setFile, State.setTable, Function.update_self]
  exact fdGet_some_iff.mpr ⟨h0, hlt, by rw [Function.update_self, hused], Function.update_self _ _ _⟩

/-- The descriptor that the next open takes. -/
structure LowestUnused (table : FdTable) (fd : Nat) : Prop where
  lt : fd < maxOpenFiles
  unused : (table fd).used = false
  below : ∀ i, i < fd → (table i).used = true

theorem fdAlloc_none_iff {table : FdTable} :
    fdAlloc table = none ↔ ∀ i, i < maxOpenFiles → (table i).used = true := by
  rw [fdAlloc, Option.map_eq_none_iff, Loop.findFrom_none_iff]
  simp

theorem fdAlloc_some {table table' : FdTable} {fd : Nat} (h : fdAlloc table = some (fd, table')) :
    LowestUnused table fd ∧ table' = Function.update table fd { table fd with used := true } := by
  obtain ⟨i, hfind, hi⟩ := Option.map_eq_some_iff.mp h
  obtain ⟨rfl, rfl⟩ := Prod.mk.inj hi
  obtain ⟨-, hlt, hunused, hbelow⟩ := Loop.findFrom_some_iff.mp hfind
  refine ⟨⟨by simpa using hlt, by simpa using hunused, ?_⟩, rfl⟩
  intro j hj
  simpa using hbelow j (Nat.zero_le j) hj

/-! ## What a call does -/

section

variable {P : Type} [DecidableEq P] {past : Ramfs → Nat → Bytes}

theorem lookupOrCreate_some {fs fs' : Ramfs} {path : List UInt8} {flags : UInt32} {node : Nat}
    (h : lookupOrCreate past fs path flags = some (fs', node)) :
    (fs' = fs ∧ ramfsLookup past fs path = some node) ∨
      (ramfsLookup past fs path = none ∧ flags &&& oCreat ≠ 0 ∧
        ramfsCreateFile fs path = .ok (fs', node)) := by
  rw [lookupOrCreate] at h
  split at h
  · rename_i found hlookup
    cases h
    exact Or.inl ⟨rfl, hlookup⟩
  · rename_i hnone
    split at h
    · cases h
    · rename_i hflags
      split at h
      · cases h
      · rename_i hok
        cases h
        exact Or.inr ⟨hnone, hflags, hok⟩

theorem lookupOrCreate_cases {fs fs' : Ramfs} {path : List UInt8} {flags : UInt32} {node : Nat}
    (h : lookupOrCreate past fs path flags = some (fs', node)) :
    (fs' = fs ∧ ramfsLookup past fs path = some node) ∨ CreatedFile fs fs' node :=
  (lookupOrCreate_some h).imp_right fun hnew => ramfsCreateFile_ok hnew.2.2

variable (past) in
/-- An open fails and changes nothing, or the lowest unused descriptor is opened on the node that
was found or created. -/
theorem sysOpen_cases (s : State P) (p : P) (path : Option (List UInt8)) (flags : UInt32) :
    (∃ rc, rc < 0 ∧ sysOpen past s p path flags = (rc, s)) ∨
      ∃ chars fs fd node, path = some chars ∧ charAt chars 0 = 0x2f ∧ LowestUnused (s.fds p) fd ∧
        lookupOrCreate past s.fs chars flags = some (fs, node) ∧
        sysOpen past s p path flags = ((fd : Int),
          { s with fs := fs }.setTable p (Function.update (s.fds p) fd ⟨true, flags, 0, node⟩)) := by
  cases path with
  | none => exact Or.inl ⟨einval, by decide, rfl⟩
  | some chars =>
      rw [sysOpen]
      split
      · exact Or.inl ⟨einval, by decide, rfl⟩
      · rename_i habs
        cases halloc : fdAlloc (s.fds p) with
        | none => exact Or.inl ⟨enfile, by decide, rfl⟩
        | some alloc =>
            obtain ⟨fd, table⟩ := alloc
            obtain ⟨hlowest, rfl⟩ := fdAlloc_some halloc
            cases hnode : lookupOrCreate past s.fs chars flags with
            | none =>
                refine Or.inl ⟨enoent, by decide, ?_⟩
                -- the descriptor was unused, and is so again
                have hback : ({ s.fds p fd with used := false } : File) = s.fds p fd := by
                  rw [← hlowest.unused]
                simp only [Function.update_self, Function.update_idem, hback,
                  Function.update_eq_self]
                rw [State.setTable, Function.update_eq_self]
            | some created =>
                refine Or.inr ⟨chars, created.1, fd, created.2, rfl, not_not.mp habs, hlowest, hnode, ?_⟩
                simp

/-- A seed creates a file and stores its contents, all inside the array. -/
theorem ramfsSeedFile_cases {fs : Ramfs} {path : List UInt8} {data : Bytes} {len : UInt64}
    {r : Int × Ramfs} (h : ramfsSeedFile fs path data len = some r) :
    (maxNodes ≤ fs.nodeCount ∧ r = (enospc, fs)) ∨
      ∃ fs' node stored, CreatedFile fs fs' node ∧
        storeData (fs'.nodes node).dataOffset data fs'.data 0 len.toNat = some stored ∧
        r = (mcsOk, fs'.setContent node stored len) := by
  rcases ramfsCreateFile_cases fs path with ⟨hfull, herr⟩ | ⟨fs', node, hok, hcreated⟩
  · rw [ramfsSeedFile, herr] at h
    cases h
    exact Or.inl ⟨hfull, rfl⟩
  · rw [ramfsSeedFile, hok] at h
    obtain ⟨stored, hstored, rfl⟩ := Option.map_eq_some_iff.mp h
    exact Or.inr ⟨fs', node, stored, hcreated, hstored, rfl⟩

/-- The bytes that a read of `len` bytes copies. -/
def readCount (fs : Ramfs) (f : File) (len : UInt64) : UInt64 :=
  if len < (fs.nodes f.node).size - f.offset then len else (fs.nodes f.node).size - f.offset

theorem sysRead_some {s : State P} {p : P} {fd : Int} {f : File} (len : UInt64)
    (hf : fdGet (s.fds p) fd = some f) :
    sysRead s p fd len = ((readCount s.fs f len).toInt64,
      (List.range (readCount s.fs f len).toNat).map fun i => s.fs.data (transferIndex s.fs f i),
      s.setFile p fd { f with offset := f.offset + readCount s.fs f len }) := by
  simp only [sysRead, hf, readCount]

/-- The file behind a seek. -/
def File.sought (f : File) (offset : Int64) (whence : Int) : File :=
  if whence = seekSet then { f with offset := offset.toUInt64 } else f

@[simp] theorem sought_node (f : File) (offset : Int64) (whence : Int) :
    (f.sought offset whence).node = f.node := by
  rw [File.sought]
  split <;> rfl

theorem sysLseek_some {s : State P} {p : P} {fd : Int} {f : File} (offset : Int64) (whence : Int)
    (hf : fdGet (s.fds p) fd = some f) :
    (sysLseek s p fd offset whence).2 = s.setFile p fd (f.sought offset whence) := by
  simp only [sysLseek, hf, File.sought]

theorem sysClose_some {s : State P} {p : P} {fd : Int} {f : File}
    (hf : fdGet (s.fds p) fd = some f) :
    sysClose s p fd = (mcsOk, s.setFile p fd { f with used := false }) := by
  simp only [sysClose, hf]

/-- The size of a file behind a write of `len` bytes. -/
def sizeAfter (fs : Ramfs) (f : File) (len : UInt64) : UInt64 :=
  if f.offset + len > (fs.nodes f.node).size then f.offset + len else (fs.nodes f.node).size

theorem sysWrite_some {s : State P} {p : P} {fd : Int} {f : File} {buf data : Bytes} {len : UInt64}
    (hf : fdGet (s.fds p) fd = some f)
    (hdata : storeData ((s.fs.nodes f.node).dataOffset + f.offset) buf s.fs.data 0 len.toNat =
      some data) :
    sysWrite s p fd buf len = some (len.toInt64,
      { s with fs := s.fs.setContent f.node data (sizeAfter s.fs f len) }.setFile p fd
        { f with offset := f.offset + len }) := by
  simp only [sysWrite, hf, hdata, Option.map_some, sizeAfter]

theorem sysWrite_cases {s : State P} {p : P} {fd : Int} {buf : Bytes} {len : UInt64}
    {r : Int64 × State P} (h : sysWrite s p fd buf len = some r) :
    (fdGet (s.fds p) fd = none ∧ r.2 = s) ∨
      ∃ f data, fdGet (s.fds p) fd = some f ∧
        storeData ((s.fs.nodes f.node).dataOffset + f.offset) buf s.fs.data 0 len.toNat =
          some data ∧
        r.2 = { s with fs := s.fs.setContent f.node data (sizeAfter s.fs f len) }.setFile p fd
          { f with offset := f.offset + len } := by
  cases hf : fdGet (s.fds p) fd with
  | none =>
      simp only [sysWrite, hf, Option.some_inj] at h
      exact Or.inl ⟨rfl, by rw [← h]⟩
  | some f =>
      simp only [sysWrite, hf] at h
      obtain ⟨data, hdata, rfl⟩ := Option.map_eq_some_iff.mp h
      exact Or.inr ⟨f, data, rfl, hdata, rfl⟩

/-- A call that is given the descriptor `fd` of `p`. -/
def Call.On (p : P) (fd : Int) : Call P → Prop
  | .read q fd' _ | .write q fd' _ _ | .lseek q fd' _ _ | .close q fd' => q = p ∧ fd' = fd
  | _ => False

/-- A call on a descriptor that is not open is refused. -/
theorem sys_badf {s : State P} {p : P} {fd : Int} (hf : fdGet (s.fds p) fd = none) :
    (∀ len, sysRead s p fd len = (ebadf.toInt64, [], s)) ∧
      (∀ buf len, sysWrite s p fd buf len = some (ebadf.toInt64, s)) ∧
      (∀ offset whence, sysLseek s p fd offset whence = (ebadf, s)) ∧
      sysClose s p fd = (ebadf, s) := by
  simp [sysRead, sysWrite, sysLseek, sysClose, hf]

/-- What a call makes of the state. -/
inductive CallStep (past : Ramfs → Nat → Bytes) (s : State P) : Call P → State P → Prop where
  | refused (c : Call P) : CallStep past s c s
  | seed {path : List UInt8} {data : Bytes} {len : UInt64} {fs : Ramfs} {node : Nat}
      {stored : Bytes} (hcreated : CreatedFile s.fs fs node)
      (hstored : storeData (fs.nodes node).dataOffset data fs.data 0 len.toNat = some stored) :
      CallStep past s (.seed path data len) { s with fs := fs.setContent node stored len }
  | open {p : P} {path : List UInt8} {flags : UInt32} {fs : Ramfs} {fd node : Nat}
      (habs : charAt path 0 = 0x2f) (hlowest : LowestUnused (s.fds p) fd)
      (hnode : lookupOrCreate past s.fs path flags = some (fs, node)) :
      CallStep past s (.open p (some path) flags)
        ({ s with fs := fs }.setTable p (Function.update (s.fds p) fd ⟨true, flags, 0, node⟩))
  | read {p : P} {fd : Int} {len : UInt64} {f : File} (hf : fdGet (s.fds p) fd = some f) :
      CallStep past s (.read p fd len)
        (s.setFile p fd { f with offset := f.offset + readCount s.fs f len })
  | write {p : P} {fd : Int} {buf : Bytes} {len : UInt64} {f : File} {data : Bytes}
      (hf : fdGet (s.fds p) fd = some f) :
      CallStep past s (.write p fd buf len)
        ({ s with fs := s.fs.setContent f.node data (sizeAfter s.fs f len) }.setFile p fd
          { f with offset := f.offset + len })
  | lseek {p : P} {fd : Int} {offset : Int64} {whence : Int} {f : File}
      (hf : fdGet (s.fds p) fd = some f) :
      CallStep past s (.lseek p fd offset whence) (s.setFile p fd (f.sought offset whence))
  | close {p : P} {fd : Int} {f : File} (hf : fdGet (s.fds p) fd = some f) :
      CallStep past s (.close p fd) (s.setFile p fd { f with used := false })

theorem exec_cases {s s' : State P} {c : Call P} (h : c.exec past s = some s') :
    CallStep past s c s' := by
  cases c with
  | seed path data len =>
      obtain ⟨r, hr, rfl⟩ := Option.map_eq_some_iff.mp h
      rcases ramfsSeedFile_cases hr with ⟨_, rfl⟩ | ⟨fs, node, stored, hcreated, hstored, rfl⟩
      · exact CallStep.refused _
      · exact CallStep.seed hcreated hstored
  | «open» p path flags =>
      rw [Call.exec, Option.some_inj] at h
      subst h
      rcases sysOpen_cases past s p path flags with
        ⟨rc, -, hs⟩ | ⟨chars, fs, fd, node, rfl, habs, hlowest, hnode, hs⟩
      · rw [hs]
        exact CallStep.refused _
      · rw [hs]
        exact CallStep.open habs hlowest hnode
  | write p fd buf len =>
      obtain ⟨r, hr, rfl⟩ := Option.map_eq_some_iff.mp h
      rcases sysWrite_cases hr with ⟨_, hs⟩ | ⟨f, data, hf, _, hs⟩
      · rw [hs]
        exact CallStep.refused _
      · rw [hs]
        exact CallStep.write hf
  | read p fd len =>
      rw [Call.exec, Option.some_inj] at h
      subst h
      cases hf : fdGet (s.fds p) fd with
      | none =>
          rw [(sys_badf hf).1]
          exact CallStep.refused _
      | some f =>
          rw [sysRead_some len hf]
          exact CallStep.read hf
  | lseek p fd offset whence =>
      rw [Call.exec, Option.some_inj] at h
      subst h
      cases hf : fdGet (s.fds p) fd with
      | none =>
          rw [(sys_badf hf).2.2.1]
          exact CallStep.refused _
      | some f =>
          rw [sysLseek_some offset whence hf]
          exact CallStep.lseek hf
  | close p fd =>
      rw [Call.exec, Option.some_inj] at h
      subst h
      cases hf : fdGet (s.fds p) fd with
      | none =>
          rw [(sys_badf hf).2.2.2]
          exact CallStep.refused _
      | some f =>
          rw [sysClose_some hf]
          exact CallStep.close hf

end

end Mcsos.Vfs
