import Mcsos.Vfs.FdDiscipline
import Mcsos.Vfs.RamfsNames

set_option autoImplicit false

/-! # Paths and their nodes

Files are never removed or renamed. So a path that was opened stays the name of its node, and of no
other node, as long as no name was cut. A path of more than 32 characters is opened with
`MCS_O_CREAT`, and is not found again.
-/

namespace Mcsos.Vfs

/-! ## Names kept -/

/-- The same names, of the same nodes. -/
structure SameNames (fs fs' : Ramfs) : Prop where
  count : fs'.nodeCount = fs.nodeCount
  name : ∀ i, (fs'.nodes i).name = (fs.nodes i).name

theorem SameNames.storedName {fs fs' : Ramfs} (h : SameNames fs fs') (i : Nat) :
    storedName fs' i = storedName fs i := by
  rw [Vfs.storedName, h.name, Vfs.storedName]

theorem NamesEnd.congr {fs fs' : Ramfs} (h : NamesEnd fs) (hsame : SameNames fs fs') :
    NamesEnd fs' := by
  constructor
  · rw [hsame.count]
    exact h.count_pos
  · intro i hi hlt
    rw [hsame.storedName]
    exact h.ends i hi (hsame.count ▸ hlt)
  · intro i hi j
    rw [hsame.name]
    exact h.blank i (hsame.count ▸ hi) j

theorem Named.congr {fs fs' : Ramfs} (h : Named fs) (hsame : SameNames fs fs') : Named fs' := by
  refine ⟨h.toNamesEnd.congr hsame, fun i j hi hij hj => ?_⟩
  rw [hsame.storedName, hsame.storedName]
  exact h.distinct i j hi hij (hsame.count ▸ hj)

theorem sameNames_setContent (fs : Ramfs) (node : Nat) (data : Bytes) (size : UInt64) :
    SameNames fs (fs.setContent node data size) where
  count := rfl
  name i := by rw [setContent_node]

theorem namesEnd_init : NamesEnd (ramfsInit blankFs) where
  count_pos := Nat.one_pos
  ends := fun i hi hlt => absurd hlt (by simp [ramfsInit]; omega)
  blank := fun i hi j => by
    have hi : 1 ≤ i := hi
    simp only [ramfsInit]
    rw [Function.update_of_ne (by omega)]
    rfl

theorem named_init : Named (ramfsInit blankFs) where
  toNamesEnd := namesEnd_init
  distinct := fun i j hi hij hj => absurd hj (by simp [ramfsInit]; omega)

/-! ## Opens -/

section

variable {P : Type} [DecidableEq P] {past : Ramfs → Nat → Bytes}

/-- An open of `path` succeeds, on node `n`. -/
def OpensOn (past : Ramfs → Nat → Bytes) (s : State P) (p : P) (path : List UInt8) (flags : UInt32)
    (n : Nat) : Prop :=
  0 ≤ (sysOpen past s p (some path) flags).1 ∧
    ((sysOpen past s p (some path) flags).2.fds p (sysOpen past s p (some path) flags).1.toNat).node =
      n

theorem OpensOn.node {s : State P} {p : P} {path : List UInt8} {flags : UInt32} {n : Nat}
    (h : OpensOn past s p path flags n) : charAt path 0 = 0x2f ∧
      lookupOrCreate past s.fs path flags =
        some ((sysOpen past s p (some path) flags).2.fs, n) := by
  obtain ⟨hrc, hnode⟩ := h
  rcases sysOpen_cases past s p (some path) flags with
    ⟨rc, hneg, hs⟩ | ⟨chars, fs, fd, node, hpath, habs, -, hlookup, hs⟩
  · rw [hs] at hrc
    exact absurd hrc (Int.not_le.mpr hneg)
  · obtain rfl := Option.some_inj.mp hpath
    refine ⟨habs, ?_⟩
    rw [hs] at hnode ⊢
    simp only [State.setTable, Function.update_self, Int.toNat_natCast] at hnode
    rw [hlookup, hnode]
    rfl

/-- A path that is found can be opened as long as there is a descriptor left. -/
theorem opensOn_of_lookup {s : State P} {p : P} {path : List UInt8} {n : Nat}
    (habs : charAt path 0 = 0x2f)
    (hfree : ∃ fd, fd < maxOpenFiles ∧ (s.fds p fd).used = false)
    (hlookup : ramfsLookup past s.fs path = some n) (flags : UInt32) :
    OpensOn past s p path flags n ∧ (sysOpen past s p (some path) flags).2.fs = s.fs := by
  have hnode : lookupOrCreate past s.fs path flags = some (s.fs, n) := by
    rw [lookupOrCreate, hlookup]
  cases halloc : fdAlloc (s.fds p) with
  | none =>
      obtain ⟨fd, hfd, hunused⟩ := hfree
      rw [fdAlloc_none_iff.mp halloc fd hfd] at hunused
      cases hunused
  | some alloc =>
      have hopen : sysOpen past s p (some path) flags = ((alloc.1 : Int),
          { s with fs := s.fs }.setTable p (Function.update alloc.2 alloc.1 ⟨true, flags, 0, n⟩)) := by
        simp only [sysOpen, habs, halloc, hnode, ne_eq, not_true_eq_false, if_false]
      rw [OpensOn, hopen]
      refine ⟨⟨Int.natCast_nonneg _, ?_⟩, rfl⟩
      simp [State.setTable]

/-! ## Calls -/

/-- A call other than a seed keeps the names, or it is an open that creates a file. -/
theorem exec_names {s s' : State P} {c : Call P} (hseed : ∀ path data len, c ≠ .seed path data len)
    (hx : c.exec past s = some s') : SameNames s.fs s'.fs ∨
      ∃ p path flags node, c = .open p (some path) flags ∧ charAt path 0 = 0x2f ∧
        ramfsLookup past s.fs path = none ∧ flags &&& oCreat ≠ 0 ∧
        ramfsCreateFile s.fs path = .ok (s'.fs, node) := by
  cases exec_cases hx with
  | refused => exact Or.inl ⟨rfl, fun _ => rfl⟩
  | seed => exact absurd rfl (hseed _ _ _)
  | @«open» p path flags fs fd node habs _ hlookup =>
      rcases lookupOrCreate_some hlookup with ⟨rfl, _⟩ | ⟨hnone, hcreat, hok⟩
      · exact Or.inl ⟨rfl, fun _ => rfl⟩
      · exact Or.inr ⟨p, path, flags, node, rfl, habs, hnone, hcreat, hok⟩
  | write => exact Or.inl (sameNames_setContent s.fs _ _ _)
  | read | lseek | close => exact Or.inl ⟨rfl, fun _ => rfl⟩

/-- Calls on C strings as paths that create files for paths of at most 32 characters only. -/
def ShortPaths (_ : State P) : Call P → Prop
  | .seed _ _ _ => False
  | .open _ (some path) flags => 0 ∉ path ∧ (flags &&& oCreat ≠ 0 → path.length ≤ maxName)
  | _ => True

omit [DecidableEq P] in
theorem ShortPaths.not_seed {s : State P} {c : Call P} (h : ShortPaths s c) (path : List UInt8)
    (data : Bytes) (len : UInt64) : c ≠ .seed path data len := by
  rintro rfl
  exact h

theorem baseName_length {path : List UInt8} (habs : charAt path 0 = 0x2f) :
    path.length = (baseName path).length + 1 := by
  have hpath := congrArg List.length (path_eq habs)
  rwa [List.length_cons] at hpath

theorem Named.exec {s s' : State P} {c : Call P} (h : Named s.fs) (hshort : ShortPaths s c)
    (hx : c.exec past s = some s') : Named s'.fs := by
  rcases exec_names hshort.not_seed hx with
    hsame | ⟨p, path, flags, node, rfl, habs, hnone, hcreat, hok⟩
  · exact h.congr hsame
  · have hlen := baseName_length habs
    have hmax := hshort.2 hcreat
    exact h.create hshort.1 (by omega) hnone hok

/-- A path keeps its node. -/
theorem NodeOf.exec {s s' : State P} {c : Call P} {path : List UInt8} {n : Nat}
    (h : NodeOf s.fs path n) (hseed : ∀ path data len, c ≠ .seed path data len)
    (hx : c.exec past s = some s') : NodeOf s'.fs path n := by
  rcases exec_names hseed hx with hsame | ⟨p, path', flags, node, -, -, -, -, hok⟩
  · rcases h with hroot | ⟨hroot, hpos, hlt, hname⟩
    · exact Or.inl hroot
    · exact Or.inr ⟨hroot, hpos, by rw [hsame.count]; exact hlt, by rw [hsame.storedName, hname]⟩
  · have hc := ramfsCreateFile_ok hok
    have hindex := hc.index
    have hcount := hc.count
    rcases h with hroot | ⟨hroot, hpos, hlt, hname⟩
    · exact Or.inl hroot
    · exact Or.inr ⟨hroot, hpos, by omega, by rw [storedName_create_ne hc (by omega), hname]⟩

theorem CallRun.named {s s' : State P} {cs : List (Call P)} (hrun : CallRun past ShortPaths s cs s')
    (h : Named s.fs) : Named s'.fs ∧ ∀ path n, NodeOf s.fs path n → NodeOf s'.fs path n := by
  induction hrun with
  | nil s => exact ⟨h, fun _ _ hnode => hnode⟩
  | cons hshort hx _ ih =>
      obtain ⟨hnamed, hkept⟩ := ih (h.exec hshort hx)
      exact ⟨hnamed, fun path n hnode => hkept path n (hnode.exec hshort.not_seed hx)⟩

/-! ## One file for each path -/

/-- The path is opened on node `n` whenever a descriptor is left, and creates nothing; no other path
is opened on `n`; and no comparison of a lookup leaves the name field of a node. -/
structure PathKept (past : Ramfs → Nat → Bytes) (s : State P) (path : List UInt8) (n : Nat) :
    Prop where
  found : ∀ p flags, (∃ fd, fd < maxOpenFiles ∧ (s.fds p fd).used = false) →
    OpensOn past s p path flags n ∧ (sysOpen past s p (some path) flags).2.fs = s.fs
  alone : ∀ p path' flags, 0 ∉ path' → path' ≠ path → ¬OpensOn past s p path' flags n
  field : ∀ i name, 0 < i → i < s.fs.nodeCount →
    matchEnd (nodeName past s.fs i) 0 name < maxName

theorem Named.pathKept {s : State P} (h : Named s.fs) {path : List UInt8} (hnul : 0 ∉ path)
    (habs : charAt path 0 = 0x2f) {n : Nat} (hnode : NodeOf s.fs path n) :
    PathKept past s path n := by
  constructor
  · intro p flags hfree
    exact opensOn_of_lookup habs hfree ((h.lookup_iff hnul).mpr hnode) flags
  · intro p path' flags hnul' hne hopen
    obtain ⟨habs', hlookup⟩ := hopen.node
    rcases lookupOrCreate_some hlookup with ⟨_, hfound⟩ | ⟨_, _, hok⟩
    · exact hne (((h.lookup_iff hnul').mp hfound).path_unique habs' habs hnul' hnul hnode)
    · -- a new file has a node that no path names yet
      have hindex := (ramfsCreateFile_ok hok).index
      have hpos := h.count_pos
      rcases hnode with ⟨_, h0⟩ | ⟨_, _, hlt, _⟩
      · omega
      · omega
  · intro i name hi hlt
    exact h.matchEnd_lt name hi hlt

/-- The node of an open is the one that its path names from then on. -/
theorem OpensOn.nodeOf {s : State P} (h : Named s.fs) {p : P} {path : List UInt8} {flags : UInt32}
    {n : Nat} (hopen : OpensOn past s p path flags n) (hnul : 0 ∉ path)
    (hshort : path.length ≤ maxName) :
    NodeOf (sysOpen past s p (some path) flags).2.fs path n := by
  obtain ⟨habs, hlookup⟩ := hopen.node
  have hlen := baseName_length habs
  rcases lookupOrCreate_some hlookup with ⟨hsame, hfound⟩ | ⟨hnone, _, hok⟩
  · rw [hsame]
    exact (h.lookup_iff hnul).mp hfound
  · have hroot : ¬IsRoot path := fun hroot => h.lookup_none hnul hnone 0 (Or.inl ⟨hroot, rfl⟩)
    exact h.nodeOf_create hnul (by omega) hroot hok

/-- A path that is too long to be stored names no node. -/
theorem NamesEnd.not_nodeOf {fs : Ramfs} (h : NamesEnd fs) {path : List UInt8}
    (habs : charAt path 0 = 0x2f) (hnul : 0 ∉ path) (hlong : maxName < path.length) (n : Nat) :
    ¬NodeOf fs path n := by
  have hlen := baseName_length habs
  have hmax : maxName = 32 := rfl
  rintro (⟨hroot, _⟩ | ⟨_, hpos, hlt, hname⟩)
  · have hshort := (charAt_eq_zero_iff hnul).mp hroot.2
    omega
  · have hend := h.ends n hpos hlt
    rw [hname] at hend
    omega

theorem sysClose_fs (s : State P) (p : P) (fd : Int) : (sysClose s p fd).2.fs = s.fs := by
  cases hf : fdGet (s.fds p) fd with
  | none => rw [(sys_badf hf).2.2.2]
  | some f =>
      rw [sysClose_some hf]
      rfl

/-- A closed descriptor is unused. -/
theorem sysClose_unused (s : State P) (p : P) {fd : Int} (h0 : 0 ≤ fd)
    (hlt : fd.toNat < maxOpenFiles) : ((sysClose s p fd).2.fds p fd.toNat).used = false := by
  cases hf : fdGet (s.fds p) fd with
  | none =>
      rw [(sys_badf hf).2.2.2]
      by_contra hused
      rw [Bool.not_eq_false] at hused
      rw [fdGet_some_iff.mpr ⟨h0, hlt, hused, rfl⟩] at hf
      cases hf
  | some f => simp [sysClose_some hf, State.setFile, State.setTable]

theorem NamesEnd.open {s : State P} (h : NamesEnd s.fs) {p : P} {path : List UInt8} {flags : UInt32}
    {n : Nat} (hopen : OpensOn past s p path flags n) (hnul : 0 ∉ path) :
    NamesEnd (sysOpen past s p (some path) flags).2.fs := by
  rcases lookupOrCreate_some hopen.node.2 with ⟨hsame, _⟩ | ⟨_, _, hok⟩
  · rw [hsame]
    exact h
  · exact h.create hnul hok

/-- **Paths.** In a run on short paths, a path that is opened keeps its node if and only if it is
short as well. -/
theorem vfsRun_pathKept_iff (fds : P → FdTable) (cs : List (Call P)) (s : State P)
    (hrun : CallRun past ShortPaths (State.init blankFs fds) cs s) (p : P) (path : List UInt8)
    (flags : UInt32) (n : Nat) (hnul : 0 ∉ path) (hopen : OpensOn past s p path flags n) :
    (∀ cs' s', CallRun past ShortPaths (sysOpen past s p (some path) flags).2 cs' s' →
      PathKept past s' path n) ↔ path.length ≤ maxName := by
  obtain ⟨hnamed, _⟩ := hrun.named named_init
  have habs := hopen.node.1
  constructor
  · intro hkept
    by_contra hlong
    have hends := hnamed.toNamesEnd.open hopen hnul
    have hmissing := hends.not_nodeOf habs hnul (Nat.lt_of_not_le hlong) n
    -- the descriptor is closed, and the path is opened again without `MCS_O_CREAT`
    have hclosed := hkept [.close p (sysOpen past s p (some path) flags).1] _
      (CallRun.cons trivial rfl (CallRun.nil _))
    have hlowest := (sysOpen_opened hopen.1).1
    have hunused := sysClose_unused (sysOpen past s p (some path) flags).2 p hopen.1 hlowest.lt
    have hagain := (hclosed.found p 0 ⟨_, hlowest.lt, hunused⟩).1
    rcases lookupOrCreate_some hagain.node.2 with ⟨_, hfound⟩ | ⟨_, hflags, _⟩
    · rw [sysClose_fs] at hfound
      exact hmissing (hends.lookup_some hnul hfound)
    · exact hflags (by decide)
  · intro hshort cs' s' hrun'
    have hx : (Call.open p (some path) flags).exec past s =
        some (sysOpen past s p (some path) flags).2 := rfl
    have hnamed' := hnamed.exec (c := .open p (some path) flags) ⟨hnul, fun _ => hshort⟩ hx
    obtain ⟨hnamed'', hkept⟩ := hrun'.named hnamed'
    exact hnamed''.pathKept hnul habs (hkept path n (hopen.nodeOf hnamed hnul hshort))

end

/-- A name of 32 characters. -/
def longPath : List UInt8 := 0x2f :: List.replicate 32 0x61

theorem vfsRun_pathKept_short :
    (∀ cs' s', CallRun (fun _ _ => Bytes.zero) ShortPaths
      (sysOpen (fun _ _ => Bytes.zero) (State.init blankFs blankFds) () (some [0x2f, 0x61]) oCreat).2
      cs' s' → PathKept (fun _ _ => Bytes.zero) s' [0x2f, 0x61] 1) ↔
    [0x2f, (0x61 : UInt8)].length ≤ maxName :=
  vfsRun_pathKept_iff blankFds [] _ (CallRun.nil _) () [0x2f, 0x61] oCreat 1 (by decide)
    ⟨by decide, by decide⟩

set_option maxRecDepth 4000 in
/-- The name of 32 characters is cut: a second open creates a second node, and the cut name opens
the first. -/
theorem vfsRun_path_cut : ∃ s, CallRun (fun _ _ => Bytes.zero) (fun _ _ => True)
      (State.init blankFs blankFds) [.open () (some longPath) oCreat] s ∧
    OpensOn (fun _ _ => Bytes.zero) (State.init blankFs blankFds) () longPath oCreat 1 ∧
    OpensOn (fun _ _ => Bytes.zero) s () longPath oCreat 2 ∧
    OpensOn (fun _ _ => Bytes.zero) s () (longPath.take 32) 0 1 ∧
    ¬PathKept (fun _ _ => Bytes.zero) s longPath 1 := by
  refine ⟨_, CallRun.cons trivial rfl (CallRun.nil _), ⟨by decide, by decide⟩,
    ⟨by decide, by decide⟩, ⟨by decide, by decide⟩, fun hkept => ?_⟩
  refine hkept.alone () (longPath.take 32) 0 (by decide) (by decide) ⟨by decide, by decide⟩

end Mcsos.Vfs
