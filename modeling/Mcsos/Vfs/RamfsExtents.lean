import Mcsos.Vfs.RamfsRuns

set_option autoImplicit false

/-! # The extents of the RAM file system

Every file gets the next 256 bytes, and there are 63 nodes for files. The array has room for 32
extents, which a creation does not check, and a seed stores as many bytes as it is given. So the
files have their own part of the array as long as there are at most 31 of them and every seed is of
at most 256 bytes. The 32nd file still fits; the array is then full, but the next creation succeeds.
-/

namespace Mcsos.Vfs

/-! ## Extents of the array -/

/-- Byte `k` of the array is in the extent of node `i`. -/
def InExtent (fs : Ramfs) (i k : Nat) : Prop :=
  (fs.nodes i).dataOffset.toNat ≤ k ∧
    k < (fs.nodes i).dataOffset.toNat + (fs.nodes i).dataCapacity.toNat

/-- There is a free part of the array for one more extent. -/
def HasRoom (fs : Ramfs) : Prop :=
  ∃ off, off + 256 ≤ ramfsDataBytes ∧
    ∀ i k, 0 < i → i < fs.nodeCount → off ≤ k → k < off + 256 → ¬InExtent fs i k

/-- The files have disjoint extents in the array, the seeded ones (`seeds`: nodes and lengths) end in
theirs, and a creation that has no room is refused. -/
structure ExtentsApart (fs : Ramfs) (seeds : List (Nat × UInt64)) : Prop where
  inside : ∀ i, 0 < i → i < fs.nodeCount →
    (fs.nodes i).dataOffset.toNat + (fs.nodes i).dataCapacity.toNat ≤ ramfsDataBytes
  apart : ∀ i j k, 0 < i → i < j → j < fs.nodeCount → InExtent fs i k → ¬InExtent fs j k
  seeded : ∀ x ∈ seeds, (fs.nodes x.1).size ≤ (fs.nodes x.1).dataCapacity
  full : ∀ path, ¬HasRoom fs → ramfsCreateFile fs path = .error enospc

theorem Extents.inExtent_iff {fs : Ramfs} (h : Extents fs) {i k : Nat} (hi : 0 < i)
    (hlt : i < fs.nodeCount) : InExtent fs i k ↔ 256 * (i - 1) ≤ k ∧ k < 256 * i := by
  obtain ⟨_, hoffset, hcapacity⟩ := h.file i hi hlt
  have hcap : (256 : UInt64).toNat = 256 := rfl
  rw [InExtent, hoffset, hcapacity, hcap]
  omega

theorem Extents.hasRoom_iff {fs : Ramfs} (h : Extents fs) : HasRoom fs ↔ fs.nodeCount ≤ 32 := by
  have hmax : ramfsDataBytes = 8192 := rfl
  have hpos := h.count_pos
  constructor
  · rintro ⟨off, hoff, hfree⟩
    by_contra hcount
    -- the extent that byte `off` is in
    refine hfree (off / 256 + 1) off (Nat.succ_pos _) (by omega) (Nat.le_refl _) (by omega) ?_
    rw [h.inExtent_iff (Nat.succ_pos _) (by omega)]
    omega
  · intro hcount
    refine ⟨256 * (fs.nodeCount - 1), by omega, fun i k hi hlt hlo _ hin => ?_⟩
    rw [h.inExtent_iff hi hlt] at hin
    omega

/-- What is known of the seeded nodes while nothing is written. -/
def Seeded (fs : Ramfs) (seeds : List (Nat × UInt64)) : Prop :=
  ∀ x ∈ seeds, 0 < x.1 ∧ x.1 < fs.nodeCount ∧ (fs.nodes x.1).size = x.2

theorem Seeded.create {fs fs' : Ramfs} {seeds : List (Nat × UInt64)} {node : Nat}
    (h : Seeded fs seeds) (hc : CreatedFile fs fs' node) : Seeded fs' seeds := by
  intro x hx
  obtain ⟨hpos, hlt, hsize⟩ := h x hx
  have hindex := hc.index
  rw [hc.count, hc.others x.1 (by omega)]
  exact ⟨hpos, by omega, hsize⟩

/-- A seeded node is the new one or an old one. -/
theorem Seeded.seed {fs fs' : Ramfs} {seeds : List (Nat × UInt64)} {node : Nat} (h : Seeded fs seeds)
    (hpos : 0 < fs.nodeCount) (hc : CreatedFile fs fs' node) (stored : Bytes) (len : UInt64) :
    Seeded (fs'.setContent node stored len) ((fs.nodeCount, len) :: seeds) := by
  have hcount := hc.count
  have hindex := hc.index
  rw [Seeded, List.forall_mem_cons]
  refine ⟨⟨hpos, by rw [setContent_nodeCount]; omega, ?_⟩, fun x hx => ?_⟩
  · simp only [← hindex, setContent_node_self]
  · obtain ⟨hxpos, hlt, hsize⟩ := h.create hc x hx
    have hold := (h x hx).2.1
    rw [setContent_node_ne _ _ _ _ (by omega)]
    exact ⟨hxpos, hlt, hsize⟩

theorem Extents.apart_iff {fs : Ramfs} {seeds : List (Nat × UInt64)} (h : Extents fs)
    (hseeded : Seeded fs seeds) :
    ExtentsApart fs seeds ↔ fs.nodeCount ≤ 32 ∧ ∀ x ∈ seeds, x.2 ≤ 256 := by
  have hmax : ramfsDataBytes = 8192 := rfl
  have hnodes : maxNodes = 64 := rfl
  have hcap : (256 : UInt64).toNat = 256 := rfl
  constructor
  · intro hapart
    constructor
    · rw [← h.hasRoom_iff]
      by_contra hnoroom
      have hcount := mt h.hasRoom_iff.mpr hnoroom
      -- the creation is refused for want of a node, and the extent of node 33 is outside
      rcases ramfsCreateFile_cases fs [] with ⟨hfull, _⟩ | ⟨fs', node, hok, _⟩
      · obtain ⟨_, hoffset, hcapacity⟩ := h.file 33 (by omega) (by omega)
        have hin := hapart.inside 33 (by omega) (by omega)
        rw [hoffset, hcapacity] at hin
        omega
      · have hrefused := hapart.full [] hnoroom
        rw [hok] at hrefused
        cases hrefused
    · intro x hx
      obtain ⟨hpos, hlt, hsize⟩ := hseeded x hx
      have hle := hapart.seeded x hx
      rwa [hsize, (h.file x.1 hpos hlt).dataCapacity] at hle
  · rintro ⟨hcount, hlens⟩
    constructor
    · intro i hi hlt
      obtain ⟨_, hoffset, hcapacity⟩ := h.file i hi hlt
      rw [hoffset, hcapacity]
      omega
    · intro i j k hi hij hj hin
      rw [h.inExtent_iff hi (by omega)] at hin
      rw [h.inExtent_iff (by omega) hj]
      omega
    · intro x hx
      obtain ⟨hpos, hlt, hsize⟩ := hseeded x hx
      rw [hsize, (h.file x.1 hpos hlt).dataCapacity]
      exact hlens x hx
    · intro path hnoroom
      exact absurd (h.hasRoom_iff.mpr hcount) hnoroom

/-! ## Runs of creations -/

section

variable {P : Type} [DecidableEq P] {past : Ramfs → Nat → Bytes}

/-- The states behind successful creations, and the nodes and lengths of the seeds among them. -/
inductive CreateRun (past : Ramfs → Nat → Bytes) (start : State P) :
    State P → List (Nat × UInt64) → Prop where
  | start : CreateRun past start start []
  | create {s : State P} {seeds : List (Nat × UInt64)} (hrun : CreateRun past start s seeds)
      {path : List UInt8} {fs : Ramfs} {node : Nat}
      (hx : ramfsCreateFile s.fs path = .ok (fs, node)) :
      CreateRun past start { s with fs := fs } seeds
  | seed {s : State P} {seeds : List (Nat × UInt64)} (hrun : CreateRun past start s seeds)
      {path : List UInt8} {data : Bytes} {len : UInt64} {fs : Ramfs}
      (hx : ramfsSeedFile s.fs path data len = some (mcsOk, fs)) :
      CreateRun past start { s with fs := fs } ((s.fs.nodeCount, len) :: seeds)
  | open {s : State P} {seeds : List (Nat × UInt64)} (hrun : CreateRun past start s seeds)
      {p : P} {path : Option (List UInt8)} {flags : UInt32} (hflags : flags &&& oCreat ≠ 0)
      (hx : 0 ≤ (sysOpen past s p path flags).1) :
      CreateRun past start (sysOpen past s p path flags).2 seeds

theorem CreateRun.extents {start s : State P} {seeds : List (Nat × UInt64)}
    (hrun : CreateRun past start s seeds) (h : Extents start.fs) :
    Extents s.fs ∧ Seeded s.fs seeds := by
  induction hrun with
  | start => exact ⟨h, fun x hx => absurd hx List.not_mem_nil⟩
  | create _ hx ih =>
      have hcreated := ramfsCreateFile_ok hx
      exact ⟨ih.1.create hcreated, ih.2.create hcreated⟩
  | @seed s seeds _ _ data len fs hx ih =>
      rcases ramfsSeedFile_cases hx with ⟨_, hr⟩ | ⟨fs', node, stored, hcreated, _, hr⟩
      · exact absurd (Prod.mk.inj hr).1 (by decide)
      · obtain rfl := (Prod.mk.inj hr).2
        exact ⟨(ih.1.create hcreated).setContent node stored len,
          ih.2.seed ih.1.count_pos hcreated stored len⟩
  | @«open» s seeds _ p path flags _ hx ih =>
      rcases sysOpen_cases past s p path flags with
        ⟨rc, hrc, hs⟩ | ⟨chars, fs, fd, node, -, -, -, hnode, hs⟩
      · rw [hs] at hx
        exact absurd hx (Int.not_le.mpr hrc)
      · rw [hs]
        rcases lookupOrCreate_cases hnode with ⟨rfl, _⟩ | hcreated
        · exact ih
        · exact ⟨ih.1.create hcreated, ih.2.create hcreated⟩

/-- **Extents.** After successful creations the files are apart in the array if and only if there are
at most 31 of them, and every seed was of at most 256 bytes. -/
theorem createRun_extentsApart_iff (fs : Ramfs) (fds : P → FdTable) (s : State P)
    (seeds : List (Nat × UInt64)) (hrun : CreateRun past (State.init fs fds) s seeds) :
    ExtentsApart s.fs seeds ↔ s.fs.nodeCount ≤ 32 ∧ ∀ x ∈ seeds, x.2 ≤ 256 := by
  obtain ⟨h, hseeded⟩ := hrun.extents (extents_init fs)
  exact h.apart_iff hseeded

/-- Two files of three and five bytes. -/
theorem createRun_extentsApart_two : ∃ s,
    CreateRun (fun _ _ => Bytes.zero) (State.init blankFs blankFds) s [(2, 5), (1, 3)] ∧
      s.fs.nodeCount = 3 ∧ ExtentsApart s.fs [(2, 5), (1, 3)] := by
  obtain ⟨fs, fs', hfirst, hsecond, hcount, hcount'⟩ : ∃ fs fs',
      ramfsSeedFile (State.init blankFs blankFds).fs [0x2f, 0x61] (fun _ => 0x42) 3 =
        some (mcsOk, fs) ∧
      ramfsSeedFile fs [0x2f, 0x62] (fun _ => 0x43) 5 = some (mcsOk, fs') ∧
      fs.nodeCount = 2 ∧ fs'.nodeCount = 3 := ⟨_, _, rfl, rfl, rfl, rfl⟩
  have hstart : CreateRun (fun _ _ => Bytes.zero) (State.init blankFs blankFds)
    (State.init blankFs blankFds) [] := .start
  have hrun := (hstart.seed hfirst).seed hsecond
  rw [hcount] at hrun
  refine ⟨_, hrun, hcount', (createRun_extentsApart_iff blankFs blankFds _ _ hrun).mpr
    ⟨le_of_eq_of_le hcount' (by decide), fun x hx => ?_⟩⟩
  simp only [List.mem_cons, List.not_mem_nil, or_false] at hx
  rcases hx with rfl | rfl
  · decide
  · decide

/-- Creations succeed as long as there is a node left. -/
theorem createRun_files (start : State P) (h : start.fs.nodeCount = 1) (path : List UInt8) (n : Nat)
    (hn : n < maxNodes) : ∃ s, CreateRun past start s [] ∧ s.fs.nodeCount = n + 1 := by
  induction n with
  | zero => exact ⟨start, CreateRun.start, h⟩
  | succ n ih =>
      obtain ⟨s, hrun, hcount⟩ := ih (by omega)
      rcases ramfsCreateFile_cases s.fs path with ⟨hfull, _⟩ | ⟨fs, node, hok, hcreated⟩
      · omega
      · exact ⟨_, hrun.create hok, by rw [hcreated.count, hcount]⟩

/-- After 32 files the array is full, but a creation is not refused. -/
theorem createRun_files_full : ∃ s,
    CreateRun (fun _ _ => Bytes.zero) (State.init blankFs blankFds) s [] ∧
      s.fs.nodeCount = 33 ∧ ¬ExtentsApart s.fs [] := by
  obtain ⟨s, hrun, hcount⟩ :=
    createRun_files (State.init blankFs blankFds) rfl [0x2f, 0x61] 32 (by decide)
  obtain ⟨h, hseeded⟩ := hrun.extents (extents_init blankFs)
  refine ⟨s, hrun, hcount, fun hapart => ?_⟩
  have hle := ((h.apart_iff hseeded).mp hapart).1
  omega

/-- A seed succeeds if it ends in the array. -/
theorem ramfsSeedFile_succeeds {fs : Ramfs} {len : UInt64} (path : List UInt8) (data : Bytes)
    (hroom : fs.nodeCount < maxNodes) (hend : fs.dataUsed.toNat + len.toNat ≤ ramfsDataBytes) :
    ∃ fs', ramfsSeedFile fs path data len = some (mcsOk, fs') := by
  rcases ramfsCreateFile_cases fs path with ⟨hfull, _⟩ | ⟨fs', node, hok, hcreated⟩
  · omega
  · rw [← hcreated.dataOffset] at hend
    rw [ramfsSeedFile, hok]
    simp only [storeData_eq data fs'.data 0 len.toNat hend, Option.map_some]
    exact ⟨_, rfl⟩

/-- A seed of 257 bytes runs into the next extent. -/
theorem createRun_seed_long : ∃ s,
    CreateRun (fun _ _ => Bytes.zero) (State.init blankFs blankFds) s [(1, 257)] ∧
      ¬ExtentsApart s.fs [(1, 257)] := by
  obtain ⟨fs, hseed⟩ : ∃ fs, ramfsSeedFile (State.init blankFs blankFds).fs [0x2f, 0x61]
      Bytes.zero 257 = some (mcsOk, fs) :=
    ramfsSeedFile_succeeds _ _ (by decide) (by decide)
  have hrun : CreateRun (fun _ _ => Bytes.zero) (State.init blankFs blankFds)
      { State.init blankFs blankFds with fs := fs } [(1, 257)] := CreateRun.start.seed hseed
  obtain ⟨h, hseeded⟩ := hrun.extents (extents_init blankFs)
  refine ⟨_, hrun, fun hapart => ?_⟩
  have hle := ((h.apart_iff hseeded).mp hapart).2 (1, 257) (List.mem_singleton_self _)
  exact absurd hle (by decide)

end

end Mcsos.Vfs
