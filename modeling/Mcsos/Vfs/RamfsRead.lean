import Mcsos.Vfs.RamfsRuns

set_option autoImplicit false

/-! # Reads of the RAM file system

A read copies what lies between the offset and the size. The difference is unsigned, and a seek
checks nothing: behind the end of the file it wraps, and the read goes on. The files themselves
stay in the array as long as no write leaves their end outside.
-/

namespace Mcsos.Vfs

/-! ## Files in the array -/

/-- The first `size` bytes of every file lie in the array. -/
def FilesInside (fs : Ramfs) : Prop :=
  ∀ i, i < fs.nodeCount → (fs.nodes i).size = 0 ∨
    (fs.nodes i).dataOffset.toNat + (fs.nodes i).size.toNat ≤ ramfsDataBytes

theorem filesInside_init (fs : Ramfs) : FilesInside (ramfsInit fs) := by
  intro i hi
  obtain rfl : i = 0 := Nat.lt_one_iff.mp hi
  exact Or.inl (by simp [ramfsInit])

theorem FilesInside.create {fs fs' : Ramfs} {node : Nat} (h : FilesInside fs)
    (hc : CreatedFile fs fs' node) : FilesInside fs' := by
  intro i hi
  by_cases hnew : i = node
  · rw [hnew]
    exact Or.inl hc.size
  · rw [hc.others i hnew]
    have hindex := hc.index
    have hcount := hc.count
    exact h i (by omega)

theorem FilesInside.setContent {fs : Ramfs} (h : FilesInside fs) {node : Nat} (data : Bytes)
    {size : UInt64} (hsize : size = 0 ∨ size = (fs.nodes node).size ∨
      (fs.nodes node).dataOffset.toNat + size.toNat ≤ ramfsDataBytes) :
    FilesInside (fs.setContent node data size) := by
  intro i hi
  by_cases hnode : i = node
  · rw [hnode, setContent_node_self]
    rcases hsize with h0 | hsame | hend
    · exact Or.inl h0
    · simp only [hsame]
      exact h node (hnode ▸ hi)
    · exact Or.inr hend
  · rw [setContent_node_ne _ _ _ _ hnode]
    exact h i hi

/-- A store that has a result ends in the array. -/
theorem storeData_end {dst : UInt64} {src data stored : Bytes} {i n : Nat}
    (hi : dst.toNat + i < 2 ^ 64) (h : storeData dst src data i n = some stored) :
    n = 0 ∨ dst.toNat + i + n ≤ ramfsDataBytes := by
  induction n generalizing i data with
  | zero => exact Or.inl rfl
  | succ n ih =>
      have hat : (dst + UInt64.ofNat i).toNat = dst.toNat + i := by
        rw [UInt64.toNat_add, UInt64.toNat_ofNat']
        omega
      have hmax : ramfsDataBytes = 8192 := rfl
      rw [storeData, hat] at h
      split at h
      · rename_i hlt
        rcases ih (by omega) h with h0 | hend
        · exact Or.inr (by omega)
        · exact Or.inr (by omega)
      · cases h

/-- A store has a result if and only if each of its bytes lies in the array. -/
theorem storeData_isSome_iff {dst : UInt64} {src data : Bytes} {i n : Nat} :
    (storeData dst src data i n).isSome = true ↔
      ∀ k, i ≤ k → k < i + n → (dst + UInt64.ofNat k).toNat < ramfsDataBytes := by
  induction n generalizing i data with
  | zero => exact iff_of_true rfl fun k hk hlt => by omega
  | succ n ih =>
      rw [storeData]
      by_cases hlt : (dst + UInt64.ofNat i).toNat < ramfsDataBytes
      · rw [if_pos hlt, ih]
        constructor
        · -- the byte that has just been stored, and those to come
          intro h k hk hk'
          by_cases heq : k = i
          · rw [heq]
            exact hlt
          · exact h k (by omega) (by omega)
        · exact fun h k hk hk' => h k (by omega) (by omega)
      · rw [if_neg hlt]
        exact iff_of_false Bool.false_ne_true fun h => hlt (h i (le_refl i) (by omega))

section

variable {P : Type} [DecidableEq P] {past : Ramfs → Nat → Bytes}

/-- What a seed or a write stores lies in the array. -/
def StoresInside (s : State P) : Call P → Prop
  | .seed _ _ len => s.fs.nodeCount < maxNodes →
      ∀ i, i < len.toNat → (s.fs.dataUsed + UInt64.ofNat i).toNat < ramfsDataBytes
  | .write p fd _ len => ∀ f, fdGet (s.fds p) fd = some f →
      ∀ i, i < len.toNat → transferIndex s.fs f i < ramfsDataBytes
  | _ => True

/-- The calls that store in the array are those that have a result. -/
theorem exec_isSome_iff {s : State P} {c : Call P} :
    (c.exec past s).isSome = true ↔ StoresInside s c := by
  cases c with
  | seed path data len =>
      rw [Call.exec, Option.isSome_map, StoresInside, ramfsSeedFile]
      rcases ramfsCreateFile_cases s.fs path with ⟨hfull, herr⟩ | ⟨fs, node, hok, hcreated⟩
      · rw [herr]
        exact iff_of_true rfl fun hroom => absurd hroom (not_lt.mpr hfull)
      · rw [hok]
        simp only [Option.isSome_map]
        rw [storeData_isSome_iff, hcreated.dataOffset, forall_prop_of_true hcreated.room]
        simp only [Nat.zero_le, forall_const, Nat.zero_add]
  | write p fd buf len =>
      rw [Call.exec, Option.isSome_map, StoresInside, sysWrite]
      cases hf : fdGet (s.fds p) fd with
      | none => exact iff_of_true rfl fun f hf => by cases hf
      | some f =>
          simp only [Option.isSome_map, Option.some_inj, forall_eq']
          rw [storeData_isSome_iff]
          simp only [Nat.zero_le, forall_const, Nat.zero_add, transferIndex]
  | «open» _ _ _ | read _ _ _ | lseek _ _ _ _ | close _ _ => exact iff_of_true rfl trivial

/-- A write leaves the end of its file where it was, or in the array. -/
def WriteStays (s : State P) : Call P → Prop
  | .write p fd _ len => ∀ f, fdGet (s.fds p) fd = some f →
      f.offset + len ≤ (s.fs.nodes f.node).size ∨
        (s.fs.nodes f.node).dataOffset.toNat + (f.offset + len).toNat ≤ ramfsDataBytes
  | _ => True

theorem FilesInside.exec {s s' : State P} {c : Call P} (hin : FilesInside s.fs)
    (hstays : WriteStays s c) (hx : c.exec past s = some s') : FilesInside s'.fs := by
  cases exec_cases hx with
  | refused => exact hin
  | @seed _ data len fs node stored hcreated hstored =>
      refine (hin.create hcreated).setContent stored ?_
      rcases storeData_end (UInt64.toNat_lt _) hstored with h0 | hend
      · exact Or.inl (UInt64.toNat_inj.mp h0)
      · exact Or.inr (Or.inr (by omega))
  | «open» _ _ hnode =>
      rcases lookupOrCreate_cases hnode with ⟨rfl, _⟩ | hcreated
      · exact hin
      · exact hin.create hcreated
  | @write p fd _ len f data hf =>
      refine hin.setContent data (Or.inr ?_)
      rw [sizeAfter]
      split
      · rename_i hgrows
        exact Or.inr ((hstays f hf).resolve_left (UInt64.not_le.mpr hgrows))
      · exact Or.inl rfl
  | read | lseek | close => exact hin

/-! ## Reads -/

/-- A read returns as many bytes as it copies, at most those between the offset and the end of the
file, and each of them is the byte of the file at its place, in the array. -/
structure ReadInside (s : State P) (p : P) (fd : Int) (len : UInt64) : Prop where
  bad : fdGet (s.fds p) fd = none → sysRead s p fd len = (ebadf.toInt64, [], s)
  returned : ∀ f, fdGet (s.fds p) fd = some f →
    (sysRead s p fd len).1.toInt = (sysRead s p fd len).2.1.length
  count : ∀ f, fdGet (s.fds p) fd = some f →
    (sysRead s p fd len).2.1.length ≤ (s.fs.nodes f.node).size.toNat - f.offset.toNat
  byte : ∀ f, fdGet (s.fds p) fd = some f → ∀ i, i < (sysRead s p fd len).2.1.length →
    (s.fs.nodes f.node).dataOffset.toNat + f.offset.toNat + i < ramfsDataBytes ∧
      (sysRead s p fd len).2.1[i]? =
        some (s.fs.data ((s.fs.nodes f.node).dataOffset.toNat + f.offset.toNat + i))

theorem readCount_le {fs : Ramfs} {f : File} {len : UInt64}
    (h : len = 0 ∨ f.offset ≤ (fs.nodes f.node).size) :
    (readCount fs f len).toNat ≤ (fs.nodes f.node).size.toNat - f.offset.toNat := by
  rw [readCount]
  rcases h with rfl | hle
  · split
    · exact Nat.zero_le _
    · rename_i hnot
      -- there is nothing to read either way
      have hzero := UInt64.le_zero_iff.mp (UInt64.not_lt.mp hnot)
      rw [hzero]
      exact Nat.zero_le _
  · have havail := UInt64.toNat_sub_of_le _ _ hle
    split
    · rename_i hlt
      have hlt := UInt64.lt_iff_toNat_lt.mp hlt
      omega
    · omega

/-- Behind the end of the file the difference wraps. -/
theorem readCount_pos {fs : Ramfs} {f : File} {len : UInt64} (hlen : len ≠ 0)
    (h : (fs.nodes f.node).size < f.offset) : 0 < (readCount fs f len).toNat := by
  have hlen : len.toNat ≠ 0 := fun h0 => hlen (UInt64.toNat_inj.mp h0)
  have hoffset := UInt64.lt_iff_toNat_lt.mp h
  have hmax := UInt64.toNat_lt f.offset
  have havail : ((fs.nodes f.node).size - f.offset).toNat =
      2 ^ 64 - f.offset.toNat + (fs.nodes f.node).size.toNat := by
    rw [UInt64.toNat_sub]
    omega
  rw [readCount]
  split
  · omega
  · omega

theorem toInt_toInt64 {n : UInt64} (h : n.toNat < 2 ^ 63) : n.toInt64.toInt = n.toNat := by
  have hbits : 2 * n.toBitVec.toNat < 2 ^ 64 := by
    rw [UInt64.toNat_toBitVec]
    omega
  exact BitVec.toInt_eq_toNat_of_lt hbits

/-- A read stays in a file of the array if and only if its offset is in the file. -/
theorem readInside_iff {s : State P} (h : Wf s) (hin : FilesInside s.fs) {p : P} {fd : Int}
    {len : UInt64} : ReadInside s p fd len ↔
      ∀ f, fdGet (s.fds p) fd = some f → len = 0 ∨ f.offset ≤ (s.fs.nodes f.node).size := by
  constructor
  · intro hread f hf
    -- otherwise the difference wraps, and a byte is read from a file that has none left
    by_contra hout
    rw [not_or] at hout
    have hpos := readCount_pos hout.1 (UInt64.not_le.mp hout.2)
    have hend := UInt64.lt_iff_toNat_lt.mp (UInt64.not_le.mp hout.2)
    have hcount := hread.count f hf
    rw [sysRead_some len hf, List.length_map, List.length_range] at hcount
    omega
  · intro hoffset
    have hmax : ramfsDataBytes = 8192 := rfl
    have hcount : ∀ f, fdGet (s.fds p) fd = some f → (readCount s.fs f len).toNat ≤
        (s.fs.nodes f.node).size.toNat - f.offset.toNat := fun f hf => readCount_le (hoffset f hf)
    -- a file with a byte to read lies in the array
    have hend : ∀ f, fdGet (s.fds p) fd = some f → 0 < (readCount s.fs f len).toNat →
        (s.fs.nodes f.node).dataOffset.toNat + (s.fs.nodes f.node).size.toNat ≤ ramfsDataBytes := by
      intro f hf hpos
      apply (hin f.node (h.onNodes p fd f hf)).resolve_left
      intro h0
      have hle := hcount f hf
      rw [h0, UInt64.toNat_zero] at hle
      omega
    constructor
    · intro hnone
      exact (sys_badf hnone).1 len
    · intro f hf
      rw [sysRead_some len hf, List.length_map, List.length_range]
      refine toInt_toInt64 ?_
      have hle := hcount f hf
      rcases Nat.eq_zero_or_pos (readCount s.fs f len).toNat with h0 | hpos
      · omega
      · have := hend f hf hpos
        omega
    · intro f hf
      rw [sysRead_some len hf, List.length_map, List.length_range]
      exact hcount f hf
    · intro f hf i hi
      rw [sysRead_some len hf, List.length_map, List.length_range] at hi
      have hle := hcount f hf
      have hin := hend f hf (by omega)
      have hindex : transferIndex s.fs f i =
          (s.fs.nodes f.node).dataOffset.toNat + f.offset.toNat + i := by
        rw [transferIndex, UInt64.toNat_add, UInt64.toNat_add, UInt64.toNat_ofNat']
        omega
      refine ⟨by omega, ?_⟩
      rw [sysRead_some len hf, List.getElem?_map, List.getElem?_range hi, Option.map_some, hindex]

/-! ## Runs -/

/-- The call stores in the array, and leaves the end of its file there. -/
def StaysInArray (s : State P) (c : Call P) : Prop := StoresInside s c ∧ WriteStays s c

theorem CallRun.filesInside {s s' : State P} {cs : List (Call P)}
    (hrun : CallRun past StaysInArray s cs s') (h : Wf s) (hin : FilesInside s.fs) :
    Wf s' ∧ FilesInside s'.fs := by
  induction hrun with
  | nil s => exact ⟨h, hin⟩
  | cons hstays hx _ ih => exact ih (h.exec hx) (hin.exec hstays.2 hx)

/-- **Reads.** In a run whose seeds and writes store in the array and leave every file there, a read
stays in its file if and only if its offset is in the file or it asks for nothing. -/
theorem vfsRun_readInside (fs : Ramfs) (fds : P → FdTable) (cs : List (Call P)) (s : State P)
    (hrun : CallRun past StaysInArray (State.init fs fds) cs s) (p : P) (fd : Int)
    (len : UInt64) :
    ReadInside s p fd len ↔
      ∀ f, fdGet (s.fds p) fd = some f → len = 0 ∨ f.offset ≤ (s.fs.nodes f.node).size := by
  obtain ⟨h, hin⟩ := hrun.filesInside (wf_init fs fds) (filesInside_init fs)
  exact readInside_iff h hin

theorem vfsRun_readInside_five : ∃ s, CallRun (fun _ _ => Bytes.zero) StaysInArray
      (State.init blankFs blankFds) [openCall 0x61, .write () 0 (fun _ => 0x42) 5] s ∧
    (ReadInside s () 0 9 ↔ ∀ f, fdGet (s.fds ()) 0 = some f →
      (9 : UInt64) = 0 ∨ f.offset ≤ (s.fs.nodes f.node).size) := by
  obtain ⟨s, hrun⟩ : ∃ s, CallRun (fun _ _ => Bytes.zero) StaysInArray
      (State.init blankFs blankFds) [openCall 0x61, .write () 0 (fun _ => 0x42) 5] s := by
    refine ⟨_, CallRun.cons ⟨trivial, trivial⟩ rfl (CallRun.cons ⟨fun f hf => ?_, fun f hf => ?_⟩ rfl
      (CallRun.nil _))⟩
    · obtain rfl : (⟨true, oCreat, 0, 1⟩ : File) = f := Option.some_inj.mp hf
      decide
    · obtain rfl : (⟨true, oCreat, 0, 1⟩ : File) = f := Option.some_inj.mp hf
      exact Or.inr (by decide)
  exact ⟨s, hrun, vfsRun_readInside blankFs blankFds _ s hrun () 0 9⟩

/-- A read behind the end of an empty file returns a byte. -/
theorem vfsRun_reads_behind_end : ∃ s, CallRun (fun _ _ => Bytes.zero) (fun _ _ => True)
      (State.init blankFs blankFds) [openCall 0x61, .lseek () 0 1 seekSet] s ∧
    ¬ReadInside s () 0 1 := by
  refine ⟨_, CallRun.cons trivial rfl (CallRun.cons trivial rfl (CallRun.nil _)), fun hread => ?_⟩
  exact absurd (hread.count ⟨true, oCreat, 1, 1⟩ rfl) (by decide)

/-- The condition on writes is exact: after a write that leaves the end of its file outside, a seek
to the start and a read leave the array. -/
theorem read_outside_of_write {s : State P} {p : P} {fd : Int} {buf : Bytes} {len : UInt64}
    {r : Int64 × State P} (hwrite : sysWrite s p fd buf len = some r)
    (hout : ¬WriteStays s (.write p fd buf len)) :
    ∃ len', ¬ReadInside (sysLseek r.2 p fd 0 seekSet).2 p fd len' := by
  rw [WriteStays] at hout
  push Not at hout
  obtain ⟨f, hf, hgrows, hend⟩ := hout
  have hused : f.used = true := by
    obtain ⟨_, _, hused, hfile⟩ := fdGet_some_iff.mp hf
    rwa [hfile] at hused
  rcases sysWrite_cases hwrite with ⟨hnone, _⟩ | ⟨f', data, hf', _, hs⟩
  · rw [hnone] at hf
    cases hf
  obtain rfl : f = f' := Option.some_inj.mp (hf.symm.trans hf')
  -- the file behind the write, and behind the seek
  have hwritten : fdGet (r.2.fds p) fd = some { f with offset := f.offset + len } := by
    rw [hs]
    exact fdGet_setFile hf _ _ hused
  have hsought : ({ f with offset := f.offset + len } : File).sought 0 seekSet =
      { f with offset := Int64.toUInt64 0 } := rfl
  rw [sysLseek_some 0 seekSet hwritten, hsought]
  have hseek := fdGet_setFile hwritten r.2.fs { f with offset := Int64.toUInt64 0 } hused
  have hnode : r.2.fs.nodes f.node = { s.fs.nodes f.node with size := f.offset + len } := by
    have hsize : sizeAfter s.fs f len = f.offset + len := if_pos (UInt64.not_le.mp hgrows)
    rw [hs, ← hsize]
    exact setContent_node_self _ _ _ _
  have hzero : Int64.toUInt64 0 = 0 := rfl
  have hcount : readCount r.2.fs { f with offset := Int64.toUInt64 0 } (f.offset + len) =
      f.offset + len := by
    simp [readCount, hnode, hzero]
  refine ⟨f.offset + len, fun hread => ?_⟩
  -- the last byte that is read
  have hpos : 0 < (f.offset + len).toNat := by
    have hgrows := UInt64.lt_iff_toNat_lt.mp (UInt64.not_le.mp hgrows)
    omega
  have hlast : (r.2.fs.nodes f.node).dataOffset.toNat + (Int64.toUInt64 0).toNat +
      ((f.offset + len).toNat - 1) < ramfsDataBytes := by
    refine (hread.byte _ hseek ((f.offset + len).toNat - 1) ?_).1
    rw [sysRead_some _ hseek, List.length_map, List.length_range]
    show _ < (readCount r.2.fs { f with offset := Int64.toUInt64 0 } (f.offset + len)).toNat
    rw [hcount]
    omega
  rw [hnode, hzero, UInt64.toNat_zero] at hlast
  simp only at hlast
  omega

/-! ## Seeks inside the file -/

/-- A seek that stays in its file, or a write that does not leave it outside. -/
def SeekStays (s : State P) : Call P → Prop
  | .lseek p fd offset whence => ∀ f, fdGet (s.fds p) fd = some f → whence = seekSet →
      offset.toUInt64 ≤ (s.fs.nodes f.node).size
  | c => WriteStays s c

/-- No offset is behind the end of its file. -/
def OffsetsInside (s : State P) : Prop :=
  ∀ p fd f, fdGet (s.fds p) fd = some f → f.offset ≤ (s.fs.nodes f.node).size

theorem OffsetsInside.update {s : State P} (h : OffsetsInside s) (hwf : Wf s) {fs : Ramfs} {p : P}
    {fd : Nat} {f : File}
    (hsize : ∀ i, i < s.fs.nodeCount → (s.fs.nodes i).size ≤ (fs.nodes i).size)
    (hf : f.used = true → f.offset ≤ (fs.nodes f.node).size) :
    OffsetsInside ({ s with fs := fs }.setTable p (Function.update (s.fds p) fd f)) := by
  have hboth : ∀ q fd' g, fdGet (s.fds q) fd' = some g →
      g.offset ≤ (s.fs.nodes g.node).size ∧ g.node < s.fs.nodeCount := by
    intro q fd' g hg
    exact ⟨h q fd' g hg, hwf.onNodes q fd' g hg⟩
  have hkept : ∀ g : File, g.offset ≤ (s.fs.nodes g.node).size ∧ g.node < s.fs.nodeCount →
      g.offset ≤ (fs.nodes g.node).size := by
    rintro g ⟨hoffset, hnode⟩
    calc
      g.offset ≤ (s.fs.nodes g.node).size := hoffset
      _ ≤ (fs.nodes g.node).size := hsize g.node hnode
  intro q fd' g hg
  exact openFiles_update hboth hkept hf hg

omit [DecidableEq P] in
theorem offsetsInside_init (fs : Ramfs) (fds : P → FdTable) : OffsetsInside (State.init fs fds) := by
  intro p fd f hf
  rw [fdGet_init] at hf
  cases hf

/-- A write leaves the size no smaller, and the offset in the file. -/
theorem le_sizeAfter (fs : Ramfs) (f : File) (len : UInt64) :
    (fs.nodes f.node).size ≤ sizeAfter fs f len ∧ f.offset + len ≤ sizeAfter fs f len := by
  rw [sizeAfter]
  split
  · rename_i hgrows
    exact ⟨UInt64.le_of_lt hgrows, UInt64.le_refl _⟩
  · rename_i hnot
    exact ⟨UInt64.le_refl _, UInt64.not_lt.mp hnot⟩

theorem CreatedFile.sizes {fs fs' : Ramfs} {node : Nat} (hc : CreatedFile fs fs' node) {i : Nat}
    (hi : i < fs.nodeCount) : (fs'.nodes i).size = (fs.nodes i).size := by
  have hindex := hc.index
  rw [hc.others i (by omega)]

theorem OffsetsInside.exec {s s' : State P} {c : Call P} (hoff : OffsetsInside s) (h : Wf s)
    (hstays : SeekStays s c) (hx : c.exec past s = some s') : OffsetsInside s' := by
  cases exec_cases hx with
  | refused => exact hoff
  | @seed _ data len fs node stored hcreated _ =>
      intro p fd f hf
      have hnode := h.onNodes p fd f hf
      have hindex := hcreated.index
      have hkept := setContent_node_ne fs node stored len (show f.node ≠ node by omega)
      simp only [hkept, hcreated.sizes hnode]
      exact hoff p fd f hf
  | «open» _ _ hnode =>
      refine hoff.update h ?_ fun _ => UInt64.zero_le
      intro i hi
      rcases lookupOrCreate_cases hnode with ⟨rfl, _⟩ | hcreated
      · exact UInt64.le_refl _
      · rw [hcreated.sizes hi]
        exact UInt64.le_refl _
  | @write p fd _ len f data hf =>
      obtain ⟨hold, hnew⟩ := le_sizeAfter s.fs f len
      refine hoff.update h ?_ fun _ => ?_
      · intro i _
        by_cases hi : i = f.node
        · rw [hi, setContent_node_self]
          exact hold
        · rw [setContent_node_ne _ _ _ _ hi]
          exact UInt64.le_refl _
      · rw [setContent_node_self]
        exact hnew
  | @read p fd len f hf =>
      apply hoff.update h (fun i _ => UInt64.le_refl _)
      intro _
      -- what is read lies between the offset and the size
      have hin := UInt64.le_iff_toNat_le.mp (hoff p fd f hf)
      have hle : (readCount s.fs f len).toNat ≤ _ := readCount_le (Or.inr (hoff p fd f hf))
      have hmax := UInt64.toNat_lt (s.fs.nodes f.node).size
      show f.offset + readCount s.fs f len ≤ (s.fs.nodes f.node).size
      rw [UInt64.le_iff_toNat_le, UInt64.toNat_add]
      omega
  | @lseek p fd offset whence f hf =>
      apply hoff.update h (fun i _ => UInt64.le_refl _)
      intro _
      rw [sought_node, File.sought]
      split
      · rename_i hset
        exact hstays f hf hset
      · exact hoff p fd f hf
  | close =>
      apply hoff.update h (fun i _ => UInt64.le_refl _)
      intro hused
      cases hused

omit [DecidableEq P] in
theorem SeekStays.write {s : State P} {c : Call P} (h : SeekStays s c) : WriteStays s c := by
  cases c with
  | lseek p fd offset whence => trivial
  | seed _ _ _ | «open» _ _ _ | read _ _ _ | write _ _ _ _ | close _ _ => exact h

theorem CallRun.offsetsInside {s s' : State P} {cs : List (Call P)}
    (hrun : CallRun past (fun s c => StoresInside s c ∧ SeekStays s c) s cs s') (h : Wf s)
    (hin : FilesInside s.fs) (hoff : OffsetsInside s) :
    Wf s' ∧ FilesInside s'.fs ∧ OffsetsInside s' := by
  induction hrun with
  | nil s => exact ⟨h, hin, hoff⟩
  | cons hstays hx _ ih =>
      exact ih (h.exec hx) (hin.exec hstays.2.write hx) (hoff.exec h hstays.2 hx)

/-- In a run whose stores stay in the array and whose seeks and writes stay in the files, every read
does. -/
theorem vfsRun_reads_inside (fs : Ramfs) (fds : P → FdTable) (cs : List (Call P)) (s : State P)
    (hrun : CallRun past (fun s c => StoresInside s c ∧ SeekStays s c) (State.init fs fds) cs s)
    (p : P) (fd : Int) (len : UInt64) : ReadInside s p fd len := by
  obtain ⟨h, hin, hoff⟩ := hrun.offsetsInside (wf_init fs fds) (filesInside_init fs)
    (offsetsInside_init fs fds)
  exact (readInside_iff h hin).mpr fun f hf => Or.inr (hoff p fd f hf)

end

end Mcsos.Vfs
