import Mcsos.Vfs.RamfsRuns

set_option autoImplicit false

/-! # The discipline of the descriptor tables (`kernel/vfs/fd.c`)

An open takes the lowest unused descriptor, or it changes nothing. The other calls change the
descriptor they are given and no other one, although descriptors may share a node. So a process
keeps an open file until one of its own calls names it.
-/

namespace Mcsos.Vfs

section

variable {P : Type} [DecidableEq P]

/-! ## Frames -/

/-- Every descriptor but `fd` of `p` is as before. -/
def OthersKept (s s' : State P) (p : P) (fd : Int) : Prop :=
  ∀ q (i : Nat), (q = p → (i : Int) ≠ fd) → s'.fds q i = s.fds q i

omit [DecidableEq P] in
theorem othersKept_refl (s : State P) (p : P) (fd : Int) : OthersKept s s p fd := fun _ _ _ => rfl

theorem othersKept_setTable (s : State P) (fs : Ramfs) (p : P) (fd : Nat) (f : File) :
    OthersKept s ({ s with fs := fs }.setTable p (Function.update (s.fds p) fd f)) p fd := by
  intro q i hi
  simp only [State.setTable]
  by_cases hq : q = p
  · subst hq
    have hne : i ≠ fd := by simpa using hi rfl
    rw [Function.update_self, Function.update_of_ne hne]
  · rw [Function.update_of_ne hq]

theorem othersKept_setFile {s : State P} {p : P} {fd : Int} {f : File}
    (hf : fdGet (s.fds p) fd = some f) (fs : Ramfs) (g : File) :
    OthersKept s ({ s with fs := fs }.setFile p fd g) p fd := by
  have hfd : (fd.toNat : Int) = fd := Int.toNat_of_nonneg (fdGet_some_iff.mp hf).1
  have h := othersKept_setTable s fs p fd.toNat g
  rwa [hfd] at h

/-- A descriptor that is out of range or unused. -/
def BadFd (table : FdTable) (fd : Int) : Prop :=
  fd < 0 ∨ (maxOpenFiles : Int) ≤ fd ∨ (table fd.toNat).used = false

theorem fdGet_of_bad {table : FdTable} {fd : Int} (h : BadFd table fd) : fdGet table fd = none := by
  rw [fdGet, if_pos]
  rcases h with h | h | h
  · exact Or.inl h
  · exact Or.inr (Or.inl (by omega))
  · exact Or.inr (Or.inr (by simp [h]))

section

variable {past : Ramfs → Nat → Bytes}

/-- A call changes no descriptor but the one it is given. -/
theorem exec_othersKept {s s' : State P} {c : Call P} {p : P} {fd : Int} (hon : c.On p fd)
    (hx : c.exec past s = some s') : OthersKept s s' p fd := by
  cases exec_cases hx with
  | refused => exact othersKept_refl s p fd
  | seed => cases hon
  | «open» => cases hon
  | read hf | lseek hf | close hf =>
      obtain ⟨rfl, rfl⟩ := hon
      exact othersKept_setFile hf s.fs _
  | write hf =>
      obtain ⟨rfl, rfl⟩ := hon
      exact othersKept_setFile hf _ _

/-! ## Opens -/

variable (past) in
/-- The descriptor that an open returns is used, at the start of the node that was found or
created. -/
def OpensNode (s : State P) (p : P) (path : Option (List UInt8)) (flags : UInt32) : Prop :=
  ∃ chars node, path = some chars ∧
    lookupOrCreate past s.fs chars flags = some ((sysOpen past s p path flags).2.fs, node) ∧
    fdGet ((sysOpen past s p path flags).2.fds p) (sysOpen past s p path flags).1 =
      some ⟨true, flags, 0, node⟩

theorem sysOpen_opened {s : State P} {p : P} {path : Option (List UInt8)} {flags : UInt32}
    (h : 0 ≤ (sysOpen past s p path flags).1) :
    LowestUnused (s.fds p) (sysOpen past s p path flags).1.toNat ∧
      OthersKept s (sysOpen past s p path flags).2 p (sysOpen past s p path flags).1 ∧
      OpensNode past s p path flags := by
  rcases sysOpen_cases past s p path flags with
    ⟨rc, hrc, hs⟩ | ⟨chars, fs, fd, node, hpath, -, hlowest, hnode, hs⟩
  · rw [hs] at h
    exact absurd h (Int.not_le.mpr hrc)
  · rw [OpensNode, hs]
    refine ⟨hlowest, othersKept_setTable s fs p fd _, chars, node, hpath, hnode, ?_⟩
    simp only [State.setTable, Function.update_self]
    refine fdGet_some_iff.mpr ⟨Int.natCast_nonneg fd, hlowest.lt, ?_, Function.update_self _ _ _⟩
    rw [Int.toNat_natCast, Function.update_self]

theorem sysOpen_failed {s : State P} {p : P} {path : Option (List UInt8)} {flags : UInt32}
    (h : (sysOpen past s p path flags).1 < 0) : (sysOpen past s p path flags).2 = s := by
  rcases sysOpen_cases past s p path flags with
    ⟨rc, -, hs⟩ | ⟨chars, fs, fd, node, -, -, -, -, hs⟩
  · rw [hs]
  · rw [hs] at h
    exact absurd h (Int.not_lt.mpr (Int.natCast_nonneg fd))

theorem sysOpen_full {s : State P} {p : P} {path : List UInt8} {flags : UInt32}
    (habs : charAt path 0 = 0x2f) :
    (sysOpen past s p (some path) flags).1 = enfile ↔
      ∀ i, i < maxOpenFiles → (s.fds p i).used = true := by
  rw [← fdAlloc_none_iff, sysOpen, if_neg (not_not.mpr habs)]
  cases halloc : fdAlloc (s.fds p) with
  | none => simp
  | some alloc =>
      -- a descriptor was free: what is returned is that one, or the error of the lookup
      refine iff_of_false ?_ (by simp)
      cases hnode : lookupOrCreate past s.fs path flags with
      | none =>
          simp only
          decide
      | some created =>
          have henfile : enfile < 0 := by decide
          simp only
          omega

/-! ## The discipline -/

/-- An open file stays as it is in a call that is not given its descriptor. -/
theorem exec_kept {s s' : State P} {c : Call P} (hx : c.exec past s = some s') {p : P} {i : Nat}
    (hused : (s.fds p i).used = true) (hother : ¬c.On p i) : s'.fds p i = s.fds p i := by
  have hoff : ∀ (q : P) (fd : Int), c.On q fd → p = q → (i : Int) ≠ fd := by
    rintro q fd hon rfl rfl
    exact hother hon
  cases c with
  | seed path data len =>
      obtain ⟨r, _, rfl⟩ := Option.map_eq_some_iff.mp hx
      rfl
  | «open» q path flags =>
      cases exec_cases hx with
      | refused => rfl
      | @«open» _ _ _ fs fd node _ hlowest _ =>
          refine othersKept_setTable s fs q fd _ p i ?_
          rintro rfl hi
          -- the descriptor that is opened was unused
          obtain rfl := Int.natCast_inj.mp hi
          rw [hlowest.unused] at hused
          cases hused
  | read q fd | write q fd | lseek q fd | close q fd =>
      refine exec_othersKept ?_ hx p i (hoff q fd ⟨rfl, rfl⟩)
      exact ⟨rfl, rfl⟩

theorem CallRun.kept {allowed : State P → Call P → Prop} {s s' : State P} {cs : List (Call P)}
    (hrun : CallRun past allowed s cs s') {p : P} {i : Nat} (hused : (s.fds p i).used = true)
    (hother : ∀ c ∈ cs, ¬c.On p i) : s'.fds p i = s.fds p i := by
  induction hrun with
  | nil s => rfl
  | cons _ hx _ ih =>
      obtain ⟨hc, hcs⟩ := List.forall_mem_cons.mp hother
      have hstep := exec_kept hx hused hc
      rw [← hstep] at hused ⊢
      exact ih hused hcs

end

/-- What the calls do to the descriptors in a state, and in the runs from it. -/
structure FdDiscipline (past : Ramfs → Nat → Bytes) (s : State P) : Prop where
  opened : ∀ p path flags, 0 ≤ (sysOpen past s p path flags).1 →
    LowestUnused (s.fds p) (sysOpen past s p path flags).1.toNat ∧
      OthersKept s (sysOpen past s p path flags).2 p (sysOpen past s p path flags).1 ∧
      OpensNode past s p path flags
  full : ∀ p path flags, charAt path 0 = 0x2f →
    ((sysOpen past s p (some path) flags).1 = enfile ↔
      ∀ i, i < maxOpenFiles → (s.fds p i).used = true)
  failed : ∀ p path flags, (sysOpen past s p path flags).1 < 0 →
    (sysOpen past s p path flags).2 = s
  own : ∀ c p fd s', Call.On p fd c → c.exec past s = some s' → OthersKept s s' p fd
  bad : ∀ p fd, BadFd (s.fds p) fd →
    (∀ len, sysRead s p fd len = (ebadf.toInt64, [], s)) ∧
      (∀ buf len, sysWrite s p fd buf len = some (ebadf.toInt64, s)) ∧
      (∀ offset whence, sysLseek s p fd offset whence = (ebadf, s)) ∧
      sysClose s p fd = (ebadf, s)
  kept : ∀ allowed cs s', CallRun past allowed s cs s' → ∀ p i, (s.fds p i).used = true →
    (∀ c ∈ cs, ¬Call.On p i c) → s'.fds p i = s.fds p i

/-- **Descriptor discipline.** It holds in every state, so in every state of every run. -/
theorem fdDiscipline (past : Ramfs → Nat → Bytes) (s : State P) : FdDiscipline past s where
  opened _ _ _ h := sysOpen_opened h
  full _ _ _ habs := sysOpen_full habs
  failed _ _ _ h := sysOpen_failed h
  own _ _ _ _ hon hx := exec_othersKept hon hx
  bad _ _ hbad := sys_badf (fdGet_of_bad hbad)
  kept _ _ _ hrun _ _ hused hother := hrun.kept hused hother

end

end Mcsos.Vfs
