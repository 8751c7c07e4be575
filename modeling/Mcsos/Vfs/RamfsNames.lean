import Mcsos.Lib.CStr
import Mcsos.Vfs.RamfsRuns

set_option autoImplicit false

/-! # The names of the RAM file system

A creation stores the first 31 characters of a name, and a lookup compares all of them. In memory
that was zeroed every stored name ends in its field. A name of at most 31 characters is found
again, and names one node. A longer one is cut and is never found: every open creates another
node, and the cut name finds the first of them.
-/

namespace Mcsos.Vfs

/-! ## Characters -/

theorem charAt_eq_zero_iff {path : List UInt8} (hnul : 0 ∉ path) {j : Nat} :
    charAt path j = 0 ↔ path.length ≤ j := by
  rw [charAt]
  constructor
  · intro h0
    by_contra hj
    have hlt : j < path.length := Nat.lt_of_not_le hj
    rw [List.getD_eq_getElem?_getD, List.getElem?_eq_getElem hlt, Option.getD_some] at h0
    exact hnul (h0 ▸ List.getElem_mem hlt)
  · intro hj
    rw [List.getD_eq_getElem?_getD, List.getElem?_eq_none hj, Option.getD_none]

theorem baseName_nul {path : List UInt8} (hnul : 0 ∉ path) : 0 ∉ baseName path := by
  rw [baseName]
  split
  · exact fun h => hnul (List.mem_of_mem_tail h)
  · exact hnul

/-- An absolute path is the slash and its name. -/
theorem path_eq {path : List UInt8} (habs : charAt path 0 = 0x2f) :
    path = 0x2f :: baseName path := by
  rw [baseName, if_pos habs]
  cases path with
  | nil => exact absurd habs (by decide)
  | cons c cs =>
      rw [charAt, List.getD_cons_zero] at habs
      rw [habs, List.tail_cons]

/-! ## Comparisons -/

/-- A comparison ends at the end of the stored name at the latest. -/
theorem matchEnd_le (node : Bytes) (name : List UInt8) (j n : Nat)
    (hend : (CStr.chars node j n).length < n) :
    matchEnd node j name ≤ j + (CStr.chars node j n).length := by
  induction name generalizing j n with
  | nil => exact Nat.le_add_right _ _
  | cons c cs ih =>
      rw [matchEnd]
      split
      · rename_i hsame
        cases n with
        | zero => exact absurd hend (Nat.not_lt_zero _)
        | succ n =>
            have hne : node j ≠ 0 := hsame.1 ▸ hsame.2
            rw [CStr.chars, if_neg hne, List.length_cons] at hend ⊢
            have hle := ih (j + 1) n (Nat.lt_of_succ_lt_succ hend)
            omega
      · exact Nat.le_add_right _ _

theorem le_matchEnd (node : Bytes) (name : List UInt8) (j : Nat) : j ≤ matchEnd node j name := by
  induction name generalizing j with
  | nil => exact Nat.le_refl j
  | cons c cs ih =>
      rw [matchEnd]
      split
      · exact Nat.le_of_succ_le (ih (j + 1))
      · exact Nat.le_refl j

/-- A comparison ends at both NULs if and only if the strings are equal. -/
theorem matchEnd_iff (node : Bytes) {name : List UInt8} (hnul : 0 ∉ name) (j n : Nat)
    (hend : (CStr.chars node j n).length < n) :
    (charAt name (matchEnd node j name - j) = 0 ∧ node (matchEnd node j name) = 0) ↔
      name = CStr.chars node j n := by
  induction name generalizing j n with
  | nil =>
      cases n with
      | zero => exact absurd hend (Nat.not_lt_zero _)
      | succ n =>
          have hnil : charAt [] (j - j) = 0 := rfl
          rw [matchEnd, CStr.chars, hnil]
          by_cases h0 : node j = 0
          · simp [h0]
          · simp [h0]
  | cons c cs ih =>
      rw [List.mem_cons, not_or] at hnul
      cases n with
      | zero => exact absurd hend (Nat.not_lt_zero _)
      | succ n =>
          rw [matchEnd]
          split
          · rename_i hsame
            have hne : node j ≠ 0 := hsame.1 ▸ hsame.2
            rw [CStr.chars, if_neg hne, List.length_cons] at hend
            -- one character further on both sides
            have hle := le_matchEnd node cs (j + 1)
            have hshift : charAt (c :: cs) (matchEnd node (j + 1) cs - j) =
                charAt cs (matchEnd node (j + 1) cs - (j + 1)) := by
              rw [show matchEnd node (j + 1) cs - j = matchEnd node (j + 1) cs - (j + 1) + 1 by omega]
              rfl
            rw [hshift, ih hnul.2 (j + 1) n (Nat.lt_of_succ_lt_succ hend), CStr.chars, if_neg hne,
              ← hsame.1, List.cons_inj_right]
          · rename_i hdiff
            have hc : c ≠ 0 := fun h0 => hnul.1 h0.symm
            refine iff_of_false ?_ ?_
            · rw [Nat.sub_self]
              exact fun h => hc h.1
            · intro heq
              rw [CStr.chars] at heq
              split at heq
              · cases heq
              · exact hdiff ⟨(List.cons.inj heq).1, hc⟩

theorem nameMatches_iff {node : Bytes} {name : List UInt8} {n : Nat} (hnul : 0 ∉ name)
    (hend : (CStr.chars node 0 n).length < n) :
    nameMatches name node = true ↔ name = CStr.chars node 0 n := by
  rw [← matchEnd_iff node hnul 0 n hend, Nat.sub_zero, nameMatches]
  exact decide_eq_true_iff

/-- What `copyName` makes of a blank field. -/
theorem copyName_apply {name : List UInt8} (hnul : 0 ∉ name) (node : Bytes) (i n : Nat)
    (hblank : ∀ j, i ≤ j → node j = 0) (j : Nat) :
    copyName name node i n j = if i ≤ j ∧ j < i + n then charAt name j else node j := by
  induction n generalizing i node with
  | zero => rw [if_neg (by omega), copyName]
  | succ n ih =>
      rw [copyName]
      split
      · rename_i hzero
        -- the name has ended, and all that is left of it is NULs
        have hlen := (charAt_eq_zero_iff hnul).mp hzero
        by_cases hj : i ≤ j
        · have hchar : charAt name j = 0 := (charAt_eq_zero_iff hnul).mpr (by omega)
          rw [hzero, hchar, Function.update_apply]
          simp [hblank j hj]
        · rw [if_neg (by omega), Function.update_of_ne (by omega)]
      · rw [ih _ (i + 1) fun k hk => by rw [Function.update_of_ne (by omega), hblank k (by omega)]]
        by_cases hj : j = i
        · rw [if_neg (by omega), if_pos (by omega), hj, Function.update_self]
        · rw [Function.update_of_ne hj]
          by_cases hin : i ≤ j ∧ j < i + (n + 1)
          · rw [if_pos hin, if_pos (by omega)]
          · rw [if_neg hin, if_neg (by omega)]

/-! ## Stored names -/

/-- The name in the field of a node. -/
def storedName (fs : Ramfs) (i : Nat) : List UInt8 := CStr.chars (fs.nodes i).name 0 maxName

/-- Every stored name ends in its field, and the fields of the free nodes are blank. -/
structure NamesEnd (fs : Ramfs) : Prop where
  count_pos : 0 < fs.nodeCount
  ends : ∀ i, 0 < i → i < fs.nodeCount → (storedName fs i).length < maxName
  blank : ∀ i, fs.nodeCount ≤ i → ∀ j, (fs.nodes i).name j = 0

/-- The root path, which is not compared with names. -/
def IsRoot (path : List UInt8) : Prop := charAt path 0 = 0x2f ∧ charAt path 1 = 0

theorem IsRoot.baseName {path : List UInt8} (h : IsRoot path) (hnul : 0 ∉ path) :
    baseName path = [] := by
  have hlen := (charAt_eq_zero_iff hnul).mp h.2
  rw [Vfs.baseName, if_pos h.1]
  exact List.length_eq_zero_iff.mp (by rw [List.length_tail]; omega)

/-- The node that a path names. -/
def NodeOf (fs : Ramfs) (path : List UInt8) (i : Nat) : Prop :=
  (IsRoot path ∧ i = 0) ∨
    (¬IsRoot path ∧ 0 < i ∧ i < fs.nodeCount ∧ storedName fs i = baseName path)

section

variable {past : Ramfs → Nat → Bytes}

variable (past) in
theorem chars_nodeName (fs : Ramfs) (i : Nat) :
    CStr.chars (nodeName past fs i) 0 maxName = storedName fs i := by
  apply CStr.chars_congr_all
  intro k hk
  rw [Nat.zero_add, nodeName, if_pos hk]

theorem NamesEnd.nameMatches_iff {fs : Ramfs} (h : NamesEnd fs) {name : List UInt8}
    (hnul : 0 ∉ name) {i : Nat} (hi : 0 < i) (hlt : i < fs.nodeCount) :
    nameMatches name (nodeName past fs i) = true ↔ storedName fs i = name := by
  have hend := h.ends i hi hlt
  rw [← chars_nodeName past] at hend ⊢
  rw [Vfs.nameMatches_iff hnul hend]
  exact eq_comm

/-- The comparison with a stored name stays in its field. -/
theorem NamesEnd.matchEnd_lt {fs : Ramfs} (h : NamesEnd fs) (name : List UInt8) {i : Nat}
    (hi : 0 < i) (hlt : i < fs.nodeCount) : matchEnd (nodeName past fs i) 0 name < maxName := by
  have hend := h.ends i hi hlt
  rw [← chars_nodeName past] at hend
  have hle := matchEnd_le _ name 0 maxName hend
  omega

/-- A lookup finds a node that the path names, or there is none. -/
theorem NamesEnd.lookup_some {fs : Ramfs} (h : NamesEnd fs) {path : List UInt8} (hnul : 0 ∉ path)
    {i : Nat} (hlookup : ramfsLookup past fs path = some i) : NodeOf fs path i := by
  rw [ramfsLookup] at hlookup
  split at hlookup
  · rename_i hroot
    exact Or.inl ⟨hroot, (Option.some_inj.mp hlookup).symm⟩
  · rename_i hroot
    obtain ⟨hpos, hlt, hmatch, -⟩ := Loop.findFrom_some_iff.mp hlookup
    have hpos : 0 < i := hpos
    have hlt : i < fs.nodeCount := by omega
    exact Or.inr ⟨hroot, hpos, hlt, (h.nameMatches_iff (baseName_nul hnul) hpos hlt).mp hmatch⟩

theorem NamesEnd.lookup_none {fs : Ramfs} (h : NamesEnd fs) {path : List UInt8} (hnul : 0 ∉ path)
    (hlookup : ramfsLookup past fs path = none) (i : Nat) : ¬NodeOf fs path i := by
  rw [ramfsLookup] at hlookup
  split at hlookup
  · cases hlookup
  · rename_i hroot
    rw [Loop.findFrom_none_iff] at hlookup
    rintro (⟨hroot', _⟩ | ⟨_, hpos, hlt, hname⟩)
    · exact hroot hroot'
    · have hmatch : nameMatches (baseName path) (nodeName past fs i) = true :=
        (h.nameMatches_iff (baseName_nul hnul) hpos hlt).mpr hname
      rw [hlookup i hpos (by omega)] at hmatch
      cases hmatch

end

/-- The stored names are all different. -/
structure Named (fs : Ramfs) : Prop extends NamesEnd fs where
  distinct : ∀ i j, 0 < i → i < j → j < fs.nodeCount → storedName fs i ≠ storedName fs j

theorem Named.nodeOf_unique {fs : Ramfs} (h : Named fs) {path : List UInt8} {i j : Nat}
    (hi : NodeOf fs path i) (hj : NodeOf fs path j) : i = j := by
  rcases hi with ⟨hroot, rfl⟩ | ⟨hroot, hi, hilt, hiname⟩
  · rcases hj with ⟨_, rfl⟩ | ⟨hnot, _⟩
    · rfl
    · exact absurd hroot hnot
  · rcases hj with ⟨hroot', _⟩ | ⟨_, hj, hjlt, hjname⟩
    · exact absurd hroot' hroot
    · have hsame := hiname.trans hjname.symm
      rcases Nat.lt_trichotomy i j with hlt | heq | hlt
      · exact absurd hsame (h.distinct i j hi hlt hjlt)
      · exact heq
      · exact absurd hsame.symm (h.distinct j i hj hlt hilt)

theorem Named.lookup_iff {past : Ramfs → Nat → Bytes} {fs : Ramfs} (h : Named fs)
    {path : List UInt8} (hnul : 0 ∉ path) {i : Nat} :
    ramfsLookup past fs path = some i ↔ NodeOf fs path i := by
  constructor
  · exact h.lookup_some hnul
  · intro hnode
    cases hlookup : ramfsLookup past fs path with
    | none => exact absurd hnode (h.lookup_none hnul hlookup i)
    | some j => rw [h.nodeOf_unique hnode (h.lookup_some hnul hlookup)]

/-- Two absolute paths that name one node are the same. -/
theorem NodeOf.path_unique {fs : Ramfs} {path path' : List UInt8} {i : Nat}
    (habs : charAt path 0 = 0x2f) (habs' : charAt path' 0 = 0x2f) (hnul : 0 ∉ path)
    (hnul' : 0 ∉ path') (h : NodeOf fs path i) (h' : NodeOf fs path' i) : path = path' := by
  have hbase : baseName path = baseName path' := by
    rcases h with ⟨hroot, rfl⟩ | ⟨_, hi, _, hname⟩
    · rcases h' with ⟨hroot', _⟩ | ⟨_, hpos, _⟩
      · rw [hroot.baseName hnul, hroot'.baseName hnul']
      · exact absurd hpos (Nat.lt_irrefl 0)
    · rcases h' with ⟨_, rfl⟩ | ⟨_, _, _, hname'⟩
      · exact absurd hi (Nat.lt_irrefl 0)
      · rw [← hname, hname']
  rw [path_eq habs, path_eq habs', hbase]

/-! ## Creations -/

theorem ramfsCreateFile_name {fs fs' : Ramfs} {path : List UInt8} {node : Nat}
    (h : ramfsCreateFile fs path = .ok (fs', node)) :
    (fs'.nodes node).name =
      copyName (baseName path) (fs.nodes fs.nodeCount).name 0 (maxName - 1) := by
  rw [ramfsCreateFile] at h
  split at h
  · cases h
  · cases h
    simp

/-- A creation stores the first 31 characters of the name. -/
theorem NamesEnd.storedName_create {fs fs' : Ramfs} (h : NamesEnd fs) {path : List UInt8}
    (hnul : 0 ∉ path) {node : Nat} (hok : ramfsCreateFile fs path = .ok (fs', node)) :
    storedName fs' node = (baseName path).take (maxName - 1) := by
  have hbytes : ∀ k, (fs'.nodes node).name k =
      if k < maxName - 1 then charAt (baseName path) k else 0 := by
    intro k
    rw [ramfsCreateFile_name hok,
      copyName_apply (baseName_nul hnul) _ 0 _ fun j _ => h.blank _ (Nat.le_refl _) j,
      h.blank _ (Nat.le_refl _) k]
    simp
  have hlast : CStr.chars (fs'.nodes node).name 0 (maxName - 1 + 1) =
      CStr.chars (fs'.nodes node).name 0 (maxName - 1) := by
    apply CStr.chars_succ_of_end
    intro _
    rw [hbytes, if_neg (by omega)]
  rw [storedName, show maxName = maxName - 1 + 1 from rfl, hlast]
  apply CStr.chars_eq_take (baseName_nul hnul)
  intro k hk
  rw [hbytes, Nat.zero_add, if_pos hk]
  rfl

theorem storedName_create_ne {fs fs' : Ramfs} {node i : Nat} (hc : CreatedFile fs fs' node)
    (hi : i ≠ node) : storedName fs' i = storedName fs i := by
  rw [storedName, hc.others i hi, storedName]

theorem NamesEnd.create {fs fs' : Ramfs} (h : NamesEnd fs) {path : List UInt8} (hnul : 0 ∉ path)
    {node : Nat} (hok : ramfsCreateFile fs path = .ok (fs', node)) : NamesEnd fs' := by
  have hc := ramfsCreateFile_ok hok
  have hindex := hc.index
  have hcount := hc.count
  constructor
  · omega
  · intro i hi hlt
    by_cases hnew : i = node
    · rw [hnew, h.storedName_create hnul hok, List.length_take]
      have hmax : maxName = 32 := rfl
      omega
    · rw [storedName_create_ne hc hnew]
      exact h.ends i hi (by omega)
  · intro i hi j
    rw [hc.others i (by omega)]
    exact h.blank i (by omega) j

/-- A short name that no file has makes another name. -/
theorem Named.create {fs fs' : Ramfs} (h : Named fs) {path : List UInt8} (hnul : 0 ∉ path)
    (hshort : (baseName path).length < maxName) {node : Nat} {past : Ramfs → Nat → Bytes}
    (hnone : ramfsLookup past fs path = none)
    (hok : ramfsCreateFile fs path = .ok (fs', node)) : Named fs' := by
  have hc := ramfsCreateFile_ok hok
  have hindex := hc.index
  have hcount := hc.count
  have hroot : ¬IsRoot path := fun hroot => h.lookup_none hnul hnone 0 (Or.inl ⟨hroot, rfl⟩)
  have hnew : storedName fs' node = baseName path := by
    rw [h.storedName_create hnul hok, List.take_of_length_le (by omega)]
  refine ⟨h.toNamesEnd.create hnul hok, fun i j hi hij hj => ?_⟩
  have hold : storedName fs' i = storedName fs i := storedName_create_ne hc (by omega)
  rw [hold]
  by_cases hjnew : j = node
  · rw [hjnew, hnew]
    exact fun hname => h.lookup_none hnul hnone i (Or.inr ⟨hroot, hi, by omega, hname⟩)
  · rw [storedName_create_ne hc hjnew]
    exact h.distinct i j hi hij (by omega)

/-- The path that a file was created for names it. -/
theorem NamesEnd.nodeOf_create {fs fs' : Ramfs} (h : NamesEnd fs) {path : List UInt8}
    (hnul : 0 ∉ path) (hshort : (baseName path).length < maxName) (hroot : ¬IsRoot path) {node : Nat}
    (hok : ramfsCreateFile fs path = .ok (fs', node)) : NodeOf fs' path node := by
  have hc := ramfsCreateFile_ok hok
  have hindex := hc.index
  have hcount := hc.count
  have hpos := h.count_pos
  refine Or.inr ⟨hroot, by omega, by omega, ?_⟩
  rw [h.storedName_create hnul hok, List.take_of_length_le (by omega)]

end Mcsos.Vfs
