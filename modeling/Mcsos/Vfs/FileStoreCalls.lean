import Mcsos.Vfs.FileStore
import Mcsos.Vfs.RamfsRead

set_option autoImplicit false

/-! # The calls on the files of a store

What a call changes, in the state and in the store: an entry of a descriptor table, the bytes of
one file, a new file. Then one lemma for each call on an open file: where the store has an answer, the
program gives it, and stays inside the data array.
-/

namespace Mcsos.Vfs

variable {P : Type} {s : State P} {t t' : FileStore P}

/-! ## Nodes -/

theorem nodePath_congr {fs fs' : Ramfs} (h : SameNames fs fs') (i : Nat) :
    nodePath fs' i = nodePath fs i := by
  rw [nodePath, nodePath, h.storedName]

theorem openedAs_congr {fs fs' : Ramfs} {f : File} (h : f.used = true →
    nodePath fs' f.node = nodePath fs f.node) : openedAs fs' f = openedAs fs f := by
  rw [openedAs, openedAs]
  split_ifs with hused
  · rw [h hused]
  · rfl

/-- Files have room in the array only. -/
theorem roomOf_le (i : Nat) : roomOf i ≤ 256 ∧
    (0 < roomOf i → 0 < i ∧ 256 * (i - 1) + roomOf i = 256 * i ∧ 256 * i ≤ ramfsDataBytes) := by
  rw [roomOf]
  split_ifs with hi
  · exact ⟨Nat.le_refl _, fun _ => ⟨hi.1, by omega, hi.2⟩⟩
  · exact ⟨Nat.zero_le _, fun h0 => absurd h0 (Nat.lt_irrefl 0)⟩

theorem isRoot_iff {path : List UInt8} (hnul : 0 ∉ path) (habs : charAt path 0 = 0x2f) :
    IsRoot path ↔ baseName path = [] := by
  refine ⟨fun h => h.baseName hnul, fun h => ⟨habs, ?_⟩⟩
  have hpath := path_eq habs
  rw [h] at hpath
  rw [hpath]
  rfl

variable [DecidableEq P]

namespace Shows

/-! ## Changes -/

/-- One descriptor changes, to a file that is closed or open on a node. -/
theorem setOpen (h : Shows s t) {p : P} {fd : Nat} {f : File}
    (hnode : f.used = true → f.node < s.fs.nodeCount) :
    Shows (s.setTable p (Function.update (s.fds p) fd f)) (t.setOpen p fd (openedAs s.fs f)) where
  wf := ⟨h.wf.extents, h.wf.onNodes.update (Nat.le_refl _) hnode⟩
  named := h.named
  named_pos := h.named_pos
  count := h.count
  file := h.file
  only := h.only
  blank := h.blank
  opened q i hi := by
    simp only [FileStore.setOpen, State.setTable]
    by_cases hq : q = p
    · rw [hq, Function.update_self, Function.update_self]
      by_cases hfd : i = fd
      · rw [hfd, Function.update_self, Function.update_self]
      · rw [Function.update_of_ne hfd, Function.update_of_ne hfd]
        exact h.opened p i hi
    · rw [Function.update_of_ne hq, Function.update_of_ne hq]
      exact h.opened q i hi

omit [DecidableEq P] in
/-- A file gets other bytes, in its extent. -/
theorem setFile (h : Shows s t) {i : Nat} (hi : i < s.fs.nodeCount) {f : StoredFile} {data : Bytes}
    {size : UInt64} (hf : ShowsFile (s.fs.setContent i data size) i f)
    (hdata : ∀ k, data k ≠ s.fs.data k → 256 * (i - 1) ≤ k ∧ k < 256 * i) :
    Shows { s with fs := s.fs.setContent i data size } (t.setFile (nodePath s.fs i) f) := by
  have hsame := sameNames_setContent s.fs i data size
  have hkept : ∀ k, k < 256 * (i - 1) ∨ 256 * i ≤ k → data k = s.fs.data k := by
    intro k hk
    by_contra hne
    have := hdata k hne
    omega
  constructor
  · exact ⟨h.wf.extents.setContent i data size, h.wf.onNodes⟩
  · exact h.named.congr hsame
  · intro j hj hlt
    rw [hsame.storedName]
    exact h.named_pos j hj hlt
  · exact h.count
  · intro j hj
    dsimp only
    rw [nodePath_congr hsame]
    by_cases hij : j = i
    · subst hij
      exact ⟨f, t.setFile_self _ f, hf⟩
    · have hpath : nodePath s.fs j ≠ nodePath s.fs i := fun heq =>
        hij (h.nodePath_inj hj hi heq)
      obtain ⟨g, hg, hshows⟩ := h.file j hj
      refine ⟨g, by rw [t.setFile_ne f hpath, hg], hshows.room, hshows.fits, ?_, ?_⟩
      · rw [setContent_node_ne _ _ _ _ hij]
        exact hshows.size
      · intro k hk
        -- the extents are apart
        obtain ⟨hle, hroom⟩ := roomOf_le j
        have hroom := hroom (by rw [← hshows.room]; omega)
        rw [← hshows.byte k hk]
        apply hkept
        rw [hshows.room] at hk
        omega
  · intro name hname
    by_cases hnew : name = nodePath s.fs i
    · exact ⟨i, hi, by rw [nodePath_congr hsame, hnew]⟩
    · rw [t.setFile_ne f hnew] at hname
      obtain ⟨j, hj, hpath⟩ := h.only name hname
      exact ⟨j, hj, by rw [nodePath_congr hsame, hpath]⟩
  · intro k hk hlt
    have hk : 256 * (s.fs.nodeCount - 1) ≤ k := hk
    rw [setContent_data, hkept k (by omega)]
    exact h.blank k hk hlt
  · intro p fd hfd
    show t.opened p fd = openedAs (s.fs.setContent i data size) (s.fds p fd)
    rw [h.opened p fd hfd, openedAs_congr fun _ => nodePath_congr hsame _]

omit [DecidableEq P] in
/-- The name of no file, and the node that gets it. -/
theorem create (h : Shows s t) {path : List UInt8} (hnul : 0 ∉ path)
    (hshort : (baseName path).length < maxName) (hnew : t.files (baseName path) = none)
    (hroom : t.count < maxNodes) :
    ∃ fs, ramfsCreateFile s.fs path = .ok (fs, s.fs.nodeCount) ∧
      CreatedFile s.fs fs s.fs.nodeCount ∧ nodePath fs s.fs.nodeCount = baseName path ∧
      Shows { s with fs := fs } (t.create (baseName path) []) := by
  have hpos := h.wf.extents.count_pos
  -- the empty name is that of the root
  have hname : baseName path ≠ [] := by
    intro hnil
    obtain ⟨f, hf, -⟩ := h.file 0 hpos
    rw [hnil] at hnew
    rw [nodePath, if_pos rfl, hnew] at hf
    cases hf
  have hroot : IsRoot path ↔ baseName path = [] :=
    iff_of_false (fun hr => hname (hr.baseName hnul)) hname
  have hnone : ramfsLookup (fun _ _ => Bytes.zero) s.fs path = none := by
    rw [Option.eq_none_iff_forall_ne_some]
    intro i hi
    obtain ⟨hlt, hpath⟩ := (h.nodeOf_iff hnul hroot).mp ((h.named.lookup_iff hnul).mp hi)
    obtain ⟨f, hf, -⟩ := h.file i hlt
    rw [hpath, hnew] at hf
    cases hf
  rcases ramfsCreateFile_cases s.fs path with ⟨hfull, -⟩ | ⟨fs, node, hok, hcreated⟩
  · rw [h.count] at hroom
    omega
  obtain rfl := hcreated.index
  have hstored : storedName fs s.fs.nodeCount = baseName path := by
    rw [h.named.storedName_create hnul hok, List.take_of_length_le (by omega)]
  have hpath : nodePath fs s.fs.nodeCount = baseName path := by
    rw [nodePath, if_neg (by omega), hstored]
  have hold : ∀ i, i < s.fs.nodeCount → nodePath fs i = nodePath s.fs i := by
    intro i hi
    rw [nodePath, nodePath, storedName_create_ne hcreated (by omega)]
  refine ⟨fs, hok, hcreated, hpath, ?_⟩
  have hcount := hcreated.count
  constructor
  · refine ⟨h.wf.extents.create hcreated, fun p fd f hf => ?_⟩
    have hnode := h.wf.onNodes p fd f hf
    show f.node < fs.nodeCount
    omega
  · exact h.named.create hnul hshort hnone hok
  · intro i hi hlt
    by_cases hlast : i = s.fs.nodeCount
    · rw [hlast, hstored]
      exact hname
    · rw [storedName_create_ne hcreated hlast]
      have hlt : i < fs.nodeCount := hlt
      exact h.named_pos i hi (by omega)
  · show t.count + 1 = fs.nodeCount
    rw [h.count, hcount]
  · intro i hi
    have hi : i < fs.nodeCount := hi
    show ∃ f, (t.setFile (baseName path) ⟨[], roomOf t.count⟩).files (nodePath fs i) = some f ∧
      ShowsFile fs i f
    by_cases hlast : i = s.fs.nodeCount
    · refine ⟨⟨[], roomOf t.count⟩, by rw [hlast, hpath, t.setFile_self], ?_⟩
      rw [h.count, ← hlast]
      refine ⟨rfl, Nat.zero_le _, ?_, fun k hk => ?_⟩
      · rw [hlast, hcreated.size]
        rfl
      · -- the extent of the node was blank
        obtain ⟨-, hin⟩ := roomOf_le i
        have hk : k < roomOf i := hk
        have hin := hin (by omega)
        rw [hcreated.data]
        refine (h.blank _ ?_ ?_).trans ?_
        · omega
        · omega
        · rfl
    · obtain ⟨f, hf, hshows⟩ := h.file i (by omega)
      have hne : nodePath s.fs i ≠ baseName path := by
        intro heq
        rw [heq, hnew] at hf
        cases hf
      refine ⟨f, by rw [hold i (by omega), t.setFile_ne _ hne, hf], hshows.room, hshows.fits,
        ?_, ?_⟩
      · rw [hcreated.others i hlast]
        exact hshows.size
      · rw [hcreated.data]
        exact hshows.byte
  · intro name hname
    by_cases hnewname : name = baseName path
    · exact ⟨s.fs.nodeCount, by show _ < fs.nodeCount; omega, by rw [hnewname]; exact hpath⟩
    · have hname : t.files name ≠ none := by
        have hne : (t.create (baseName path) []).files name = t.files name :=
          t.setFile_ne _ hnewname
        rwa [hne] at hname
      obtain ⟨i, hi, hpath'⟩ := h.only name hname
      exact ⟨i, by show _ < fs.nodeCount; omega, by rw [← hpath']; exact hold i hi⟩
  · intro k hk hlt
    have hk : 256 * (fs.nodeCount - 1) ≤ k := hk
    show fs.data k = 0
    rw [hcreated.data]
    exact h.blank k (by omega) hlt
  · intro p fd hfd
    show t.opened p fd = openedAs fs (s.fds p fd)
    rw [h.opened p fd hfd]
    refine (openedAs_congr fun hused => hold _ ?_).symm
    exact h.wf.onNodes p fd _ (fdGet_some_iff.mpr ⟨by omega, by simpa using hfd, by simpa using hused,
      by simp⟩)

/-- An open file moves to another offset. -/
theorem seek (h : Shows s t) {p : P} {fd : Int} {f : File} (hf : fdGet (s.fds p) fd = some f)
    (offset : UInt64) : Shows (s.setFile p fd { f with offset := offset })
      (t.setOpen p fd.toNat (some ⟨nodePath s.fs f.node, offset.toNat⟩)) := by
  obtain ⟨-, -, hused, hfile⟩ := fdGet_some_iff.mp hf
  rw [hfile] at hused
  have hopened : openedAs s.fs { f with offset := offset } =
      some ⟨nodePath s.fs f.node, offset.toNat⟩ := if_pos hused
  rw [← hopened]
  exact h.setOpen fun _ => h.wf.onNodes p fd f hf

omit [DecidableEq P] in
/-- What is open under a descriptor that is in use. -/
theorem get_some (h : Shows s t) {p : P} {fd : Int} {f : File} (hf : fdGet (s.fds p) fd = some f) :
    t.get p fd = some ⟨nodePath s.fs f.node, f.offset.toNat⟩ := by
  obtain ⟨-, -, hused, hfile⟩ := fdGet_some_iff.mp hf
  rw [hfile] at hused
  rw [h.get_eq, hf]
  exact if_pos hused

omit [DecidableEq P] in
theorem get_none (h : Shows s t) {p : P} {fd : Int} (hf : fdGet (s.fds p) fd = none) :
    t.get p fd = none := by
  rw [h.get_eq, hf]
  rfl

end Shows

/-! ## Reads -/

/-- A read copies what is left of the file, and no more than it is asked for. -/
theorem ShowsFile.readCount {fs : Ramfs} {f : File} {g : StoredFile} (hg : ShowsFile fs f.node g)
    {len : UInt64} (hin : f.offset.toNat ≤ g.data.length ∨ len = 0) :
    (readCount fs f len).toNat = min len.toNat (g.data.length - f.offset.toNat) := by
  have hsize := hg.size
  rw [Vfs.readCount]
  rcases hin with hle | rfl
  · have havail := UInt64.toNat_sub_of_le _ _ (UInt64.le_iff_toNat_le.mpr (hsize ▸ hle))
    split_ifs with hlt
    · have hlt := UInt64.lt_iff_toNat_lt.mp hlt
      omega
    · have hle' := UInt64.le_iff_toNat_le.mp (UInt64.not_lt.mp hlt)
      omega
  · split_ifs with hlt
    · simp
    · have hzero := UInt64.le_zero_iff.mp (UInt64.not_lt.mp hlt)
      rw [hzero]
      simp

/-- The bytes of a read are those of the file from the offset on. -/
theorem ShowsFile.read {fs : Ramfs} (he : Extents fs) {f : File} {g : StoredFile}
    (hnode : f.node < fs.nodeCount) (hg : ShowsFile fs f.node g) {len : UInt64}
    (hin : f.offset.toNat ≤ g.data.length ∨ len = 0) :
    (List.range (Vfs.readCount fs f len).toNat).map (fun i => fs.data (transferIndex fs f i)) =
      (g.data.drop f.offset.toNat).take len.toNat := by
  have hcount := hg.readCount hin
  apply ext_getD
  · simp only [List.length_map, List.length_range, List.length_take, List.length_drop, hcount]
  · intro k hk
    rw [List.length_map, List.length_range, hcount] at hk
    -- there is a byte, so the file has an extent
    obtain ⟨hle, hroom⟩ := roomOf_le f.node
    have hfits := hg.fits
    rw [hg.room] at hfits
    obtain ⟨hpos, hend, harray⟩ := hroom (by omega)
    have hoffset := (he.file f.node hpos hnode).dataOffset
    have hmax : ramfsDataBytes = 8192 := rfl
    have hindex : transferIndex fs f k = 256 * (f.node - 1) + (f.offset.toNat + k) := by
      rw [transferIndex, UInt64.toNat_add, UInt64.toNat_add, UInt64.toNat_ofNat', hoffset]
      omega
    have hbyte := hg.byte (f.offset.toNat + k) (by rw [hg.room]; omega)
    simp only [List.getD_eq_getElem?_getD, List.getElem?_map, List.getElem?_take,
      List.getElem?_drop] at hbyte ⊢
    rw [List.getElem?_range (by omega), if_pos (by omega), Option.map_some, Option.getD_some,
      hindex, hbyte]

/-! ## Writes -/

theorem slice_getD (b : Bytes) {n k : Nat} (h : k < n) : (b.slice 0 n).getD k 0 = b k := by
  rw [Bytes.slice, List.getD_eq_getElem?_getD, List.getElem?_map, List.getElem?_range h,
    Option.map_some, Option.getD_some, Nat.zero_add]

/-- A store to a file that has room for it is a copy into the extent of the file. -/
theorem storeData_room {fs : Ramfs} (he : Extents fs) {i : Nat} (hi : i < fs.nodeCount)
    {offset : UInt64} {n : Nat} (hroom : offset.toNat + n ≤ roomOf i) (buf : Bytes) :
    storeData ((fs.nodes i).dataOffset + offset) buf fs.data 0 n =
      some (fs.data.copy (256 * (i - 1) + offset.toNat) buf 0 n) := by
  rcases Nat.eq_zero_or_pos n with rfl | hn
  · rw [storeData, Option.some_inj]
    funext k
    rw [Bytes.copy, if_neg (by omega)]
  · obtain ⟨hle, hextent⟩ := roomOf_le i
    obtain ⟨hpos, hend, harray⟩ := hextent (by omega)
    have hmax : ramfsDataBytes = 8192 := rfl
    have hdst : ((fs.nodes i).dataOffset + offset).toNat = 256 * (i - 1) + offset.toNat := by
      rw [UInt64.toNat_add, (he.file i hpos hi).dataOffset]
      omega
    rw [storeData_eq buf fs.data 0 n (by omega), hdst, Nat.add_zero]

/-- The file behind it, with its new size. -/
theorem ShowsFile.write {fs : Ramfs} {i : Nat} {f : StoredFile} (hf : ShowsFile fs i f) {o n : Nat}
    (hroom : o + n ≤ f.room) (buf : Bytes) {size : UInt64}
    (hsize : size.toNat = max f.data.length (o + n)) :
    ShowsFile (fs.setContent i (fs.data.copy (256 * (i - 1) + o) buf 0 n) size) i
      ⟨overwrite f.data o (buf.slice 0 n), f.room⟩ := by
  have hfits := hf.fits
  refine ⟨hf.room, ?_, ?_, fun k hk => ?_⟩
  · rw [overwrite_length, Bytes.slice_length]
    dsimp only
    omega
  · rw [setContent_node_self, overwrite_length, Bytes.slice_length]
    exact hsize
  · have hk : k < f.room := hk
    rw [setContent_data, getD_overwrite, Bytes.slice_length]
    by_cases hin : o ≤ k ∧ k < o + n
    · rw [if_pos hin, Bytes.copy_apply_of_mem (by omega) (by omega), slice_getD buf (by omega)]
      congr 1
      omega
    · rw [if_neg hin, Bytes.copy, if_neg (by omega)]
      exact hf.byte k hk

/-- The offset that a seek returns, as an `int`. -/
theorem toInt_toInt32 (offset : UInt64) :
    offset.toUInt32.toInt32.toInt = (offset.toNat : Int).bmod (2 ^ 32) :=
  Int32.toInt_ofNat

/-! ## Calls -/

namespace Shows

variable {a : Int × List UInt8}

theorem read (h : Shows s t) (past : Ramfs → Nat → Bytes) {p : P} {fd : Int} {len : UInt64}
    (hx : t.read p fd len.toNat = some (a, t')) :
    ∃ s', callStep past (.read p fd len) s = some (a, s') ∧ Shows s' t' := by
  rw [FileStore.read] at hx
  cases hf : fdGet (s.fds p) fd with
  | none =>
      simp only [h.get_none hf, Option.some_inj] at hx
      cases hx
      exact ⟨s, by rw [callStep, (sys_badf hf).1]; rfl, h⟩
  | some f =>
      have hnode := h.wf.onNodes p fd f hf
      obtain ⟨g, hg, hshows⟩ := h.file f.node hnode
      simp only [h.get_some hf, hg, Option.bind_some] at hx
      split_ifs at hx with hopen
      have hin : f.offset.toNat ≤ g.data.length ∨ len = 0 := by
        rw [← UInt64.toNat_inj, UInt64.toNat_zero]
        omega
      have hbytes := hshows.read h.wf.extents hnode hin
      have hcount := hshows.readCount hin
      have hfits := hshows.fits
      have hroom := (roomOf_le f.node).1
      rw [hshows.room] at hfits
      have hlen : ((g.data.drop f.offset.toNat).take len.toNat).length =
          (readCount s.fs f len).toNat := by
        rw [hcount, List.length_take, List.length_drop]
      have hoffset : f.offset.toNat + (readCount s.fs f len).toNat =
          (f.offset + readCount s.fs f len).toNat := by
        rw [UInt64.toNat_add]
        have hmax := UInt64.toNat_lt f.offset
        rcases hin with hle | rfl
        · omega
        · rw [UInt64.toNat_zero] at hcount
          omega
      rw [hlen, hoffset] at hx
      obtain ⟨rfl, rfl⟩ := Prod.mk.inj (Option.some_inj.mp hx)
      refine ⟨_, ?_, h.seek hf _⟩
      rw [callStep, sysRead_some len hf]
      simp only [hbytes]
      rw [toInt_toInt64 (by omega)]

theorem write (h : Shows s t) (past : Ramfs → Nat → Bytes) {p : P} {fd : Int} {buf : Bytes}
    {len : UInt64} (hx : t.write p fd (buf.slice 0 len.toNat) = some (a, t')) :
    ∃ s', callStep past (.write p fd buf len) s = some (a, s') ∧ Shows s' t' := by
  rw [FileStore.write] at hx
  cases hf : fdGet (s.fds p) fd with
  | none =>
      simp only [h.get_none hf, Option.some_inj] at hx
      cases hx
      exact ⟨s, by rw [callStep, (sys_badf hf).2.1]; rfl, h⟩
  | some f =>
      have hnode := h.wf.onNodes p fd f hf
      obtain ⟨g, hg, hshows⟩ := h.file f.node hnode
      simp only [h.get_some hf, hg, Option.bind_some, Bytes.slice_length] at hx
      split_ifs at hx with hroom
      rw [Nat.not_lt] at hroom
      have hfits := hshows.fits
      have hle := (roomOf_le f.node).1
      have hroom' := hroom
      rw [hshows.room] at hfits hroom'
      have hmax := UInt64.toNat_lt f.offset
      have hoffset : f.offset.toNat + len.toNat = (f.offset + len).toNat := by
        rw [UInt64.toNat_add]
        omega
      have hsize : (sizeAfter s.fs f len).toNat = max g.data.length (f.offset.toNat + len.toNat) := by
        have hold := hshows.size
        rw [sizeAfter]
        split_ifs with hgrows
        · have hgrows := UInt64.lt_iff_toNat_lt.mp hgrows
          omega
        · have hstays := UInt64.le_iff_toNat_le.mp (UInt64.not_lt.mp hgrows)
          omega
      have hdata := storeData_room h.wf.extents hnode hroom' buf
      have hstored := h.setFile hnode (hshows.write hroom buf hsize) fun k hk => by
        by_contra hout
        refine hk (if_neg ?_)
        rintro ⟨hlo, hhi⟩
        obtain ⟨-, hend, -⟩ := (roomOf_le f.node).2 (by omega)
        omega
      rw [hoffset] at hx
      obtain ⟨rfl, rfl⟩ := Prod.mk.inj (Option.some_inj.mp hx)
      have hpath := nodePath_congr (sameNames_setContent s.fs f.node
        (s.fs.data.copy (256 * (f.node - 1) + f.offset.toNat) buf 0 len.toNat)
        (sizeAfter s.fs f len)) f.node
      have hlast := hstored.seek (p := p) (f := f) hf (f.offset + len)
      rw [hpath] at hlast
      refine ⟨_, ?_, hlast⟩
      rw [callStep, sysWrite_some hf hdata, Option.map_some, toInt_toInt64 (by omega)]

theorem lseek (h : Shows s t) (past : Ramfs → Nat → Bytes) (p : P) (fd : Int) (offset : Int64)
    (whence : Int) : ∃ s', callStep past (.lseek p fd offset whence) s =
      some ((t.lseek p fd offset whence).1, s') ∧ Shows s' (t.lseek p fd offset whence).2 := by
  rw [FileStore.lseek]
  cases hf : fdGet (s.fds p) fd with
  | none =>
      simp only [h.get_none hf]
      exact ⟨s, by rw [callStep, (sys_badf hf).2.2.1], h⟩
  | some f =>
      simp only [h.get_some hf]
      have hoffset : (if whence = seekSet then offset.toUInt64.toNat else f.offset.toNat) =
          (f.sought offset whence).offset.toNat := by
        rw [File.sought]
        split_ifs <;> rfl
      have hsought : f.sought offset whence =
          { f with offset := (f.sought offset whence).offset } := by
        rw [File.sought]
        split_ifs <;> rfl
      rw [hoffset]
      refine ⟨_, ?_, h.seek hf _⟩
      rw [← hsought, ← sysLseek_some offset whence hf, callStep, ← toInt_toInt32]
      simp only [sysLseek, hf, File.sought]

theorem close (h : Shows s t) (past : Ramfs → Nat → Bytes) (p : P) (fd : Int) :
    ∃ s', callStep past (.close p fd) s = some ((t.close p fd).1, s') ∧
      Shows s' (t.close p fd).2 := by
  rw [FileStore.close]
  cases hf : fdGet (s.fds p) fd with
  | none =>
      simp only [h.get_none hf]
      exact ⟨s, by rw [callStep, (sys_badf hf).2.2.2], h⟩
  | some f =>
      simp only [h.get_some hf]
      refine ⟨_, by rw [callStep, sysClose_some hf], ?_⟩
      exact h.setOpen fun hused => absurd hused Bool.false_ne_true

end Shows

end Mcsos.Vfs
