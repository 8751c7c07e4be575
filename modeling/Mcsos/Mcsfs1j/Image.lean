import Mcsos.Mcsfs1j.Fs

set_option autoImplicit false

/-! # Images and the files in them

`ImageInv c` says that the home blocks `c` are a sound image: all that `m16_mount` and `m16_fsck`
check, and that no name is used twice. `filesOf c` are the files of the image, a partial function
from names to contents. Adding a file changes it at one name, and the first half of the change,
which is a transaction of its own, does not change it at all.
-/

namespace Mcsos.Mcsfs1j

/-! ## Names -/

/-- The name as the file system compares it. -/
def nameKey (name : Bytes) : List UInt8 := CStr.chars name 0 maxName

theorem streqFrom_iff (a b : Bytes) (i n : Nat) :
    streqFrom a b i n = true ↔ CStr.chars a i n = CStr.chars b i n := by
  induction n generalizing i with
  | zero => exact ⟨fun _ => rfl, fun _ => rfl⟩
  | succ n ih =>
      rw [streqFrom, CStr.chars, CStr.chars]
      by_cases hab : a i = b i
      · rw [if_neg (not_not.mpr hab), ← hab]
        by_cases hz : a i = 0
        · rw [if_pos hz, if_pos hz, if_pos hz]
          exact ⟨fun _ => rfl, fun _ => rfl⟩
        · rw [if_neg hz, if_neg hz, if_neg hz, ih, List.cons.injEq]
          exact ⟨fun h => ⟨rfl, h⟩, fun h => h.2⟩
      · rw [if_pos hab]
        refine ⟨fun h => (by cases h), fun h => absurd h ?_⟩
        -- the first characters differ, or one string ends here
        by_cases hz : a i = 0
        · rw [if_pos hz, if_neg (fun hb => hab (hz.trans hb.symm))]
          exact (List.cons_ne_nil _ _).symm
        · rw [if_neg hz]
          by_cases hb : b i = 0
          · rw [if_pos hb]
            exact List.cons_ne_nil _ _
          · rw [if_neg hb]
            exact fun h => hab (List.cons.inj h).1

theorem streq_iff (a b : Bytes) : streq a b = true ↔ nameKey a = nameKey b :=
  streqFrom_iff a b 0 maxName

theorem strlenBounded_eq (name : Bytes) : strlenBounded name maxName = (nameKey name).length := by
  unfold strlenBounded nameKey
  rw [CStr.strlenFrom_eq, Nat.zero_add]

/-! ## Inodes and directory entries -/

theorem setInode_agreeOn {inodes : Bytes} {ino kind size direct0 lo hi : Nat}
    (h : hi ≤ ino * inodeSize ∨ ino * inodeSize + 16 ≤ lo) :
    Bytes.AgreeOn (setInode inodes ino kind size direct0) inodes lo hi := by
  unfold setInode
  refine (Bytes.store_agreeOn (by omega)).trans ((Bytes.store_agreeOn (by omega)).trans
    ((Bytes.store_agreeOn (by omega)).trans (Bytes.store_agreeOn (by omega))))

/-- What an inode says. -/
def inodeView (inodes : Bytes) (ino : Nat) : Nat × Nat × Nat × Nat :=
  (iUsed inodes ino, iKind inodes ino, iSize inodes ino, iDirect0 inodes ino)

theorem inodeView_congr {a b : Bytes} {ino : Nat}
    (h : Bytes.AgreeOn a b (ino * inodeSize) (ino * inodeSize + 16)) :
    inodeView a ino = inodeView b ino := by
  unfold inodeView iUsed iKind iSize iDirect0
  rw [Bytes.load_congr (h.mono (le_refl _) (by omega)),
    Bytes.load_congr (h.mono (by omega) (by omega)),
    Bytes.load_congr (h.mono (by omega) (by omega)), Bytes.load_congr (h.mono (by omega) (by omega))]

theorem inodeView_setInode {inodes : Bytes} {ino kind size direct0 : Nat} (hk : kind < 256 ^ 4)
    (hs : size < 256 ^ 4) (hd : direct0 < 256 ^ 4) :
    inodeView (setInode inodes ino kind size direct0) ino = (1, kind, size, direct0) := by
  unfold inodeView iUsed iKind iSize iDirect0 setInode
  rw [Bytes.load_store_ne (by omega), Bytes.load_store_ne (by omega), Bytes.load_store_ne (by omega),
    Bytes.load_store_same (by decide), Bytes.load_store_ne (by omega),
    Bytes.load_store_ne (by omega), Bytes.load_store_same hk, Bytes.load_store_ne (by omega),
    Bytes.load_store_same hs, Bytes.load_store_same hd]

theorem inodeView_setInode_ne {inodes : Bytes} {ino j kind size direct0 : Nat} (h : j ≠ ino) :
    inodeView (setInode inodes ino kind size direct0) j = inodeView inodes j := by
  refine inodeView_congr (setInode_agreeOn ?_)
  unfold inodeSize
  omega

/-- What a directory entry says. -/
def direntView (dir : Bytes) (i : Nat) : Nat × Nat × List UInt8 :=
  (dUsed dir i, dIno dir i, nameKey (dName dir i))

theorem direntView_congr {a b : Bytes} {i : Nat}
    (h : Bytes.AgreeOn a b (i * direntSize) (i * direntSize + direntSize)) :
    direntView a i = direntView b i := by
  have hsize : direntSize = 8 + maxName := rfl
  have hname : nameKey (dName a i) = nameKey (dName b i) := by
    apply CStr.chars_congr_all
    intro k hk
    exact h _ (by omega) (by omega)
  unfold direntView dUsed dIno
  rw [hname, Bytes.load_congr (h.mono (le_refl _) (by omega)),
    Bytes.load_congr (h.mono (by omega) (by omega))]

theorem setDirent_agreeOn {dir name : Bytes} {i ino nameLen lo hi : Nat} (hlen : nameLen ≤ maxName)
    (h : hi ≤ i * direntSize ∨ i * direntSize + direntSize ≤ lo) :
    Bytes.AgreeOn (setDirent dir i ino name nameLen) dir lo hi := by
  have hsize : direntSize = 8 + maxName := rfl
  unfold setDirent
  refine (Bytes.copy_agreeOn (by omega)).trans ((Bytes.fill_agreeOn (by omega)).trans
    ((Bytes.store_agreeOn (by omega)).trans (Bytes.store_agreeOn (by omega))))

theorem direntView_setDirent_ne {dir name : Bytes} {i j ino nameLen : Nat}
    (hlen : nameLen ≤ maxName) (h : j ≠ i) :
    direntView (setDirent dir i ino name nameLen) j = direntView dir j := by
  refine direntView_congr (setDirent_agreeOn hlen ?_)
  unfold direntSize
  omega

/-- A name that is shorter than its field comes back from a directory entry. -/
theorem direntView_setDirent {dir name : Bytes} {i ino : Nat} (hino : ino < 256 ^ 4)
    (hlen : (nameKey name).length < maxName) :
    direntView (setDirent dir i ino name (nameKey name).length) i = (1, ino, nameKey name) := by
  have hkey : nameKey (dName (setDirent dir i ino name (nameKey name).length) i) =
      nameKey name := by
    apply CStr.chars_congr
    intro k hk hkn
    rw [Nat.zero_add]
    unfold dName setDirent
    rcases Nat.lt_or_eq_of_le hk with hlt | heq
    · have hlt' : k < (nameKey name).length := hlt
      rw [Bytes.copy_apply_of_mem (by omega) (by omega)]
      congr 1
      omega
    · -- the NUL comes from the zero fill
      have heq' : k = (nameKey name).length := heq
      have hend : name (0 + (nameKey name).length) = 0 := CStr.chars_end hlen
      rw [Bytes.copy_apply_of_ge (by omega), Bytes.fill_apply_of_mem (by omega) (by omega), heq',
        ← hend, Nat.zero_add]
  unfold direntView
  rw [hkey]
  unfold dUsed dIno setDirent
  rw [Bytes.load_copy_ne (by omega), Bytes.load_fill_ne (by omega),
    Bytes.load_store_ne (by omega), Bytes.load_store_same (by decide),
    Bytes.load_copy_ne (by omega), Bytes.load_fill_ne (by omega), Bytes.load_store_same hino]

/-! ## Sound metadata -/

/-- The entry in slot `i` refers to a file that is sound. -/
structure EntryOk (m : Meta) (i : Nat) : Prop where
  ino_lt : dIno m.dir i < maxInodes
  bit : Bitmap.test m.ib (dIno m.dir i) = true
  used : iUsed m.inodes (dIno m.dir i) ≠ 0
  kind : iKind m.inodes (dIno m.dir i) = 1
  size_le : iSize m.inodes (dIno m.dir i) ≤ blockSize
  direct_ge : dataStartLba ≤ iDirect0 m.inodes (dIno m.dir i)
  direct_lt : iDirect0 m.inodes (dIno m.dir i) < maxBlocks
  block_bit : Bitmap.test m.bb (iDirect0 m.inodes (dIno m.dir i)) = true

/-- Sound metadata: what `m16_fsck` checks, and no name twice. -/
structure MetaInv (m : Meta) : Prop where
  root_bit : Bitmap.test m.ib 0 = true
  root_used : iUsed m.inodes 0 = 1
  root_kind : iKind m.inodes 0 = 2
  root_direct : iDirect0 m.inodes 0 = rootDirLba
  system : ∀ b, b < dataStartLba → Bitmap.test m.bb b = true
  entries : ∀ i, i < dirCount → dUsed m.dir i ≠ 0 → EntryOk m i
  distinct : ∀ i j, i < dirCount → j < dirCount → dUsed m.dir i ≠ 0 → dUsed m.dir j ≠ 0 →
    nameKey (dName m.dir i) = nameKey (dName m.dir j) → i = j

/-- `a` has the directory of `b`, and of inodes and blocks what `b` has and perhaps more. -/
structure Grows (b a : Meta) : Prop where
  ib : ∀ i, i < maxInodes → Bitmap.test b.ib i = true → Bitmap.test a.ib i = true
  bb : ∀ i, i < maxBlocks → Bitmap.test b.bb i = true → Bitmap.test a.bb i = true
  inodes : ∀ i, i < maxInodes → Bitmap.test b.ib i = true →
    inodeView a.inodes i = inodeView b.inodes i
  dir : ∀ i, i < dirCount → direntView a.dir i = direntView b.dir i

theorem inodeView_eq_mk {inodes : Bytes} {i used kind size direct0 : Nat} :
    inodeView inodes i = (used, kind, size, direct0) ↔
      iUsed inodes i = used ∧ iKind inodes i = kind ∧ iSize inodes i = size ∧
        iDirect0 inodes i = direct0 := by
  unfold inodeView
  rw [Prod.mk.injEq, Prod.mk.injEq, Prod.mk.injEq]

theorem inodeView_eq_iff {a b : Bytes} {i j : Nat} : inodeView a i = inodeView b j ↔
    iUsed a i = iUsed b j ∧ iKind a i = iKind b j ∧ iSize a i = iSize b j ∧
      iDirect0 a i = iDirect0 b j := inodeView_eq_mk

theorem direntView_eq_mk {dir : Bytes} {i used ino : Nat} {key : List UInt8} :
    direntView dir i = (used, ino, key) ↔
      dUsed dir i = used ∧ dIno dir i = ino ∧ nameKey (dName dir i) = key := by
  unfold direntView
  rw [Prod.mk.injEq, Prod.mk.injEq]

theorem direntView_eq_iff {a b : Bytes} {i j : Nat} : direntView a i = direntView b j ↔
    dUsed a i = dUsed b j ∧ dIno a i = dIno b j ∧
      nameKey (dName a i) = nameKey (dName b j) := direntView_eq_mk

/-- The file in slot `i` is the same after growing. -/
theorem Grows.slot {b a : Meta} (g : Grows b a) {i : Nat} (hi : i < dirCount) (h : EntryOk b i) :
    dIno a.dir i = dIno b.dir i ∧
      iUsed a.inodes (dIno a.dir i) = iUsed b.inodes (dIno b.dir i) ∧
      iKind a.inodes (dIno a.dir i) = iKind b.inodes (dIno b.dir i) ∧
      iSize a.inodes (dIno a.dir i) = iSize b.inodes (dIno b.dir i) ∧
      iDirect0 a.inodes (dIno a.dir i) = iDirect0 b.inodes (dIno b.dir i) := by
  have hino := (direntView_eq_iff.mp (g.dir i hi)).2.1
  have hview := inodeView_eq_iff.mp (g.inodes _ h.ino_lt h.bit)
  rw [hino]
  exact ⟨rfl, hview⟩

theorem EntryOk.grows {b a : Meta} (g : Grows b a) {i : Nat} (hi : i < dirCount)
    (h : EntryOk b i) : EntryOk a i := by
  obtain ⟨hino, hused, hkind, hsize, hdirect⟩ := g.slot hi h
  refine ⟨?_, ?_, ?_, ?_, ?_, ?_, ?_, ?_⟩
  · rw [hino]
    exact h.ino_lt
  · rw [hino]
    exact g.ib _ h.ino_lt h.bit
  · rw [hused]
    exact h.used
  · rw [hkind]
    exact h.kind
  · rw [hsize]
    exact h.size_le
  · rw [hdirect]
    exact h.direct_ge
  · rw [hdirect]
    exact h.direct_lt
  · rw [hdirect]
    exact g.bb _ h.direct_lt h.block_bit

theorem MetaInv.grows {b a : Meta} (h : MetaInv b) (g : Grows b a) : MetaInv a := by
  have hroot := inodeView_eq_iff.mp (g.inodes 0 (by decide) h.root_bit)
  refine ⟨g.ib 0 (by decide) h.root_bit, hroot.1.trans h.root_used, hroot.2.1.trans h.root_kind,
    hroot.2.2.2.trans h.root_direct, fun i hi => ?_, fun i hi hu => ?_,
    fun i j hi hj hui huj hk => ?_⟩
  · exact g.bb i (lt_trans hi (by decide)) (h.system i hi)
  · rw [(direntView_eq_iff.mp (g.dir i hi)).1] at hu
    exact (h.entries i hi hu).grows g hi
  · obtain ⟨hi1, -, hi3⟩ := direntView_eq_iff.mp (g.dir i hi)
    obtain ⟨hj1, -, hj3⟩ := direntView_eq_iff.mp (g.dir j hj)
    rw [hi1] at hui
    rw [hj1] at huj
    rw [hi3, hj3] at hk
    exact h.distinct i j hi hj hui huj hk

/-- The metadata after the first transaction of a write. -/
def addInode (m : Meta) (ino dataBlock size : Nat) : Meta :=
  { m with ib := Bitmap.set m.ib ino, bb := Bitmap.set m.bb dataBlock,
           inodes := setInode m.inodes ino 1 size dataBlock }

/-- Taking a free inode and a free block only adds. -/
theorem grows_addInode {m : Meta} {ino dataBlock size : Nat}
    (hino : Bitmap.test m.ib ino = false) : Grows m (addInode m ino dataBlock size) where
  ib := fun _ _ h => Bitmap.test_set_mono h
  bb := fun _ _ h => Bitmap.test_set_mono h
  inodes := fun i _ h => by
    refine inodeView_setInode_ne ?_
    rintro rfl
    rw [hino] at h
    cases h
  dir := fun _ _ => rfl

/-- A new entry in the directory. -/
def addDirent (m : Meta) (slot ino : Nat) (name : Bytes) : Meta :=
  { m with dir := setDirent m.dir slot ino name (nameKey name).length }

/-- What makes a new entry sound. -/
structure NewEntry (m : Meta) (slot ino dataBlock size : Nat) (name : Bytes) : Prop where
  slot_lt : slot < dirCount
  slot_free : dUsed m.dir slot = 0
  name_lt : (nameKey name).length < maxName
  name_new : ∀ i, i < dirCount → dUsed m.dir i ≠ 0 → nameKey (dName m.dir i) ≠ nameKey name
  ino_lt : ino < maxInodes
  bit : Bitmap.test m.ib ino = true
  inode : inodeView m.inodes ino = (1, 1, size, dataBlock)
  size_le : size ≤ blockSize
  direct_ge : dataStartLba ≤ dataBlock
  direct_lt : dataBlock < maxBlocks
  block_bit : Bitmap.test m.bb dataBlock = true

section NewEntry

variable {m : Meta} {slot ino dataBlock size : Nat} {name : Bytes}

theorem NewEntry.view (n : NewEntry m slot ino dataBlock size name) :
    dUsed (addDirent m slot ino name).dir slot = 1 ∧
      dIno (addDirent m slot ino name).dir slot = ino ∧
      nameKey (dName (addDirent m slot ino name).dir slot) = nameKey name :=
  direntView_eq_mk.mp (direntView_setDirent (lt_trans n.ino_lt (by decide)) n.name_lt)

theorem NewEntry.view_ne (n : NewEntry m slot ino dataBlock size name) {i : Nat} (h : i ≠ slot) :
    dUsed (addDirent m slot ino name).dir i = dUsed m.dir i ∧
      dIno (addDirent m slot ino name).dir i = dIno m.dir i ∧
      nameKey (dName (addDirent m slot ino name).dir i) = nameKey (dName m.dir i) :=
  direntView_eq_iff.mp (direntView_setDirent_ne (le_of_lt n.name_lt) h)

theorem NewEntry.entryOk (n : NewEntry m slot ino dataBlock size name) :
    EntryOk (addDirent m slot ino name) slot := by
  have hino := n.view.2.1
  obtain ⟨hused, hkind, hsize, hdirect⟩ := inodeView_eq_mk.mp n.inode
  refine ⟨?_, ?_, ?_, ?_, ?_, ?_, ?_, ?_⟩
  · rw [hino]
    exact n.ino_lt
  · rw [hino]
    exact n.bit
  · rw [hino, show iUsed (addDirent m slot ino name).inodes ino = 1 from hused]
    decide
  · rw [hino]
    exact hkind
  · rw [hino]
    exact hsize.le.trans n.size_le
  · rw [hino]
    exact n.direct_ge.trans hdirect.ge
  · rw [hino]
    exact hdirect.trans_lt n.direct_lt
  · rw [hino, show iDirect0 (addDirent m slot ino name).inodes ino = dataBlock from hdirect]
    exact n.block_bit

theorem NewEntry.entryOk_ne (n : NewEntry m slot ino dataBlock size name) {i : Nat} (hi : i ≠ slot)
    (h : EntryOk m i) : EntryOk (addDirent m slot ino name) i := by
  have hino := (n.view_ne hi).2.1
  obtain ⟨h1, h2, h3, h4, h5, h6, h7, h8⟩ := h
  rw [← hino] at h1 h2 h3 h4 h5 h6 h7 h8
  exact ⟨h1, h2, h3, h4, h5, h6, h7, h8⟩

theorem MetaInv.addDirent (h : MetaInv m) (n : NewEntry m slot ino dataBlock size name) :
    MetaInv (addDirent m slot ino name) := by
  refine ⟨h.root_bit, h.root_used, h.root_kind, h.root_direct, h.system, fun i hi hu => ?_,
    fun i j hi hj hui huj hk => ?_⟩
  · by_cases his : i = slot
    · subst his
      exact n.entryOk
    · rw [(n.view_ne his).1] at hu
      exact n.entryOk_ne his (h.entries i hi hu)
  · -- the new name is at none of the other slots
    by_cases his : i = slot <;> by_cases hjs : j = slot
    · exact his.trans hjs.symm
    · subst his
      obtain ⟨hju, -, hjk⟩ := n.view_ne hjs
      rw [hju] at huj
      rw [n.view.2.2, hjk] at hk
      exact absurd hk.symm (n.name_new j hj huj)
    · subst hjs
      obtain ⟨hiu, -, hik⟩ := n.view_ne his
      rw [hiu] at hui
      rw [n.view.2.2, hik] at hk
      exact absurd hk (n.name_new i hi hui)
    · obtain ⟨hiu, -, hik⟩ := n.view_ne his
      obtain ⟨hju, -, hjk⟩ := n.view_ne hjs
      rw [hiu] at hui
      rw [hju] at huj
      rw [hik, hjk] at hk
      exact h.distinct i j hi hj hui huj hk

end NewEntry

/-! ## The files of an image -/

/-- Names and the contents of the files that have them. -/
abbrev Files := List UInt8 → Option (List UInt8)

/-- The contents of the file in slot `i`. -/
def slotData (m : Meta) (blocks : Nat → Bytes) (i : Nat) : List UInt8 :=
  (blocks (iDirect0 m.inodes (dIno m.dir i))).slice 0 (iSize m.inodes (dIno m.dir i))

/-- The used slot that has the name. -/
def slotOf (m : Meta) (key : List UInt8) : Option Nat :=
  Loop.findFrom (fun i => decide (dUsed m.dir i ≠ 0) && decide (nameKey (dName m.dir i) = key))
    0 dirCount

/-- The files that metadata and data blocks make up. -/
def metaFiles (m : Meta) (blocks : Nat → Bytes) : Files := fun key =>
  (slotOf m key).map (slotData m blocks)

theorem findDirent_eq (m : Meta) (name : Bytes) :
    findDirent m.dir name = slotOf m (nameKey name) := by
  unfold findDirent slotOf
  congr 1
  funext i
  congr 1
  rw [Bool.eq_iff_iff, streq_iff, decide_eq_true_iff]

theorem slotOf_some {m : Meta} {key : List UInt8} {i : Nat} (h : slotOf m key = some i) :
    i < dirCount ∧ dUsed m.dir i ≠ 0 ∧ nameKey (dName m.dir i) = key := by
  obtain ⟨-, hi, hp, -⟩ := Loop.findFrom_some_iff.mp h
  rw [Bool.and_eq_true, decide_eq_true_iff, decide_eq_true_iff] at hp
  exact ⟨by omega, hp.1, hp.2⟩

theorem slotOf_none_iff {m : Meta} {key : List UInt8} : slotOf m key = none ↔
    ∀ i, i < dirCount → dUsed m.dir i ≠ 0 → nameKey (dName m.dir i) ≠ key := by
  unfold slotOf
  rw [Loop.findFrom_none_iff]
  constructor
  · intro h i hi hu hk
    have hp := h i (Nat.zero_le i) (by omega)
    rw [Bool.and_eq_false_iff, decide_eq_false_iff_not, decide_eq_false_iff_not] at hp
    rcases hp with hp | hp
    · exact hp hu
    · exact hp hk
  · intro h i _ hi
    rw [Bool.and_eq_false_iff, decide_eq_false_iff_not, decide_eq_false_iff_not]
    by_cases hu : dUsed m.dir i = 0
    · exact Or.inl (not_not.mpr hu)
    · exact Or.inr (h i (by omega) hu)

theorem metaFiles_eq_none_iff {m : Meta} {blocks : Nat → Bytes} {key : List UInt8} :
    metaFiles m blocks key = none ↔
      ∀ i, i < dirCount → dUsed m.dir i ≠ 0 → nameKey (dName m.dir i) ≠ key := by
  unfold metaFiles
  rw [Option.map_eq_none_iff, slotOf_none_iff]

/-- The file of a name is the one in the used slot with the name. -/
theorem MetaInv.metaFiles_eq {m : Meta} (h : MetaInv m) (blocks : Nat → Bytes) {i : Nat}
    (hi : i < dirCount) (hu : dUsed m.dir i ≠ 0) :
    metaFiles m blocks (nameKey (dName m.dir i)) = some (slotData m blocks i) := by
  rcases hs : slotOf m (nameKey (dName m.dir i)) with _ | j
  · exact absurd rfl (slotOf_none_iff.mp hs i hi hu)
  · obtain ⟨hj, huj, hk⟩ := slotOf_some hs
    have hij := h.distinct j i hj hi huj hu hk
    unfold metaFiles
    rw [hs, hij]
    rfl

theorem MetaInv.metaFiles_some_iff {m : Meta} (h : MetaInv m) {blocks : Nat → Bytes}
    {key data : List UInt8} : metaFiles m blocks key = some data ↔
      ∃ i, i < dirCount ∧ dUsed m.dir i ≠ 0 ∧ nameKey (dName m.dir i) = key ∧
        slotData m blocks i = data := by
  constructor
  · intro hd
    unfold metaFiles at hd
    obtain ⟨i, hs, hdata⟩ := Option.map_eq_some_iff.mp hd
    obtain ⟨hi, hu, hk⟩ := slotOf_some hs
    exact ⟨i, hi, hu, hk, hdata⟩
  · rintro ⟨i, hi, hu, rfl, rfl⟩
    exact h.metaFiles_eq blocks hi hu

/-- Files are the same after growing, if their blocks are. -/
theorem metaFiles_grows {b a : Meta} {blocks blocks' : Nat → Bytes} (h : MetaInv b)
    (g : Grows b a) (hblocks : ∀ lba, dataStartLba ≤ lba → Bitmap.test b.bb lba = true →
      blocks' lba = blocks lba) : metaFiles a blocks' = metaFiles b blocks := by
  have hdata : ∀ i, i < dirCount → dUsed b.dir i ≠ 0 →
      slotData a blocks' i = slotData b blocks i := fun i hi hu => by
    have hok := h.entries i hi hu
    obtain ⟨-, -, -, hsize, hdirect⟩ := g.slot hi hok
    unfold slotData
    rw [hsize, hdirect, hblocks _ hok.direct_ge hok.block_bit]
  funext key
  rcases hb : metaFiles b blocks key with _ | data
  · rw [metaFiles_eq_none_iff] at hb ⊢
    intro i hi hu
    obtain ⟨h1, -, h3⟩ := direntView_eq_iff.mp (g.dir i hi)
    rw [h1] at hu
    rw [h3]
    exact hb i hi hu
  · obtain ⟨i, hi, hu, hk, hd⟩ := h.metaFiles_some_iff.mp hb
    obtain ⟨h1, -, h3⟩ := direntView_eq_iff.mp (g.dir i hi)
    refine (h.grows g).metaFiles_some_iff.mpr ⟨i, hi, ?_, h3.trans hk, (hdata i hi hu).trans hd⟩
    rw [h1]
    exact hu

/-- The new entry adds its file. -/
theorem metaFiles_addDirent {m : Meta} {slot ino dataBlock size : Nat} {name : Bytes}
    (h : MetaInv m) (n : NewEntry m slot ino dataBlock size name) (blocks : Nat → Bytes) :
    metaFiles (addDirent m slot ino name) blocks =
      Function.update (metaFiles m blocks) (nameKey name)
        (some ((blocks dataBlock).slice 0 size)) := by
  have h' := h.addDirent n
  funext key
  by_cases hkey : key = nameKey name
  · subst hkey
    obtain ⟨hu, hino, hk⟩ := n.view
    obtain ⟨-, -, hsize, hdirect⟩ := inodeView_eq_mk.mp n.inode
    rw [Function.update_self]
    refine h'.metaFiles_some_iff.mpr ⟨slot, n.slot_lt, by rw [hu]; decide, hk, ?_⟩
    unfold slotData
    rw [hino, show iSize (addDirent m slot ino name).inodes ino = size from hsize,
      show iDirect0 (addDirent m slot ino name).inodes ino = dataBlock from hdirect]
  · rw [Function.update_of_ne hkey]
    rcases hb : metaFiles m blocks key with _ | data
    · rw [metaFiles_eq_none_iff] at hb ⊢
      intro i hi hu
      by_cases his : i = slot
      · rw [his, n.view.2.2]
        exact Ne.symm hkey
      · obtain ⟨h1, -, h3⟩ := n.view_ne his
        rw [h1] at hu
        rw [h3]
        exact hb i hi hu
    · obtain ⟨i, hi, hu, hk, hd⟩ := h.metaFiles_some_iff.mp hb
      have his : i ≠ slot := by
        rintro rfl
        exact hu n.slot_free
      obtain ⟨h1, h2, h3⟩ := n.view_ne his
      refine h'.metaFiles_some_iff.mpr ⟨i, hi, by rw [h1]; exact hu, h3.trans hk, ?_⟩
      rw [← hd]
      unfold slotData
      rw [h2]
      rfl

end Mcsos.Mcsfs1j
