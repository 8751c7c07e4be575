import Mcsos.Mcsfs1j.FsAccount

set_option autoImplicit false

/-! # What the journalled file system is for

A store of files by name that cannot be changed once they are written. It has room for 12 names,
and 15 files can be begun: a write that is cut between its two transactions has begun a file that
has no name, and nothing takes it back. The store counts them, and it knows whether the device may
stop. `Keeps` says that an image has the files of a store.
-/

namespace Mcsos.Mcsfs1j

/-- The files by their names, how many there are, how many have been begun and lost, and whether
the device takes every write. -/
structure Store where
  files : Files
  used : Nat
  lost : Nat
  power : Bool

/-- Why the arguments of a write are refused. -/
def argError (key : List UInt8) (size : Nat) : Option M16Err :=
  if key = [] ∨ maxName ≤ key.length then some .toolong
  else if blockSize < size then some .inval
  else none

namespace Store

/-- A store without files. -/
def empty (power : Bool) : Store := ⟨fun _ => none, 0, 0, power⟩

/-- Why a new file is refused. -/
def refusal (st : Store) (key : List UInt8) : Option M16Err :=
  if (st.files key).isSome then some .exists
  else if st.used = dirCount ∨ st.used + st.lost = maxInodes - 1 then some .nospc
  else none

/-- A new file. -/
def add (st : Store) (key data : List UInt8) : Store :=
  { st with files := Function.update st.files key (some data), used := st.used + 1 }

/-- A file that is begun and lost. -/
def lose (st : Store) : Store := { st with lost := st.lost + 1 }

/-- What may be answered to a write, and the store after it. -/
inductive Writes (st : Store) (key data : List UInt8) :
    Except M16Err (List UInt8) → Store → Prop
  | bad {e : M16Err} (harg : argError key data.length = some e) : Writes st key data (.error e) st
  | refused {e : M16Err} (harg : argError key data.length = none)
      (hrefusal : st.refusal key = some e) : Writes st key data (.error e) st
  | done (harg : argError key data.length = none) (hrefusal : st.refusal key = none) :
      Writes st key data (.ok []) (st.add key data)
  | cut (harg : argError key data.length = none) (hpower : st.power = false) :
      Writes st key data (.error .io) st
  | lost (harg : argError key data.length = none) (hrefusal : st.refusal key = none)
      (hpower : st.power = false) : Writes st key data (.error .io) st.lose
  | late (harg : argError key data.length = none) (hrefusal : st.refusal key = none)
      (hpower : st.power = false) : Writes st key data (.error .io) (st.add key data)

/-- What may be answered to a call, and the store after it. -/
inductive Answers (st : Store) : Op → Except M16Err (List UInt8) → Store → Prop
  | writeFile {name data : Bytes} {size : Nat} {r : Except M16Err (List UInt8)} {st' : Store}
      (hw : st.Writes (nameKey name) (data.slice 0 size) r st') :
      Answers st (.writeFile name data size) r st'
  | writeFileStop {name data : Bytes} {size : Nat} {r : Except M16Err (List UInt8)} {st' : Store}
      (hw : st.Writes (nameKey name) (data.slice 0 size) r st') :
      Answers st (.writeFileStop name data size) r st'
  | readFile (name : Bytes) (outCap : Nat) :
      Answers st (.readFile name outCap) (readSpec st.files (nameKey name) outCap) st
  | fsck : Answers st .fsck (.ok []) st
  | mount : Answers st .mount (.ok []) st
  | journalRecover : Answers st .journalRecover (.ok []) st
  | cut {op : Op} (hop : op.file = none) (hpower : st.power = false) :
      Answers st op (.error .io) st

end Store

/-! ## Counting slots and inodes -/

/-- The slots of the directory that are in use. -/
def usedSlots (m : Meta) : Finset Nat := (Finset.range dirCount).filter fun i => dUsed m.dir i ≠ 0

/-- The inodes of files that are marked. -/
def markedInodes (m : Meta) : Finset Nat :=
  (Finset.Ico 1 maxInodes).filter fun i => Bitmap.test m.ib i = true

theorem mem_markedInodes {m : Meta} {i : Nat} : i ∈ markedInodes m ↔ Marked m i := by
  rw [markedInodes, Finset.mem_filter, Finset.mem_Ico, and_assoc]
  exact Iff.rfl

section

variable {m a b : Meta}

/-- No slot is free exactly if all are used. -/
theorem findFreeDirent_none_iff : findFreeDirent m.dir = none ↔ (usedSlots m).card = dirCount := by
  have hcard : (usedSlots m).card = (Finset.range dirCount).card ↔
      ∀ i ∈ Finset.range dirCount, dUsed m.dir i ≠ 0 := Finset.card_filter_eq_iff
  rw [Finset.card_range] at hcard
  rw [hcard, findFreeDirent, Loop.findFrom_none_iff]
  simp

/-- No inode is free exactly if all 15 are marked. -/
theorem findFreeInode_none_iff :
    findFreeInode m.ib = none ↔ (markedInodes m).card = maxInodes - 1 := by
  have hcard : (markedInodes m).card = (Finset.Ico 1 maxInodes).card ↔
      ∀ i ∈ Finset.Ico 1 maxInodes, Bitmap.test m.ib i = true := Finset.card_filter_eq_iff
  rw [Nat.card_Ico] at hcard
  rw [hcard, findFreeInode, Loop.findFrom_none_iff]
  simp [maxInodes]

/-- The data blocks are more than the inodes, so one is free. -/
theorem Accounted.findFreeBlock (h : Accounted m) : ∃ b, findFreeBlock m.bb = some b := by
  apply Option.ne_none_iff_exists'.mp
  intro hnone
  have hall := Loop.findFrom_none_iff.mp hnone
  have hsub : Finset.Ico dataStartLba maxBlocks ⊆ (markedInodes m).image (iDirect0 m.inodes) := by
    intro b hb
    obtain ⟨hge, hlt⟩ := Finset.mem_Ico.mp hb
    have hbit := hall b hge (by omega)
    obtain ⟨i, hi, hd⟩ := (h.block_iff b hge hlt).mp (by simpa using hbit)
    exact Finset.mem_image.mpr ⟨i, mem_markedInodes.mpr hi, hd⟩
  have hfiles : (markedInodes m).card ≤ (Finset.Ico 1 maxInodes).card := Finset.card_filter_le _ _
  have hblocks : (Finset.Ico dataStartLba maxBlocks).card ≤ (markedInodes m).card :=
    le_trans (Finset.card_le_card hsub) Finset.card_image_le
  rw [Nat.card_Ico] at hfiles hblocks
  exact absurd (le_trans hblocks hfiles) (by decide)

theorem SameMeta.usedSlots_eq (h : SameMeta b a) : usedSlots a = usedSlots b := by
  refine Finset.filter_congr fun i hi => ?_
  rw [(direntView_eq_iff.mp (h.dir i (Finset.mem_range.mp hi))).1]

theorem SameMeta.markedInodes_eq (h : SameMeta b a) : markedInodes a = markedInodes b := by
  ext i
  rw [mem_markedInodes, mem_markedInodes, h.marked_iff]

theorem addInode_markedInodes {ino dataBlock size : Nat} (hpos : 0 < ino) (hlt : ino < maxInodes) :
    markedInodes (addInode m ino dataBlock size) = insert ino (markedInodes m) := by
  ext i
  rw [Finset.mem_insert, mem_markedInodes, mem_markedInodes, addInode_marked_iff hpos hlt, or_comm]

theorem NewEntry.usedSlots {slot ino dataBlock size : Nat} {name : Bytes}
    (n : NewEntry m slot ino dataBlock size name) :
    usedSlots (addDirent m slot ino name) = insert slot (usedSlots m) := by
  ext i
  simp only [Mcsfs1j.usedSlots, Finset.mem_insert, Finset.mem_filter, Finset.mem_range]
  by_cases hi : i = slot
  · rw [hi, n.view.1]
    exact iff_of_true ⟨n.slot_lt, Nat.one_ne_zero⟩ (Or.inl rfl)
  · rw [(n.view_ne hi).1]
    simp [hi]

end

/-! ## Images and stores -/

/-- The image has the files of the store. -/
structure Keeps (c : Nat → Bytes) (st : Store) : Prop where
  accounted : Accounted (metaOf c)
  files : filesOf c = st.files
  used : (usedSlots (metaOf c)).card = st.used
  begun : (markedInodes (metaOf c)).card = st.used + st.lost

section

variable {c : Nat → Bytes} {st : Store} {name : Bytes} {ino dataBlock slot size : Nat}

theorem Keeps.found (h : Keeps c st) (name : Bytes) :
    (findDirent (metaOf c).dir name).isSome = (st.files (nameKey name)).isSome := by
  rw [← h.files, findDirent_eq, filesOf, metaFiles, Option.isSome_map]

/-- What the store refuses, the file system refuses before it writes anything. -/
theorem Keeps.refused (h : Keeps c st) {e : M16Err} (hr : st.refusal (nameKey name) = some e)
    (sb data : Bytes) (nameLen : Nat) (stop : Bool) (dev : Blockdev) :
    writeNew sb (metaOf c) name data size nameLen stop dev = (.error e, dev) := by
  unfold Store.refusal at hr
  rw [← h.found] at hr
  unfold writeNew
  by_cases hname : (findDirent (metaOf c).dir name).isSome = true
  · rw [if_pos hname] at hr
    obtain rfl := Option.some.inj hr
    exact Prog.bind_error (Prog.failIf_pos hname _ _)
  · rw [if_neg hname] at hr
    rw [Prog.bind_ok (Prog.failIf_neg hname _ _)]
    by_cases hfull : st.used = dirCount ∨ st.used + st.lost = maxInodes - 1
    · rw [if_pos hfull] at hr
      obtain rfl := Option.some.inj hr
      -- the inode is looked for before the slot, and both errors are the same
      rcases hino : findFreeInode (metaOf c).ib with _ | ino
      · exact Prog.bind_error (Prog.ofOption_none _ _)
      · obtain ⟨b, hb⟩ := h.accounted.findFreeBlock
        have hslot : findFreeDirent (metaOf c).dir = none := by
          rw [findFreeDirent_none_iff, h.used]
          refine hfull.resolve_right fun hlost => ?_
          rw [findFreeInode_none_iff.mpr (h.begun.trans hlost)] at hino
          cases hino
        rw [Prog.bind_ok (Prog.ofOption_some _ _ _), hb, Prog.bind_ok (Prog.ofOption_some _ _ _),
          hslot]
        exact Prog.bind_error (Prog.ofOption_none _ _)
    · rw [if_neg hfull] at hr
      cases hr

theorem imageMid_markedInodes (f : FreeFor (metaOf c) name ino dataBlock slot size) :
    (markedInodes (metaOf (imageMid c name ino dataBlock slot size))).card =
      (markedInodes (metaOf c)).card + 1 := by
  obtain ⟨hlt, hfree⟩ := findFreeInode_some f.ino
  rw [sameMeta_imageMid.markedInodes_eq, addInode_markedInodes (findFreeInode_pos f.ino) hlt]
  apply Finset.card_insert_of_notMem
  intro hmem
  rw [(mem_markedInodes.mp hmem).2.2] at hfree
  cases hfree

/-- The image between the two transactions. -/
theorem Keeps.lose (h : Keeps c st) (hinv : ImageInv c)
    (f : FreeFor (metaOf c) name ino dataBlock slot size) :
    Keeps (imageMid c name ino dataBlock slot size) st.lose := by
  refine ⟨(imageMid_accounted h.accounted f).1, (imageMid_inv hinv f).2.trans h.files, ?_, ?_⟩
  · rw [sameMeta_imageMid.usedSlots_eq]
    exact h.used
  · rw [imageMid_markedInodes f, h.begun]
    exact Nat.add_assoc _ _ _

/-- The image after both. -/
theorem Keeps.add (h : Keeps c st) (hinv : ImageInv c) (data : Bytes)
    (f : FreeFor (metaOf c) name ino dataBlock slot size) :
    Keeps (imageNew c name data ino dataBlock slot size)
      (st.add (nameKey name) (data.slice 0 size)) := by
  have hnew := newEntry_imageMid f
  have hsame : SameMeta (addDirent (metaOf (imageMid c name ino dataBlock slot size)) slot ino name)
      (metaOf (imageNew c name data ino dataBlock slot size)) :=
    sameMeta_imageNew data (findFreeBlock_some f.dataBlock).1
  refine ⟨(imageNew_accounted data h.accounted f).1, ?_, ?_, ?_⟩
  · rw [(imageNew_inv data hinv f).2, h.files]
    rfl
  · rw [hsame.usedSlots_eq, hnew.usedSlots, Finset.card_insert_of_notMem,
      sameMeta_imageMid.usedSlots_eq]
    · exact congrArg (· + 1) h.used
    · intro hmem
      exact (Finset.mem_filter.mp hmem).2 hnew.slot_free
  · have hmarked : markedInodes (metaOf (imageNew c name data ino dataBlock slot size)) =
        markedInodes (metaOf (imageMid c name ino dataBlock slot size)) := hsame.markedInodes_eq
    rw [hmarked, imageMid_markedInodes f, h.begun]
    exact Nat.add_right_comm _ _ _

end

end Mcsos.Mcsfs1j
