import Mcsos.Mcsfs1j.FsRuns

set_option autoImplicit false

/-! # Who owns the inodes and blocks

Every marked inode has a block of its own, and there are no other marked blocks. Every directory
entry has an inode of its own. What need not be is that every marked inode has an entry: a write
that is cut between its two transactions leaves an orphan, and `m16_mount` does not take it back.
There are at most as many orphans as writes that have returned `IO`.
-/

namespace Mcsos.Mcsfs1j

open WriteLog

/-! ## Orphans -/

/-- Inode `i` of a file is marked. -/
def Marked (m : Meta) (i : Nat) : Prop := 0 < i ∧ i < maxInodes ∧ Bitmap.test m.ib i = true

/-- The entry in slot `s` is in use and refers to inode `i`. -/
def Refers (m : Meta) (s i : Nat) : Prop := dUsed m.dir s ≠ 0 ∧ dIno m.dir s = i

/-- Some entry refers to inode `i`. -/
def Referred (m : Meta) (i : Nat) : Prop := ∃ s, s < dirCount ∧ Refers m s i

instance (m : Meta) (i : Nat) : Decidable (Marked m i) := inferInstanceAs (Decidable (_ ∧ _))

instance (m : Meta) (s i : Nat) : Decidable (Refers m s i) := inferInstanceAs (Decidable (_ ∧ _))

instance (m : Meta) (i : Nat) : Decidable (Referred m i) :=
  inferInstanceAs (Decidable (∃ s, s < dirCount ∧ Refers m s i))

/-- The marked inodes without an entry. -/
def orphans (m : Meta) : Finset Nat :=
  (Finset.range maxInodes).filter (fun i => Marked m i ∧ ¬Referred m i)

theorem mem_orphans {m : Meta} {i : Nat} : i ∈ orphans m ↔ Marked m i ∧ ¬Referred m i := by
  unfold orphans
  rw [Finset.mem_filter, Finset.mem_range]
  exact ⟨fun h => h.2, fun h => ⟨h.1.2.1, h⟩⟩

/-- Inodes, blocks and entries own each other one to one, but for orphans. -/
structure Accounted (m : Meta) : Prop where
  used_iff : ∀ i, i < maxInodes → (Bitmap.test m.ib i = true ↔ iUsed m.inodes i = 1)
  direct_ge : ∀ i, Marked m i → dataStartLba ≤ iDirect0 m.inodes i
  direct_lt : ∀ i, Marked m i → iDirect0 m.inodes i < maxBlocks
  block_iff : ∀ b, dataStartLba ≤ b → b < maxBlocks →
    (Bitmap.test m.bb b = true ↔ ∃ i, Marked m i ∧ iDirect0 m.inodes i = b)
  block_one : ∀ i j, Marked m i → Marked m j → iDirect0 m.inodes i = iDirect0 m.inodes j → i = j
  entry_marked : ∀ s i, s < dirCount → Refers m s i → Marked m i
  entry_one : ∀ s t i, s < dirCount → t < dirCount → Refers m s i → Refers m t i → s = t

/-- Inodes, blocks and entries own each other one to one. -/
structure Exact (m : Meta) : Prop where
  inode_iff : ∀ i, 0 < i → i < maxInodes → (Bitmap.test m.ib i = true ↔ Referred m i)
  used_iff : ∀ i, 0 < i → i < maxInodes → (iUsed m.inodes i = 1 ↔ Referred m i)
  block_iff : ∀ b, dataStartLba ≤ b → b < maxBlocks → (Bitmap.test m.bb b = true ↔
    ∃ i, Marked m i ∧ Referred m i ∧ iDirect0 m.inodes i = b)

/-- Without orphans nothing is lost. -/
theorem Accounted.exact {m : Meta} (h : Accounted m) (hno : orphans m = ∅) : Exact m := by
  have hreferred : ∀ i, Marked m i → Referred m i := fun i hi => by
    by_contra hn
    have hmem := mem_orphans.mpr ⟨hi, hn⟩
    rw [hno] at hmem
    exact absurd hmem (Finset.notMem_empty i)
  have hinode : ∀ i, 0 < i → i < maxInodes → (Bitmap.test m.ib i = true ↔ Referred m i) :=
    fun i hpos hlt => ⟨fun hb => hreferred i ⟨hpos, hlt, hb⟩,
      fun ⟨s, hs, hr⟩ => (h.entry_marked s i hs hr).2.2⟩
  refine ⟨hinode, fun i hpos hlt => (h.used_iff i hlt).symm.trans (hinode i hpos hlt),
    fun b hge hlt => ?_⟩
  rw [h.block_iff b hge hlt]
  constructor
  · rintro ⟨i, hi, hd⟩
    exact ⟨i, hi, hreferred i hi, hd⟩
  · rintro ⟨i, hi, -, hd⟩
    exact ⟨i, hi, hd⟩

section Same

variable {a b : Meta}

theorem SameMeta.marked_iff (h : SameMeta b a) (i : Nat) : Marked a i ↔ Marked b i := by
  constructor
  · rintro ⟨hpos, hlt, hb⟩
    exact ⟨hpos, hlt, (h.ib i hlt).symm.trans hb⟩
  · rintro ⟨hpos, hlt, hb⟩
    exact ⟨hpos, hlt, (h.ib i hlt).trans hb⟩

theorem SameMeta.refers_iff (h : SameMeta b a) {s : Nat} (hs : s < dirCount) (i : Nat) :
    Refers a s i ↔ Refers b s i := by
  obtain ⟨hused, hino, -⟩ := direntView_eq_iff.mp (h.dir s hs)
  unfold Refers
  rw [hused, hino]

theorem SameMeta.referred_iff (h : SameMeta b a) (i : Nat) : Referred a i ↔ Referred b i := by
  constructor
  · rintro ⟨s, hs, hr⟩
    exact ⟨s, hs, (h.refers_iff hs i).mp hr⟩
  · rintro ⟨s, hs, hr⟩
    exact ⟨s, hs, (h.refers_iff hs i).mpr hr⟩

theorem SameMeta.orphans_eq (h : SameMeta b a) : orphans a = orphans b := by
  ext i
  rw [mem_orphans, mem_orphans, h.marked_iff, h.referred_iff]

theorem SameMeta.direct_eq (h : SameMeta b a) {i : Nat} (hi : Marked b i) :
    iDirect0 a.inodes i = iDirect0 b.inodes i :=
  (inodeView_eq_iff.mp (h.inodes i hi.2.1)).2.2.2

theorem Accounted.same (hb : Accounted b) (h : SameMeta b a) : Accounted a where
  used_iff := fun i hi => by
    rw [h.ib i hi, (inodeView_eq_iff.mp (h.inodes i hi)).1]
    exact hb.used_iff i hi
  direct_ge := fun i hi => by
    have hi' := (h.marked_iff i).mp hi
    rw [h.direct_eq hi']
    exact hb.direct_ge i hi'
  direct_lt := fun i hi => by
    have hi' := (h.marked_iff i).mp hi
    rw [h.direct_eq hi']
    exact hb.direct_lt i hi'
  block_iff := fun d hge hlt => by
    rw [h.bb d hlt, hb.block_iff d hge hlt]
    constructor
    · rintro ⟨i, hi, hd⟩
      exact ⟨i, (h.marked_iff i).mpr hi, (h.direct_eq hi).trans hd⟩
    · rintro ⟨i, hi, hd⟩
      have hi' := (h.marked_iff i).mp hi
      exact ⟨i, hi', (h.direct_eq hi').symm.trans hd⟩
  block_one := fun i j hi hj hd => by
    have hi' := (h.marked_iff i).mp hi
    have hj' := (h.marked_iff j).mp hj
    rw [h.direct_eq hi', h.direct_eq hj'] at hd
    exact hb.block_one i j hi' hj' hd
  entry_marked := fun s i hs hr =>
    (h.marked_iff i).mpr (hb.entry_marked s i hs ((h.refers_iff hs i).mp hr))
  entry_one := fun s t i hs ht hr hr' =>
    hb.entry_one s t i hs ht ((h.refers_iff hs i).mp hr) ((h.refers_iff ht i).mp hr')

end Same

/-! ## The two halves of a write -/

section AddInode

variable {m : Meta} {ino dataBlock size : Nat}

theorem addInode_marked_iff (hpos : 0 < ino) (hlt : ino < maxInodes) (i : Nat) :
    Marked (addInode m ino dataBlock size) i ↔ Marked m i ∨ i = ino := by
  have htest : Bitmap.test (addInode m ino dataBlock size).ib i =
      (decide (i = ino) || Bitmap.test m.ib i) := Bitmap.test_set _ _ _
  unfold Marked
  rw [htest, Bool.or_eq_true, decide_eq_true_iff]
  constructor
  · rintro ⟨hp, hl, rfl | hb⟩
    · exact Or.inr rfl
    · exact Or.inl ⟨hp, hl, hb⟩
  · rintro (⟨hp, hl, hb⟩ | rfl)
    · exact ⟨hp, hl, Or.inr hb⟩
    · exact ⟨hpos, hlt, Or.inl rfl⟩

theorem addInode_orphans (hpos : 0 < ino) (hlt : ino < maxInodes) :
    orphans (addInode m ino dataBlock size) ⊆ insert ino (orphans m) := by
  intro i hi
  obtain ⟨hmarked, hno⟩ := mem_orphans.mp hi
  rw [Finset.mem_insert]
  rcases (addInode_marked_iff hpos hlt i).mp hmarked with hm | rfl
  · exact Or.inr (mem_orphans.mpr ⟨hm, hno⟩)
  · exact Or.inl rfl

/-- A free inode with a free block. -/
theorem Accounted.addInode (h : Accounted m) (hpos : 0 < ino) (hlt : ino < maxInodes)
    (hfree : Bitmap.test m.ib ino = false) (hge : dataStartLba ≤ dataBlock)
    (hblt : dataBlock < maxBlocks) (hbfree : Bitmap.test m.bb dataBlock = false)
    (hsize : size < 256 ^ 4) : Accounted (addInode m ino dataBlock size) := by
  have hnew : inodeView (Mcsfs1j.addInode m ino dataBlock size).inodes ino =
      (1, 1, size, dataBlock) :=
    inodeView_setInode (by decide) hsize (lt_trans hblt (by decide))
  have hold : ∀ i, i ≠ ino → inodeView (Mcsfs1j.addInode m ino dataBlock size).inodes i =
      inodeView m.inodes i := fun i hi => inodeView_setInode_ne hi
  have hdnew := (inodeView_eq_mk.mp hnew).2.2.2
  have hdold : ∀ i, i ≠ ino → iDirect0 (Mcsfs1j.addInode m ino dataBlock size).inodes i =
      iDirect0 m.inodes i := fun i hi => (inodeView_eq_iff.mp (hold i hi)).2.2.2
  have hne : ∀ i, Marked m i → i ≠ ino := fun i hi he => by
    rw [he] at hi
    exact absurd hi.2.2 (Bool.eq_false_iff.mp hfree)
  -- the new block is no other inode's
  have hdne : ∀ i, Marked m i → iDirect0 m.inodes i ≠ dataBlock := fun i hi he => by
    have hbit := (h.block_iff dataBlock hge hblt).mpr ⟨i, hi, he⟩
    rw [hbfree] at hbit
    cases hbit
  have hmarked : ∀ i, Marked (Mcsfs1j.addInode m ino dataBlock size) i ↔
      Marked m i ∨ i = ino :=
    addInode_marked_iff hpos hlt
  refine ⟨fun i hi => ?_, fun i hi => ?_, fun i hi => ?_, fun b hb hbl => ?_,
    fun i j hi hj hd => ?_, fun s i hs hr => ?_, h.entry_one⟩
  · show Bitmap.test (Bitmap.set m.ib ino) i = true ↔ _
    by_cases he : i = ino
    · rw [he, Bitmap.test_set_self, (inodeView_eq_mk.mp hnew).1]
      exact ⟨fun _ => rfl, fun _ => rfl⟩
    · rw [Bitmap.test_set_ne _ he, (inodeView_eq_iff.mp (hold i he)).1]
      exact h.used_iff i hi
  · rcases (hmarked i).mp hi with hi | rfl
    · rw [hdold i (hne i hi)]
      exact h.direct_ge i hi
    · rw [hdnew]
      exact hge
  · rcases (hmarked i).mp hi with hi | rfl
    · rw [hdold i (hne i hi)]
      exact h.direct_lt i hi
    · rw [hdnew]
      exact hblt
  · show Bitmap.test (Bitmap.set m.bb dataBlock) b = true ↔ _
    rw [Bitmap.test_set, Bool.or_eq_true, decide_eq_true_iff, h.block_iff b hb hbl]
    constructor
    · rintro (rfl | ⟨i, hi, hd⟩)
      · exact ⟨ino, (hmarked ino).mpr (Or.inr rfl), hdnew⟩
      · exact ⟨i, (hmarked i).mpr (Or.inl hi), (hdold i (hne i hi)).trans hd⟩
    · rintro ⟨i, hi, hd⟩
      rcases (hmarked i).mp hi with hi | rfl
      · exact Or.inr ⟨i, hi, (hdold i (hne i hi)).symm.trans hd⟩
      · exact Or.inl (hd.symm.trans hdnew)
  · rcases (hmarked i).mp hi with hmi | hmi <;> rcases (hmarked j).mp hj with hmj | hmj
    · rw [hdold i (hne i hmi), hdold j (hne j hmj)] at hd
      exact h.block_one i j hmi hmj hd
    · rw [hdold i (hne i hmi), hmj, hdnew] at hd
      exact absurd hd (hdne i hmi)
    · rw [hdold j (hne j hmj), hmi, hdnew] at hd
      exact absurd hd.symm (hdne j hmj)
    · exact hmi.trans hmj.symm
  · exact (hmarked i).mpr (Or.inl (h.entry_marked s i hs hr))

end AddInode

section AddDirent

variable {m : Meta} {slot ino dataBlock size : Nat} {name : Bytes}

theorem NewEntry.refers_iff (n : NewEntry m slot ino dataBlock size name) (s i : Nat) :
    Refers (addDirent m slot ino name) s i ↔ Refers m s i ∨ s = slot ∧ i = ino := by
  unfold Refers
  by_cases hs : s = slot
  · subst hs
    obtain ⟨hused, hino, -⟩ := n.view
    rw [hused, hino]
    constructor
    · rintro ⟨-, rfl⟩
      exact Or.inr ⟨rfl, rfl⟩
    · rintro (⟨hu, -⟩ | ⟨-, rfl⟩)
      · exact absurd n.slot_free hu
      · exact ⟨Nat.one_ne_zero, rfl⟩
  · obtain ⟨hused, hino, -⟩ := n.view_ne hs
    rw [hused, hino]
    exact ⟨Or.inl, fun h => h.resolve_right fun h' => hs h'.1⟩

/-- The new entry takes its inode out of the orphans. -/
theorem NewEntry.orphans (n : NewEntry m slot ino dataBlock size name) :
    orphans (addDirent m slot ino name) ⊆ (orphans m).erase ino := by
  intro i hi
  obtain ⟨hmarked, hno⟩ := mem_orphans.mp hi
  rw [Finset.mem_erase, mem_orphans]
  refine ⟨?_, hmarked, fun ⟨s, hs, hr⟩ => hno ⟨s, hs, (n.refers_iff s i).mpr (Or.inl hr)⟩⟩
  rintro rfl
  exact hno ⟨slot, n.slot_lt, (n.refers_iff slot i).mpr (Or.inr ⟨rfl, rfl⟩)⟩

/-- An entry for an orphan. -/
theorem Accounted.addDirent (h : Accounted m) (n : NewEntry m slot ino dataBlock size name)
    (hpos : 0 < ino) (hno : ¬Referred m ino) : Accounted (addDirent m slot ino name) := by
  refine ⟨h.used_iff, h.direct_ge, h.direct_lt, h.block_iff, h.block_one, fun s i hs hr => ?_,
    fun s t i hs ht hr hr' => ?_⟩
  · rcases (n.refers_iff s i).mp hr with hr | ⟨-, rfl⟩
    · exact h.entry_marked s i hs hr
    · exact ⟨hpos, n.ino_lt, n.bit⟩
  · rcases (n.refers_iff s i).mp hr with hrs | ⟨hss, his⟩ <;>
      rcases (n.refers_iff t i).mp hr' with hrt | ⟨hts, hit⟩
    · exact h.entry_one s t i hs ht hrs hrt
    · rw [hit] at hrs
      exact absurd ⟨s, hs, hrs⟩ hno
    · rw [his] at hrt
      exact absurd ⟨t, ht, hrt⟩ hno
    · exact hss.trans hts.symm

end AddDirent

/-! ## A write -/

section Write

variable {c : Nat → Bytes} {name data : Bytes} {ino dataBlock slot size : Nat}

theorem findFreeInode_pos {ib : Bytes} (h : findFreeInode ib = some ino) : 0 < ino :=
  (Loop.findFrom_some_iff.mp h).1

/-- The first transaction makes one orphan. -/
theorem imageMid_accounted (h : Accounted (metaOf c))
    (f : FreeFor (metaOf c) name ino dataBlock slot size) :
    Accounted (metaOf (imageMid c name ino dataBlock slot size)) ∧
      orphans (metaOf (imageMid c name ino dataBlock slot size)) ⊆
        insert ino (orphans (metaOf c)) ∧
      ¬Referred (metaOf (imageMid c name ino dataBlock slot size)) ino := by
  have hpos := findFreeInode_pos f.ino
  obtain ⟨hlt, hfree⟩ := findFreeInode_some f.ino
  obtain ⟨hge, hblt, hbfree⟩ := findFreeBlock_some f.dataBlock
  have hsame : SameMeta (addInode (metaOf c) ino dataBlock size)
      (metaOf (imageMid c name ino dataBlock slot size)) := sameMeta_imageMid
  have hsize : size < 256 ^ 4 := lt_of_le_of_lt f.size_le (by decide)
  refine ⟨(h.addInode hpos hlt hfree hge hblt hbfree hsize).same hsame, ?_, ?_⟩
  · rw [hsame.orphans_eq]
    exact addInode_orphans hpos hlt
  · rw [hsame.referred_iff]
    rintro ⟨s, hs, hr⟩
    exact absurd (h.entry_marked s ino hs hr).2.2 (Bool.eq_false_iff.mp hfree)

/-- The second transaction takes it back. -/
theorem imageNew_accounted (data : Bytes) (h : Accounted (metaOf c))
    (f : FreeFor (metaOf c) name ino dataBlock slot size) :
    Accounted (metaOf (imageNew c name data ino dataBlock slot size)) ∧
      orphans (metaOf (imageNew c name data ino dataBlock slot size)) ⊆ orphans (metaOf c) := by
  obtain ⟨hmid, horphans, hno⟩ := imageMid_accounted h f
  have hnew := newEntry_imageMid f
  have hsame : SameMeta (addDirent (metaOf (imageMid c name ino dataBlock slot size)) slot ino name)
      (metaOf (imageNew c name data ino dataBlock slot size)) :=
    sameMeta_imageNew data (findFreeBlock_some f.dataBlock).1
  refine ⟨(hmid.addDirent hnew (findFreeInode_pos f.ino) hno).same hsame, ?_⟩
  rw [hsame.orphans_eq]
  intro i hi
  obtain ⟨hne, hi⟩ := Finset.mem_erase.mp (hnew.orphans hi)
  exact (Finset.mem_insert.mp (horphans hi)).resolve_left hne

end Write

/-- The error of a device that does not take a write. -/
def isIo {α : Type} : Except M16Err α → Bool
  | .error .io => true
  | _ => false

/-- A write that returns `IO` leaves at most one more orphan, any other none. -/
theorem WriteImages.accounted {before after : Nat → Bytes} {name data : Bytes} {size : Nat}
    {α : Type} {r : Except M16Err α} (h : Accounted (metaOf before))
    (hw : WriteImages before after name data size r) :
    Accounted (metaOf after) ∧ (orphans (metaOf after)).card ≤
      (orphans (metaOf before)).card + (if isIo r = true then 1 else 0) := by
  have hsame : after = before → Accounted (metaOf after) ∧ (orphans (metaOf after)).card ≤
      (orphans (metaOf before)).card + (if isIo r = true then 1 else 0) := fun he => by
    rw [he]
    exact ⟨h, Nat.le_add_right _ _⟩
  have hnew : ∀ {ino dataBlock slot : Nat}, FreeFor (metaOf before) name ino dataBlock slot size →
      after = imageNew before name data ino dataBlock slot size →
      Accounted (metaOf after) ∧ (orphans (metaOf after)).card ≤
        (orphans (metaOf before)).card + (if isIo r = true then 1 else 0) := fun f he => by
    obtain ⟨ha, ho⟩ := imageNew_accounted data h f
    rw [he]
    exact ⟨ha, le_trans (Finset.card_le_card ho) (Nat.le_add_right _ _)⟩
  rcases r with e | a
  · cases e with
    | io =>
        rcases hw with hw | ⟨ino, dataBlock, slot, f, hw | hw⟩
        · exact hsame hw
        · obtain ⟨ha, ho, -⟩ := imageMid_accounted h f
          rw [hw]
          refine ⟨ha, ?_⟩
          calc (orphans (metaOf (imageMid before name ino dataBlock slot size))).card
              ≤ (insert ino (orphans (metaOf before))).card := Finset.card_le_card ho
            _ ≤ (orphans (metaOf before)).card + 1 := Finset.card_insert_le _ _
        · exact hnew f hw
    | inval => exact hsame hw
    | nospc => exact hsame hw
    | «exists» => exact hsame hw
    | noent => exact hsame hw
    | corrupt => exact hsame hw
    | toolong => exact hsame hw
    | wild => exact hsame hw
  · obtain ⟨ino, dataBlock, slot, f, hw⟩ := hw
    exact hnew f hw

/-! ## Runs -/

/-- The step is a write that has returned `IO`. -/
def Step.cut (s : Step) (dev : Blockdev) : Bool := s.op.file.isSome && isIo (s.exec dev).1

/-- How many writes of the run have returned `IO`. -/
def cutWrites : List Step → Blockdev → Nat
  | [], _ => 0
  | s :: steps, dev => (if s.cut dev = true then 1 else 0) + cutWrites steps (s.exec dev).2

theorem OpImages.accounted {op : Op} {r : Except M16Err (List UInt8)} {before after : Nat → Bytes}
    (h : Accounted (metaOf before)) (ho : OpImages op r before after) :
    Accounted (metaOf after) ∧ (orphans (metaOf after)).card ≤ (orphans (metaOf before)).card +
      (if (op.file.isSome && isIo r) = true then 1 else 0) := by
  have hsame : after = before → Accounted (metaOf after) ∧ (orphans (metaOf after)).card ≤
      (orphans (metaOf before)).card + (if (op.file.isSome && isIo r) = true then 1 else 0) :=
    fun he => by
      rw [he]
      exact ⟨h, Nat.le_add_right _ _⟩
  cases op with
  | writeFile name data size => exact WriteImages.accounted h ho
  | writeFileStop name data size => exact WriteImages.accounted h ho
  | readFile name outCap => exact hsame ho.1
  | fsck => exact hsame ho
  | mount => exact hsame ho
  | journalRecover => exact hsame ho

theorem runSteps_accounted {dev : Blockdev} {c : Nat → Bytes} (h : Held dev c)
    (ha : Accounted (metaOf c)) (steps : List Step) :
    ∃ c', Held (runSteps steps dev) c' ∧ Accounted (metaOf c') ∧
      (orphans (metaOf c')).card ≤ (orphans (metaOf c)).card + cutWrites steps dev := by
  induction steps generalizing dev c with
  | nil => exact ⟨c, h, ha, Nat.le_refl _⟩
  | cons s steps ih =>
      obtain ⟨c1, hc1, himages⟩ := exec_held (h.before s) s.op
      obtain ⟨ha1, hcard1⟩ := himages.accounted ha
      obtain ⟨c', hc', ha', hcard⟩ := ih hc1 ha1
      refine ⟨c', hc', ha', ?_⟩
      have hcut : cutWrites (s :: steps) dev =
          (if s.cut dev = true then 1 else 0) + cutWrites steps (s.exec dev).2 := rfl
      have hcard1' : (orphans (metaOf c1)).card ≤
          (orphans (metaOf c)).card + (if s.cut dev = true then 1 else 0) := hcard1
      have hcard' : (orphans (metaOf c')).card ≤
          (orphans (metaOf c1)).card + cutWrites steps (s.exec dev).2 := hcard
      omega

/-! ## The formatted image -/

theorem formatMeta_not_marked (i : Nat) : ¬Marked formatMeta i := by
  rintro ⟨hpos, -, hb⟩
  have hset : Bitmap.test (Bitmap.set Bytes.zero 0) i = true := hb
  rw [Bitmap.test_set_ne _ (by omega), Bitmap.test_zero] at hset
  cases hset

theorem formatMeta_accounted : Accounted formatMeta := by
  have hno : ∀ s i, ¬Refers formatMeta s i := fun s i hr => hr.1 (formatMeta_dUsed s)
  refine ⟨fun i hi => ?_, fun i hi => absurd hi (formatMeta_not_marked i),
    fun i hi => absurd hi (formatMeta_not_marked i), fun b hge hlt => ?_,
    fun i j hi => absurd hi (formatMeta_not_marked i), fun s i _ hr => absurd hr (hno s i),
    fun s t i _ _ hr => absurd hr (hno s i)⟩
  · by_cases h0 : i = 0
    · rw [h0, formatMeta_inv.root_used]
      exact ⟨fun _ => rfl, fun _ => formatMeta_inv.root_bit⟩
    · have hview : inodeView formatMeta.inodes i = inodeView Bytes.zero i :=
        inodeView_setInode_ne h0
      have hused : iUsed formatMeta.inodes i = 0 :=
        (inodeView_eq_iff.mp hview).1.trans (Bytes.load_zero _ _)
      rw [hused]
      exact ⟨fun hb => absurd ⟨by omega, hi, hb⟩ (formatMeta_not_marked i),
        fun h => absurd h (by decide)⟩
  · have hbit : Bitmap.test formatMeta.bb b = decide (b < dataStartLba) :=
      formatBitmap_test dataStartLba b
    rw [hbit, decide_eq_true_iff]
    exact ⟨fun h => by omega, fun ⟨i, hi, _⟩ => absurd hi (formatMeta_not_marked i)⟩

theorem formatMeta_orphans : orphans formatMeta = ∅ :=
  Finset.eq_empty_of_forall_notMem fun i hi => formatMeta_not_marked i (mem_orphans.mp hi).1

/-- What a mount that succeeds finds is the image that the device holds. -/
theorem mount_finds {dev dev' : Blockdev} {c : Nat → Bytes} (h : Held dev c) {f : Option Int}
    {out : List UInt8} (hmount : (Step.mk f .mount).exec dev = (.ok out, dev')) :
    metaOf dev'.blocks = metaOf c := by
  obtain ⟨hheld, -, he⟩ := mount_spec (h.before (Step.mk f .mount))
  have hrun : (mount ((Step.mk f .mount).before dev)).1.map (fun _ => []) = .ok out ∧
      (mount ((Step.mk f .mount).before dev)).2 = dev' :=
    Prod.mk.inj ((discard_eq _ _).symm.trans hmount)
  obtain ⟨hok, rfl⟩ := hrun
  refine metaOf_congr (hheld.settled.home (he ?_))
  rcases hr : (mount ((Step.mk f .mount).before dev)).1 with e | sb
  · rw [hr] at hok
    cases hok
  · exact ⟨sb, rfl⟩

/-- A mount succeeds when the power is back. -/
theorem mount_succeeds {dev : Blockdev} {c : Nat → Bytes} (h : Held dev c) {k : Int} (hk : k < 0) :
    ∃ dev', (Step.mk (some k) .mount).exec dev = (.ok [], dev') := by
  obtain ⟨-, hr, -⟩ := mount_spec (h.before (Step.mk (some k) .mount))
  refine ⟨(mount ((Step.mk (some k) .mount).before dev)).2, (discard_eq _ _).trans ?_⟩
  rcases hr with ⟨sb, hr⟩ | ⟨-, hf⟩
  · rw [hr]
    rfl
  · exact absurd hf (not_le.mpr hk)

/-- What a mount that succeeds finds after a run: there are at most as many orphans as writes that
have returned `IO`, and nothing else is lost. -/
theorem mount_accounted {k : Int} {dev dev' : Blockdev} {out : List UInt8}
    (hformat : format { devInit with failAfter := k } = (.ok (), dev)) (steps : List Step)
    (f : Option Int) (hmount : (Step.mk f .mount).exec (runSteps steps dev) = (.ok out, dev')) :
    Accounted (metaOf dev'.blocks) ∧
      (orphans (metaOf dev'.blocks)).card ≤ cutWrites steps dev ∧
      (cutWrites steps dev = 0 → Exact (metaOf dev'.blocks)) := by
  obtain ⟨hheld0, -⟩ := format_spec (show { devInit with failAfter := k }.totalBlocks = maxBlocks
    from rfl) hformat
  have hsame := sameMeta_formatImage maxBlocks
  obtain ⟨c, hheld, ha, hcard⟩ := runSteps_accounted hheld0 (formatMeta_accounted.same hsame) steps
  rw [hsame.orphans_eq, formatMeta_orphans, Finset.card_empty, Nat.zero_add] at hcard
  rw [mount_finds hheld hmount]
  exact ⟨ha, hcard, fun h0 => ha.exact (Finset.card_eq_zero.mp (by omega))⟩

/-! ## A run that leaks -/

/-- A write that is cut after the header of its first transaction, but before the end of it. -/
theorem writeFileEx_cut {dev : Blockdev} {c : Nat → Bytes} (h : Held dev c) (he : JournalEmpty dev)
    {name : Bytes} (data : Bytes) {ino dataBlock slot size : Nat}
    (f : FreeFor (metaOf c) name ino dataBlock slot size) (stop : Bool) (hheader : Allows dev 14)
    (hcut : ¬Allows dev 21) :
    Held (writeFileEx name data size stop dev).2 (imageMid c name ino dataBlock slot size) := by
  obtain ⟨tx1, htx1, hcount1, hhome1⟩ := metaTx_ok (newMeta c name ino dataBlock slot size)
  obtain ⟨tx2, htx2, -, -⟩ := fileTx_ok (newMeta c name ino dataBlock slot size) dataBlock
    (Bytes.zero.copy 0 data 0 size)
  have hlen : ¬(strlenBounded name maxName = 0 ∨ maxName ≤ strlenBounded name maxName) := by
    have hpos := f.name_pos
    have hlt := f.name_lt
    rw [strlenBounded_eq]
    omega
  have hmax : tx1.count ≤ journalMaxRecords := by
    rw [hcount1]
    decide
  rw [writeFileEx_eq data hlen (not_lt.mpr f.size_le) (mount_empty h he)
      (readMeta_spec h he) stop,
    writeNew_eq f htx1 htx2 (c 0) stop dev]
  have himage : applyWrites (stored (homeWrites tx1 0 tx1.count)) c =
      imageMid c name ino dataBlock slot size := by
    rw [hhome1]
    rfl
  have hreached : HeaderReached dev tx1 := by
    refine ⟨h.dataLba_valid hmax, ?_⟩
    rw [hcount1]
    exact hheader
  have hheld := commit_reached h he hmax (by rw [hhome1]; exact metaWrites_targets _)
    (by rw [himage]; exact (imageMid_inv h.image f).1) (sCleanGeneration (c 0) + 1) false hreached
  rw [himage] at hheld
  have hlength : (commitWrites tx1 (sCleanGeneration (c 0) + 1) false).length = 21 := by
    have hhome : (homeWrites tx1 0 tx1.count).length = 6 := by
      rw [hhome1]
      rfl
    unfold commitWrites applyPart
    rw [List.length_append, logWrites_length, List.length_cons, if_neg (by decide),
      List.length_append, hhome, hcount1]
    rfl
  -- the commit of the metadata fails, so the data is never written
  have hnot := journalCommit_cut hmax (sCleanGeneration (c 0) + 1) (hlength ▸ hcut)
  rcases hrun : journalCommit tx1 (sCleanGeneration (c 0) + 1) false dev with ⟨e | u, dev'⟩
  · rw [hrun] at hheld
    rw [Prog.bind_error hrun]
    exact hheld
  · rw [hrun] at hnot
    exact absurd rfl hnot

/-- The file that the next write would make on a formatted device. -/
theorem freeFor_formatted : FreeFor (metaOf (formatImage maxBlocks)) nameA 1 25 0 3 := by
  have hsame := sameMeta_formatImage maxBlocks
  have hused : ∀ i, i < dirCount → dUsed (metaOf (formatImage maxBlocks)).dir i = 0 :=
    fun i hi => (direntView_eq_iff.mp (hsame.dir i hi)).1.trans (formatMeta_dUsed i)
  refine ⟨by decide, by decide, by decide, ?_, ?_, ?_, ?_⟩
  · rw [findDirent_eq, slotOf_none_iff]
    exact fun i hi hu => absurd (hused i hi) hu
  · refine Loop.findFrom_some_iff.mpr ⟨le_refl 1, by decide, ?_, fun j hj hlt => by omega⟩
    rw [hsame.ib 1 (by decide)]
    decide
  · refine Loop.findFrom_some_iff.mpr ⟨le_refl 25, by decide, ?_, fun j hj hlt => ?_⟩
    swap
    · exact absurd hj (not_le.mpr hlt)
    rw [hsame.bb 25 (by decide)]
    decide
  · refine Loop.findFrom_some_iff.mpr ⟨le_refl 0, by decide, ?_, fun j hj hlt => by omega⟩
    exact decide_eq_true_iff.mpr (hused 0 (by decide))

/-- A write cut at its 15th block write: the first transaction is committed. -/
def cutAfterHeader (name data : Bytes) (size : Nat) : Step := ⟨some 14, .writeFile name data size⟩

/-- The device holds the image with inode and block of the file, but not its name. -/
theorem cutAfterHeader_held {dev : Blockdev} {c : Nat → Bytes} (h : Held dev c)
    (he : JournalEmpty dev) {name : Bytes} (data : Bytes) {ino dataBlock slot size : Nat}
    (f : FreeFor (metaOf c) name ino dataBlock slot size) :
    Held ((cutAfterHeader name data size).exec dev).2 (imageMid c name ino dataBlock slot size) := by
  have hcut := writeFileEx_cut (h.failAfter 14) he data f false
    (Or.inr (by decide : ((14 : Nat) : Int) ≤ 14))
    (fun hn => hn.elim (fun hneg => absurd hneg (by decide : ¬(14 : Int) < 0))
      (fun hle => absurd hle (by decide : ¬((21 : Nat) : Int) ≤ 14)))
  have hexec : ((cutAfterHeader name data size).exec dev).2 =
      (writeFileEx name data size false { dev with failAfter := 14 }).2 :=
    congrArg Prod.snd (discard_eq (writeFile name data size) { dev with failAfter := 14 })
  rw [hexec]
  exact hcut

theorem formatted_held : Held formatted (formatImage maxBlocks) ∧ JournalEmpty formatted :=
  format_spec (show { devInit with failAfter := -1 }.totalBlocks = maxBlocks from rfl)
    formatted_format

/-- A formatted device after a write that is cut. -/
def leaky : Blockdev := runSteps [cutAfterHeader nameA (Bytes.zero.fill 0 3 7) 3] formatted

theorem leaky_held : Held leaky (imageMid (formatImage maxBlocks) nameA 1 25 0 3) :=
  cutAfterHeader_held formatted_held.1 formatted_held.2 _ freeFor_formatted

/-- Inode 1 is marked for good, and no entry refers to it. -/
theorem mount_leaks :
    ¬∀ (k : Int) (dev dev' : Blockdev) (out : List UInt8) (steps : List Step) (f : Option Int),
      format { devInit with failAfter := k } = (.ok (), dev) →
      (∀ s ∈ steps, ∃ name data size, s.op = .writeFile name data size) →
      (Step.mk f .mount).exec (runSteps steps dev) = (.ok out, dev') →
      Exact (metaOf dev'.blocks) := by
  intro h
  obtain ⟨dev', hmount⟩ := mount_succeeds leaky_held (by decide : (-1 : Int) < 0)
  have hexact := h (-1) formatted dev' [] [cutAfterHeader nameA (Bytes.zero.fill 0 3 7) 3] (some (-1))
    formatted_format (fun s hs => ⟨nameA, Bytes.zero.fill 0 3 7, 3, by
      rw [List.mem_singleton.mp hs]
      rfl⟩) hmount
  rw [mount_finds leaky_held hmount] at hexact
  have hsame := sameMeta_formatImage maxBlocks
  obtain ⟨-, -, hno⟩ := imageMid_accounted (formatMeta_accounted.same hsame) freeFor_formatted
  have hmarked : Marked (metaOf (imageMid (formatImage maxBlocks) nameA 1 25 0 3)) 1 := by
    refine (sameMeta_imageMid.marked_iff 1).mpr ?_
    exact (addInode_marked_iff Nat.one_pos (by decide) 1).mpr (Or.inr rfl)
  exact hno ((hexact.inode_iff 1 Nat.one_pos (by decide)).mp hmarked.2.2)

/-- One cut write, one orphan at most. -/
theorem mount_accounted_leaky : ∃ dev', (Step.mk (some (-1)) .mount).exec leaky = (.ok [], dev') ∧
    Accounted (metaOf dev'.blocks) ∧ (orphans (metaOf dev'.blocks)).card ≤ 1 := by
  obtain ⟨dev', hmount⟩ := mount_succeeds leaky_held (by decide : (-1 : Int) < 0)
  obtain ⟨ha, hcard, -⟩ := mount_accounted formatted_format
    [cutAfterHeader nameA (Bytes.zero.fill 0 3 7) 3] (some (-1)) hmount
  refine ⟨dev', hmount, ha, le_trans hcard ?_⟩
  unfold cutWrites cutWrites
  split <;> decide

end Mcsos.Mcsfs1j
