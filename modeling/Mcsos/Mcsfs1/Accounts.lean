import Mcsos.Mcsfs1.Calls

set_option autoImplicit false

/-! # Nothing leaks

`Exact` says that the bitmaps mark what the files have and nothing else. Where no write or flush
fails, an operation that returns an error has changed nothing, but for a write that runs out of
blocks; so runs without such a write stay exact.
-/

namespace Mcsos.Mcsfs1

variable {D : Disk} {c c' : Blocks}

/-! ## Exact bitmaps -/

/-- The file in slot `s` has block `b` as its `direct[j]`. -/
def Meta.Lists (m : Meta) (s j b : Nat) : Prop := m.Used s ∧ (m.file s).direct j = b ∧ b ≠ 0

/-- The inode bitmap marks the root and the inodes in entries. -/
def InodesExact (m : Meta) : Prop :=
  ∀ i, m.ib i = true ↔ i = 0 ∨ i = rootIno ∨ ∃ s, m.Used s ∧ (m.entry s).ino = i

structure Exact (m : Meta) : Prop where
  ib : InodesExact m
  bb : ∀ b, m.bb b = true ↔ b < dataStartLba ∨ ∃ s j, m.Lists s j b

section

variable {name : Bytes} {past : UInt8} {s ino lba nameLen : Nat}

theorem Created.used_iff (w : Created D.blockCount name past c s ino lba nameLen)
    (hbc : D.blockCount ≤ 4096) (i : Nat) :
    (metaOf (created c s ino lba name nameLen)).Used i ↔ i = s ∨ (metaOf c).Used i := by
  unfold Meta.Used
  rw [w.meta_eq hbc]
  dsimp only
  by_cases his : i = s
  · rw [his, Function.update_self]
    exact iff_of_true (ne_of_gt (lt_of_lt_of_le Nat.two_pos w.inode.ge)) (Or.inl rfl)
  · rw [Function.update_of_ne his]
    exact ⟨Or.inr, fun h => h.resolve_left his⟩

theorem Created.entry_old (w : Created D.blockCount name past c s ino lba nameLen)
    (hbc : D.blockCount ≤ 4096) {i : Nat} (hi : (metaOf c).Used i) :
    (metaOf (created c s ino lba name nameLen)).entry i = (metaOf c).entry i := by
  rw [w.meta_eq hbc]
  exact Function.update_of_ne (show i ≠ s from fun his => w.free (his ▸ hi)) ..

theorem Created.entry_new (w : Created D.blockCount name past c s ino lba nameLen)
    (hbc : D.blockCount ≤ 4096) :
    (metaOf (created c s ino lba name nameLen)).entry s = ⟨ino, modeFile⟩ := by
  rw [w.meta_eq hbc]
  exact Function.update_self ..

theorem Created.file_old (w : Created D.blockCount name past c s ino lba nameLen)
    (hbc : D.blockCount ≤ 4096) (h : Inv D.blockCount c) {i : Nat} (hi : (metaOf c).Used i) :
    (metaOf (created c s ino lba name nameLen)).file i = (metaOf c).file i := by
  unfold Meta.file
  rw [w.entry_old hbc hi, w.meta_eq hbc]
  exact Function.update_of_ne (w.inode.not_used h hi) ..

theorem Created.file_new (w : Created D.blockCount name past c s ino lba nameLen)
    (hbc : D.blockCount ≤ 4096) :
    (metaOf (created c s ino lba name nameLen)).file s =
      ⟨modeFile, 0, Function.update (fun _ => 0) 0 lba⟩ := by
  have hlba : lba < 256 ^ 4 := lt_trans (w.lba_lt hbc) (by decide)
  unfold Meta.file
  rw [w.entry_new hbc, w.meta_eq hbc]
  dsimp only
  rw [Function.update_self, inodeView_mkInode (by decide) (by decide) hlba]

theorem Created.direct_new (w : Created D.blockCount name past c s ino lba nameLen)
    (hbc : D.blockCount ≤ 4096) :
    ((metaOf (created c s ino lba name nameLen)).file s).direct =
      Function.update (fun _ => 0) 0 lba := congrArg Inode.direct (w.file_new hbc)

theorem Created.lists_iff (w : Created D.blockCount name past c s ino lba nameLen)
    (hbc : D.blockCount ≤ 4096) (h : Inv D.blockCount c) (i j b : Nat) :
    (metaOf (created c s ino lba name nameLen)).Lists i j b ↔
      i = s ∧ j = 0 ∧ b = lba ∨ (metaOf c).Lists i j b := by
  unfold Meta.Lists
  rw [w.used_iff hbc]
  constructor
  · rintro ⟨rfl | hi, hj, hne⟩
    · rw [w.direct_new hbc] at hj
      by_cases hj0 : j = 0
      · rw [hj0, Function.update_self] at hj
        exact Or.inl ⟨rfl, hj0, hj.symm⟩
      · rw [Function.update_of_ne hj0] at hj
        exact absurd hj.symm hne
    · rw [w.file_old hbc h hi] at hj
      exact Or.inr ⟨hi, hj, hne⟩
  · rintro (⟨rfl, rfl, rfl⟩ | ⟨hi, hj, hne⟩)
    · refine ⟨Or.inl rfl, ?_, w.block.ne_zero⟩
      rw [w.direct_new hbc, Function.update_self]
    · rw [w.file_old hbc h hi]
      exact ⟨Or.inr hi, hj, hne⟩

/-- The inodes in entries, and the new one. -/
theorem Created.refers_iff (w : Created D.blockCount name past c s ino lba nameLen)
    (hbc : D.blockCount ≤ 4096) (i : Nat) :
    (∃ t, (metaOf (created c s ino lba name nameLen)).Used t ∧
      ((metaOf (created c s ino lba name nameLen)).entry t).ino = i) ↔
    i = ino ∨ ∃ t, (metaOf c).Used t ∧ ((metaOf c).entry t).ino = i := by
  constructor
  · rintro ⟨t, ht, he⟩
    rcases (w.used_iff hbc t).mp ht with rfl | hu
    · rw [w.entry_new hbc] at he
      exact Or.inl he.symm
    · rw [w.entry_old hbc hu] at he
      exact Or.inr ⟨t, hu, he⟩
  · rintro (rfl | ⟨t, hu, he⟩)
    · exact ⟨s, (w.used_iff hbc s).mpr (Or.inl rfl), by rw [w.entry_new hbc]⟩
    · exact ⟨t, (w.used_iff hbc t).mpr (Or.inr hu), by rw [w.entry_old hbc hu, he]⟩

/-- The blocks of files, and the new one. -/
theorem Created.listed_iff (w : Created D.blockCount name past c s ino lba nameLen)
    (hbc : D.blockCount ≤ 4096) (h : Inv D.blockCount c) (b : Nat) :
    (∃ t j, (metaOf (created c s ino lba name nameLen)).Lists t j b) ↔
      b = lba ∨ ∃ t j, (metaOf c).Lists t j b := by
  constructor
  · rintro ⟨t, j, ht⟩
    rcases (w.lists_iff hbc h t j b).mp ht with ⟨-, -, hb⟩ | ht
    · exact Or.inl hb
    · exact Or.inr ⟨t, j, ht⟩
  · rintro (hb | ⟨t, j, ht⟩)
    · exact ⟨s, 0, (w.lists_iff hbc h s 0 b).mpr (Or.inl ⟨rfl, rfl, hb⟩)⟩
    · exact ⟨t, j, (w.lists_iff hbc h t j b).mpr (Or.inr ht)⟩

theorem Created.inodesExact (w : Created D.blockCount name past c s ino lba nameLen)
    (hbc : D.blockCount ≤ 4096) (hx : InodesExact (metaOf c)) :
    InodesExact (metaOf (created c s ino lba name nameLen)) := by
  intro i
  rw [w.refers_iff hbc, w.meta_eq hbc]
  dsimp only
  by_cases hi : i = ino
  · rw [hi, Function.update_self]
    exact iff_of_true rfl (Or.inr (Or.inr (Or.inl rfl)))
  · rw [Function.update_of_ne hi, hx i]
    exact or_congr_right (or_congr_right ⟨Or.inr, fun hor => hor.resolve_left hi⟩)

/-- Both bitmaps get the bit of what is new, and so do both sides. -/
theorem Exact.create (hx : Exact (metaOf c)) (hbc : D.blockCount ≤ 4096) (h : Inv D.blockCount c)
    (w : Created D.blockCount name past c s ino lba nameLen) :
    Exact (metaOf (created c s ino lba name nameLen)) := by
  constructor
  · exact w.inodesExact hbc hx.ib
  · intro b
    rw [w.listed_iff hbc h, w.meta_eq hbc]
    dsimp only
    by_cases hb : b = lba
    · rw [hb, Function.update_self]
      exact iff_of_true rfl (Or.inr (Or.inl rfl))
    · rw [Function.update_of_ne hb, hx.bb b]
      exact or_congr_right ⟨Or.inr, fun hor => hor.resolve_left hb⟩

end

/-! ## Writing -/

section

variable {s len : Nat} {x : Inode}

theorem Written.entry (w : Written D c s len x c') : (metaOf c').entry = (metaOf c).entry :=
  congrArg entriesOf w.dir

theorem Written.used_iff (w : Written D c s len x c') (i : Nat) :
    (metaOf c').Used i ↔ (metaOf c).Used i := by
  unfold Meta.Used
  rw [w.entry]

theorem Written.file_self (w : Written D c s len x c') : (metaOf c').file s = x := by
  unfold Meta.file
  rw [w.entry, w.inode, Function.update_self]

theorem Written.file_other (w : Written D c s len x c') {i : Nat} (hi : (metaOf c).Used i)
    (his : i ≠ s) : (metaOf c').file i = (metaOf c).file i :=
  w.good.kept.file i hi fun he => his (Option.some.inj he).symm

theorem Written.inodesExact (w : Written D c s len x c') (hx : InodesExact (metaOf c)) :
    InodesExact (metaOf c') := by
  intro i
  rw [w.ib, hx i, w.entry]
  simp only [w.used_iff]

theorem Exact.write (hx : Exact (metaOf c)) (hs : (metaOf c).Used s)
    (w : Written D c s len x c') : Exact (metaOf c') := by
  constructor
  · exact w.inodesExact hx.ib
  · intro b
    rw [w.bb, hx.bb b, or_assoc]
    refine or_congr_right ⟨?_, ?_⟩
    · rintro (⟨t, j, ht, hj, hne⟩ | ⟨j, hj, hne, -⟩)
      · refine ⟨t, j, (w.used_iff t).mpr ht, ?_, hne⟩
        by_cases hts : t = s
        · rw [hts] at hj ⊢
          rw [w.file_self, w.keeps j (by rw [hj]; exact hne), hj]
        · rw [w.file_other ht hts, hj]
      · exact ⟨s, j, (w.used_iff s).mpr hs, by rw [w.file_self, hj], hne⟩
    · rintro ⟨t, j, ht, hj, hne⟩
      have ht' := (w.used_iff t).mp ht
      by_cases hts : t = s
      · rw [hts, w.file_self] at hj
        by_cases hzero : ((metaOf c).file s).direct j = 0
        · exact Or.inr ⟨j, hj, hne, hzero⟩
        · rw [w.keeps j hzero] at hj
          exact Or.inl ⟨s, j, hs, hj, hne⟩
      · rw [w.file_other ht' hts] at hj
        exact Or.inl ⟨t, j, ht', hj, hne⟩

end

/-! ## Unlinking -/

section

variable {s : Nat}

theorem metaOf_unlinked (h : Inv D.blockCount c) (hs : s < direntCount) (hu : (metaOf c).Used s) :
    metaOf (unlinked D.blockCount c s) =
      { ib := Function.update (metaOf c).ib ((metaOf c).entry s).ino false
        bb := bits (clearDirect D.blockCount (inodeOf c ((metaOf c).entry s).ino) (c blockBmapLba))
        inode := Function.update (metaOf c).inode ((metaOf c).entry s).ino (inodeView Bytes.zero)
        entry := Function.update (metaOf c).entry s ⟨0, 0⟩ } := by
  unfold unlinked
  rw [metaOf_putInode (h.data.inoOk hu), metaOf_freed hs]

theorem unlinked_used_iff (h : Inv D.blockCount c) (hs : s < direntCount) (hu : (metaOf c).Used s)
    (i : Nat) : (metaOf (unlinked D.blockCount c s)).Used i ↔ i ≠ s ∧ (metaOf c).Used i := by
  unfold Meta.Used
  rw [metaOf_unlinked h hs hu]
  dsimp only
  by_cases his : i = s
  · rw [his, Function.update_self]
    exact ⟨fun hne => absurd rfl hne, fun hne => absurd rfl hne.1⟩
  · rw [Function.update_of_ne his]
    exact ⟨fun hi => ⟨his, hi⟩, fun hi => hi.2⟩

theorem unlinked_kept (h : Inv D.blockCount c) (hs : s < direntCount) (hu : (metaOf c).Used s)
    {i : Nat} (hi : (metaOf c).Used i) (his : i ≠ s) :
    (metaOf (unlinked D.blockCount c s)).entry i = (metaOf c).entry i ∧
      (metaOf (unlinked D.blockCount c s)).file i = (metaOf c).file i := by
  have hne : some s ≠ some i := fun he => his (Option.some.inj he).symm
  have hkept := (good_unlinked h hs hu).kept
  exact ⟨hkept.entry hi hne, hkept.file i hi hne⟩

theorem unlinked_lists_iff (h : Inv D.blockCount c) (hs : s < direntCount)
    (hu : (metaOf c).Used s) (i j b : Nat) :
    (metaOf (unlinked D.blockCount c s)).Lists i j b ↔ i ≠ s ∧ (metaOf c).Lists i j b := by
  unfold Meta.Lists
  rw [unlinked_used_iff h hs hu, and_assoc]
  refine and_congr_right fun his => and_congr_right fun hi => ?_
  rw [(unlinked_kept h hs hu hi his).2]

/-- The inodes in entries, but for the one of the file. -/
theorem unlinked_refers_iff (h : Inv D.blockCount c) (hs : s < direntCount)
    (hu : (metaOf c).Used s) (i : Nat) :
    (∃ t, (metaOf (unlinked D.blockCount c s)).Used t ∧
      ((metaOf (unlinked D.blockCount c s)).entry t).ino = i) ↔
    i ≠ ((metaOf c).entry s).ino ∧ ∃ t, (metaOf c).Used t ∧ ((metaOf c).entry t).ino = i := by
  constructor
  · rintro ⟨t, ht, he⟩
    obtain ⟨hts, ht'⟩ := (unlinked_used_iff h hs hu t).mp ht
    rw [(unlinked_kept h hs hu ht' hts).1] at he
    -- two entries with one inode would be the same
    exact ⟨fun hi => hts (h.data.inos t s ht' hu (he.trans hi)), t, ht', he⟩
  · rintro ⟨hi, t, ht, he⟩
    have hts : t ≠ s := fun hts => hi (by rw [← he, hts])
    refine ⟨t, (unlinked_used_iff h hs hu t).mpr ⟨hts, ht⟩, ?_⟩
    rw [(unlinked_kept h hs hu ht hts).1, he]

theorem unlinked_bb_iff (h : Inv D.blockCount c) (hs : s < direntCount) (hu : (metaOf c).Used s)
    (b : Nat) : (metaOf (unlinked D.blockCount c s)).bb b = true ↔
      (metaOf c).bb b = true ∧ ¬Lists ((metaOf c).file s) D.blockCount b := by
  rw [metaOf_unlinked h hs hu, file_eq h hu]
  exact bits_clearDirect _ _ _ b

theorem unlinked_inodesExact (hx : InodesExact (metaOf c)) (h : Inv D.blockCount c)
    (hs : s < direntCount) (hu : (metaOf c).Used s) :
    InodesExact (metaOf (unlinked D.blockCount c s)) := by
  have hge := h.data.ino_ge s hu
  have hroot : rootIno = 1 := rfl
  intro i
  rw [unlinked_refers_iff h hs hu, metaOf_unlinked h hs hu]
  dsimp only
  by_cases hi : i = ((metaOf c).entry s).ino
  · -- the inode of the file is free now, and the entry that had it is gone
    rw [hi, Function.update_self]
    refine iff_of_false (by decide) ?_
    rintro (h0 | h1 | ⟨hne, -⟩)
    · omega
    · omega
    · exact hne rfl
  · rw [Function.update_of_ne hi, hx i]
    exact or_congr_right (or_congr_right ⟨fun he => ⟨hi, he⟩, fun he => he.2⟩)

theorem Exact.unlink (hx : Exact (metaOf c)) (h : Inv D.blockCount c) (hs : s < direntCount)
    (hu : (metaOf c).Used s) : Exact (metaOf (unlinked D.blockCount c s)) := by
  constructor
  · exact unlinked_inodesExact hx.ib h hs hu
  · intro b
    simp only [unlinked_lists_iff h hs hu]
    rw [unlinked_bb_iff h hs hu, hx.bb b]
    constructor
    · rintro ⟨hb | ⟨t, j, ht, hj, hne⟩, hnot⟩
      · exact Or.inl hb
      · -- a block of the file itself would have been cleared
        refine Or.inr ⟨t, j, fun hts => ?_, ht, hj, hne⟩
        subst hts
        have hlt := (h.data.file t hu).direct_lt j (by rw [hj]; exact hne)
        exact hnot ⟨j, hj, hne, hj ▸ hlt⟩
    · rintro (hb | ⟨t, j, hts, ht, hj, hne⟩)
      · -- no file has a system block
        refine ⟨Or.inl hb, ?_⟩
        rintro ⟨k, hk, hne, -⟩
        have hk8 := (h.data.file s hu).direct_ge k (by rw [hk]; exact hne)
        omega
      · -- what another file has, this one does not have
        refine ⟨Or.inr ⟨t, j, ht, hj, hne⟩, ?_⟩
        rintro ⟨k, hk, -, -⟩
        exact h.data.blocks t s ht hu hts j k (by rw [hj]; exact hne) (hj.trans hk.symm)

end

/-! ## Runs -/

/-- Right after a format the bitmaps are exact. -/
theorem Exact.format {blockCount : Nat} (h : c rootDirLba = Bytes.zero) :
    Exact (metaOf (formatted blockCount c)) := by
  have hnone : ∀ i, ¬(metaOf (formatted blockCount c)).Used i := formatted_not_used h
  constructor
  · intro i
    rw [metaOf_formatted]
    show bits formatInodeBmap i = true ↔ _
    rw [formatted_inodes, ← or_assoc]
    refine ⟨Or.inl, fun hor => hor.resolve_right ?_⟩
    rintro ⟨t, ht, -⟩
    rw [← metaOf_formatted] at ht
    exact hnone t ht
  · intro b
    rw [metaOf_formatted]
    show bits _ b = true ↔ _
    rw [formatted_blocks]
    refine ⟨Or.inl, fun hor => hor.resolve_right ?_⟩
    rintro ⟨t, j, ht, -⟩
    rw [← metaOf_formatted] at ht
    exact hnone t ht

theorem Call.Result.exact (hbc : D.blockCount ≤ 4096) (h : Inv D.blockCount c)
    (hx : Exact (metaOf c)) {op : Call} (hr : op.Result D c c') : Exact (metaOf c') := by
  cases op with
  | create name past =>
      obtain ⟨s, ino, lba, nameLen, w, rfl⟩ := hr
      exact hx.create hbc h w
  | write name buf len past =>
      obtain ⟨s, x, hs, w⟩ := hr
      exact hx.write (target_used hs).2 w
  | read name cap past =>
      obtain rfl : c' = c := hr
      exact hx
  | unlink name past =>
      obtain ⟨s, hs, rfl⟩ := hr
      exact hx.unlink h (target_used hs).1 (target_used hs).2

/-- The call is no write that runs out of blocks. -/
def Roomy (mnt : Mount) (dev : Blkdev) (op : Call) : Prop :=
  ¬(op.Leaks ∧ (op.exec mnt dev).1 = .error .nospc)

/-- On a device that never fails, a call that returns an error has changed nothing. -/
theorem Sound.unchanged {dev : Blkdev} (h : Sound D dev) (hfault : ¬D.Faulty) {mnt : Mount}
    {op : Call} (hroom : Roomy mnt dev op) :
    op.Result D dev.blocks (op.exec mnt dev).2.blocks ∨
      (op.exec mnt dev).2.blocks = dev.blocks := by
  obtain ⟨c', hdev', ⟨out, -, hr⟩ | ⟨e, he, hcut⟩⟩ := op.exec_cases h.gt h.le h.inv h.has mnt
  · rw [← hdev'.blocks_eq]
    exact Or.inl hr
  · rw [← hdev'.blocks_eq]
    refine Or.inr (hcut.same (fun hio => hfault (hcut.faulty hio)) fun hleak => hroom ?_)
    exact ⟨hleak.1, he.trans (congrArg _ hleak.2)⟩

theorem Sound.run_exact {mnt : Mount} {dev0 dev : Blkdev} {hist : History} (h : Sound D dev0)
    (hfault : ¬D.Faulty) (hx : Exact (metaOf dev0.blocks))
    (hrun : CallRun mnt (Roomy mnt) dev0 hist dev) : Exact (metaOf dev.blocks) := by
  induction hrun with
  | start => exact hx
  | call op hrun hroom ih =>
      have hsound := h.run hrun
      rcases hsound.unchanged hfault hroom with hr | heq
      · exact hr.exact hsound.le hsound.inv ih
      · rw [heq]
        exact ih

theorem not_faulty {dev : Blkdev} (h : dev.FaultFree) : ¬dev.disk.Faulty := by
  rintro ⟨k, hk⟩
  rw [show dev.disk.fails k = dev.fails k from rfl, h.1 k] at hk
  cases hk

/-- A format on a device of the right size that never fails ends well. -/
theorem format_ok {dev : Blkdev} (hmin : minBlocks ≤ dev.blockCount)
    (hmax : dev.blockCount ≤ blockSize * 8) (hfault : dev.FaultFree) :
    (format dev).1 = .ok () := by
  have hends := does_format dev.disk dev.blocks dev ⟨rfl, rfl, rfl, hfault.2⟩
  rcases hr : format dev with ⟨e | ⟨⟩, dev0⟩
  · obtain ⟨c', -, hbad | hbad | hbad⟩ := hends.error hr
    · exact absurd hbad (not_faulty hfault)
    · exact absurd hmin (not_le.mpr hbad)
    · exact absurd hmax (not_le.mpr hbad)
  · rfl

/-- A block is in one place at most. -/
theorem MetaInv.lists_unique {blockCount : Nat} {m : Meta} (h : MetaInv blockCount m)
    {s j s' j' b : Nat} (hl : m.Lists s j b) (hl' : m.Lists s' j' b) : s = s' ∧ j = j' := by
  obtain ⟨hs, hj, hne⟩ := hl
  obtain ⟨hs', hj', -⟩ := hl'
  have hdirect : (m.file s).direct j ≠ 0 := by
    rw [hj]
    exact hne
  by_cases hss : s = s'
  · subst hss
    exact ⟨rfl, (h.file s hs).distinct j j' hdirect (hj.trans hj'.symm)⟩
  · exact absurd (hj.trans hj'.symm) (h.blocks s s' hs hs' hss j j' hdirect)

/-- Bitmaps that say the same. -/
theorem agreeOn_of_bits {a b : Bytes} (h : ∀ i, bits a i = true ↔ bits b i = true) :
    Bytes.AgreeOn a b 0 blockSize := by
  apply Bitmap.agreeOn_of_test
  intro i hi
  rw [← bits_of_lt hi, ← bits_of_lt hi]
  exact Bool.eq_iff_iff.mpr (h i)

theorem Exact.no_files {m : Meta} (hx : Exact m) (hnone : ∀ s, ¬m.Used s) :
    (∀ i, m.ib i = true ↔ i = 0 ∨ i = rootIno) ∧ ∀ b, m.bb b = true ↔ b < dataStartLba := by
  refine ⟨fun i => ?_, fun b => ?_⟩
  · rw [hx.ib i, ← or_assoc]
    refine ⟨fun hor => hor.resolve_right ?_, Or.inl⟩
    rintro ⟨t, ht, -⟩
    exact hnone t ht
  · rw [hx.bb b]
    refine ⟨fun hor => hor.resolve_right ?_, Or.inl⟩
    rintro ⟨t, j, ht, -⟩
    exact hnone t ht

/-- An unlink that succeeds removes its entry, and no other one. -/
theorem Sound.unlink_removes {dev : Blkdev} (h : Sound D dev) {mnt : Mount} {name : Bytes}
    {past : UInt8} (hok : ((Call.unlink name past).exec mnt dev).1 = .ok []) :
    ∃ s, target dev.blocks name past = some s ∧ (metaOf dev.blocks).Used s ∧
      ∀ i, (metaOf ((Call.unlink name past).exec mnt dev).2.blocks).Used i ↔
        i ≠ s ∧ (metaOf dev.blocks).Used i := by
  obtain ⟨c', hdev', ⟨-, -, s, hs, rfl⟩ | ⟨e, he, -⟩⟩ :=
    (Call.unlink name past).exec_cases h.gt h.le h.inv h.has mnt
  · obtain ⟨hslot, hu⟩ := target_used hs
    refine ⟨s, hs, hu, fun i => ?_⟩
    rw [hdev'.blocks]
    exact unlinked_used_iff h.inv hslot hu i
  · rw [hok] at he
    cases he

/-- On a device that never fails, after a format and calls of which no write ran out of blocks: an
inode is marked if and only if it is in an entry, and then in one; a data block is marked if and
only if it is in an inode of these, and then in one place; the system blocks are marked; without
files the bitmaps are those of the format; and an unlink that succeeds removes its entry, and no
other one. -/
theorem callRun_accounted {mnt : Mount} {dev dev' : Blkdev} {hist : History}
    (hmin : minBlocks ≤ dev.blockCount) (hmax : dev.blockCount ≤ blockSize * 8)
    (hfault : dev.FaultFree)
    (hrun : CallRun mnt (Roomy mnt) (format dev).2 hist dev') :
    (format dev).1 = .ok () ∧
      (∀ i, 2 ≤ i →
        (∀ s s', (metaOf dev'.blocks).Used s → (metaOf dev'.blocks).Used s' →
          ((metaOf dev'.blocks).entry s).ino = i → ((metaOf dev'.blocks).entry s').ino = i →
          s = s') ∧
        ((metaOf dev'.blocks).ib i = true ↔
          ∃ s, (metaOf dev'.blocks).Used s ∧ ((metaOf dev'.blocks).entry s).ino = i)) ∧
      (∀ b, dataStartLba ≤ b →
        (∀ s j s' j', (metaOf dev'.blocks).Lists s j b → (metaOf dev'.blocks).Lists s' j' b →
          s = s' ∧ j = j') ∧
        ((metaOf dev'.blocks).bb b = true ↔ ∃ s j, (metaOf dev'.blocks).Lists s j b)) ∧
      (∀ b, b < dataStartLba → (metaOf dev'.blocks).bb b = true) ∧
      ((∀ s, ¬(metaOf dev'.blocks).Used s) →
        Bytes.AgreeOn (dev'.blocks inodeBmapLba) ((format dev).2.blocks inodeBmapLba)
          0 blockSize ∧
        Bytes.AgreeOn (dev'.blocks blockBmapLba) ((format dev).2.blocks blockBmapLba)
          0 blockSize) ∧
      ∀ name past, ((Call.unlink name past).exec mnt dev').1 = .ok [] →
        ∃ s, target dev'.blocks name past = some s ∧ (metaOf dev'.blocks).Used s ∧
          ∀ i, (metaOf ((Call.unlink name past).exec mnt dev').2.blocks).Used i ↔
            i ≠ s ∧ (metaOf dev'.blocks).Used i := by
  have hdisk := not_faulty hfault
  have hok := format_ok hmin hmax hfault
  obtain ⟨hsound, -, c₀, hdir, hblocks⟩ := format_sound hfault.2 hok
  have hx0 : Exact (metaOf (format dev).2.blocks) := hblocks ▸ Exact.format hdir
  have hx := hsound.run_exact hdisk hx0 hrun
  have hinv := (hsound.run hrun).inv
  refine ⟨hok, fun i hi => ⟨fun s s' hs hs' he he' => ?_, ?_⟩,
    fun b hb => ⟨fun s j s' j' hl hl' => hinv.data.lists_unique hl hl', ?_⟩,
    hinv.data.system, fun hnone => ?_, fun name past => (hsound.run hrun).unlink_removes⟩
  · exact hinv.data.inos s s' hs hs' (he.trans he'.symm)
  · rw [hx.ib i]
    refine ⟨fun hor => (hor.resolve_left (by omega)).resolve_left ?_, fun h => Or.inr (Or.inr h)⟩
    exact fun h1 => absurd (h1 ▸ hi) (by decide)
  · rw [hx.bb b]
    exact ⟨fun hor => hor.resolve_left (not_lt.mpr hb), Or.inr⟩
  · -- the format has no files either, and the bitmaps are a function of the files
    have hnone0 : ∀ s, ¬(metaOf (format dev).2.blocks).Used s := by
      rw [hblocks]
      exact formatted_not_used hdir
    obtain ⟨hib, hbb⟩ := hx.no_files hnone
    obtain ⟨hib0, hbb0⟩ := hx0.no_files hnone0
    exact ⟨agreeOn_of_bits fun i => (hib i).trans (hib0 i).symm,
      agreeOn_of_bits fun b => (hbb b).trans (hbb0 b).symm⟩

/-- A device of 16 blocks that never fails. -/
def freshDevice : Blkdev := ⟨16, fun _ => Bytes.zero, fun _ => false, 0, fun _ => false, []⟩

/-- A new file with 600 bytes has the second data block too, and when it is unlinked the bitmaps are
those of the format. -/
theorem callRun_accounted_grown : ∃ dev' dev'',
    CallRun ⟨16, 8⟩ (Roomy ⟨16, 8⟩) (format freshDevice).2
      [(.write nameA Bytes.zero 600 0, .ok []), (.create nameA 0, .ok [])] dev' ∧
    (metaOf dev'.blocks).bb 9 = true ∧ (∃ s j, (metaOf dev'.blocks).Lists s j 9) ∧
    CallRun ⟨16, 8⟩ (Roomy ⟨16, 8⟩) (format freshDevice).2
      [(.unlink nameA 0, .ok []), (.write nameA Bytes.zero 600 0, .ok []),
        (.create nameA 0, .ok [])] dev'' ∧
    Bytes.AgreeOn (dev''.blocks blockBmapLba) ((format freshDevice).2.blocks blockBmapLba)
      0 blockSize := by
  have hcreate : (Call.exec ⟨16, 8⟩ (.create nameA 0) (format freshDevice).2).1 = .ok [] := by
    decide +kernel
  have hwrite : (Call.exec ⟨16, 8⟩ (.write nameA Bytes.zero 600 0)
      (Call.exec ⟨16, 8⟩ (.create nameA 0) (format freshDevice).2).2).1 = .ok [] := by
    decide +kernel
  have hbit : (metaOf (Call.exec ⟨16, 8⟩ (.write nameA Bytes.zero 600 0)
      (Call.exec ⟨16, 8⟩ (.create nameA 0) (format freshDevice).2).2).2.blocks).bb 9 = true := by
    decide +kernel
  have hunlink : (Call.exec ⟨16, 8⟩ (.unlink nameA 0) (Call.exec ⟨16, 8⟩
      (.write nameA Bytes.zero 600 0)
      (Call.exec ⟨16, 8⟩ (.create nameA 0) (format freshDevice).2).2).2).1 = .ok [] := by
    decide +kernel
  have honly : ∀ i, i < direntCount → i ≠ 0 → deIno ((Call.exec ⟨16, 8⟩
      (.write nameA Bytes.zero 600 0) (Call.exec ⟨16, 8⟩ (.create nameA 0)
        (format freshDevice).2).2).2.blocks rootDirLba) i = 0 := by
    decide +kernel
  have hstart : CallRun ⟨16, 8⟩ (Roomy ⟨16, 8⟩) (format freshDevice).2 [] _ := .start
  have hrun := (hstart.call (.create nameA 0) fun h => h.1).call (.write nameA Bytes.zero 600 0)
    (fun h => by rw [hwrite] at h; cases h.2)
  have hrun' := hrun.call (.unlink nameA 0) fun h => h.1
  rw [hcreate, hwrite] at hrun hrun'
  rw [hunlink] at hrun'
  have hfault : freshDevice.FaultFree := ⟨fun _ => rfl, fun _ => rfl⟩
  have h := callRun_accounted (by decide) (by decide) hfault hrun
  have h' := callRun_accounted (by decide) (by decide) hfault hrun'
  refine ⟨_, _, hrun, hbit, ((h.2.2.1 9 (by decide)).2).mp hbit, hrun', (h'.2.2.2.2.1 ?_).2⟩
  -- the entry that is unlinked has been the only one
  intro i hi
  obtain ⟨s, hs, hu, hused⟩ := h.2.2.2.2.2 nameA 0 hunlink
  obtain ⟨his, hi⟩ := (hused i).mp hi
  have hzero : ∀ t, (metaOf _).Used t → t = 0 := fun t ht => by
    by_contra hne
    have hlt := used_lt ht
    exact ht ((entry_eq _ hlt).trans (honly t hlt hne))
  exact his ((hzero i hi).trans (hzero s hu).symm)

end Mcsos.Mcsfs1
