import Mcsos.Mcsfs1j.FsSpec

set_option autoImplicit false

/-! # Writing a file

A write makes the image with its file of the image, or the one between its two transactions, or
leaves it as it is; `WriteImages` says which of them by the result, and `WriteContract` what that
is for the files.
-/

namespace Mcsos.Mcsfs1j

open WriteLog

/-- The files before and after a write of `data` under the name `key`, by its result. -/
def WriteContract (before after : Files) (key data : List UInt8) {α : Type} :
    Except M16Err α → Prop
  | .ok _ => before key = none ∧ after = Function.update before key (some data)
  | .error .io => after = before ∨
      before key = none ∧ after = Function.update before key (some data)
  | .error _ => after = before

/-- The images before and after a write, by its result. -/
def WriteImages (before after : Nat → Bytes) (name data : Bytes) (size : Nat) {α : Type} :
    Except M16Err α → Prop
  | .ok _ => ∃ ino dataBlock slot, FreeFor (metaOf before) name ino dataBlock slot size ∧
      after = imageNew before name data ino dataBlock slot size
  | .error .io => after = before ∨
      ∃ ino dataBlock slot, FreeFor (metaOf before) name ino dataBlock slot size ∧
        (after = imageMid before name ino dataBlock slot size ∨
          after = imageNew before name data ino dataBlock slot size)
  | .error _ => after = before

theorem WriteImages.same {c : Nat → Bytes} {name data : Bytes} {size : Nat} {α : Type}
    (e : M16Err) : WriteImages c c name data size (.error e : Except M16Err α) := by
  cases e with
  | io => exact Or.inl rfl
  | inval => exact rfl
  | nospc => exact rfl
  | «exists» => exact rfl
  | noent => exact rfl
  | corrupt => exact rfl
  | toolong => exact rfl
  | wild => exact rfl

theorem WriteImages.map {before after : Nat → Bytes} {name data : Bytes} {size : Nat}
    {α β : Type} {f : α → β} {r : Except M16Err α}
    (h : WriteImages before after name data size r) :
    WriteImages before after name data size (r.map f) := by
  rcases r with e | a
  · cases e <;> exact h
  · exact h

/-- A name that is not in the directory is not among the files. -/
theorem filesOf_none {c : Nat → Bytes} {name : Bytes} (h : findDirent (metaOf c).dir name = none) :
    filesOf c (nameKey name) = none := by
  rw [findDirent_eq] at h
  unfold filesOf metaFiles
  rw [h]
  rfl

/-- What the images of a write are for the files. -/
theorem WriteImages.contract {before after : Nat → Bytes} {name data : Bytes} {size : Nat}
    {α : Type} {r : Except M16Err α} (h : ImageInv before)
    (hw : WriteImages before after name data size r) :
    WriteContract (filesOf before) (filesOf after) (nameKey name) (data.slice 0 size) r := by
  rcases r with e | a
  · cases e with
    | io =>
        rcases hw with rfl | ⟨ino, dataBlock, slot, f, rfl | rfl⟩
        · exact Or.inl rfl
        · exact Or.inl (imageMid_inv h f).2
        · exact Or.inr ⟨filesOf_none f.name_new, (imageNew_inv data h f).2⟩
    | inval => exact congrArg filesOf hw
    | nospc => exact congrArg filesOf hw
    | «exists» => exact congrArg filesOf hw
    | noent => exact congrArg filesOf hw
    | corrupt => exact congrArg filesOf hw
    | toolong => exact congrArg filesOf hw
    | wild => exact congrArg filesOf hw
  · obtain ⟨ino, dataBlock, slot, f, rfl⟩ := hw
    exact ⟨filesOf_none f.name_new, (imageNew_inv data h f).2⟩

section Held

variable {dev : Blockdev} {c : Nat → Bytes}

/-- A transaction leads to its image once its header has been written. -/
theorem commit_reached (h : Held dev c) (he : JournalEmpty dev) {tx : Tx}
    (hcount : tx.count ≤ journalMaxRecords)
    (htargets : ∀ w ∈ homeWrites tx 0 tx.count, w.1 < maxBlocks ∧ ¬InJournal w.1)
    (himage : ImageInv (applyWrites (stored (homeWrites tx 0 tx.count)) c)) (seq : Nat)
    (stop : Bool) (hr : HeaderReached dev tx) :
    Held (journalCommit tx seq stop dev).2
      (applyWrites (stored (homeWrites tx 0 tx.count)) c) := by
  have htx : TargetsOk dev tx := targetsOk_of_homeWrites fun w hw =>
    ⟨h.valid (htargets w hw).1, (htargets w hw).2⟩
  obtain ⟨htotal, -, -, hafter⟩ := commit_settled h.settled.valid he hcount htx seq stop
  exact ⟨(hafter hr).1.congr ((h.settled.home he).applyWrites _), htotal.trans h.total, himage⟩

/-- The journal has room for the records of a transaction. -/
theorem Held.dataLba_valid (h : Held dev c) {tx : Tx} (hcount : tx.count ≤ journalMaxRecords) :
    ∀ i, i < tx.count → validLba dev (dataLba i) := by
  intro i hi
  refine h.valid ?_
  exact lt_trans (inJournal_data (lt_of_lt_of_le hi hcount)).2 (by decide)

/-- A transaction leads to its image, or to the one before. -/
theorem commit_held (h : Held dev c) (he : JournalEmpty dev) (tx : Tx)
    (hcount : tx.count ≤ journalMaxRecords)
    (htargets : ∀ w ∈ homeWrites tx 0 tx.count, w.1 < maxBlocks ∧ ¬InJournal w.1)
    (himage : ImageInv (applyWrites (stored (homeWrites tx 0 tx.count)) c)) (seq : Nat)
    (stop : Bool) : ∃ dev',
    (journalCommit tx seq stop dev = (.ok (), dev') ∧
      Held dev' (applyWrites (stored (homeWrites tx 0 tx.count)) c) ∧
      (stop = false → JournalEmpty dev')) ∨
    (journalCommit tx seq stop dev = (.error .io, dev') ∧
      (Held dev' c ∨ Held dev' (applyWrites (stored (homeWrites tx 0 tx.count)) c))) := by
  have htx : TargetsOk dev tx := targetsOk_of_homeWrites fun w hw =>
    ⟨h.valid (htargets w hw).1, (htargets w hw).2⟩
  have hhome := h.settled.home he
  have hreached := commit_reached h he hcount htargets himage seq stop
  obtain ⟨htotal, hio, hbefore, hafter⟩ :=
    commit_settled h.settled.valid he hcount htx seq stop
  rcases hrun : journalCommit tx seq stop dev with ⟨r, dev'⟩
  rw [hrun] at htotal hio hbefore hafter hreached
  have htotal' : dev'.totalBlocks = maxBlocks := htotal.trans h.total
  have hold : ¬HeaderReached dev tx → Held dev' c := fun hn => by
    obtain ⟨he', hh, -⟩ := hbefore hn
    exact ⟨⟨(validLba_congr htotal _).mpr h.settled.valid, Or.inl ⟨he', hh.trans hhome⟩⟩, htotal',
      h.image⟩
  refine ⟨dev', ?_⟩
  rcases hio (h.dataLba_valid hcount) with rfl | rfl
  · have hr : HeaderReached dev tx := by
      by_contra hn
      exact (hbefore hn).2.2 rfl
    exact Or.inl ⟨rfl, hreached hr, (hafter hr).2.1 rfl⟩
  · refine Or.inr ⟨rfl, ?_⟩
    by_cases hr : HeaderReached dev tx
    · exact Or.inr (hreached hr)
    · exact Or.inl (hold hr)

/-! ## `m16_write_file_ex` -/

theorem metaWrites_between (m : Meta) :
    ∀ w ∈ metaWrites m, inodeBitmapLba ≤ w.1 ∧ w.1 < dataStartLba := by
  unfold metaWrites
  simp only [List.forall_mem_cons]
  refine ⟨by decide, by decide, by decide, by decide, by decide, by decide, ?_⟩
  intro w hw
  cases hw

theorem metaWrites_targets (m : Meta) :
    ∀ w ∈ metaWrites m, w.1 < maxBlocks ∧ ¬InJournal w.1 := fun w hw => by
  obtain ⟨hge, hlt⟩ := metaWrites_between m w hw
  exact ⟨lt_trans hlt (by decide), not_inJournal_of_ge hge⟩

theorem fileWrites_targets (m : Meta) {dataBlock : Nat} (dataBlk : Bytes)
    (hge : dataStartLba ≤ dataBlock) (hlt : dataBlock < maxBlocks) :
    ∀ w ∈ fileWrites m dataBlock dataBlk, w.1 < maxBlocks ∧ ¬InJournal w.1 := by
  unfold fileWrites
  simp only [List.forall_mem_cons]
  refine ⟨by decide, ⟨hlt, not_inJournal_of_ge (le_trans (by decide) hge)⟩, ?_⟩
  intro w hw
  cases hw

/-- The two transactions of a write, for a file that fits. -/
theorem writeNew_eq {m : Meta} {name data : Bytes} {ino dataBlock slot size : Nat}
    (f : FreeFor m name ino dataBlock slot size) {tx1 tx2 : Tx}
    (htx1 : metaTx (addFile m ino dataBlock slot size name (nameKey name).length) = .ok tx1)
    (htx2 : fileTx (addFile m ino dataBlock slot size name (nameKey name).length) dataBlock
      (Bytes.zero.copy 0 data 0 size) = .ok tx2) (sb : Bytes) (stop : Bool) (dev : Blockdev) :
    writeNew sb m name data size (nameKey name).length stop dev =
      (journalCommit tx1 (sCleanGeneration sb + 1) false >>= fun _ =>
        journalCommit tx2 (sCleanGeneration sb + 2) stop) dev := by
  have hisSome : ¬((findDirent m.dir name).isSome = true) := by
    rw [f.name_new]
    decide
  have hm1 : (Prog.ofExcept (metaTx (addFile m ino dataBlock slot size name
      (nameKey name).length)) : M16 Tx) = pure tx1 := congrArg Prog.ofExcept htx1
  have hm2 : (Prog.ofExcept (fileTx (addFile m ino dataBlock slot size name
      (nameKey name).length) dataBlock (Bytes.zero.copy 0 data 0 size)) : M16 Tx) = pure tx2 :=
    congrArg Prog.ofExcept htx2
  unfold writeNew
  rw [Prog.bind_ok (Prog.failIf_neg hisSome _ _), f.ino, Prog.bind_ok (Prog.ofOption_some _ _ _),
    f.dataBlock, Prog.bind_ok (Prog.ofOption_some _ _ _), f.slot,
    Prog.bind_ok (Prog.ofOption_some _ _ _)]
  rw [hm1, hm2, Prog.pure_bind, Prog.pure_bind]

/-- What a write of a file that fits comes to. -/
theorem writeNew_transactions (h : Held dev c) (he : JournalEmpty dev)
    {name data : Bytes} {ino dataBlock slot size : Nat}
    (f : FreeFor (metaOf c) name ino dataBlock slot size) (sb : Bytes) (stop : Bool) :
    ∃ r dev' c', writeNew sb (metaOf c) name data size (nameKey name).length stop dev = (r, dev') ∧
      Held dev' c' ∧ WriteImages c c' name data size r := by
  obtain ⟨hge, hlt, -⟩ := findFreeBlock_some f.dataBlock
  obtain ⟨hmid, -⟩ := imageMid_inv h.image f
  obtain ⟨hnew, -⟩ := imageNew_inv data h.image f
  obtain ⟨tx1, htx1, hcount1, hhome1⟩ := metaTx_ok (newMeta c name ino dataBlock slot size)
  obtain ⟨tx2, htx2, hcount2, hhome2⟩ := fileTx_ok (newMeta c name ino dataBlock slot size)
    dataBlock (Bytes.zero.copy 0 data 0 size)
  rw [writeNew_eq f htx1 htx2 sb stop dev]
  -- five ways it can end: each transaction may be cut before or after its header
  have himage1 : applyWrites (stored (homeWrites tx1 0 tx1.count)) c =
      imageMid c name ino dataBlock slot size := by
    rw [hhome1]
    rfl
  have hc1 := commit_held h he tx1 (by rw [hcount1]; decide)
    (by rw [hhome1]; exact metaWrites_targets _) (by rw [himage1]; exact hmid)
    (sCleanGeneration sb + 1) false
  rw [himage1] at hc1
  obtain ⟨dev1, ⟨hok1, hheld1, hempty1⟩ | ⟨hio1, hheld1⟩⟩ := hc1
  · have himage2 : applyWrites (stored (homeWrites tx2 0 tx2.count))
        (imageMid c name ino dataBlock slot size) =
        imageNew c name data ino dataBlock slot size := by
      rw [hhome2]
      rfl
    have hc2 := commit_held hheld1 (hempty1 rfl) tx2 (by rw [hcount2]; decide)
      (by rw [hhome2]; exact fileWrites_targets _ _ hge hlt) (by rw [himage2]; exact hnew)
      (sCleanGeneration sb + 2) stop
    rw [himage2] at hc2
    rw [Prog.bind_ok hok1]
    obtain ⟨dev2, ⟨hok2, hheld2, -⟩ | ⟨hio2, hheld2 | hheld2⟩⟩ := hc2
    · exact ⟨_, dev2, _, hok2, hheld2, ino, dataBlock, slot, f, rfl⟩
    · exact ⟨_, dev2, _, hio2, hheld2, Or.inr ⟨ino, dataBlock, slot, f, Or.inl rfl⟩⟩
    · exact ⟨_, dev2, _, hio2, hheld2, Or.inr ⟨ino, dataBlock, slot, f, Or.inr rfl⟩⟩
  · rw [Prog.bind_error hio1]
    rcases hheld1 with hheld1 | hheld1
    · exact ⟨_, dev1, _, rfl, hheld1, Or.inl rfl⟩
    · exact ⟨_, dev1, _, rfl, hheld1, Or.inr ⟨ino, dataBlock, slot, f, Or.inl rfl⟩⟩

/-- A write that has read the metadata stops there, or has found what it needs. -/
theorem writeNew_cases (m : Meta) {name : Bytes} (data : Bytes) {size : Nat}
    (hpos : 0 < (nameKey name).length) (hlt : (nameKey name).length < maxName)
    (hsize : size ≤ blockSize) (sb : Bytes) (stop : Bool) (dev : Blockdev) :
    (∃ e, writeNew sb m name data size (nameKey name).length stop dev = (.error e, dev)) ∨
      ∃ ino dataBlock slot, FreeFor m name ino dataBlock slot size := by
  rcases hname : findDirent m.dir name with _ | i
  · have hisSome : ¬((findDirent m.dir name).isSome = true) := by
      rw [hname]
      decide
    rcases hino : findFreeInode m.ib with _ | ino
    · refine Or.inl ⟨.nospc, ?_⟩
      unfold writeNew
      rw [Prog.bind_ok (Prog.failIf_neg hisSome _ _), hino,
        Prog.bind_error (Prog.ofOption_none _ _)]
    · rcases hblock : findFreeBlock m.bb with _ | dataBlock
      · refine Or.inl ⟨.nospc, ?_⟩
        unfold writeNew
        rw [Prog.bind_ok (Prog.failIf_neg hisSome _ _), hino,
          Prog.bind_ok (Prog.ofOption_some _ _ _), hblock,
          Prog.bind_error (Prog.ofOption_none _ _)]
      · rcases hslot : findFreeDirent m.dir with _ | slot
        · refine Or.inl ⟨.nospc, ?_⟩
          unfold writeNew
          rw [Prog.bind_ok (Prog.failIf_neg hisSome _ _), hino,
            Prog.bind_ok (Prog.ofOption_some _ _ _), hblock,
            Prog.bind_ok (Prog.ofOption_some _ _ _), hslot,
            Prog.bind_error (Prog.ofOption_none _ _)]
        · exact Or.inr ⟨ino, dataBlock, slot, hpos, hlt, hsize, hname, hino, hblock, hslot⟩
  · refine Or.inl ⟨.exists, ?_⟩
    unfold writeNew
    rw [Prog.bind_error (Prog.failIf_pos (by rw [hname]; exact rfl) _ _)]

theorem writeNew_spec (h : Held dev c) (he : JournalEmpty dev) {name : Bytes} (data : Bytes)
    {size : Nat} (hpos : 0 < (nameKey name).length) (hlt : (nameKey name).length < maxName)
    (hsize : size ≤ blockSize) (sb : Bytes) (stop : Bool) :
    ∃ r dev' c', writeNew sb (metaOf c) name data size (nameKey name).length stop dev = (r, dev') ∧
      Held dev' c' ∧ WriteImages c c' name data size r := by
  rcases writeNew_cases (metaOf c) data hpos hlt hsize sb stop dev with
    ⟨e, hrun⟩ | ⟨ino, dataBlock, slot, f⟩
  · exact ⟨_, dev, c, hrun, h, WriteImages.same e⟩
  · exact writeNew_transactions h he f sb stop

/-- A write whose arguments are good, on a device that has been mounted. -/
theorem writeFileEx_eq {dev' : Blockdev} {name : Bytes} (data : Bytes) {size : Nat} {sb : Bytes}
    {m : Meta} (hlen : ¬(strlenBounded name maxName = 0 ∨ maxName ≤ strlenBounded name maxName))
    (hsize : ¬blockSize < size) (hrun : mount dev = (.ok sb, dev'))
    (hread : readMeta dev' = (.ok m, dev')) (stop : Bool) : writeFileEx name data size stop dev =
      writeNew sb m name data size (nameKey name).length stop dev' := by
  unfold writeFileEx
  rw [Prog.bind_ok (Prog.failIf_neg hlen _ _), Prog.bind_ok (Prog.failIf_neg hsize _ _),
    Prog.bind_ok hrun, Prog.bind_ok hread, strlenBounded_eq]

theorem writeFileEx_spec (h : Held dev c) (name data : Bytes) (size : Nat) (stop : Bool) :
    ∃ r dev' c', writeFileEx name data size stop dev = (r, dev') ∧ Held dev' c' ∧
      WriteImages c c' name data size r := by
  have hfail : ∀ (e : M16Err) (dev' : Blockdev), Held dev' c →
      writeFileEx name data size stop dev = (.error e, dev') →
      ∃ r dev' c', writeFileEx name data size stop dev = (r, dev') ∧ Held dev' c' ∧
        WriteImages c c' name data size r :=
    fun e dev' hheld hrun => ⟨_, dev', c, hrun, hheld, WriteImages.same e⟩
  by_cases hlen : strlenBounded name maxName = 0 ∨ maxName ≤ strlenBounded name maxName
  · refine hfail .toolong dev h ?_
    unfold writeFileEx
    rw [Prog.bind_error (Prog.failIf_pos hlen _ _)]
  · by_cases hsize : blockSize < size
    · refine hfail .inval dev h ?_
      unfold writeFileEx
      rw [Prog.bind_ok (Prog.failIf_neg hlen _ _), Prog.bind_error (Prog.failIf_pos hsize _ _)]
    · obtain ⟨hheld, hr, he⟩ := mount_spec h
      rcases hrun : mount dev with ⟨r, dev'⟩
      rw [hrun] at hheld hr he
      rcases hr with ⟨sb, rfl⟩ | ⟨rfl, -⟩
      · have he' := he ⟨sb, rfl⟩
        rw [writeFileEx_eq data hlen hsize hrun (readMeta_spec hheld he') stop]
        rw [strlenBounded_eq] at hlen
        exact writeNew_spec hheld he' data (by omega) (by omega) (by omega) sb stop
      · refine hfail .io dev' hheld ?_
        unfold writeFileEx
        rw [Prog.bind_ok (Prog.failIf_neg hlen _ _), Prog.bind_ok (Prog.failIf_neg hsize _ _),
          Prog.bind_error hrun]

end Held

end Mcsos.Mcsfs1j
