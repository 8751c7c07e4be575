import Mcsos.Mcsfs1j.JournalRuns

set_option autoImplicit false

/-! # Recovery from any journal

What recovery does to a device whose blocks may hold anything. The replay loop puts the records
in place one by one and stops at the first bad one, so a bad record undoes nothing of what the
ones before it have done. `goodRecords` are the records that it gets to, read when it is their
turn: a record may well have written to the journal itself.
-/

namespace Mcsos.Mcsfs1j

open WriteLog

/-! ## The records that replay gets to -/

/-- Record `i` passes the checks of the replay loop. -/
def GoodRecord (total : Nat) (blocks : Nat → Bytes) (i : Nat) : Prop :=
  dMagic (blocks (descLba i)) = jMagic ∧
    (dTargetLba (blocks (descLba i)) < total ∧ dTargetLba (blocks (descLba i)) < maxBlocks) ∧
    (checksum (blocks (dataLba i)) blockSize).toNat = dPayloadChecksum (blocks (descLba i))

instance (total : Nat) (blocks : Nat → Bytes) (i : Nat) : Decidable (GoodRecord total blocks i) :=
  inferInstanceAs (Decidable (_ ∧ _))

/-- The write that record `i` asks for. -/
def recordAt (blocks : Nat → Bytes) (i : Nat) : Nat × Bytes :=
  (dTargetLba (blocks (descLba i)), blocks (dataLba i))

/-- The writes of the `n` records from `i` on, up to the first bad one. -/
def goodRecords (total : Nat) (blocks : Nat → Bytes) (i : Nat) : Nat → List (Nat × Bytes)
  | 0 => []
  | n + 1 =>
    if GoodRecord total blocks i then
      recordAt blocks i :: goodRecords total
        (applyWrites (stored [recordAt blocks i]) blocks) (i + 1) n
    else []

theorem goodRecords_valid {dev : Blockdev} {blocks : Nat → Bytes} {i n : Nat} :
    ∀ w ∈ goodRecords dev.totalBlocks blocks i n, validLba dev w.1 := by
  induction n generalizing blocks i with
  | zero =>
      intro w hw
      cases hw
  | succ n ih =>
      rw [goodRecords]
      split
      · rename_i hgood
        intro w hw
        rcases List.mem_cons.mp hw with rfl | hw
        · exact hgood.2.1
        · exact ih w hw
      · intro w hw
        cases hw

/-- One round of the loop: the write of a good record, or `CORRUPT`. -/
theorem replayRecord_any {dev : Blockdev} {i : Nat} (hd : validLba dev (descLba i))
    (hp : validLba dev (dataLba i)) : replayRecord i dev =
      if GoodRecord dev.totalBlocks dev.blocks i then
        writeBlock (recordAt dev.blocks i).1 (recordAt dev.blocks i).2 dev
      else (.error .corrupt, dev) := by
  have hasks : (Prog.asks id : M16 Blockdev) dev = (.ok dev, dev) := rfl
  unfold replayRecord
  rw [Prog.bind_ok (readBlock_valid hd), Prog.bind_ok hasks]
  by_cases hdesc : dMagic (dev.blocks (descLba i)) ≠ jMagic ∨
      ¬validLba dev (dTargetLba (dev.blocks (descLba i)))
  · rw [Prog.bind_error (Prog.failIf_pos hdesc _ _), if_neg]
    rintro ⟨hmagic, htarget, -⟩
    rcases hdesc with hne | hne
    · exact hne hmagic
    · exact hne htarget
  · obtain ⟨hmagic, htarget⟩ := not_or.mp hdesc
    rw [Prog.bind_ok (Prog.failIf_neg hdesc _ _), Prog.bind_ok (readBlock_valid hp)]
    by_cases hsum : (checksum (dev.blocks (dataLba i)) blockSize).toNat ≠
        dPayloadChecksum (dev.blocks (descLba i))
    · rw [Prog.bind_error (Prog.failIf_pos hsum _ _), if_neg]
      exact fun hgood => hsum hgood.2.2
    · rw [Prog.bind_ok (Prog.failIf_neg hsum _ _), if_pos]
      · rfl
      · exact ⟨not_not.mp hmagic, not_not.mp htarget, not_not.mp hsum⟩

/-- The loop: the writes of the good records, then `CORRUPT` if a bad one is left. -/
theorem replay_any {dev : Blockdev} {i n : Nat}
    (hvalid : ∀ k, i ≤ k → k < i + n → validLba dev (dataLba k)) :
    replay i n dev = (writeAll (goodRecords dev.totalBlocks dev.blocks i n) >>= fun _ =>
      Prog.failIf ((goodRecords dev.totalBlocks dev.blocks i n).length < n) .corrupt) dev := by
  induction n generalizing i dev with
  | zero =>
      rw [replay, goodRecords]
      exact (Prog.bind_ok (Prog.pure_apply () dev)).symm
  | succ n ih =>
      have hp := hvalid i (le_refl i) (by omega)
      have hrec := replayRecord_any (validLba_of_le hp (descLba_le i)) hp
      rw [replay, goodRecords]
      by_cases hgood : GoodRecord dev.totalBlocks dev.blocks i
      · rw [if_pos hgood] at hrec
        rw [if_pos hgood, writeAll, Prog.bind_assoc]
        rcases writeBlock_cases (recordAt dev.blocks i).1 (recordAt dev.blocks i).2 dev with
          ⟨dev1, hw, -, -, hblocks, htotal, -⟩ | ⟨-, hw⟩ | ⟨-, -, hw⟩
        · have hblocks' : dev1.blocks = applyWrites (stored [recordAt dev.blocks i]) dev.blocks :=
            hblocks
          have hnext : ∀ k, i + 1 ≤ k → k < i + 1 + n → validLba dev1 (dataLba k) :=
            fun k hik hk => (validLba_congr htotal _).mpr (hvalid k (by omega) (by omega))
          have hleft : ∀ l : Nat, (Prog.failIf (l + 1 < n + 1) .corrupt : M16 Unit) =
              Prog.failIf (l < n) .corrupt :=
            fun l => Prog.failIf_congr Nat.add_lt_add_iff_right _
          rw [Prog.bind_ok (hrec.trans hw), Prog.bind_ok hw, ih hnext, hblocks', htotal,
            List.length_cons, hleft]
        · rw [Prog.bind_error (hrec.trans hw), Prog.bind_error hw]
        · rw [Prog.bind_error (hrec.trans hw), Prog.bind_error hw]
      · rw [if_neg hgood] at hrec
        rw [if_neg hgood, Prog.bind_error hrec]
        have hnil : writeAll [] dev = (.ok (), dev) := rfl
        have hleft : ([] : List (Nat × Bytes)).length < n + 1 := Nat.zero_lt_succ n
        rw [Prog.bind_ok hnil, Prog.failIf_pos hleft]

/-! ## The whole recovery -/

/-- The header asks for a replay. -/
def HeaderOk (h : Bytes) : Prop := GoodHeader h (hCount h) ∧ hCount h ≤ journalMaxRecords

theorem journalRecover_rejected {dev : Blockdev} (hv : validLba dev journalStart)
    (hne : ¬JournalEmpty dev) (hh : ¬HeaderOk (dev.blocks journalStart)) :
    journalRecover dev = (.error .corrupt, dev) := by
  have hne' : ¬(hMagic (dev.blocks journalStart) = 0 ∧
      hState (dev.blocks journalStart) = jEmpty) := hne
  unfold journalRecover
  rw [Prog.bind_ok (readBlock_valid hv), if_neg hne']
  by_cases hfields : hMagic (dev.blocks journalStart) ≠ jMagic ∨
      hVersion (dev.blocks journalStart) ≠ version ∨
      hState (dev.blocks journalStart) ≠ jCommitted ∨
      journalMaxRecords < hCount (dev.blocks journalStart)
  · rw [Prog.bind_error (Prog.failIf_pos hfields _ _)]
  · have hsum : headerChecksum (dev.blocks journalStart) ≠ hChecksum (dev.blocks journalStart) := by
      intro hsum
      simp only [not_or, not_not, not_lt] at hfields
      obtain ⟨h1, h2, h3, h4⟩ := hfields
      exact hh ⟨⟨h1, h2, h3, rfl, hsum⟩, h4⟩
    rw [Prog.bind_ok (Prog.failIf_neg hfields _ _), Prog.bind_error (Prog.failIf_pos hsum _ _)]

theorem HeaderOk.not_empty {dev : Blockdev} (h : HeaderOk (dev.blocks journalStart)) :
    ¬JournalEmpty dev := by
  rintro ⟨hm, -⟩
  have hmagic := h.1.magic
  rw [hm] at hmagic
  exact absurd hmagic (by decide)

theorem journalRecover_accepted {dev : Blockdev} (hv : validLba dev journalStart)
    (hh : HeaderOk (dev.blocks journalStart)) : journalRecover dev =
      (replay 0 (hCount (dev.blocks journalStart)) >>= fun _ => journalClear) dev := by
  have hne : ¬(hMagic (dev.blocks journalStart) = 0 ∧
      hState (dev.blocks journalStart) = jEmpty) := hh.not_empty
  obtain ⟨⟨hmagic, hversion, hstate, -, hsum⟩, hcount⟩ := hh
  have hfields : ¬(hMagic (dev.blocks journalStart) ≠ jMagic ∨
      hVersion (dev.blocks journalStart) ≠ version ∨
      hState (dev.blocks journalStart) ≠ jCommitted ∨
      journalMaxRecords < hCount (dev.blocks journalStart)) := by
    rw [hmagic, hversion, hstate]
    omega
  unfold journalRecover
  rw [Prog.bind_ok (readBlock_valid hv), if_neg hne, Prog.bind_ok (Prog.failIf_neg hfields _ _),
    Prog.bind_ok (Prog.failIf_neg (not_not.mpr hsum) _ _)]

/-- The records of the journal of `dev` that replay gets to. -/
def journalRecords (dev : Blockdev) : List (Nat × Bytes) :=
  goodRecords dev.totalBlocks dev.blocks 0 (hCount (dev.blocks journalStart))

/-- Two stores hold the same blocks. -/
def SameBlocks (a b : Nat → Bytes) : Prop := ∀ lba, Bytes.AgreeOn (a lba) (b lba) 0 blockSize

/-- Recovery under a header that asks for a replay: the writes of the good records, then `CORRUPT`
if there is a bad one, else the journal is cleared. -/
theorem journalRecover_cases {dev : Blockdev} (hv : validLba dev journalStart)
    (hh : HeaderOk (dev.blocks journalStart))
    (hdata : ∀ k, k < hCount (dev.blocks journalStart) → validLba dev (dataLba k)) :
    ∃ r dev' j, WriteOutcome (journalRecords dev) dev r dev' j ∧
      ((∃ e, r = .error e ∧ journalRecover dev = (.error e, dev')) ∨
        (r = .ok () ∧ (journalRecords dev).length < hCount (dev.blocks journalStart) ∧
          journalRecover dev = (.error .corrupt, dev')) ∨
        (r = .ok () ∧ ¬(journalRecords dev).length < hCount (dev.blocks journalStart) ∧
          journalRecover dev = journalClear dev')) := by
  have hrun := journalRecover_accepted hv hh
  have hloop : replay 0 (hCount (dev.blocks journalStart)) dev =
      (writeAll (journalRecords dev) >>= fun _ => Prog.failIf
        ((journalRecords dev).length < hCount (dev.blocks journalStart)) .corrupt) dev :=
    replay_any fun k _ hk => hdata k (by omega)
  obtain ⟨j, hj⟩ := writeAll_outcome (journalRecords dev) dev
  rcases hw : writeAll (journalRecords dev) dev with ⟨r, dev'⟩
  rw [hw] at hj
  refine ⟨r, dev', j, hj, ?_⟩
  rcases r with e | u
  · rw [Prog.bind_error hw] at hloop
    rw [Prog.bind_error hloop] at hrun
    exact Or.inl ⟨e, rfl, hrun⟩
  · rw [Prog.bind_ok hw] at hloop
    by_cases hbad : (journalRecords dev).length < hCount (dev.blocks journalStart)
    · rw [Prog.failIf_pos hbad] at hloop
      rw [Prog.bind_error hloop] at hrun
      exact Or.inr (Or.inl ⟨rfl, hbad, hrun⟩)
    · rw [Prog.failIf_neg hbad] at hloop
      rw [Prog.bind_ok hloop] at hrun
      exact Or.inr (Or.inr ⟨rfl, hbad, hrun⟩)

theorem journalClear_ne_corrupt (dev : Blockdev) : (journalClear dev).1 ≠ .error .corrupt := by
  unfold journalClear
  rcases writeBlock_cases journalStart Bytes.zero dev with ⟨dev1, h, -⟩ | ⟨-, h⟩ | ⟨-, -, h⟩
  · rw [h]
    exact fun hc => by cases hc
  · rw [h]
    exact fun hc => by cases hc
  · rw [h]
    exact fun hc => by cases hc

/-- A header that asks for no replay: nothing is written. -/
theorem journalRecover_not_headerOk {dev : Blockdev} (hv : validLba dev journalStart)
    (hh : ¬HeaderOk (dev.blocks journalStart)) : (journalRecover dev).2 = dev := by
  by_cases he : JournalEmpty dev
  · rw [journalRecover_empty hv he]
  · rw [journalRecover_rejected hv he hh]

/-- When recovery says `CORRUPT`, and what it leaves. -/
theorem journalRecover_corrupt {dev : Blockdev} (htotal : dev.totalBlocks = maxBlocks) :
    ((journalRecover dev).1 = .error .corrupt →
      (¬HeaderOk (dev.blocks journalStart) ∧ (journalRecover dev).2.blocks = dev.blocks) ∨
      (HeaderOk (dev.blocks journalStart) ∧
        (journalRecords dev).length < hCount (dev.blocks journalStart) ∧
        Allows dev (journalRecords dev).length ∧
        (journalRecover dev).2.blocks = applyWrites (stored (journalRecords dev)) dev.blocks)) ∧
    (HeaderOk (dev.blocks journalStart) →
      (journalRecords dev).length < hCount (dev.blocks journalStart) →
      Allows dev (journalRecords dev).length → (journalRecover dev).1 = .error .corrupt) := by
  have hvalid : ∀ lba, lba < maxBlocks → validLba dev lba := fun _ => validLba_of_total htotal
  have hv : validLba dev journalStart := hvalid _ (by decide)
  by_cases hh : HeaderOk (dev.blocks journalStart)
  · have hdata : ∀ k, k < hCount (dev.blocks journalStart) → validLba dev (dataLba k) :=
        fun k hk => by
      refine hvalid _ ?_
      exact lt_trans (inJournal_data (lt_of_lt_of_le hk hh.2)).2 (by decide)
    obtain ⟨r, dev', j, hj, ⟨e, rfl, hrun⟩ | ⟨rfl, hbad, hrun⟩ | ⟨rfl, hgood, hrun⟩⟩ :=
      journalRecover_cases hv hh hdata
    · -- cut while writing
      have hok := hj.ok (fun w hw => goodRecords_valid w hw)
      rcases hj.io (fun w hw => goodRecords_valid w hw) with hio | hio
      · cases hio
      · obtain rfl : e = .io := Except.error.inj hio
        rw [hrun]
        exact ⟨fun h => (by cases h), fun _ _ ha => (by cases hok ha)⟩
    · -- stopped at a bad record
      have hall := hj.ok_iff.mp rfl
      have hblocks := hj.blocks
      rw [hall, List.take_length] at hblocks
      rw [hrun]
      have ha := ((hj.reach _ (le_refl _)).mp hall.ge).2
      exact ⟨fun _ => Or.inr ⟨hh, hbad, ha, hblocks⟩, fun _ _ _ => rfl⟩
    · -- all records written
      rw [hrun]
      exact ⟨fun hc => absurd hc (journalClear_ne_corrupt dev'), fun _ h _ => absurd h hgood⟩
  · refine ⟨fun _ => Or.inl ⟨hh, ?_⟩, fun h => absurd h hh⟩
    rw [journalRecover_not_headerOk hv hh]

/-! ## Failing closed -/

/-- No record that replay gets to before a bad one is in place for good and new: each carries
what its block holds already, or is overwritten by another one. -/
def FailsClosed (dev : Blockdev) : Prop :=
  HeaderOk (dev.blocks journalStart) →
    (journalRecords dev).length < hCount (dev.blocks journalStart) →
    Allows dev (journalRecords dev).length →
    ∀ w, IsLast (journalRecords dev) w → Bytes.AgreeOn w.2 (dev.blocks w.1) 0 blockSize

theorem isLast_stored {ws : List (Nat × Bytes)} {w : Nat × Bytes} (h : IsLast ws w) :
    IsLast (stored ws) (w.1, Bytes.clip blockSize w.2) := by
  obtain ⟨xs, ys, rfl, hys⟩ := h
  refine ⟨stored xs, stored ys, by rw [stored_append]; rfl, fun v hv => ?_⟩
  obtain ⟨u, hu, huv⟩ := mem_stored hv
  rw [← huv]
  exact hys u hu

/-- Writes leave the blocks as they are exactly if the last one to each block does. -/
theorem sameBlocks_applyWrites_iff {ws : List (Nat × Bytes)} {blocks : Nat → Bytes} :
    SameBlocks (applyWrites (stored ws) blocks) blocks ↔
      ∀ w, IsLast ws w → Bytes.AgreeOn w.2 (blocks w.1) 0 blockSize := by
  constructor
  · intro h w hw
    have hlast := applyWrites_isLast (isLast_stored hw) blocks
    have hsame := h w.1
    dsimp only at hlast
    rw [hlast] at hsame
    exact (Bytes.clip_agreeOn blockSize w.2).symm.trans hsame
  · intro h lba
    by_cases hw : ∃ w ∈ ws, w.1 = lba
    · obtain ⟨w, hlast, rfl⟩ := exists_isLast hw
      have hval := applyWrites_isLast (isLast_stored hlast) blocks
      dsimp only at hval
      rw [hval]
      exact (Bytes.clip_agreeOn blockSize w.2).trans (h w hlast)
    · rw [applyWrites_of_not_written]
      · exact Bytes.AgreeOn.refl _ _ _
      · intro v hv hvl
        obtain ⟨u, hu, huv⟩ := mem_stored hv
        exact hw ⟨u, hu, huv.trans hvl⟩

/-- Recovery that says `CORRUPT` has changed nothing: exactly when the records before the bad
one have nothing new in them. -/
theorem journalRecover_corrupt_same_iff {dev : Blockdev} (htotal : dev.totalBlocks = maxBlocks) :
    ((journalRecover dev).1 = .error .corrupt →
      SameBlocks (journalRecover dev).2.blocks dev.blocks) ↔ FailsClosed dev := by
  obtain ⟨hcorrupt, hback⟩ := journalRecover_corrupt htotal
  constructor
  · intro h hh hbad ha
    have hc := hback hh hbad ha
    rcases hcorrupt hc with ⟨hn, -⟩ | ⟨-, -, -, hblocks⟩
    · exact absurd hh hn
    · have hsame := h hc
      rw [hblocks] at hsame
      exact sameBlocks_applyWrites_iff.mp hsame
  · intro h hc
    rcases hcorrupt hc with ⟨-, hblocks⟩ | ⟨hh, hbad, ha, hblocks⟩
    · rw [hblocks]
      exact fun lba => Bytes.AgreeOn.refl _ _ _
    · rw [hblocks]
      exact sameBlocks_applyWrites_iff.mpr (h hh hbad ha)

/-- The journal of two records over the blocks `home`, the second of them without its descriptor. -/
def lostDesc (home : Nat → Bytes) : Blockdev :=
  { devInit with
    blocks := Function.update (Function.update (Function.update (Function.update home
      (descLba 1) Bytes.zero) journalStart (Bytes.clip blockSize (mkHeader 2 2)))
      (descLba 0) (Bytes.clip blockSize (mkDesc ⟨30, Bytes.zero.fill 0 1 7⟩)))
      (dataLba 0) (Bytes.clip blockSize (Bytes.zero.fill 0 1 7)) }

theorem lostDesc_header (home : Nat → Bytes) : GoodHeader ((lostDesc home).blocks journalStart) 2 :=
  goodHeader_mkHeader 2 (show 2 ≤ journalMaxRecords by decide)

theorem lostDesc_headerOk (home : Nat → Bytes) : HeaderOk ((lostDesc home).blocks journalStart) := by
  have hheader := lostDesc_header home
  rw [HeaderOk, hheader.count]
  exact ⟨hheader, by decide⟩

theorem lostDesc_records (home : Nat → Bytes) : journalRecords (lostDesc home) =
    [(30, Bytes.clip blockSize (Bytes.zero.fill 0 1 7))] := by
  have htarget : dTargetLba ((lostDesc home).blocks (descLba 0)) = 30 :=
    dTargetLba_mkDesc (r := ⟨30, Bytes.zero.fill 0 1 7⟩) (by decide)
  have hclip := checksum_congr (Bytes.clip_agreeOn blockSize (Bytes.zero.fill 0 1 7))
  have hgood : GoodRecord (lostDesc home).totalBlocks (lostDesc home).blocks 0 := by
    have htotal : (lostDesc home).totalBlocks = maxBlocks := rfl
    refine ⟨dMagic_mkDesc _, by rw [htarget, htotal]; decide, ?_⟩
    show (checksum (Bytes.clip blockSize (Bytes.zero.fill 0 1 7)) blockSize).toNat =
      dPayloadChecksum (Bytes.clip blockSize (mkDesc ⟨30, Bytes.zero.fill 0 1 7⟩))
    rw [dPayloadChecksum_mkDesc, hclip]
  have hbad : ∀ blocks : Nat → Bytes, blocks (descLba 1) = Bytes.zero →
      goodRecords (lostDesc home).totalBlocks blocks 1 1 = [] := fun blocks hb => by
    rw [goodRecords, if_neg]
    rintro ⟨hmagic, -⟩
    rw [hb] at hmagic
    exact absurd hmagic (by decide)
  unfold journalRecords
  rw [(lostDesc_header home).count, goodRecords, if_pos hgood, hbad]
  · unfold recordAt
    rw [htarget]
    rfl
  · have hwrite : applyWrites (stored [recordAt (lostDesc home).blocks 0]) (lostDesc home).blocks =
        Function.update (lostDesc home).blocks (recordAt (lostDesc home).blocks 0).1
          (Bytes.clip blockSize (recordAt (lostDesc home).blocks 0).2) := rfl
    have hne : descLba 1 ≠ (recordAt (lostDesc home).blocks 0).1 := by
      show descLba 1 ≠ dTargetLba ((lostDesc home).blocks (descLba 0))
      rw [htarget]
      decide
    rw [hwrite, Function.update_of_ne hne]
    rfl

theorem lostDesc_corrupt (home : Nat → Bytes) :
    (journalRecover (lostDesc home)).1 = .error .corrupt := by
  refine (journalRecover_corrupt rfl).2 (lostDesc_headerOk home) ?_ (Or.inl ?_)
  · rw [lostDesc_records, (lostDesc_header home).count]
    decide
  · exact (by decide : (-1 : Int) < 0)

/-- Recovery puts the first record in place and then says `CORRUPT`. -/
theorem journalRecover_corrupt_changes :
    ¬∀ dev : Blockdev, dev.totalBlocks = maxBlocks →
      (journalRecover dev).1 = .error .corrupt →
      SameBlocks (journalRecover dev).2.blocks dev.blocks := by
  intro h
  have hclosed := (journalRecover_corrupt_same_iff rfl).mp (h (lostDesc fun _ => Bytes.zero) rfl)
  have hagree := hclosed (lostDesc_headerOk _)
    (by rw [lostDesc_records, (lostDesc_header _).count]; decide) (Or.inl (by decide))
    (30, Bytes.clip blockSize (Bytes.zero.fill 0 1 7))
    (by rw [lostDesc_records]; exact ⟨[], [], rfl, fun v hv => by cases hv⟩)
  exact absurd (hagree 0 (le_refl 0) (by decide)) (by decide)

/-- Home blocks that hold what the first record is for. -/
def replayed : Nat → Bytes := Function.update (fun _ => Bytes.zero) 30 (Bytes.zero.fill 0 1 7)

/-- A good record that is in place, and then a bad one: recovery says `CORRUPT` and changes
nothing. -/
theorem journalRecover_corrupt_same_replayed :
    (journalRecover (lostDesc replayed)).1 = .error .corrupt ∧
      SameBlocks (journalRecover (lostDesc replayed)).2.blocks (lostDesc replayed).blocks := by
  have hcorrupt := lostDesc_corrupt replayed
  refine ⟨hcorrupt, (journalRecover_corrupt_same_iff rfl).mpr (fun _ _ _ w hw => ?_) hcorrupt⟩
  -- the only record that is replayed is the first
  rw [lostDesc_records] at hw
  obtain ⟨xs, ys, hws, -⟩ := hw
  have hmem : w ∈ [(30, Bytes.clip blockSize (Bytes.zero.fill 0 1 7))] :=
    hws ▸ List.mem_append_right _ List.mem_cons_self
  obtain rfl := List.mem_singleton.mp hmem
  exact Bytes.clip_agreeOn _ _

end Mcsos.Mcsfs1j
