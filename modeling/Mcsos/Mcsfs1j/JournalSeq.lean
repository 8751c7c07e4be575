import Mcsos.Mcsfs1j.FsSizes

set_option autoImplicit false

/-! # Sequence numbers of the journal

A header is in the journal block only until the end of its commit, so the numbers of a run are not
to be seen in the blocks that it leaves. They are read off the log of the device.

A commit takes its number from its caller, and `m16_write_file` takes both of its numbers from
`clean_generation` in the super block, which nothing writes after `m16_format`.
-/

namespace Mcsos.Mcsfs1j

open WriteLog

/-! ## What is logged -/

section Log

variable {dev dev' : Blockdev}

theorem writeBlock_log {lba : Nat} {data : Bytes} (hok : writeBlock lba data dev = (.ok (), dev')) :
    dev'.log = dev.log ++ [(lba, Bytes.clip blockSize data)] := by
  unfold writeBlock at hok
  by_cases hv : validLba dev lba
  · rw [if_neg (not_not.mpr hv)] at hok
    by_cases hf : dev.failAfter = 0
    · rw [if_pos hf] at hok
      cases hok
    · rw [if_neg hf] at hok
      rw [← (Prod.mk.inj hok).2]
  · rw [if_pos hv] at hok
    cases hok

/-- Writes that are all done are logged one after the other. -/
theorem writeAll_log {ws : List (Nat × Bytes)} (hok : writeAll ws dev = (.ok (), dev')) :
    dev'.log = dev.log ++ stored ws := by
  induction ws generalizing dev with
  | nil =>
      cases hok
      exact (List.append_nil _).symm
  | cons w ws ih =>
      obtain ⟨_, dev1, hw, hws⟩ := Prog.of_bind_ok hok
      rw [ih hws, writeBlock_log hw, List.append_assoc]
      rfl

theorem journalCommit_log {tx : Tx} (hcount : tx.count ≤ journalMaxRecords) {seq : Nat} {stop : Bool}
    (hok : journalCommit tx seq stop dev = (.ok (), dev')) :
    dev'.log = dev.log ++ stored (commitWrites tx seq stop) :=
  writeAll_log ((journalCommit_eq hcount seq stop dev).symm.trans hok)

/-- The blocks written between two states of a device. -/
def loggedSince (dev dev' : Blockdev) : List (Nat × Bytes) := dev'.log.drop dev.log.length

theorem loggedSince_eq {ws : List (Nat × Bytes)} (h : dev'.log = dev.log ++ ws) :
    loggedSince dev dev' = ws := by
  rw [loggedSince, h, List.drop_left]

end Log

/-! ## Numbers in the log -/

/-- `h.seq` -/
def hSeq (h : Bytes) : Nat := h.load 16 4

/-- The write puts a header of a committed transaction into the journal block. -/
def IsCommit (w : Nat × Bytes) : Prop :=
  w.1 = journalStart ∧ hMagic w.2 = jMagic ∧ hState w.2 = jCommitted

instance (w : Nat × Bytes) : Decidable (IsCommit w) := inferInstanceAs (Decidable (_ ∧ _))

/-- The sequence numbers of the committed headers among the writes. -/
def committedSeqs (log : List (Nat × Bytes)) : List Nat :=
  (log.filter (fun w => decide (IsCommit w))).map (fun w => hSeq w.2)

theorem committedSeqs_append (xs ys : List (Nat × Bytes)) :
    committedSeqs (xs ++ ys) = committedSeqs xs ++ committedSeqs ys := by
  unfold committedSeqs
  rw [List.filter_append, List.map_append]

theorem committedSeqs_eq_nil {ws : List (Nat × Bytes)} (h : ∀ w ∈ ws, ¬IsCommit w) :
    committedSeqs ws = [] := by
  unfold committedSeqs
  rw [List.filter_eq_nil_iff.mpr fun w hw => by simpa using h w hw]
  rfl

theorem committedSeqs_cons_commit {w : Nat × Bytes} (h : IsCommit w) (ws : List (Nat × Bytes)) :
    committedSeqs (w :: ws) = hSeq w.2 :: committedSeqs ws := by
  unfold committedSeqs
  rw [List.filter_cons_of_pos (by simpa using h), List.map_cons]

theorem not_isCommit_clear : ¬IsCommit (journalStart, Bytes.clip blockSize Bytes.zero) := fun h => by
  have hmagic : hMagic (Bytes.clip blockSize Bytes.zero) = 0 := by
    rw [Bytes.clip_zero]
    exact Bytes.load_zero _ _
  exact absurd (hmagic.symm.trans h.2.1) (by decide)

theorem isCommit_mkHeader (seq : Nat) {count : Nat} (h : count ≤ journalMaxRecords) :
    IsCommit (journalStart, Bytes.clip blockSize (mkHeader seq count)) := by
  have hgood := goodHeader_mkHeader seq h
  exact ⟨rfl, hgood.magic, hgood.state⟩

theorem hSeq_mkHeader (seq count : Nat) :
    hSeq (Bytes.clip blockSize (mkHeader seq count)) = seq % 2 ^ 32 := by
  have hwidth : 256 ^ 4 = 2 ^ 32 := by norm_num
  unfold hSeq mkHeader
  dsimp only
  rw [Bytes.load_clip (by decide), Bytes.load_store_ne (by omega), Bytes.load_store_ne (by omega),
    Bytes.load_store_mod, hwidth]

/-- A commit writes one committed header, with its number. -/
theorem HomeTx.seqs {tx : Tx} (h : HomeTx tx) (seq : Nat) :
    committedSeqs (stored (commitWrites tx seq false)) = [seq % 2 ^ 32] := by
  have hlog : ∀ w ∈ stored (logWrites tx), ¬IsCommit w := by
    intro w hw hcommit
    obtain ⟨v, hv, rfl⟩ := List.mem_map.mp hw
    rcases List.mem_cons.mp hv with rfl | hv
    · exact not_isCommit_clear hcommit
    · obtain ⟨k, -, -, hk | hk⟩ := mem_recordWrites hv
      · exact absurd (hk.symm.trans hcommit.1) (by unfold descLba; omega)
      · exact absurd (hk.symm.trans hcommit.1) (by unfold dataLba descLba; omega)
  have hhome : ∀ w ∈ stored (homeWrites tx 0 tx.count), ¬IsCommit w := by
    intro w hw hcommit
    obtain ⟨v, hv, rfl⟩ := List.mem_map.mp hw
    have hstart : v.1 = journalStart := hcommit.1
    exact not_inJournal_of_ge (h.targets v hv) (hstart ▸ inJournal_start)
  have hclear : ∀ w ∈ stored [(journalStart, Bytes.zero)], ¬IsCommit w := fun w hw => by
    rw [List.mem_singleton.mp hw]
    exact not_isCommit_clear
  have hcommit : committedSeqs (stored ((journalStart, mkHeader seq tx.count) ::
      homeWrites tx 0 tx.count)) = [seq % 2 ^ 32] := by
    rw [stored, List.map_cons, committedSeqs_cons_commit (isCommit_mkHeader seq h.count),
      hSeq_mkHeader]
    exact congrArg _ (committedSeqs_eq_nil hhome)
  rw [commitWrites_clear, stored_append, stored_append, committedSeqs_append, committedSeqs_append,
    committedSeqs_eq_nil hlog, hcommit, committedSeqs_eq_nil hclear]
  rfl

/-! ## One call -/

/-- The two numbers of a call that finds the super block `sb`. -/
def callSeqs (sb : Bytes) : List Nat :=
  [(sCleanGeneration sb + 1) % 2 ^ 32, (sCleanGeneration sb + 2) % 2 ^ 32]

section Formatted

variable {dev dev' : Blockdev}

/-- A successful call writes two committed headers, with the two numbers after that of the super
block, which it does not write. -/
theorem Formatted.writeFile_log (hd : Formatted dev) {name data : Bytes} {size : Nat}
    (hok : writeFile name data size dev = (.ok (), dev')) :
    Formatted dev' ∧ dev'.blocks 0 = dev.blocks 0 ∧ ∃ ws,
      dev'.log = dev.log ++ ws ∧ committedSeqs ws = callSeqs (dev.blocks 0) := by
  rcases hd.writeFile_cases name data size with ⟨e, herr⟩ | ⟨ino, dataBlock, slot, f⟩
  · rw [herr] at hok
    cases hok
  · obtain ⟨hge, -, -⟩ := findFreeBlock_some f.dataBlock
    obtain ⟨tx1, htx1, hcount1, hwrites1⟩ :=
      metaTx_ok (newMeta dev.blocks name ino dataBlock slot size)
    obtain ⟨tx2, htx2, hcount2, hwrites2⟩ :=
      fileTx_ok (newMeta dev.blocks name ino dataBlock slot size) dataBlock
        (Bytes.zero.copy 0 data 0 size)
    have hhome1 := homeTx_meta hcount1 hwrites1
    have hhome2 := homeTx_file hge hcount2 hwrites2
    rw [hd.writeFile_eq data f.name_pos f.name_lt f.size_le, writeNew_eq f htx1 htx2] at hok
    obtain ⟨_, dev1, hrun1, hrun2⟩ := Prog.of_bind_ok hok
    obtain ⟨hd1, -, hzero1⟩ := hhome1.commit hd hrun1
    obtain ⟨hd2, -, hzero2⟩ := hhome2.commit hd1 hrun2
    have hlog := journalCommit_log hhome2.count hrun2
    rw [journalCommit_log hhome1.count hrun1, List.append_assoc] at hlog
    refine ⟨hd2, hzero2.trans hzero1, _, hlog, ?_⟩
    rw [committedSeqs_append, hhome1.seqs, hhome2.seqs]
    rfl

end Formatted

/-! ## Runs -/

/-- Calls of `m16_write_file`, up to the first that fails. -/
def writeCalls : List WriteCall → M16 Unit
  | [] => pure ()
  | call :: calls => do
    call.exec
    writeCalls calls

/-- No number comes back within 2^32 transactions, when the numbers wrap around. -/
def DistinctSeqs (seqs : List Nat) : Prop :=
  ∀ i j a b, i < j → j < i + 2 ^ 32 → seqs[i]? = some a → seqs[j]? = some b → a ≠ b

/-- The run lemma: each call writes the same two numbers. -/
theorem Formatted.writeCalls_log {dev dev' : Blockdev} (hd : Formatted dev)
    {calls : List WriteCall} (hok : writeCalls calls dev = (.ok (), dev')) :
    ∃ ws, dev'.log = dev.log ++ ws ∧
      committedSeqs ws = (List.replicate calls.length (callSeqs (dev.blocks 0))).flatten := by
  induction calls generalizing dev with
  | nil =>
      cases hok
      exact ⟨[], (List.append_nil _).symm, rfl⟩
  | cons call calls ih =>
      obtain ⟨_, dev1, hcall, hrest⟩ := Prog.of_bind_ok hok
      obtain ⟨hd1, hzero, ws, hlog, hseqs⟩ := hd.writeFile_log hcall
      obtain ⟨ws', hlog', hseqs'⟩ := ih hd1 hrest
      refine ⟨ws ++ ws', by rw [hlog', hlog, List.append_assoc], ?_⟩
      rw [committedSeqs_append, hseqs, hseqs', hzero, List.length_cons, List.replicate_succ,
        List.flatten_cons]

/-- **Every call takes the same two numbers.** In a run of successful calls the numbers are distinct
only if there is no second call. -/
theorem writeCalls_distinct_iff {dev dev' : Blockdev} (hd : Formatted dev) {calls : List WriteCall}
    (hok : writeCalls calls dev = (.ok (), dev')) :
    DistinctSeqs (committedSeqs (loggedSince dev dev')) ↔ calls.length ≤ 1 := by
  obtain ⟨ws, hlog, hseqs⟩ := hd.writeCalls_log hok
  rw [loggedSince_eq hlog, hseqs]
  unfold callSeqs
  generalize sCleanGeneration (dev.blocks 0) = g
  constructor
  · intro h
    by_contra hlen
    obtain ⟨n, hn⟩ : ∃ n, calls.length = n + 2 := ⟨calls.length - 2, by omega⟩
    rw [hn] at h
    -- the first number of the first call and of the second one
    exact h 0 2 _ _ (by omega) (by omega) rfl rfl rfl
  · intro hlen i j a b hij _ hi hj
    -- there are two numbers at most, so these are both of the one call
    obtain ⟨hlt, -⟩ := List.getElem?_eq_some_iff.mp hj
    obtain hzero | hone : calls.length = 0 ∨ calls.length = 1 := by omega
    · rw [hzero] at hlt
      exact absurd hlt (Nat.not_lt_zero j)
    · rw [hone] at hlt hi hj
      obtain ⟨rfl, rfl⟩ : i = 0 ∧ j = 1 := by
        have : j < 2 := hlt
        omega
      obtain rfl : (g + 1) % 2 ^ 32 = a := Option.some.inj hi
      obtain rfl : (g + 2) % 2 ^ 32 = b := Option.some.inj hj
      omega

/-- One call, on a device that has just been formatted. -/
theorem writeCalls_distinct_one : DistinctSeqs (committedSeqs
    (loggedSince formatted (writeCalls [⟨nameA, Bytes.zero, 0⟩] formatted).2)) := by
  have hok : (writeCalls [⟨nameA, Bytes.zero, 0⟩] formatted).1 = .ok () := by decide +kernel
  exact (writeCalls_distinct_iff (formatted_of_format formatted_format) (Prog.eq_of_ok hok)).mpr
    (le_refl 1)

/-- Two files, one after the other: both calls write the numbers 2 and 3. -/
theorem writeCalls_repeat : ¬∀ (dev dev0 : Blockdev), format dev = (.ok (), dev0) →
    ∀ calls dev', writeCalls calls dev0 = (.ok (), dev') →
      DistinctSeqs (committedSeqs (loggedSince dev0 dev')) := by
  intro h
  have hok : (writeCalls twoCalls formatted).1 = .ok () := by decide +kernel
  have hseqs : committedSeqs (loggedSince formatted (writeCalls twoCalls formatted).2) =
      [2, 3, 2, 3] := by
    decide +kernel
  have hdistinct := h _ _ formatted_format twoCalls _ (Prog.eq_of_ok hok)
  rw [hseqs] at hdistinct
  exact hdistinct 0 2 2 2 (by decide) (by decide) rfl rfl rfl

end Mcsos.Mcsfs1j
