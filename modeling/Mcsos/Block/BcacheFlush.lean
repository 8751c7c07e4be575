import Mcsos.Block.BcacheRuns

set_option autoImplicit false

/-! # Flushing the block cache

`mcsos_bcache_flush_all` writes the dirty entries back in the order of the array and stops at the
first write that fails. What it leaves behind is described by where it stopped: the entries before
that are clean, the others are as they were.
-/

namespace Mcsos.Block

open Loop Overlay

variable {D : Type} {hw : Hardware D} {s s' : BcacheState D}
variable {content : D × Nat → List UInt8}

/-- The entry holds data that the device does not have. -/
def BcacheEntry.Dirty (e : BcacheEntry D) : Prop := e.valid = true ∧ e.dirty = true

/-- The entry after it has been written back. -/
def BcacheEntry.cleaned (e : BcacheEntry D) : BcacheEntry D :=
  { e with dirty := e.dirty && !e.valid }

theorem BcacheEntry.not_dirty_cleaned (e : BcacheEntry D) : ¬e.cleaned.Dirty := by
  rintro ⟨hv, hd⟩
  have hv' : e.valid = true := hv
  have hd' : (e.dirty && !e.valid) = true := hd
  rw [hv'] at hd'
  simp at hd'

theorem BcacheEntry.cleaned_of_not_dirty {e : BcacheEntry D} (h : ¬e.Dirty) : e.cleaned = e := by
  have hbit : (e.dirty && !e.valid) = e.dirty := by
    unfold BcacheEntry.Dirty at h
    cases hv : e.valid <;> cases hd : e.dirty <;> simp_all
  unfold BcacheEntry.cleaned
  rw [hbit]

theorem BcacheEntry.cleaned_of_dirty {e : BcacheEntry D} (h : e.Dirty) :
    e.cleaned = { e with dirty := false } := by
  unfold BcacheEntry.cleaned
  rw [h.1, h.2]
  rfl

variable [DecidableEq D]

/-! ## One entry -/

/-- What `mcsos_bcache_flush_entry` can do: nothing, a write that fails, a write that succeeds. -/
theorem bcacheFlushEntry_cases (hwf : CacheWf hw s) {i : Nat} (hi : i < s.entryCount) :
    (¬(s.entries i).Dirty ∧ bcacheFlushEntry hw i s = (.ok, s)) ∨
    (s.entries i).Dirty ∧
      ((∃ st calls, st ≠ .ok ∧ bcacheFlushEntry hw i s = (st, { s with calls := calls })) ∨
        ∃ disk calls, bcacheFlushEntry hw i s =
          (.ok, { s with disk := disk, calls := calls }.setEntry i (s.entries i).cleaned)) := by
  unfold bcacheFlushEntry
  by_cases hskip : (s.entries i).valid = false ∨ (s.entries i).dirty = false
  · refine Or.inl ⟨?_, by simp only [if_pos hskip]⟩
    rintro ⟨hv, hd⟩
    rcases hskip with h | h
    · rw [hv] at h
      cases h
    · rw [hd] at h
      cases h
  right
  simp only [if_neg hskip]
  rw [not_or, Bool.not_eq_false, Bool.not_eq_false] at hskip
  have hdirty : (s.entries i).Dirty := hskip
  refine ⟨hdirty, ?_⟩
  obtain ⟨d, hd, -⟩ := hwf.dev_ok i hi hskip.1
  rw [BcacheEntry.cleaned_of_dirty hdirty]
  simp only [hd]
  unfold blkWrite
  by_cases hrange : blkValidateRange hw d (s.entries i).lba 1 ≠ .ok
  · left
    simp only [if_pos hrange]
    exact ⟨_, s.calls, hrange, rfl⟩
  · simp only [if_neg hrange]
    cases hfault : hw.fault s.calls with
    | some f =>
        left
        simp only [if_pos f.status_ne]
        exact ⟨_, _, f.status_ne, rfl⟩
    | none =>
        right
        simp only [ne_eq, not_true_eq_false, if_false]
        exact ⟨_, _, rfl⟩

/-! ## The loop -/

theorem flushLoop_ok {i n : Nat} (h : bcacheFlushEntry hw i s = (.ok, s')) :
    flushLoop hw i (n + 1) s = flushLoop hw (i + 1) n s' := by
  rw [flushLoop, h]
  exact if_neg (not_not.mpr rfl)

theorem flushLoop_stop {i n : Nat} {st : BlkStatus} (hst : st ≠ .ok)
    (h : bcacheFlushEntry hw i s = (st, s')) : flushLoop hw i (n + 1) s = (st, s') := by
  rw [flushLoop, h]
  exact if_pos hst

/-- The loop gets as far as entry `m`: behind the last one, or to the first dirty entry whose
write fails. -/
theorem flushLoop_entries {i n : Nat} (hinv : CacheInv hw s content) (hn : i + n ≤ s.entryCount) :
    ∃ m, i ≤ m ∧ m ≤ i + n ∧ ((flushLoop hw i n s).1 = .ok ↔ m = i + n) ∧
      (m < i + n → (s.entries m).Dirty) ∧
      (flushLoop hw i n s).2.pool = s.pool ∧
      ∀ j, (flushLoop hw i n s).2.entries j =
        if i ≤ j ∧ j < m then (s.entries j).cleaned else s.entries j := by
  induction n generalizing i s with
  | zero =>
      refine ⟨i, le_refl _, le_refl _, iff_of_true rfl rfl, fun h => by omega, rfl, fun j => ?_⟩
      rw [if_neg (by omega)]
      rfl
  | succ n ih =>
      have hi : i < s.entryCount := by omega
      obtain ⟨hinv', hsteady, -⟩ := bcacheFlushEntry_spec hinv hi
      have hcount := hsteady.count_eq
      rcases bcacheFlushEntry_cases hinv.wf hi with
        ⟨hclean, heq⟩ | ⟨hdirty, ⟨st, calls, hst, heq⟩ | ⟨disk, calls, heq⟩⟩
      · -- a clean entry is skipped
        rw [flushLoop_ok heq]
        obtain ⟨m, h1, h2, hok, hstop, hpool, hent⟩ := ih (i := i + 1) hinv (by omega)
        refine ⟨m, by omega, by omega, hok.trans (by omega), fun h => hstop (by omega), hpool,
          fun j => ?_⟩
        rw [hent j]
        by_cases hj : j = i
        · rw [hj, if_neg (by omega), if_pos (by omega), BcacheEntry.cleaned_of_not_dirty hclean]
        · simp only [show i + 1 ≤ j ∧ j < m ↔ i ≤ j ∧ j < m by omega]
      · -- the write fails, and the loop stops here
        rw [flushLoop_stop hst heq]
        refine ⟨i, le_refl _, by omega, ?_, fun _ => hdirty, rfl, fun j => ?_⟩
        · exact iff_of_false hst (by omega)
        · rw [if_neg (by omega)]
      · rw [heq] at hinv' hcount
        rw [flushLoop_ok heq]
        obtain ⟨m, h1, h2, hok, hstop, hpool, hent⟩ := ih (i := i + 1) hinv'
          (by rw [hcount]; omega)
        have hother : ∀ j, j ≠ i → ({ s with disk := disk, calls := calls }.setEntry i
            (s.entries i).cleaned).entries j = s.entries j := fun j hj =>
          Function.update_of_ne hj _ _
        refine ⟨m, by omega, by omega, hok.trans (by omega), fun h => ?_, hpool, fun j => ?_⟩
        · have hnext := hstop (by omega)
          rwa [hother m (by omega)] at hnext
        · rw [hent j]
          by_cases hj : j = i
          · rw [hj, if_neg (by omega), if_pos (by omega), setEntry_self]
          · simp only [hother j hj, show i + 1 ≤ j ∧ j < m ↔ i ≤ j ∧ j < m by omega]

/-- Nothing is written where nothing is dirty. -/
theorem flushLoop_clean {i n : Nat} (h : ∀ j, i ≤ j → j < i + n → ¬(s.entries j).Dirty) :
    flushLoop hw i n s = (.ok, s) := by
  induction n generalizing i with
  | zero => rfl
  | succ n ih =>
      have hskip : (s.entries i).valid = false ∨ (s.entries i).dirty = false := by
        have hi := h i (le_refl _) (by omega)
        unfold BcacheEntry.Dirty at hi
        rw [not_and_or, Bool.not_eq_true, Bool.not_eq_true] at hi
        exact hi
      have heq : bcacheFlushEntry hw i s = (.ok, s) := by
        unfold bcacheFlushEntry
        exact if_pos hskip
      rw [flushLoop_ok heq]
      exact ih (fun j h1 h2 => h j (by omega) (by omega))

/-! ## The content of the cache -/

/-- What a client of the cache sees in a block: the data of its entry, or else the device's. -/
def logical (s : BcacheState D) : D × Nat → List UInt8 := fun k =>
  (bcacheFind k.1 k.2 s).elim (back s k)
    (fun i => s.pool.slice (s.entries i).data s.blockSize)

theorem CacheInv.logical_eq (hinv : CacheInv hw s content) : logical s = content := by
  funext ⟨d, l⟩
  unfold logical
  cases hfind : bcacheFind d l s with
  | none => exact hinv.overlays.back_eq _ (bcacheFind_none hfind)
  | some i =>
      obtain ⟨hi, hv, hd, rfl⟩ := bcacheFind_some hfind
      exact hinv.overlays.val_eq i _ (lines_of_valid hi rfl hv hd)

omit [DecidableEq D] in
/-- Without dirty entries the devices hold everything. -/
theorem CacheInv.back_eq (hinv : CacheInv hw s content)
    (hclean : ∀ i, i < s.entryCount → ¬(s.entries i).Dirty) : back s = content := by
  funext k
  by_cases hline : ∃ i a, lines s i = some a ∧ a.key = k
  · obtain ⟨i, a, ha, rfl⟩ := hline
    obtain ⟨hi, hv, -, -, hdirty, -⟩ := lines_some ha
    refine hinv.overlays.clean_eq i a ha ?_
    rw [← hdirty]
    by_contra hd
    exact hclean i hi ⟨hv, Bool.not_eq_false _ ▸ hd⟩
  · push Not at hline
    exact hinv.overlays.back_eq k hline

/-- The device holds the data that entry `i` of `s` had. -/
def WrittenBack (s s' : BcacheState D) (i : Nat) : Prop :=
  ∀ d, (s.entries i).dev = some d →
    back s' (d, (s.entries i).lba) = s.pool.slice (s.entries i).data s.blockSize

/-- **A successful flush leaves everything on the devices, a failed one loses nothing**: after any
run and whichever driver calls fail. A flush that fails has stopped at a dirty entry `m`. -/
theorem bcacheFlushAll_complete {n b : Nat} {s00 s0 : BcacheState D} {hist : History D}
    (hinit : bcacheInit n b s00 = (.ok, s0)) (hrun : BcacheRun hw s0 hist s) :
    let r := bcacheFlushAll hw s
    logical s = expected s0 hist ∧ logical r.2 = expected s0 hist ∧
    (r.1 = .ok → (∀ i, i < s.entryCount → ¬(r.2.entries i).Dirty) ∧
      back r.2 = expected s0 hist ∧ bcacheFlushAll hw r.2 = (.ok, r.2)) ∧
    (r.1 ≠ .ok → ∃ m, m < s.entryCount ∧ (s.entries m).Dirty ∧ ∀ i, i < s.entryCount →
      if i < m then ¬(r.2.entries i).Dirty ∧ ((s.entries i).Dirty → WrittenBack s r.2 i)
      else r.2.entries i = s.entries i) := by
  intro r
  obtain ⟨hinv, -⟩ := bcacheRun_inv hinit hrun
  have hspec := flushLoop_spec hinv (by omega : 0 + s.entryCount ≤ s.entryCount)
  obtain ⟨m, -, hm, hok, hstop, hpool, hent⟩ :=
    flushLoop_entries hinv (by omega : 0 + s.entryCount ≤ s.entryCount)
  have hinv' : CacheInv hw r.2 (expected s0 hist) := hspec.1
  have hcount : r.2.entryCount = s.entryCount := hspec.2.count_eq
  have hsize : r.2.blockSize = s.blockSize := hspec.2.size_eq
  have hclean : ∀ i, i < m → ¬(r.2.entries i).Dirty := by
    intro i hi
    rw [show r.2.entries i = (s.entries i).cleaned from (hent i).trans (if_pos ⟨by omega, hi⟩)]
    exact BcacheEntry.not_dirty_cleaned _
  refine ⟨hinv.logical_eq, hinv'.logical_eq, fun h => ?_, fun h => ?_⟩
  · have hall : m = 0 + s.entryCount := hok.mp h
    have hnone : ∀ i, i < s.entryCount → ¬(r.2.entries i).Dirty :=
      fun i hi => hclean i (by omega)
    refine ⟨hnone, hinv'.back_eq (by rw [hcount]; exact hnone), ?_⟩
    exact flushLoop_clean (fun j _ hj => hnone j (by omega))
  · have hlt : m < 0 + s.entryCount := lt_of_le_of_ne hm (fun heq => h (hok.mpr heq))
    refine ⟨m, by omega, hstop hlt, fun i hi => ?_⟩
    split_ifs with him
    · refine ⟨hclean i him, fun hdirty d hd => ?_⟩
      -- the line is clean, so the device has its value
      have hi' : r.2.entries i = (s.entries i).cleaned :=
        (hent i).trans (if_pos ⟨by omega, him⟩)
      have hline := lines_of_valid (s := r.2) (by omega) hi' hdirty.1 hd
      have hback := hinv'.overlays.clean_eq i _ hline (by
        rw [BcacheEntry.cleaned_of_dirty hdirty])
      have hval := hinv'.overlays.val_eq i _ hline
      have hdata : r.2.pool.slice (s.entries i).data r.2.blockSize =
          s.pool.slice (s.entries i).data s.blockSize := by
        rw [hsize, show r.2.pool = s.pool from hpool]
      exact hback.trans (hval.symm.trans hdata)
    · exact (hent i).trans (if_neg (by omega))

/-- A flush of two dirty entries whose first write fails: the content stays. -/
theorem bcacheFlushAll_complete_small :
    ∃ hist s, BcacheRun smallHw (bcacheInit 2 4 emptyCache).2 hist s ∧
      (bcacheFlushAll smallHw s).1 ≠ .ok ∧
      logical (bcacheFlushAll smallHw s).2 = logical s := by
  have hinit : bcacheInit 2 4 emptyCache = (.ok, (bcacheInit 2 4 emptyCache).2) := rfl
  have hstart : BcacheRun smallHw (bcacheInit 2 4 emptyCache).2 [] _ := .start
  have hrun := (hstart.call (.write () 1 (fun _ => 7))).call (.write () 2 (fun _ => 8))
  obtain ⟨hbefore, hafter, -⟩ := bcacheFlushAll_complete hinit hrun
  exact ⟨_, _, hrun, by decide +kernel, hafter.trans hbefore.symm⟩

end Mcsos.Block
