import Mcsos.Block.BcacheInv

set_option autoImplicit false

/-! # Runs of the block cache

A run is a list of calls on a cache that `mcsos_bcache_init` has set up; the devices are used
through the cache only. Which driver calls fail is up to the hardware. `latest` reads off the
history of a run what a block should hold: the data of its latest successful write, or else
what was on the device when the run began.
-/

namespace Mcsos.Block

open Overlay

variable {D : Type} {hw : Hardware D} {s s' : BcacheState D}
variable {content : D × Nat → List UInt8}

/-! ## One call -/

/-- A device read fills its buffer with the block, or fails and touches nothing else. -/
theorem blkRead_cases (hw : Hardware D) (dev : D) (lba off : Nat) (s : BcacheState D) :
    blkRead hw dev lba off s = (.ok, { s with
        pool := s.pool.copy off (s.disk dev lba) 0 (hw.blockSize dev), calls := s.calls + 1 }) ∨
    ∃ st pool calls, st ≠ .ok ∧
      blkRead hw dev lba off s = (st, { s with pool := pool, calls := calls }) ∧
      ∀ k, k < off ∨ off + hw.blockSize dev ≤ k → pool k = s.pool k := by
  unfold blkRead
  by_cases hrange : blkValidateRange hw dev lba 1 ≠ .ok
  · rw [if_pos hrange]
    exact Or.inr ⟨_, s.pool, s.calls, hrange, rfl, fun k _ => rfl⟩
  · rw [if_neg hrange]
    cases hfault : hw.fault s.calls with
    | none => exact Or.inl rfl
    | some f =>
        refine Or.inr ⟨_, _, _, f.status_ne, rfl, fun k hk => ?_⟩
        rw [Bytes.copy, if_neg (by omega)]

/-- The cache that `mcsos_bcache_init` leaves. -/
theorem bcacheInit_ok {n b : Nat} {s0 : BcacheState D} (h : bcacheInit n b s0 = (.ok, s)) :
    ¬(n = 0 ∨ b = 0) ∧ s = { s0 with
      entries := fun i => if i < n then bcacheInitEntry b i else s0.entries i
      entryCount := n, blockSize := b, clockHand := 0 } := by
  unfold bcacheInit at h
  by_cases hargs : n = 0 ∨ b = 0
  · rw [if_pos hargs] at h
    cases h
  · rw [if_neg hargs] at h
    exact ⟨hargs, (Prod.mk.inj h).2.symm⟩

theorem bcacheInit_spec {n b : Nat} {s0 : BcacheState D} (h : bcacheInit n b s0 = (.ok, s)) :
    CacheInv hw s (back s) := by
  obtain ⟨hargs, rfl⟩ := bcacheInit_ok h
  have hentry : ∀ i, i < n → (if i < n then bcacheInitEntry b i else s0.entries i) =
      bcacheInitEntry b i := fun i hi => if_pos hi
  refine ⟨⟨by simp only; omega, fun i hi => ?_, fun i hi hv => ?_⟩, ?_⟩
  · simp only [hentry i hi]
    rfl
  · simp only [hentry i hi] at hv
    cases hv
  · have hlines : lines { s0 with
        entries := fun i => if i < n then bcacheInitEntry b i else s0.entries i
        entryCount := n, blockSize := b, clockHand := 0 } = fun _ => none := by
      funext i
      unfold lines
      rw [if_neg]
      rintro ⟨hi, hv⟩
      simp only [hentry i hi] at hv
      cases hv
    rw [hlines]
    exact overlays_empty _

variable [DecidableEq D]

theorem bcacheRead_spec {dev : D} {lba : Nat} {buffer buffer' : Bytes} {st : BlkStatus}
    (hinv : CacheInv hw s content) (h : bcacheRead hw dev lba buffer s = (st, buffer', s')) :
    CacheInv hw s' content ∧ s'.blockSize = s.blockSize ∧
      (st = .ok → buffer'.slice 0 s.blockSize = content (dev, lba)) := by
  unfold bcacheRead at h
  by_cases hbs : s.blockSize ≠ hw.blockSize dev
  · simp only [if_pos hbs] at h
    cases h
    exact ⟨hinv, rfl, fun hok => by cases hok⟩
  simp only [if_neg hbs] at h
  rw [not_not] at hbs
  cases hfind : bcacheFind dev lba s with
  | some i =>
      simp only [hfind] at h
      cases h
      obtain ⟨hi, hv, hd, hl⟩ := bcacheFind_some hfind
      exact ⟨hinv, rfl, fun _ => hit_slice hinv buffer hi hv hd hl⟩
  | none =>
      simp only [hfind] at h
      have hkey := bcacheFind_none hfind
      rcases hvictim : bcacheSelectVictim hw s with ⟨st1, v, s1⟩
      obtain ⟨hinv1, hsteady, hnone, hsome⟩ := bcacheSelectVictim_spec hinv hvictim
      rw [hvictim] at h
      cases v with
      | none =>
          simp only at h
          cases h
          exact ⟨hinv1, hsteady.size_eq, fun hok => absurd hok (hnone rfl)⟩
      | some i =>
          simp only at h
          obtain ⟨hi, hclean⟩ := hsome i rfl
          rw [← hsteady.count_eq] at hi
          have hslot := hinv1.wf.data_eq i hi
          have hbs1 : hw.blockSize dev = s1.blockSize := hbs.symm.trans hsteady.size_eq.symm
          -- the victim is filled from the device; if the read fails it has no line any more
          rcases blkRead_cases hw dev lba (s1.entries i).data s1 with
            hread | ⟨st2, pool, calls, hst2, hread, hpool⟩
          · simp only [hread, ne_eq, not_true_eq_false, if_false, hbs1] at h
            have hinv2 := hinv1.load (s1.calls + 1) hi hclean (hsteady.keys _ hkey) hbs1
            cases h
            refine ⟨hinv2, hsteady.size_eq, fun _ => ?_⟩
            rw [← hsteady.size_eq]
            exact hit_slice hinv2 buffer hi (by rw [setEntry_self]) (by rw [setEntry_self])
              (by rw [setEntry_self])
          · simp only [hread, ne_eq, hst2, not_false_eq_true, if_true] at h
            rw [hslot, hbs1] at hpool
            have hinv2 := hinv1.drop calls hi hclean hpool
            cases h
            exact ⟨hinv2, hsteady.size_eq, fun hok => absurd hok hst2⟩

theorem bcacheWrite_spec {dev : D} {lba : Nat} {buffer : Bytes} {st : BlkStatus}
    (hinv : CacheInv hw s content) (h : bcacheWrite hw dev lba buffer s = (st, s')) :
    s'.blockSize = s.blockSize ∧
      CacheInv hw s' (if st = .ok then
        Function.update content (dev, lba) (buffer.slice 0 s.blockSize) else content) := by
  unfold bcacheWrite at h
  by_cases hbs : s.blockSize ≠ hw.blockSize dev
  · simp only [if_pos hbs] at h
    cases h
    exact ⟨rfl, hinv⟩
  simp only [if_neg hbs] at h
  rw [not_not] at hbs
  cases hfind : bcacheFind dev lba s with
  | some i =>
      simp only [hfind] at h
      cases h
      obtain ⟨hi, hv, hd, hl⟩ := bcacheFind_some hfind
      have hline := lines_of_valid hi rfl hv hd
      rw [hl] at hline
      rw [if_pos rfl]
      exact ⟨rfl, hinv.store hi (Or.inl ⟨_, _, hline⟩) hbs.symm rfl hd hl hv rfl⟩
  | none =>
      simp only [hfind] at h
      have hkey := bcacheFind_none hfind
      rcases hvictim : bcacheSelectVictim hw s with ⟨st1, v, s1⟩
      obtain ⟨hinv1, hsteady, hnone, hsome⟩ := bcacheSelectVictim_spec hinv hvictim
      rw [hvictim] at h
      cases v with
      | none =>
          simp only at h
          cases h
          rw [if_neg (hnone rfl)]
          exact ⟨hsteady.size_eq, hinv1⟩
      | some i =>
          simp only at h
          obtain ⟨hi, hclean⟩ := hsome i rfl
          rw [← hsteady.count_eq] at hi
          have hbs1 : hw.blockSize dev = s1.blockSize := hbs.symm.trans hsteady.size_eq.symm
          -- a write replaces the whole block, so the victim is not read first
          cases h
          rw [if_pos rfl, ← hsteady.size_eq, setEntry_setEntry, setEntry_self]
          exact ⟨rfl, hinv1.store hi (Or.inr ⟨hclean, hsteady.keys _ hkey⟩) hbs1 rfl rfl rfl rfl rfl⟩

theorem bcacheFlushAll_spec (hinv : CacheInv hw s content) :
    CacheInv hw (bcacheFlushAll hw s).2 content ∧
      (bcacheFlushAll hw s).2.blockSize = s.blockSize := by
  obtain ⟨hinv', hsteady⟩ := flushLoop_spec hinv (by omega : 0 + s.entryCount ≤ s.entryCount)
  exact ⟨hinv', hsteady.size_eq⟩

/-! ## Runs -/

/-- The calls of the cache's interface. -/
inductive BcacheOp (D : Type) where
  | read (dev : D) (lba : Nat) (buffer : Bytes)
  | write (dev : D) (lba : Nat) (buffer : Bytes)
  | flushAll

def bcacheStep (hw : Hardware D) (s : BcacheState D) : BcacheOp D → BlkStatus × BcacheState D
  | .read dev lba buffer =>
    ((bcacheRead hw dev lba buffer s).1, (bcacheRead hw dev lba buffer s).2.2)
  | .write dev lba buffer => bcacheWrite hw dev lba buffer s
  | .flushAll => bcacheFlushAll hw s

/-- The calls of a run with what they returned, the latest first. -/
abbrev History (D : Type) := List (BcacheOp D × BlkStatus)

/-- The states that a run from `s` can reach, with the history. -/
inductive BcacheRun (hw : Hardware D) (s0 : BcacheState D) : History D → BcacheState D → Prop
  | start : BcacheRun hw s0 [] s0
  | call {hist : History D} {s : BcacheState D} (op : BcacheOp D) (hrun : BcacheRun hw s0 hist s) :
      BcacheRun hw s0 ((op, (bcacheStep hw s op).1) :: hist) (bcacheStep hw s op).2

/-- The data of the latest successful write to `(dev, lba)`, or else `initial`. -/
def latest (b : Nat) (dev : D) (lba : Nat) (initial : List UInt8) : History D → List UInt8
  | [] => initial
  | (.write dev' lba' buffer, .ok) :: hist =>
    if dev' = dev ∧ lba' = lba then buffer.slice 0 b else latest b dev lba initial hist
  | _ :: hist => latest b dev lba initial hist

/-- What every block should hold after `hist`. -/
def expected (s0 : BcacheState D) (hist : History D) : D × Nat → List UInt8 := fun k =>
  latest s0.blockSize k.1 k.2 (back s0 k) hist

theorem expected_write {s0 : BcacheState D} {hist : History D} {dev : D} {lba : Nat}
    {buffer : Bytes} {st : BlkStatus} :
    expected s0 ((.write dev lba buffer, st) :: hist) =
      if st = .ok then
        Function.update (expected s0 hist) (dev, lba) (buffer.slice 0 s0.blockSize)
      else expected s0 hist := by
  by_cases hok : st = .ok
  · rw [if_pos hok, hok]
    funext ⟨d, l⟩
    show (if dev = d ∧ lba = l then _ else _) = _
    by_cases hkey : dev = d ∧ lba = l
    · rw [if_pos hkey, hkey.1, hkey.2, Function.update_self]
    · have hne : (d, l) ≠ (dev, lba) := fun h =>
        hkey ⟨(Prod.mk.inj h).1.symm, (Prod.mk.inj h).2.symm⟩
      rw [if_neg hkey, Function.update_of_ne hne]
      rfl
  · rw [if_neg hok]
    funext k
    cases st <;> first | rfl | exact absurd rfl hok

/-- The cache holds what it should along every run. -/
theorem bcacheRun_inv {n b : Nat} {s00 s0 : BcacheState D} {hist : History D}
    (hinit : bcacheInit n b s00 = (.ok, s0)) (hrun : BcacheRun hw s0 hist s) :
    CacheInv hw s (expected s0 hist) ∧ s.blockSize = s0.blockSize := by
  induction hrun with
  | start => exact ⟨bcacheInit_spec hinit, rfl⟩
  | @call hist s op hrun ih =>
      obtain ⟨hinv, hb⟩ := ih
      cases op with
      | read dev lba buffer =>
          rcases hcall : bcacheRead hw dev lba buffer s with ⟨st, buffer', s'⟩
          obtain ⟨hinv', hb', -⟩ := bcacheRead_spec hinv hcall
          have hstep : bcacheStep hw s (.read dev lba buffer) = (st, s') := by
            rw [bcacheStep, hcall]
          rw [hstep]
          exact ⟨hinv', hb'.trans hb⟩
      | write dev lba buffer =>
          rcases hcall : bcacheWrite hw dev lba buffer s with ⟨st, s'⟩
          obtain ⟨hb', hinv'⟩ := bcacheWrite_spec hinv hcall
          have hstep : bcacheStep hw s (.write dev lba buffer) = (st, s') := hcall
          rw [hb] at hinv'
          rw [hstep, expected_write]
          exact ⟨hinv', hb'.trans hb⟩
      | flushAll =>
          obtain ⟨hinv', hb'⟩ := bcacheFlushAll_spec hinv
          exact ⟨hinv', hb'.trans hb⟩

/-- A read that returns `OK` yields the data of the latest successful write to that block, or
the block that was on the device when the run began. -/
theorem bcacheRead_latest {n b : Nat} {s00 s0 : BcacheState D} {hist : History D}
    {dev : D} {lba : Nat} {buffer buffer' : Bytes}
    (hinit : bcacheInit n b s00 = (.ok, s0)) (hrun : BcacheRun hw s0 hist s)
    (hread : bcacheRead hw dev lba buffer s = (.ok, buffer', s')) :
    buffer'.slice 0 b = latest b dev lba ((s00.disk dev lba).slice 0 b) hist := by
  obtain ⟨hinv, hb⟩ := bcacheRun_inv hinit hrun
  obtain ⟨-, -, hdata⟩ := bcacheRead_spec hinv hread
  obtain ⟨-, rfl⟩ := bcacheInit_ok hinit
  have h := hdata rfl
  rw [hb] at h
  exact h

/-- One device with eight blocks of four bytes, whose driver fails on its first call. -/
def smallHw : Hardware Unit :=
  { blockSize := fun _ => 4, blockCount := fun _ => 8, hasOps := fun _ => true
    fault := fun call => if call = 0 then some ⟨.eio, by decide, Bytes.zero⟩ else none }

/-- An empty disk, and memory for a cache. -/
def emptyCache : BcacheState Unit :=
  ⟨fun _ => ⟨0, 0, 0, false, false, none⟩, 0, 0, 0, Bytes.zero, fun _ _ => Bytes.zero, 0⟩

/-- A block of a one-entry cache that was written, evicted (the first write-back fails) and
read again. -/
theorem bcacheRead_latest_small :
    ∃ hist s buffer' s', BcacheRun smallHw (bcacheInit 1 4 emptyCache).2 hist s ∧
      bcacheRead smallHw () 1 Bytes.zero s = (.ok, buffer', s') ∧
      buffer'.slice 0 4 = latest 4 () 1 (Bytes.zero.slice 0 4) hist ∧
      latest 4 () 1 (Bytes.zero.slice 0 4) hist = [7, 7, 7, 7] := by
  have hinit : bcacheInit 1 4 emptyCache = (.ok, (bcacheInit 1 4 emptyCache).2) := rfl
  have hstart : BcacheRun smallHw (bcacheInit 1 4 emptyCache).2 [] _ := .start
  have hrun := ((hstart.call (.write () 1 (fun _ => 7))).call (.write () 2 (fun _ => 8))).call
    (.write () 2 (fun _ => 9))
  refine ⟨_, _, _, _, hrun, rfl, ?_, by decide +kernel⟩
  exact bcacheRead_latest hinit hrun rfl

end Mcsos.Block
