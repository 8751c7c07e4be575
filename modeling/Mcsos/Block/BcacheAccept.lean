import Mcsos.Block.BcacheFlush

set_option autoImplicit false

/-! # Which writes the block cache accepts

`mcsos_bcache_write` looks at the block size of the device, never at its `block_count`. On a miss
it fills an entry without a driver call, so a block that the device does not have is accepted and
found out later, by the flush or the eviction that cannot write it back. On devices that carry out
every request in range, all goes well exactly when no write of the run is out of range.
-/

namespace Mcsos.Block

open Loop Overlay

variable {D : Type} {hw : Hardware D} {s s' : BcacheState D}
variable {content : D × Nat → List UInt8}

/-- A driver that carries out every request in range, on every device. -/
structure Reliable (hw : Hardware D) : Prop where
  no_fault : ∀ call, hw.fault call = none
  ops : ∀ d, hw.hasOps d = true

/-- A dirty entry is one that its device can take. -/
def EntryInRange (hw : Hardware D) (e : BcacheEntry D) : Prop :=
  e.Dirty → ∃ d, e.dev = some d ∧ e.lba < hw.blockCount d

def DirtyInRange (hw : Hardware D) (s : BcacheState D) : Prop :=
  ∀ i, i < s.entryCount → EntryInRange hw (s.entries i)

theorem EntryInRange.of_not_dirty {e : BcacheEntry D} (h : ¬e.Dirty) : EntryInRange hw e :=
  fun hd => absurd hd h

theorem DirtyInRange.setEntry (h : DirtyInRange hw s) {i : Nat} {e : BcacheEntry D}
    {pool : Bytes} {disk : D → Nat → Bytes} {calls : Nat} (he : EntryInRange hw e) :
    DirtyInRange hw ({ s with pool := pool, disk := disk, calls := calls }.setEntry i e) := by
  intro j hj
  by_cases hji : j = i
  · rw [hji, setEntry_self]
    exact he
  · have hother : ({ s with pool := pool, disk := disk, calls := calls }.setEntry i e).entries j =
        s.entries j := Function.update_of_ne hji _ _
    rw [hother]
    exact h j hj

/-- The request of one block is in range. -/
theorem blkValidateRange_one (hr : Reliable hw) {d : D} {lba : Nat} :
    blkValidateRange hw d lba 1 = .ok ↔ lba < hw.blockCount d := by
  unfold blkValidateRange
  rw [if_neg (by simp [hr.ops])]
  by_cases hlt : lba < hw.blockCount d
  · rw [if_neg (by omega)]
    exact iff_of_true rfl hlt
  · rw [if_pos (by omega)]
    exact iff_of_false (by decide) hlt

variable [DecidableEq D]

/-! ## Evictions and flushes -/

/-- An entry that its device can take is written back. -/
theorem bcacheFlushEntry_reliable (hr : Reliable hw) (hwf : CacheWf hw s)
    (hd : DirtyInRange hw s) {i : Nat} (hi : i < s.entryCount) :
    (bcacheFlushEntry hw i s).1 = .ok ∧ DirtyInRange hw (bcacheFlushEntry hw i s).2 := by
  rcases bcacheFlushEntry_cases hwf hi with
    ⟨-, heq⟩ | ⟨hdirty, ⟨st, calls, hst, heq⟩ | ⟨disk, calls, heq⟩⟩
  · rw [heq]
    exact ⟨rfl, hd⟩
  · obtain ⟨d, hdev, hlt⟩ := hd i hi hdirty
    have hvalid := (blkValidateRange_one hr).mpr hlt
    have hok : (bcacheFlushEntry hw i s).1 = .ok := by
      unfold bcacheFlushEntry blkWrite
      simp only [hdirty.1, hdirty.2, hdev, hvalid, hr.no_fault]
      rfl
    rw [heq] at hok
    exact absurd hok hst
  · rw [heq]
    exact ⟨rfl, hd.setEntry (.of_not_dirty (BcacheEntry.not_dirty_cleaned _))⟩

theorem flushLoop_reliable (hr : Reliable hw) {i n : Nat} (hinv : CacheInv hw s content)
    (hd : DirtyInRange hw s) (hn : i + n ≤ s.entryCount) :
    (flushLoop hw i n s).1 = .ok ∧ DirtyInRange hw (flushLoop hw i n s).2 := by
  induction n generalizing i s with
  | zero => exact ⟨rfl, hd⟩
  | succ n ih =>
      have hi : i < s.entryCount := by omega
      obtain ⟨hok, hd'⟩ := bcacheFlushEntry_reliable hr hinv.wf hd hi
      obtain ⟨hinv', hsteady, -⟩ := bcacheFlushEntry_spec hinv hi
      rw [flushLoop_ok (Prod.ext hok rfl)]
      exact ih hinv' hd' (by rw [hsteady.count_eq]; omega)

theorem bcacheSelectVictim_reliable (hr : Reliable hw) (hinv : CacheInv hw s content)
    (hd : DirtyInRange hw s) : (bcacheSelectVictim hw s).1 = .ok ∧
      DirtyInRange hw (bcacheSelectVictim hw s).2.2 := by
  have hpos := hinv.wf.count_pos
  unfold bcacheSelectVictim
  simp only [if_neg (Nat.pos_iff_ne_zero.mp hpos)]
  cases hfind : findFrom (fun pass => !(s.entries
      ((s.clockHand % s.entryCount + pass) % 2 ^ 32 % s.entryCount)).valid) 0 s.entryCount with
  | some pass => exact ⟨rfl, hd⟩
  | none =>
      have hstart : s.clockHand % s.entryCount < s.entryCount := Nat.mod_lt _ hpos
      obtain ⟨hok, hd'⟩ := bcacheFlushEntry_reliable hr
        (hinv.setHand ((s.clockHand % s.entryCount + 1) % 2 ^ 32)).wf hd hstart
      simp only [hok, ne_eq, not_true_eq_false, if_false]
      exact ⟨trivial, hd'⟩

/-! ## One call -/

theorem bcacheRead_reliable (hr : Reliable hw) (hinv : CacheInv hw s content)
    (hd : DirtyInRange hw s) (dev : D) (lba : Nat) (buffer : Bytes) :
    DirtyInRange hw (bcacheRead hw dev lba buffer s).2.2 := by
  unfold bcacheRead
  by_cases hbs : s.blockSize ≠ hw.blockSize dev
  · simp only [if_pos hbs]
    exact hd
  simp only [if_neg hbs]
  cases hfind : bcacheFind dev lba s with
  | some i => exact hd
  | none =>
      rcases hvictim : bcacheSelectVictim hw s with ⟨st, v, s1⟩
      obtain ⟨-, hd1⟩ := bcacheSelectVictim_reliable hr hinv hd
      rw [hvictim] at hd1
      cases v with
      | none => exact hd1
      | some i =>
          -- what the read leaves in the entry is not dirty
          rcases blkRead_cases hw dev lba (s1.entries i).data s1 with
            hread | ⟨st2, pool, calls, hst2, hread, -⟩
          · simp only [hread, ne_eq, not_true_eq_false, if_false]
            exact hd1.setEntry (.of_not_dirty (by simp [BcacheEntry.Dirty]))
          · simp only [hread, ne_eq, hst2, not_false_eq_true, if_true]
            exact hd1.setEntry (.of_not_dirty (by simp [BcacheEntry.Dirty]))

theorem bcacheWrite_reliable (hr : Reliable hw) (hinv : CacheInv hw s content)
    (hd : DirtyInRange hw s) {dev : D} {lba : Nat} (buffer : Bytes)
    (hrange : hw.blockSize dev = s.blockSize → lba < hw.blockCount dev) :
    DirtyInRange hw (bcacheWrite hw dev lba buffer s).2 := by
  unfold bcacheWrite
  by_cases hbs : s.blockSize ≠ hw.blockSize dev
  · simp only [if_pos hbs]
    exact hd
  simp only [if_neg hbs]
  rw [not_not] at hbs
  have hlt := hrange hbs.symm
  cases hfind : bcacheFind dev lba s with
  | some i =>
      obtain ⟨-, -, hdev, hlba⟩ := bcacheFind_some hfind
      exact hd.setEntry (fun _ => ⟨dev, hdev, by simpa [hlba] using hlt⟩)
  | none =>
      rcases hvictim : bcacheSelectVictim hw s with ⟨st, v, s1⟩
      obtain ⟨-, hd1⟩ := bcacheSelectVictim_reliable hr hinv hd
      rw [hvictim] at hd1
      cases v with
      | none => exact hd1
      | some i =>
          simp only
          rw [setEntry_setEntry, setEntry_self]
          exact hd1.setEntry (fun _ => ⟨dev, rfl, hlt⟩)

/-- With a victim, or without the need for one, a write is accepted whatever the block. -/
theorem bcacheWrite_accepts (hinv : CacheInv hw s content) {dev : D} {lba : Nat} (buffer : Bytes)
    (hbs : hw.blockSize dev = s.blockSize)
    (hmiss : bcacheFind dev lba s = none → (bcacheSelectVictim hw s).1 = .ok) :
    (bcacheWrite hw dev lba buffer s).1 = .ok := by
  unfold bcacheWrite
  simp only [if_neg (not_not.mpr hbs.symm)]
  cases hfind : bcacheFind dev lba s with
  | some i => rfl
  | none =>
      have hok := hmiss hfind
      rcases hvictim : bcacheSelectVictim hw s with ⟨st, v, s1⟩
      obtain ⟨-, -, hnone, -⟩ := bcacheSelectVictim_spec hinv hvictim
      rw [hvictim] at hok
      cases v with
      | none => exact absurd hok (hnone rfl)
      | some i => rfl

/-! ## Runs -/

/-- The status of the eviction that the call makes, if it makes one. -/
def bcacheEviction (hw : Hardware D) (s : BcacheState D) : BcacheOp D → Option BlkStatus
  | .read dev lba _ | .write dev lba _ =>
    if s.blockSize = hw.blockSize dev ∧ bcacheFind dev lba s = none then
      some (bcacheSelectVictim hw s).1
    else none
  | .flushAll => none

/-- What is promised of a call: an accepted write is in range, flushes and evictions succeed. -/
structure CallKept (hw : Hardware D) (s : BcacheState D) (op : BcacheOp D) : Prop where
  accepted : ∀ dev lba buffer, op = .write dev lba buffer → (bcacheStep hw s op).1 = .ok →
    lba < hw.blockCount dev
  flushed : op = .flushAll → (bcacheStep hw s op).1 = .ok
  evicted : ∀ st, bcacheEviction hw s op = some st → st = .ok

/-- A write that the cache has the block size for is in range. -/
def WriteInRange (hw : Hardware D) (b : Nat) : BcacheOp D → Prop
  | .write dev lba _ => hw.blockSize dev = b → lba < hw.blockCount dev
  | _ => True

/-- The state after a list of calls. -/
def bcacheAfter (hw : Hardware D) (s : BcacheState D) (ops : List (BcacheOp D)) :
    BcacheState D := ops.foldl (fun s op => (bcacheStep hw s op).2) s

theorem bcacheAfter_concat (ops : List (BcacheOp D)) (op : BcacheOp D) :
    bcacheAfter hw s (ops ++ [op]) = (bcacheStep hw (bcacheAfter hw s ops) op).2 :=
  List.foldl_concat ..

theorem bcacheRun_after (s0 : BcacheState D) (ops : List (BcacheOp D)) :
    ∃ hist, BcacheRun hw s0 hist (bcacheAfter hw s0 ops) := by
  induction ops using List.reverseRecOn with
  | nil => exact ⟨[], .start⟩
  | append_singleton ops op ih =>
      obtain ⟨hist, hrun⟩ := ih
      rw [bcacheAfter_concat]
      exact ⟨_, hrun.call op⟩

omit [DecidableEq D] in
theorem bcacheInit_dirty {n b : Nat} {s00 s0 : BcacheState D}
    (hinit : bcacheInit n b s00 = (.ok, s0)) : s0.blockSize = b ∧ DirtyInRange hw s0 := by
  obtain ⟨-, rfl⟩ := bcacheInit_ok hinit
  refine ⟨rfl, fun i hi => .of_not_dirty ?_⟩
  have hi' : i < n := hi
  simp [BcacheEntry.Dirty, hi', bcacheInitEntry]

/-- A call on a cache whose dirty entries are in range leaves it so, if it is in range itself. -/
theorem DirtyInRange.step (hr : Reliable hw) (hinv : CacheInv hw s content)
    (hd : DirtyInRange hw s) {op : BcacheOp D} (hop : WriteInRange hw s.blockSize op) :
    DirtyInRange hw (bcacheStep hw s op).2 := by
  cases op with
  | read dev lba buffer => exact bcacheRead_reliable hr hinv hd dev lba buffer
  | write dev lba buffer => exact bcacheWrite_reliable hr hinv hd buffer hop
  | flushAll =>
      exact (flushLoop_reliable hr hinv hd (by omega : 0 + s.entryCount ≤ s.entryCount)).2

theorem DirtyInRange.callKept (hr : Reliable hw) (hinv : CacheInv hw s content)
    (hd : DirtyInRange hw s) {op : BcacheOp D} (hop : WriteInRange hw s.blockSize op) :
    CallKept hw s op := by
  refine ⟨?_, ?_, ?_⟩
  · rintro dev lba buffer rfl hok
    refine hop ?_
    by_contra hbs
    have hinval : (bcacheWrite hw dev lba buffer s).1 = .einval := by
      unfold bcacheWrite
      simp only [if_pos (Ne.symm hbs)]
    rw [bcacheStep, hinval] at hok
    cases hok
  · rintro rfl
    exact (flushLoop_reliable hr hinv hd (by omega : 0 + s.entryCount ≤ s.entryCount)).1
  · intro st hst
    have hok := (bcacheSelectVictim_reliable hr hinv hd).1
    cases op with
    | read dev lba buffer =>
        simp only [bcacheEviction] at hst
        split_ifs at hst
        exact (Option.some.inj hst).symm.trans hok
    | write dev lba buffer =>
        simp only [bcacheEviction] at hst
        split_ifs at hst
        exact (Option.some.inj hst).symm.trans hok
    | flushAll => cases hst

/-- A write of the cache's block size that is kept to its promise is in range. -/
theorem CallKept.inRange (hinv : CacheInv hw s content) {op : BcacheOp D}
    (h : CallKept hw s op) : WriteInRange hw s.blockSize op := by
  cases op with
  | read dev lba buffer => trivial
  | write dev lba buffer =>
      intro hbs
      refine h.accepted dev lba buffer rfl (bcacheWrite_accepts hinv buffer hbs fun hmiss => ?_)
      exact h.evicted _ (if_pos ⟨hbs.symm, hmiss⟩)
  | flushAll => trivial

/-- **Which runs keep the promise**: on reliable devices every call of a run does, if and only if
every write of the run whose device has the block size of the cache is in range. -/
theorem bcacheRun_accepts_iff (hr : Reliable hw) {n b : Nat} {s00 s0 : BcacheState D}
    (hinit : bcacheInit n b s00 = (.ok, s0)) (ops : List (BcacheOp D)) :
    (∀ pre op post, ops = pre ++ op :: post → CallKept hw (bcacheAfter hw s0 pre) op) ↔
      ∀ op ∈ ops, WriteInRange hw b op := by
  obtain ⟨hb, hd0⟩ : s0.blockSize = b ∧ DirtyInRange hw s0 := bcacheInit_dirty hinit
  have hinv : ∀ pre, ∃ content, CacheInv hw (bcacheAfter hw s0 pre) content ∧
      (bcacheAfter hw s0 pre).blockSize = b := by
    intro pre
    obtain ⟨hist, hrun⟩ : ∃ hist, BcacheRun hw s0 hist (bcacheAfter hw s0 pre) :=
      bcacheRun_after s0 pre
    obtain ⟨hinv, hsize⟩ := bcacheRun_inv hinit hrun
    exact ⟨_, hinv, hsize.trans hb⟩
  constructor
  · intro h op hop
    obtain ⟨pre, post, heq⟩ := List.append_of_mem hop
    obtain ⟨content, hi, hsize⟩ := hinv pre
    have hin := (h pre op post heq).inRange hi
    rwa [hsize] at hin
  · intro h
    -- the dirty entries stay in range along the run
    have hdirty : ∀ pre post, ops = pre ++ post → DirtyInRange hw (bcacheAfter hw s0 pre) := by
      intro pre
      induction pre using List.reverseRecOn with
      | nil => exact fun _ _ => hd0
      | append_singleton pre op ih =>
          intro post heq
          rw [List.append_assoc] at heq
          obtain ⟨content, hi, hsize⟩ := hinv pre
          rw [bcacheAfter_concat]
          refine (ih _ heq).step hr hi ?_
          rw [hsize]
          exact h op (by rw [heq]; simp)
    intro pre op post heq
    obtain ⟨content, hi, hsize⟩ := hinv pre
    refine (hdirty pre _ heq).callKept hr hi ?_
    rw [hsize]
    exact h op (by rw [heq]; simp)

/-- One device with eight blocks of four bytes and a driver that never fails. -/
def goodHw : Hardware Unit :=
  { blockSize := fun _ => 4, blockCount := fun _ => 8, hasOps := fun _ => true
    fault := fun _ => none }

theorem goodHw_reliable : Reliable goodHw := ⟨fun _ => rfl, fun _ => rfl⟩

/-- The second write of a run evicts the first, which is in range. -/
theorem bcacheRun_accepts_small :
    CallKept goodHw (bcacheAfter goodHw (bcacheInit 1 4 emptyCache).2
      [.write () 7 (fun _ => 7)]) (.write () 6 (fun _ => 6)) := by
  have hinit : bcacheInit 1 4 emptyCache = (.ok, (bcacheInit 1 4 emptyCache).2) := rfl
  have hall : ∀ op ∈ [BcacheOp.write () 7 (fun _ => 7), .write () 6 (fun _ => 6)],
      WriteInRange goodHw 4 op := by
    intro op hop
    rcases List.mem_pair.mp hop with rfl | rfl <;> (intro _; show _ < 8; decide)
  exact (bcacheRun_accepts_iff goodHw_reliable hinit _).mpr hall _ _ [] rfl

/-- Block 8 of a device with 8 blocks is accepted, and the flush after it fails. -/
theorem bcacheWrite_accepts_out_of_range :
    ¬∀ (hw : Hardware Unit) (n b : Nat) (s00 s0 : BcacheState Unit) (pre : List (BcacheOp Unit))
        (op : BcacheOp Unit), Reliable hw → bcacheInit n b s00 = (.ok, s0) →
      CallKept hw (bcacheAfter hw s0 pre) op := by
  intro hall
  have hinit : bcacheInit 1 4 emptyCache = (.ok, (bcacheInit 1 4 emptyCache).2) := rfl
  have hkept := hall goodHw 1 4 emptyCache _ [.write () 8 (fun _ => 7)] .flushAll
    goodHw_reliable hinit
  have hfail : (bcacheStep goodHw (bcacheAfter goodHw (bcacheInit 1 4 emptyCache).2
      [.write () 8 (fun _ => 7)]) .flushAll).1 = .erange := by decide +kernel
  rw [hkept.flushed rfl] at hfail
  cases hfail

end Mcsos.Block
