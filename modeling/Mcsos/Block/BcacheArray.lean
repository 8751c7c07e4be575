import Mcsos.Block.BcacheAccept
import Mcsos.Lib.Machine

set_option autoImplicit false

/-! # The block cache cannot be seen

On devices that carry out every request in range, and with no write out of range, calls through the
cache return what they would return on the devices themselves: `ERANGE` for a read behind the last
block, `EINVAL` for a device of another block size, and the block that has been written last. A
flush puts it on the devices.
-/

namespace Mcsos.Block

variable {D : Type} {hw : Hardware D} {s s' : BcacheState D}
variable {content : D × Nat → List UInt8}

/-! ## Arrays of blocks -/

/-- What a call returns, and what is in the caller's buffer then. -/
abbrev Answer := BlkStatus × List UInt8

section

variable [DecidableEq D]

/-- A call through the cache, with the buffer that it is given. -/
def cacheStep (hw : Hardware D) : BcacheOp D → BcacheState D → Answer × BcacheState D
  | .read dev lba buffer, s =>
    let r := bcacheRead hw dev lba buffer s
    ((r.1, r.2.1.slice 0 s.blockSize), r.2.2)
  | .write dev lba buffer, s =>
    let r := bcacheWrite hw dev lba buffer s
    ((r.1, buffer.slice 0 s.blockSize), r.2)
  | .flushAll, s =>
    let r := bcacheFlushAll hw s
    ((r.1, []), r.2)

/-- The same call on arrays of blocks of `b` bytes, without a cache. -/
def arrayStep (hw : Hardware D) (b : Nat) :
    BcacheOp D → (D × Nat → List UInt8) → Answer × (D × Nat → List UInt8)
  | .read dev lba buffer, blocks =>
    if b ≠ hw.blockSize dev then ((.einval, buffer.slice 0 b), blocks)
    else if lba < hw.blockCount dev then ((.ok, blocks (dev, lba)), blocks)
    else ((.erange, buffer.slice 0 b), blocks)
  | .write dev lba buffer, blocks =>
    if b ≠ hw.blockSize dev then ((.einval, buffer.slice 0 b), blocks)
    else ((.ok, buffer.slice 0 b), Function.update blocks (dev, lba) (buffer.slice 0 b))
  | .flushAll, blocks => ((.ok, []), blocks)

end

/-! ## Valid entries -/

/-- What is in the cache is of blocks that the devices have. -/
def ValidInRange (hw : Hardware D) (s : BcacheState D) : Prop :=
  ∀ i, i < s.entryCount → (s.entries i).valid = true → ∀ d, (s.entries i).dev = some d →
    (s.entries i).lba < hw.blockCount d

theorem ValidInRange.dirty (h : ValidInRange hw s) (hwf : CacheWf hw s) : DirtyInRange hw s := by
  intro i hi hdirty
  obtain ⟨d, hd, -⟩ := hwf.dev_ok i hi hdirty.1
  exact ⟨d, hd, h i hi hdirty.1 d hd⟩

/-- A step that gives no block a line leaves the cache in range. -/
theorem ValidInRange.steady (h : ValidInRange hw s) (hs : Steady s s') : ValidInRange hw s' := by
  intro i hi hv d hd
  by_contra hlt
  have hnone : ∀ j a, lines s j = some a → a.key ≠ (d, (s'.entries i).lba) := by
    rintro j a ha hkey
    obtain ⟨hj, hvj, hdj, hlj, -⟩ := lines_some ha
    have hlba := h j hj hvj a.key.1 hdj
    rw [hlj, hkey] at hlba
    exact hlt hlba
  exact hs.keys _ hnone i _ (lines_of_valid hi rfl hv hd) rfl

theorem ValidInRange.setEntry (h : ValidInRange hw s) {i : Nat} {e : BcacheEntry D} {pool : Bytes}
    {calls : Nat} (he : e.valid = true → ∀ d, e.dev = some d → e.lba < hw.blockCount d) :
    ValidInRange hw ({ s with pool := pool, calls := calls }.setEntry i e) := by
  intro j hj
  by_cases hji : j = i
  · rw [hji, setEntry_self]
    exact he
  · have hother : ({ s with pool := pool, calls := calls }.setEntry i e).entries j =
        s.entries j := Function.update_of_ne hji _ _
    rw [hother]
    exact h j hj

variable [DecidableEq D]

/-- A victim is found, and the cache is as it was but for a line that may be clean now. -/
theorem bcacheSelectVictim_some (hr : Reliable hw) (hinv : CacheInv hw s content)
    (h : ValidInRange hw s) : ∃ i s1, bcacheSelectVictim hw s = (.ok, some i, s1) ∧
      ValidInRange hw s1 ∧ Steady s s1 := by
  obtain ⟨hok, -⟩ := bcacheSelectVictim_reliable hr hinv (h.dirty hinv.wf)
  rcases hvictim : bcacheSelectVictim hw s with ⟨st, v, s1⟩
  obtain ⟨-, hsteady, hnone, -⟩ := bcacheSelectVictim_spec hinv hvictim
  rw [hvictim] at hok
  obtain rfl : st = .ok := hok
  cases v with
  | none => exact absurd rfl (hnone rfl)
  | some i => exact ⟨i, s1, rfl, h.steady hsteady, hsteady⟩

/-! ## Calls -/

/-- How a read ends: only a block that the device has reaches the caller's buffer. -/
theorem bcacheRead_ends (hr : Reliable hw) (hinv : CacheInv hw s content) (h : ValidInRange hw s)
    (dev : D) (lba : Nat) (buffer : Bytes) :
    ∃ st buffer' s', bcacheRead hw dev lba buffer s = (st, buffer', s') ∧ ValidInRange hw s' ∧
      (st ≠ .ok → buffer' = buffer) ∧
      st = if s.blockSize ≠ hw.blockSize dev then .einval
        else if lba < hw.blockCount dev then .ok else .erange := by
  unfold bcacheRead
  by_cases hbs : s.blockSize ≠ hw.blockSize dev
  · simp only [if_pos hbs]
    exact ⟨_, _, _, rfl, h, fun _ => rfl, rfl⟩
  simp only [if_neg hbs]
  cases hfind : bcacheFind dev lba s with
  | some i =>
      -- a block that is in the cache is one that the device has
      obtain ⟨hi, hv, hd, hl⟩ := bcacheFind_some hfind
      have hlt : lba < hw.blockCount dev := hl ▸ h i hi hv dev hd
      simp only [if_pos hlt]
      exact ⟨_, _, _, rfl, h, fun hst => absurd rfl hst, rfl⟩
  | none =>
      obtain ⟨i, s1, hvictim, h1, -⟩ := bcacheSelectVictim_some hr hinv h
      simp only [hvictim]
      by_cases hlt : lba < hw.blockCount dev
      · have hread : blkRead hw dev lba (s1.entries i).data s1 = (.ok, { s1 with
            pool := s1.pool.copy (s1.entries i).data (s1.disk dev lba) 0 (hw.blockSize dev)
            calls := s1.calls + 1 }) := by
          unfold blkRead
          rw [(blkValidateRange_one hr).mpr hlt, hr.no_fault]
          rfl
        simp only [hread, ne_eq, not_true_eq_false, if_false, if_pos hlt]
        refine ⟨_, _, _, rfl, h1.setEntry fun _ d hd => ?_, fun hst => absurd rfl hst, rfl⟩
        exact Option.some.inj hd ▸ hlt
      · have hread : blkRead hw dev lba (s1.entries i).data s1 = (.erange, s1) := by
          have hrange : blkValidateRange hw dev lba 1 = .erange := by
            unfold blkValidateRange
            rw [if_neg (by simp [hr.ops]), if_pos (by omega)]
          unfold blkRead
          rw [hrange]
          rfl
        simp only [hread, ne_eq, reduceCtorEq, not_false_eq_true, if_true, if_neg hlt]
        -- the victim has no block any more
        exact ⟨_, _, _, rfl, h1.setEntry fun hv => absurd hv Bool.false_ne_true,
          fun _ => rfl, rfl⟩

/-- A write in range is accepted, whatever it evicts. -/
theorem bcacheWrite_ends (hr : Reliable hw) (hinv : CacheInv hw s content)
    (h : ValidInRange hw s) {dev : D} {lba : Nat} (buffer : Bytes)
    (hop : hw.blockSize dev = s.blockSize → lba < hw.blockCount dev) :
    ∃ st s', bcacheWrite hw dev lba buffer s = (st, s') ∧ ValidInRange hw s' ∧
      st = if s.blockSize ≠ hw.blockSize dev then .einval else .ok := by
  unfold bcacheWrite
  by_cases hbs : s.blockSize ≠ hw.blockSize dev
  · simp only [if_pos hbs]
    exact ⟨_, _, rfl, h, rfl⟩
  simp only [if_neg hbs]
  have hlt := hop (not_not.mp hbs).symm
  cases hfind : bcacheFind dev lba s with
  | some i =>
      obtain ⟨-, -, hdev, hlba⟩ := bcacheFind_some hfind
      refine ⟨_, _, rfl, h.setEntry fun _ d hd => ?_, rfl⟩
      have hsame : dev = d := Option.some.inj (hdev.symm.trans hd)
      rw [← hsame]
      exact hlba.trans_lt hlt
  | none =>
      obtain ⟨i, s1, hvictim, h1, -⟩ := bcacheSelectVictim_some hr hinv h
      simp only [hvictim, setEntry_setEntry, setEntry_self]
      refine ⟨_, _, rfl, h1.setEntry fun _ d hd => ?_, rfl⟩
      exact Option.some.inj hd ▸ hlt

/-- The cache shows the blocks. -/
structure Shows (hw : Hardware D) (b : Nat) (s : BcacheState D) (blocks : D × Nat → List UInt8) :
    Prop where
  inv : CacheInv hw s blocks
  range : ValidInRange hw s
  size : s.blockSize = b

theorem refines_array (hr : Reliable hw) (b : Nat) :
    Refines (cacheStep hw) (arrayStep hw b) (WriteInRange hw b) (Shows hw b) := by
  refine ⟨fun op s blocks hop h => ?_⟩
  obtain ⟨hinv, hrange, rfl⟩ := h
  cases op with
  | read dev lba buffer =>
      obtain ⟨st, buffer', s', hcall, hrange', hkept, hst⟩ :=
        bcacheRead_ends hr hinv hrange dev lba buffer
      obtain ⟨hinv', hsize, hdata⟩ := bcacheRead_spec hinv hcall
      simp only [cacheStep, arrayStep, hcall]
      split_ifs at hst ⊢ <;> subst hst
      · exact ⟨by rw [hkept (by simp)], hinv', hrange', hsize⟩
      · exact ⟨by rw [hdata rfl], hinv', hrange', hsize⟩
      · exact ⟨by rw [hkept (by simp)], hinv', hrange', hsize⟩
  | write dev lba buffer =>
      obtain ⟨st, s', hcall, hrange', hst⟩ := bcacheWrite_ends hr hinv hrange buffer hop
      obtain ⟨hsize, hinv'⟩ := bcacheWrite_spec hinv hcall
      simp only [cacheStep, arrayStep, hcall]
      split_ifs at hst ⊢ <;> subst hst
      · exact ⟨rfl, hinv', hrange', hsize⟩
      · exact ⟨rfl, hinv', hrange', hsize⟩
  | flushAll =>
      obtain ⟨hok, -⟩ := flushLoop_reliable hr hinv (hrange.dirty hinv.wf)
        (by omega : 0 + s.entryCount ≤ s.entryCount)
      obtain ⟨hinv', hsteady⟩ := flushLoop_spec hinv (by omega : 0 + s.entryCount ≤ s.entryCount)
      exact ⟨Prod.ext hok rfl, hinv', hrange.steady hsteady, hsteady.size_eq⟩

/-! ## Runs -/

omit [DecidableEq D] in
/-- The cache that `mcsos_bcache_init` leaves shows what is on the devices. -/
theorem bcacheInit_shows {n b : Nat} {s00 s0 : BcacheState D}
    (hinit : bcacheInit n b s00 = (.ok, s0)) :
    Shows hw b s0 fun k => (s00.disk k.1 k.2).slice 0 b := by
  have hinv : CacheInv hw s0 (back s0) := bcacheInit_spec hinit
  obtain ⟨-, rfl⟩ := bcacheInit_ok hinit
  refine ⟨hinv, fun i hi hv => ?_, rfl⟩
  have hi' : i < n := hi
  simp [hi', bcacheInitEntry] at hv

/-- A flush puts on the devices what the cache shows. -/
theorem Shows.flushed (hr : Reliable hw) {b : Nat} (h : Shows hw b s content) :
    (bcacheFlushAll hw s).1 = .ok ∧ back (bcacheFlushAll hw s).2 = content := by
  have hn : 0 + s.entryCount ≤ s.entryCount := by omega
  obtain ⟨hok, -⟩ := flushLoop_reliable hr h.inv (h.range.dirty h.inv.wf) hn
  obtain ⟨hinv', hsteady⟩ := flushLoop_spec h.inv hn
  obtain ⟨m, -, -, hall, -, -, hentries⟩ := flushLoop_entries h.inv hn
  have hm : m = 0 + s.entryCount := hall.mp hok
  refine ⟨hok, hinv'.back_eq fun i hi => ?_⟩
  rw [hsteady.count_eq] at hi
  rw [hentries i, if_pos ⟨by omega, by omega⟩]
  exact BcacheEntry.not_dirty_cleaned _

/-- **The cache cannot be seen**: every list of calls is answered as the devices would answer it
without a cache, and a flush at its end leaves on the devices what they would hold. -/
theorem bcache_array (hr : Reliable hw) {n b : Nat} {s00 s0 : BcacheState D}
    (hinit : bcacheInit n b s00 = (.ok, s0)) {ops : List (BcacheOp D)}
    (hops : ∀ op ∈ ops, WriteInRange hw b op) :
    let blocks := fun k : D × Nat => (s00.disk k.1 k.2).slice 0 b
    let s := (answer (cacheStep hw) ops s0).2
    (answer (cacheStep hw) ops s0).1 = (answer (arrayStep hw b) ops blocks).1 ∧
      (bcacheFlushAll hw s).1 = .ok ∧
      ∀ dev lba, ((bcacheFlushAll hw s).2.disk dev lba).slice 0 b =
        (answer (arrayStep hw b) ops blocks).2 (dev, lba) := by
  intro blocks s
  obtain ⟨hanswers, hlast⟩ := (refines_array hr b).run hops (bcacheInit_shows hinit)
  obtain ⟨hok, hback⟩ := hlast.flushed hr
  have hsize : (bcacheFlushAll hw s).2.blockSize = b :=
    (bcacheFlushAll_spec hlast.inv).2.trans hlast.size
  refine ⟨hanswers, hok, fun dev lba => ?_⟩
  have h := congrFun hback (dev, lba)
  rw [back, hsize] at h
  exact h

/-- Two blocks are written through a cache of one entry, and the first one is read again. -/
theorem bcache_array_small :
    (answer (cacheStep goodHw) [.write () 7 (fun _ => 7), .write () 6 (fun _ => 6),
      .read () 7 Bytes.zero, .read () 8 Bytes.zero] (bcacheInit 1 4 emptyCache).2).1 =
    [(.ok, [7, 7, 7, 7]), (.ok, [6, 6, 6, 6]), (.ok, [7, 7, 7, 7]), (.erange, [0, 0, 0, 0])] := by
  have hinit : bcacheInit 1 4 emptyCache = (.ok, (bcacheInit 1 4 emptyCache).2) := rfl
  have hops : ∀ op ∈ [BcacheOp.write () 7 (fun _ => 7), .write () 6 (fun _ => 6),
      .read () 7 Bytes.zero, .read () 8 Bytes.zero], WriteInRange goodHw 4 op := by
    intro op hop
    simp only [List.mem_cons, List.not_mem_nil, or_false] at hop
    rcases hop with rfl | rfl | rfl | rfl <;> simp [WriteInRange, goodHw]
  rw [(bcache_array goodHw_reliable hinit hops).1]
  decide +kernel

end Mcsos.Block
