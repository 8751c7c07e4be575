import Mcsos.Mm.Pmm

set_option autoImplicit false

/-! # Marking frames and ranges

What the marking functions of the frame allocator do to single bits, and the invariant that
every one of them keeps: the counters count the bitmap, and no frame below the hint is free.
-/

namespace Mcsos.Pmm

open Loop

/-! ## Roundings -/

theorem page_mask_testBit (i : Nat) :
    (2 ^ 64 - (4095 + 1)).testBit i = (decide (i < 64) && !decide (i < 12)) := by
  rw [Nat.testBit_two_pow_sub_succ (by norm_num), show 4095 = 2 ^ 12 - 1 by norm_num,
    Nat.testBit_two_pow_sub_one]

theorem and_page_mask (x : Nat) (hx : x < 2 ^ 64) :
    x &&& (2 ^ 64 - (4095 + 1)) = x / 4096 * 4096 := by
  apply Nat.eq_of_testBit_eq
  intro i
  rw [Nat.testBit_and, page_mask_testBit, show (4096 : Nat) = 2 ^ 12 by norm_num,
    Nat.testBit_mul_two_pow, Nat.testBit_div_two_pow]
  by_cases hi : i < 12
  · simp [hi, show ¬12 ≤ i by omega]
  · by_cases hi64 : i < 64
    · simp [hi, hi64, show 12 ≤ i by omega, show i - 12 + 12 = i by omega]
    · have hlt : x < 2 ^ i := lt_of_lt_of_le hx (Nat.pow_le_pow_right (by omega) (by omega))
      simp [hi64, Nat.testBit_lt_two_pow hlt, show i - 12 + 12 = i by omega]

theorem alignDown_toNat (v : UInt64) : (alignDown v 4096).toNat = v.toNat / 4096 * 4096 := by
  unfold alignDown
  rw [UInt64.toNat_and, UInt64.toNat_not, ← and_page_mask v.toNat v.toNat_lt]
  rfl

theorem alignUp_toNat (v : UInt64) :
    (alignUp v 4096).toNat = (v.toNat + 4095) % 2 ^ 64 / 4096 * 4096 := by
  unfold alignUp
  rw [UInt64.toNat_and, UInt64.toNat_not]
  have hsum : (v + 4096 - 1).toNat = (v.toNat + 4095) % 2 ^ 64 := by
    rw [show v + 4096 - 1 = v + 4095 by grind, UInt64.toNat_add]
    rfl
  rw [hsum, ← and_page_mask _ (Nat.mod_lt _ (by norm_num))]
  rfl

theorem checkedAddU64_some {a b s : UInt64} (h : checkedAddU64 a b = some s) :
    a.toNat + b.toNat < 2 ^ 64 ∧ s.toNat = a.toNat + b.toNat := by
  unfold checkedAddU64 at h
  split at h
  · cases h
  · rename_i hlt
    have ha := a.toNat_lt
    have hle : a.toNat + b.toNat < 2 ^ 64 := by
      rw [UInt64.not_lt, UInt64.le_iff_toNat_le,
        UInt64.toNat_sub_of_le _ _ (by
          rw [UInt64.le_iff_toNat_le]
          change a.toNat ≤ 18446744073709551615
          omega)] at hlt
      change b.toNat ≤ 18446744073709551615 - a.toNat at hlt
      omega
    cases h
    exact ⟨hle, by rw [UInt64.toNat_add, Nat.mod_eq_of_lt hle]⟩

theorem checkedAddU64_none {a b : UInt64} (h : checkedAddU64 a b = none) :
    2 ^ 64 ≤ a.toNat + b.toNat := by
  unfold checkedAddU64 at h
  split at h
  · rename_i hlt
    have ha := a.toNat_lt
    rw [UInt64.lt_iff_toNat_lt,
      UInt64.toNat_sub_of_le _ _ (by
        rw [UInt64.le_iff_toNat_le]
        change a.toNat ≤ 18446744073709551615
        omega)] at hlt
    change 18446744073709551615 - a.toNat < b.toNat at hlt
    omega
  · cases h

/-! ## The invariant -/

/-- The frames below `frame_count` whose bit is clear. -/
def freeSet (pmm : PmmState) : Finset Nat :=
  (Finset.range pmm.frameCount).filter (fun f => bitmapTest pmm f = false)

/-- The counters count the bitmap and the hint has no free frame below it. -/
structure PmmCore (pmm : PmmState) : Prop where
  maxPhys_eq : pmm.maxPhys = pmm.frameCount * pmmPageSize
  maxPhys_lt : pmm.maxPhys < 2 ^ 64
  free_card : pmm.freeFrames = (freeSet pmm).card
  total : pmm.freeFrames + pmm.usedFrames = pmm.frameCount
  hint_le : pmm.nextHint ≤ pmm.frameCount
  hint_used : ∀ f, f < pmm.nextHint → bitmapTest pmm f = true

theorem mem_freeSet {pmm : PmmState} {f : Nat} :
    f ∈ freeSet pmm ↔ f < pmm.frameCount ∧ bitmapTest pmm f = false := by
  simp [freeSet]

/-- The parts of the state no marking function touches. -/
structure SameShape (pmm pmm' : PmmState) : Prop where
  maxPhys : pmm'.maxPhys = pmm.maxPhys
  frameCount : pmm'.frameCount = pmm.frameCount
  initialized : pmm'.initialized = pmm.initialized

theorem SameShape.refl (pmm : PmmState) : SameShape pmm pmm := ⟨rfl, rfl, rfl⟩

theorem SameShape.trans {p q r : PmmState} (h : SameShape p q) (h' : SameShape q r) :
    SameShape p r :=
  ⟨h'.maxPhys.trans h.maxPhys, h'.frameCount.trans h.frameCount,
    h'.initialized.trans h.initialized⟩

/-! ## Single frames -/

theorem markFrameFree_shape (frame : Nat) (pmm : PmmState) :
    SameShape pmm (markFrameFree frame pmm) := by
  unfold markFrameFree
  split_ifs <;> exact ⟨rfl, rfl, rfl⟩

theorem markFrameUsed_shape (frame : Nat) (pmm : PmmState) :
    SameShape pmm (markFrameUsed frame pmm) := by
  unfold markFrameUsed
  split_ifs <;> exact ⟨rfl, rfl, rfl⟩

theorem markFrameFree_test {frame : Nat} {pmm : PmmState} (h : frame < pmm.frameCount) (f : Nat) :
    bitmapTest (markFrameFree frame pmm) f = (!decide (f = frame) && bitmapTest pmm f) := by
  unfold markFrameFree
  rw [if_neg (by omega)]
  by_cases hbit : bitmapTest pmm frame = true
  · rw [if_pos hbit]
    exact Bitmap.test_clear _ _ _
  · rw [if_neg hbit]
    by_cases hf : f = frame
    · simp [hf, hbit]
    · simp [hf]

theorem markFrameUsed_test {frame : Nat} {pmm : PmmState} (h : frame < pmm.frameCount) (f : Nat) :
    bitmapTest (markFrameUsed frame pmm) f = (decide (f = frame) || bitmapTest pmm f) := by
  unfold markFrameUsed
  rw [if_neg (by omega)]
  by_cases hbit : bitmapTest pmm frame = true
  · rw [if_neg (by simp [hbit])]
    by_cases hf : f = frame
    · simp [hf, hbit]
    · simp [hf]
  · rw [if_pos (by simpa using hbit)]
    exact Bitmap.test_set _ _ _

theorem markFrameUsed_hint (frame : Nat) (pmm : PmmState) :
    (markFrameUsed frame pmm).nextHint = pmm.nextHint := by
  unfold markFrameUsed
  split_ifs <;> rfl

theorem freeSet_markFrameFree {frame : Nat} {pmm : PmmState} (h : frame < pmm.frameCount) :
    freeSet (markFrameFree frame pmm) = insert frame (freeSet pmm) := by
  ext f
  rw [mem_freeSet, (markFrameFree_shape frame pmm).frameCount, markFrameFree_test h,
    Finset.mem_insert, mem_freeSet]
  by_cases hf : f = frame
  · simp [hf, h]
  · simp [hf]

theorem freeSet_markFrameUsed {frame : Nat} {pmm : PmmState} (h : frame < pmm.frameCount) :
    freeSet (markFrameUsed frame pmm) = (freeSet pmm).erase frame := by
  ext f
  rw [mem_freeSet, (markFrameUsed_shape frame pmm).frameCount, markFrameUsed_test h,
    Finset.mem_erase, mem_freeSet]
  by_cases hf : f = frame
  · simp [hf]
  · simp [hf]

theorem markFrameFree_freeFrames {frame : Nat} {pmm : PmmState} (h : frame < pmm.frameCount)
    (hbit : bitmapTest pmm frame = true) :
    (markFrameFree frame pmm).freeFrames = pmm.freeFrames + 1 ∧
    (markFrameFree frame pmm).usedFrames = pmm.usedFrames - 1 ∧
    (markFrameFree frame pmm).nextHint = min pmm.nextHint frame := by
  unfold markFrameFree
  rw [if_neg (by omega), if_pos hbit]
  refine ⟨rfl, ?_, ?_⟩
  · show (if 0 < pmm.usedFrames then pmm.usedFrames - 1 else pmm.usedFrames) = _
    split_ifs <;> omega
  · show (if frame < pmm.nextHint then frame else pmm.nextHint) = _
    split_ifs <;> omega

theorem markFrameUsed_freeFrames {frame : Nat} {pmm : PmmState} (h : frame < pmm.frameCount)
    (hbit : bitmapTest pmm frame = false) :
    (markFrameUsed frame pmm).freeFrames = pmm.freeFrames - 1 ∧
    (markFrameUsed frame pmm).usedFrames = pmm.usedFrames + 1 := by
  unfold markFrameUsed
  rw [if_neg (by omega), if_pos (by simp [hbit])]
  refine ⟨?_, rfl⟩
  show (if 0 < pmm.freeFrames then pmm.freeFrames - 1 else pmm.freeFrames) = _
  split_ifs <;> omega

theorem PmmCore.markFrameFree {pmm : PmmState} (hc : PmmCore pmm) {frame : Nat}
    (h : frame < pmm.frameCount) : PmmCore (markFrameFree frame pmm) := by
  by_cases hbit : bitmapTest pmm frame = true
  · have hsh := markFrameFree_shape frame pmm
    obtain ⟨hfree, hused, hhint⟩ := markFrameFree_freeFrames h hbit
    have hnot : frame ∉ freeSet pmm := by rw [mem_freeSet]; simp [hbit]
    have hcard : (freeSet pmm).card + 1 ≤ pmm.frameCount := by
      rw [← Finset.card_insert_of_notMem hnot, ← freeSet_markFrameFree h]
      refine (Finset.card_filter_le _ _).trans ?_
      rw [Finset.card_range, hsh.frameCount]
    have htotal := hc.total
    have hfc := hc.free_card
    refine ⟨?_, ?_, ?_, ?_, ?_, ?_⟩
    · rw [hsh.maxPhys, hsh.frameCount]; exact hc.maxPhys_eq
    · rw [hsh.maxPhys]; exact hc.maxPhys_lt
    · rw [hfree, freeSet_markFrameFree h, Finset.card_insert_of_notMem hnot, hc.free_card]
    · rw [hfree, hused, hsh.frameCount]; omega
    · have hhint' := hc.hint_le
      rw [hhint, hsh.frameCount]; omega
    · intro f hf
      rw [hhint] at hf
      rw [markFrameFree_test h, hc.hint_used f (by omega)]
      simp [show f ≠ frame by omega]
  · -- the frame was free already
    unfold Pmm.markFrameFree
    rw [if_neg (by omega), if_neg hbit]
    exact hc

theorem PmmCore.markFrameUsed {pmm : PmmState} (hc : PmmCore pmm) {frame : Nat}
    (h : frame < pmm.frameCount) : PmmCore (markFrameUsed frame pmm) := by
  by_cases hbit : bitmapTest pmm frame = false
  · have hsh := markFrameUsed_shape frame pmm
    obtain ⟨hfree, hused⟩ := markFrameUsed_freeFrames h hbit
    have hmem : frame ∈ freeSet pmm := mem_freeSet.mpr ⟨h, hbit⟩
    have hpos : 0 < (freeSet pmm).card := Finset.card_pos.mpr ⟨frame, hmem⟩
    have htotal := hc.total
    have hfc := hc.free_card
    refine ⟨?_, ?_, ?_, ?_, ?_, ?_⟩
    · rw [hsh.maxPhys, hsh.frameCount]; exact hc.maxPhys_eq
    · rw [hsh.maxPhys]; exact hc.maxPhys_lt
    · rw [hfree, freeSet_markFrameUsed h, Finset.card_erase_of_mem hmem, hc.free_card]
    · rw [hfree, hused, hsh.frameCount]; omega
    · rw [markFrameUsed_hint, hsh.frameCount]; exact hc.hint_le
    · intro f hf
      rw [markFrameUsed_hint] at hf
      rw [markFrameUsed_test h, hc.hint_used f hf, Bool.or_true]
  · -- the frame was used already
    unfold Pmm.markFrameUsed
    rw [if_neg (by omega), if_neg (by simpa using hbit)]
    exact hc

/-! ## Marked sets

`Marks v P p q` says that going from `p` to `q` gave every frame of `P` the bit `v` and left
the other frames alone. The marking functions are described by the set they mark, and the
sets are put together by `Marks.trans`. -/

structure Marks (v : Bool) (P : Nat → Prop) (p q : PmmState) : Prop where
  shape : SameShape p q
  core : PmmCore p → PmmCore q
  hit : ∀ f, f < p.frameCount → P f → bitmapTest q f = v
  miss : ∀ f, f < p.frameCount → ¬P f → bitmapTest q f = bitmapTest p f

variable {v : Bool} {P Q : Nat → Prop} {p q r : PmmState}

theorem Marks.nothing (h : ∀ f, f < p.frameCount → ¬P f) : Marks v P p p :=
  ⟨SameShape.refl p, id, fun f hf hP => absurd hP (h f hf), fun _ _ _ => rfl⟩

theorem Marks.congr (h : Marks v P p q) (hPQ : ∀ f, f < p.frameCount → (P f ↔ Q f)) :
    Marks v Q p q :=
  ⟨h.shape, h.core, fun f hf hQ => h.hit f hf ((hPQ f hf).mpr hQ),
    fun f hf hQ => h.miss f hf (fun hP => hQ ((hPQ f hf).mp hP))⟩

theorem Marks.trans (h : Marks v P p q) (h' : Marks v Q q r) :
    Marks v (fun f => P f ∨ Q f) p r := by
  refine ⟨h.shape.trans h'.shape, fun hc => h'.core (h.core hc), ?_, ?_⟩
  · intro f hf hPQ
    have hfq : f < q.frameCount := by rw [h.shape.frameCount]; exact hf
    by_cases hQ : Q f
    · exact h'.hit f hfq hQ
    · rw [h'.miss f hfq hQ]
      exact h.hit f hf (hPQ.resolve_right hQ)
  · intro f hf hPQ
    have hfq : f < q.frameCount := by rw [h.shape.frameCount]; exact hf
    rw [h'.miss f hfq (fun hQ => hPQ (Or.inr hQ)), h.miss f hf (fun hP => hPQ (Or.inl hP))]

theorem marks_markFrameFree {frame : Nat} (h : frame < p.frameCount) :
    Marks false (fun f => f = frame) p (markFrameFree frame p) := by
  refine ⟨markFrameFree_shape _ _, fun hc => hc.markFrameFree h, ?_, ?_⟩
  · intro f _ hf
    rw [markFrameFree_test h]; simp [hf]
  · intro f _ hf
    rw [markFrameFree_test h]; simp [hf]

theorem marks_markFrameUsed {frame : Nat} (h : frame < p.frameCount) :
    Marks true (fun f => f = frame) p (markFrameUsed frame p) := by
  refine ⟨markFrameUsed_shape _ _, fun hc => hc.markFrameUsed h, ?_, ?_⟩
  · intro f _ hf
    rw [markFrameUsed_test h]; simp [hf]
  · intro f _ hf
    rw [markFrameUsed_test h]; simp [hf]

/-- The invariant does not see the two statistics. -/
theorem PmmCore.with_stats (hc : PmmCore p) (m n : Nat) :
    PmmCore { p with reservedFrames := m, ignoredFrames := n } :=
  ⟨hc.maxPhys_eq, hc.maxPhys_lt, hc.free_card, hc.total, hc.hint_le, hc.hint_used⟩

theorem marks_with_stats (m n : Nat) (h : ∀ f, f < p.frameCount → ¬P f) :
    Marks v P p { p with reservedFrames := m, ignoredFrames := n } :=
  ⟨⟨rfl, rfl, rfl⟩, fun hc => hc.with_stats m n, fun f hf hP => absurd hP (h f hf),
    fun _ _ _ => rfl⟩

theorem marks_markAddrUsed {addr : Nat} (h : addr / pmmPageSize < p.frameCount) :
    Marks true (fun f => f = addr / pmmPageSize) p (markAddrUsed addr p) := by
  have hm := marks_markFrameUsed h
  unfold markAddrUsed
  by_cases hfree : (!bitmapTest p (addr / pmmPageSize)) = true
  · rw [if_pos hfree]
    have hs : Marks true (fun _ => False) (markFrameUsed (addr / pmmPageSize) p)
        { markFrameUsed (addr / pmmPageSize) p with
          reservedFrames := ((markFrameUsed (addr / pmmPageSize) p).reservedFrames + 1) % 2 ^ 64 } :=
      marks_with_stats _ _ (fun _ _ => id)
    exact (hm.trans hs).congr (fun f _ => by simp)
  · rw [if_neg hfree]
    exact hm

/-! ## Ranges -/

/-- A loop over the pages `a ≤ f < b` whose body marks one page marks exactly these. -/
theorem marks_forRange {body : Nat → PmmState → PmmState} {a b : Nat} (hab : a ≤ b)
    (hb : b ≤ p.frameCount)
    (hbody : ∀ addr s, addr / pmmPageSize < s.frameCount →
      Marks v (fun f => f = addr / pmmPageSize) s (body addr s)) :
    Marks v (fun f => a ≤ f ∧ f < b) p
      (forRange (a * pmmPageSize) (b * pmmPageSize) pmmPageSize body p) := by
  have hcount : (b * pmmPageSize - a * pmmPageSize + (pmmPageSize - 1)) / pmmPageSize = b - a := by
    unfold pmmPageSize; omega
  unfold forRange
  rw [hcount]
  have key : Marks v (fun f => a ≤ f ∧ f < a + (b - a)) p
      (forStep pmmPageSize body (b - a) (a * pmmPageSize) p) := by
    refine forStep_induct (fun k s => Marks v (fun f => a ≤ f ∧ f < a + k) p s) ?_ ?_
    · exact Marks.nothing (fun f _ hf => by omega)
    · intro k s hk hs
      have haddr : (a * pmmPageSize + pmmPageSize * k) / pmmPageSize = a + k := by
        unfold pmmPageSize; omega
      have hlt : (a * pmmPageSize + pmmPageSize * k) / pmmPageSize < s.frameCount := by
        rw [haddr, hs.shape.frameCount]; omega
      refine (hs.trans (hbody _ s hlt)).congr (fun f _ => ?_)
      rw [haddr]
      omega
  exact key.congr (fun f _ => by omega)

/-- The frames `mark_range_free` frees: `base` is rounded up with wrap-around, and a range
that runs past the last address is dropped. -/
def FreesFrame (base length : UInt64) (f : Nat) : Prop :=
  length ≠ 0 ∧ base.toNat + length.toNat < 2 ^ 64 ∧
    (base.toNat + 4095) % 2 ^ 64 / 4096 ≤ f ∧ f < (base.toNat + length.toNat) / 4096

/-- The frames `mark_range_used` reserves: the end is rounded up with wrap-around, and a
range that runs past the last address is dropped. -/
def ReservesFrame (base length : UInt64) (f : Nat) : Prop :=
  length ≠ 0 ∧ base.toNat + length.toNat < 2 ^ 64 ∧
    base.toNat / 4096 ≤ f ∧ f < (base.toNat + length.toNat + 4095) % 2 ^ 64 / 4096

/-- The common end of the two loops: the frames from `a` to `b`, as far as the memory goes. `p'` is
the state with the statistics of a range that is clipped. -/
theorem marks_clipped (hc : PmmCore p) {body : Nat → PmmState → PmmState} {F : Nat → Prop} {a b : Nat}
    (hbody : ∀ addr s, addr / pmmPageSize < s.frameCount →
      Marks v (fun f => f = addr / pmmPageSize) s (body addr s))
    (hF : ∀ f, F f ↔ a ≤ f ∧ f < b) {p' : PmmState} (hs : Marks v (fun _ => False) p p') :
    Marks v F p (if b * 4096 ≤ a * 4096 then p else if p.maxPhys ≤ a * 4096 then p
      else if p.maxPhys < b * 4096 then forRange (a * 4096) p.maxPhys pmmPageSize body p'
      else forRange (a * 4096) (b * 4096) pmmPageSize body p) := by
  have hmax : p.maxPhys = p.frameCount * 4096 := hc.maxPhys_eq
  have hcount : p'.frameCount = p.frameCount := hs.shape.frameCount
  by_cases hba : b * 4096 ≤ a * 4096
  · rw [if_pos hba]
    apply Marks.nothing
    intro f _ hf
    have hrange := (hF f).mp hf
    omega
  rw [if_neg hba]
  by_cases hpast : p.maxPhys ≤ a * 4096
  · rw [if_pos hpast]
    apply Marks.nothing
    intro f _ hf
    have hrange := (hF f).mp hf
    omega
  rw [if_neg hpast]
  by_cases hclip : p.maxPhys < b * 4096
  · -- the end is clipped to `max_phys`
    rw [if_pos hclip, hmax]
    have hloop : Marks v (fun f => a ≤ f ∧ f < p.frameCount) p'
        (forRange (a * 4096) (p.frameCount * 4096) pmmPageSize body p') :=
      marks_forRange (by omega) hcount.ge hbody
    apply (hs.trans hloop).congr
    intro f hf
    rw [false_or, hF]
    omega
  · rw [if_neg hclip]
    have hloop : Marks v (fun f => a ≤ f ∧ f < b) p
        (forRange (a * 4096) (b * 4096) pmmPageSize body p) :=
      marks_forRange (by omega) (by omega) hbody
    exact hloop.congr fun f _ => (hF f).symm

theorem marks_markRangeFree (hc : PmmCore p) (base length : UInt64) :
    Marks false (FreesFrame base length) p (markRangeFree base length p) := by
  unfold markRangeFree
  by_cases hlen : length = 0
  · rw [if_pos hlen]
    exact Marks.nothing (fun f _ hf => hf.1 hlen)
  rw [if_neg hlen]
  cases hsum : checkedAddU64 base length with
  | none =>
      -- a range that runs past the last address is dropped
      have hge := checkedAddU64_none hsum
      exact Marks.nothing fun f _ hf => absurd hf.2.1 (by omega)
  | some stopAddr =>
      obtain ⟨hlt, hstop⟩ := checkedAddU64_some hsum
      simp only [alignUp_toNat, alignDown_toNat, hstop]
      exact marks_clipped hc (fun _ _ h => marks_markFrameFree h)
        (fun f => ⟨fun h => h.2.2, fun h => ⟨hlen, hlt, h⟩⟩)
        (marks_with_stats _ _ fun _ _ => id)

theorem marks_markRangeUsed (hc : PmmCore p) (base length : UInt64) :
    Marks true (ReservesFrame base length) p (markRangeUsed base length p) := by
  unfold markRangeUsed
  by_cases hlen : length = 0
  · rw [if_pos hlen]
    exact Marks.nothing (fun f _ hf => hf.1 hlen)
  rw [if_neg hlen]
  cases hsum : checkedAddU64 base length with
  | none =>
      have hge := checkedAddU64_none hsum
      exact Marks.nothing fun f _ hf => absurd hf.2.1 (by omega)
  | some stopAddr =>
      obtain ⟨hlt, hstop⟩ := checkedAddU64_some hsum
      simp only [alignUp_toNat, alignDown_toNat, hstop]
      exact marks_clipped hc (fun _ _ h => marks_markAddrUsed h)
        (fun f => ⟨fun h => h.2.2, fun h => ⟨hlen, hlt, h⟩⟩) (Marks.nothing fun _ _ => id)

end Mcsos.Pmm
