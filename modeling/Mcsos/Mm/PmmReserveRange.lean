import Mcsos.Mm.PmmReserved

set_option autoImplicit false

/-! # What a reported reservation has reserved

`pmm_reserve_range` returns true whenever its length is not 0, also where `mark_range_used` has
returned without marking anything because the range ends above the last page. The reservation is
then one in name only, unless the frames happened to be used already.
-/

namespace Mcsos.Pmm

variable {pmm : PmmState} {base length : UInt64}

/-- If the call reports success, the frames of the range are used and nothing else has changed. -/
structure ReservedRange (base length : UInt64) (pmm : PmmState) : Prop where
  taken : (pmmReserveRange base length pmm).1 = true → ∀ f, f < pmm.frameCount →
    (rangeRegion base length).Overlaps f →
    bitmapTest (pmmReserveRange base length pmm).2 f = true
  kept : (pmmReserveRange base length pmm).1 = true → ∀ f, f < pmm.frameCount →
    ¬(rangeRegion base length).Overlaps f →
    bitmapTest (pmmReserveRange base length pmm).2 f = bitmapTest pmm f
  count : (pmmReserveRange base length pmm).1 = true →
    (pmmReserveRange base length pmm).2.freeFrames +
      (freeSet pmm \ freeSet (pmmReserveRange base length pmm).2).card = pmm.freeFrames

/-- The range is empty, ends below the last page, or holds no free frame. -/
def ReserveKept (base length : UInt64) (pmm : PmmState) : Prop :=
  length = 0 ∨ base.toNat + length.toNat ≤ topPage ∨
    ∀ f, f < pmm.frameCount → (rangeRegion base length).Overlaps f → bitmapTest pmm f = true

theorem rangeRegion_other (base length : UInt64) :
    (rangeRegion base length).type ≠ bootMemUsable := by
  show (0 : UInt32) ≠ 1
  decide

/-- A range that ends above the last page is lost whole. -/
theorem not_reservesFrame_of_top (h : ¬base.toNat + length.toNat ≤ topPage) (f : Nat) :
    ¬ReservesFrame base length f :=
  not_reservesFrame_of_lost (r := rangeRegion base length)
    ⟨rangeRegion_other base length, Nat.lt_of_not_le h⟩ f

theorem reservesFrame_iff_range (h : base.toNat + length.toNat ≤ topPage) (f : Nat) :
    ReservesFrame base length f ↔ (rangeRegion base length).Overlaps f := by
  refine reservesFrame_iff_overlaps (r := rangeRegion base length)
    (rangeRegion_other base length) (fun hl => ?_)
  have hgt : topPage < base.toNat + length.toNat := hl.2
  omega

/-- Marking frames as used takes exactly the frames that leave the free set off the counter. -/
theorem Marks.freeFrames_used {P : Nat → Prop} {p q : PmmState} (hc : PmmCore p)
    (hm : Marks true P p q) : q.freeFrames + (freeSet p \ freeSet q).card = p.freeFrames := by
  have hsub : freeSet q ⊆ freeSet p := by
    intro f hf
    obtain ⟨hfc, hbit⟩ := mem_freeSet.mp hf
    rw [hm.shape.frameCount] at hfc
    refine mem_freeSet.mpr ⟨hfc, ?_⟩
    by_cases hP : P f
    · rw [hm.hit f hfc hP] at hbit
      cases hbit
    · rw [← hm.miss f hfc hP]
      exact hbit
  have hcard := Finset.card_sdiff_add_card_eq_card hsub
  rw [(hm.core hc).free_card, hc.free_card]
  omega

theorem pmmReserveRange_eq (hi : pmm.initialized = true) (hlen : length ≠ 0) :
    pmmReserveRange base length pmm = (true, markRangeUsed base length pmm) := by
  unfold pmmReserveRange
  rw [if_neg (by simp [hi, hlen])]

theorem reservedRange_iff (hinv : PmmInv pmm) :
    ReservedRange base length pmm ↔ ReserveKept base length pmm := by
  by_cases hlen : length = 0
  · -- the call reports a failure
    have hres : (pmmReserveRange base length pmm).1 = false := by
      unfold pmmReserveRange
      rw [if_pos (Or.inr hlen)]
    refine iff_of_true ?_ (Or.inl hlen)
    constructor <;> (intro h; rw [hres] at h; cases h)
  have heq : pmmReserveRange base length pmm = (true, markRangeUsed base length pmm) :=
    pmmReserveRange_eq hinv.initialized hlen
  have hm := marks_markRangeUsed hinv.core base length
  by_cases htop : base.toNat + length.toNat ≤ topPage
  · refine iff_of_true ⟨?_, ?_, ?_⟩ (Or.inr (Or.inl htop))
    · intro _ f hf hov
      rw [heq]
      exact hm.hit f hf ((reservesFrame_iff_range htop f).mpr hov)
    · intro _ f hf hov
      rw [heq]
      exact hm.miss f hf (fun hres => hov ((reservesFrame_iff_range htop f).mp hres))
    · intro _
      rw [heq]
      exact hm.freeFrames_used hinv.core
  · -- nothing is marked, so the frames of the range must be used already
    have hsame : ∀ f, f < pmm.frameCount →
        bitmapTest (markRangeUsed base length pmm) f = bitmapTest pmm f :=
      fun f hf => hm.miss f hf (not_reservesFrame_of_top htop f)
    constructor
    · intro h
      refine Or.inr (Or.inr fun f hf hov => ?_)
      have htaken := h.taken (by rw [heq]) f hf hov
      rw [heq, hsame f hf] at htaken
      exact htaken
    · rintro (h0 | hle | hused)
      · exact absurd h0 hlen
      · exact absurd hle htop
      · refine ⟨?_, ?_, ?_⟩
        · intro _ f hf hov
          rw [heq, hsame f hf]
          exact hused f hf hov
        · intro _ f hf _
          rw [heq]
          exact hsame f hf
        · intro _
          rw [heq]
          exact hm.freeFrames_used hinv.core

/-- **When a reported reservation is a reservation**: along every run, exactly for the ranges that
are empty, end below the last page, or hold no free frame. -/
theorem pmmRun_reserve_iff {regions : List BootMemRegion} {storage : Bytes} {bytes max : UInt64}
    {pmm0 : PmmState} (h : pmmInitFromMap regions storage bytes max = some pmm0)
    (ops : List PmmOp) (base length : UInt64) :
    ReservedRange base length (pmmRun pmm0 ops).pmm ↔
      ReserveKept base length (pmmRun pmm0 ops).pmm :=
  reservedRange_iff ((pmmInitFromMap_result h).runInv ops).inv

theorem pmmRun_reserve_plain :
    ∃ pmm0, pmmInitFromMap plainMap Bytes.zero 2 0x10000 = some pmm0 ∧
      ReservedRange 0x5000 1 (pmmRun pmm0 [.alloc]).pmm := by
  obtain ⟨pmm0, h⟩ := Option.isSome_iff_exists.mp
    (by decide : (pmmInitFromMap plainMap Bytes.zero 2 0x10000).isSome = true)
  exact ⟨pmm0, h, (pmmRun_reserve_iff h [.alloc] 0x5000 1).mpr (Or.inr (Or.inl (by decide)))⟩

/-- The range from 0x5000 to the last address is reported as reserved, and frame 5 stays free. -/
theorem pmmReserveRange_leaves_free :
    ¬∀ (regions : List BootMemRegion) (storage : Bytes) (bytes max : UInt64) (pmm0 : PmmState)
        (ops : List PmmOp) (base length : UInt64),
      pmmInitFromMap regions storage bytes max = some pmm0 →
      ReservedRange base length (pmmRun pmm0 ops).pmm := by
  intro hall
  obtain ⟨pmm0, h⟩ := Option.isSome_iff_exists.mp
    (by decide : (pmmInitFromMap plainMap Bytes.zero 2 0x10000).isSome = true)
  have hinv := (pmmInitFromMap_result h).inv
  have hbit : (pmmInitFromMap plainMap Bytes.zero 2 0x10000).map (fun p =>
      (decide (5 < p.frameCount), bitmapTest p 5)) = some (true, false) := by decide
  rw [h] at hbit
  obtain ⟨hlt, hfree⟩ := Prod.mk.inj (Option.some.inj hbit)
  have hkept := (reservedRange_iff hinv).mp
    (hall _ _ _ _ _ [] 0x5000 0xffffffffffffafff h)
  rcases hkept with h0 | hle | hused
  · exact absurd h0 (by decide)
  · exact absurd hle (by decide)
  · have htest := hused 5 (of_decide_eq_true hlt) (by
      unfold rangeRegion BootMemRegion.Overlaps
      decide)
    rw [hfree] at htest
    cases htest

end Mcsos.Pmm
