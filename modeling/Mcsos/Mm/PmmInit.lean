import Mcsos.Mm.PmmMarking

set_option autoImplicit false

/-! # The frame map built at boot

`pmm_init_from_map` starts from "every frame used", frees the usable regions, takes frame 0
back and then takes back everything a region of another type touches. The file describes the
bitmap it ends with, first as the code computes it and then against the intended meaning:
a frame is free when a usable region contains it whole and no other region overlaps it.
The two differ exactly where a region comes too close to the end of the 64-bit range.
-/

namespace Mcsos.Pmm

open Loop

/-! ## The blank state -/

theorem and_4095 (v : UInt64) : (v &&& (4096 - 1)).toNat = v.toNat % 4096 := by
  rw [UInt64.toNat_and]
  exact Nat.and_two_pow_sub_one_eq_mod v.toNat 12

theorem and_4095_eq_zero {v : UInt64} (h : v &&& (4096 - 1) = 0) : v.toNat % 4096 = 0 := by
  rw [← and_4095, h]
  rfl

theorem pmmBlank_test (storage : Bytes) (max : UInt64) (f : Nat)
    (hf : f < (pmmBlank storage max).frameCount) : bitmapTest (pmmBlank storage max) f = true := by
  apply Bitmap.test_full
  apply Bytes.fill_apply_of_mem (Nat.zero_le _)
  change f < max.toNat / pmmPageSize at hf
  omega

theorem pmmBlank_core (storage : Bytes) (max : UInt64) (h : max.toNat % 4096 = 0) :
    PmmCore (pmmBlank storage max) := by
  have hempty : freeSet (pmmBlank storage max) = ∅ := by
    ext f
    rw [mem_freeSet]
    constructor
    · rintro ⟨hf, hbit⟩
      rw [pmmBlank_test storage max f hf] at hbit
      cases hbit
    · intro hf
      simp at hf
  have hlt := max.toNat_lt
  refine ⟨?_, hlt, ?_, ?_, Nat.zero_le _, ?_⟩
  · show max.toNat = max.toNat / 4096 * 4096
    omega
  · rw [hempty]; rfl
  · exact Nat.zero_add _
  · intro f hf
    change f < 0 at hf
    omega

/-! ## The two region loops -/

variable {p q : PmmState}

/-- Some usable region frees the frame, as the code rounds it. -/
def FreedBySome (regions : List BootMemRegion) (f : Nat) : Prop :=
  ∃ r ∈ regions, r.type = bootMemUsable ∧ FreesFrame r.base r.length f

/-- Some other region reserves the frame, as the code rounds it. -/
def ReservedBySome (regions : List BootMemRegion) (f : Nat) : Prop :=
  ∃ r ∈ regions, r.type ≠ bootMemUsable ∧ ReservesFrame r.base r.length f

/-- A fold of conditional markings marks the union of what its turns mark. -/
theorem marks_foldl {v : Bool} {c : BootMemRegion → Prop} [DecidablePred c]
    {mark : BootMemRegion → PmmState → PmmState} {P : BootMemRegion → Nat → Prop}
    (hmark : ∀ r s, PmmCore s → Marks v (P r) s (mark r s)) (regions : List BootMemRegion)
    (p : PmmState) (hc : PmmCore p) :
    Marks v (fun f => ∃ r ∈ regions, c r ∧ P r f) p
      (regions.foldl (fun s r => if c r then mark r s else s) p) := by
  induction regions generalizing p with
  | nil => exact Marks.nothing (fun f _ => by simp)
  | cons r rest ih =>
      rw [List.foldl_cons]
      have hhead : Marks v (fun f => c r ∧ P r f) p (if c r then mark r p else p) := by
        by_cases hcr : c r
        · rw [if_pos hcr]
          exact (hmark r p hc).congr (fun f _ => by simp [hcr])
        · rw [if_neg hcr]
          exact Marks.nothing (fun f _ h => hcr h.1)
      refine (hhead.trans (ih _ (hhead.core hc))).congr (fun f _ => ?_)
      simp

theorem marks_freeUsableRegions (regions : List BootMemRegion) (hc : PmmCore p) :
    Marks false (FreedBySome regions) p (freeUsableRegions regions p) :=
  marks_foldl (fun r _ hs => marks_markRangeFree hs r.base r.length) regions p hc

theorem marks_reserveOtherRegions (regions : List BootMemRegion) (hc : PmmCore p) :
    Marks true (ReservedBySome regions) p (reserveOtherRegions regions p) :=
  marks_foldl (fun r _ hs => marks_markRangeUsed hs r.base r.length) regions p hc

theorem reservesFrame_zero (f : Nat) : ReservesFrame 0 4096 f ↔ f = 0 := by
  unfold ReservesFrame
  simp only [UInt64.reduceToNat]
  constructor
  · rintro ⟨-, -, h1, h2⟩
    omega
  · rintro rfl
    exact ⟨by decide, by norm_num, by norm_num, by norm_num⟩

/-- What `pmm_init_from_map` leaves behind when it returns true. -/
structure InitResult (regions : List BootMemRegion) (max : UInt64) (pmm : PmmState) : Prop where
  core : PmmCore pmm
  initialized : pmm.initialized = true
  aligned : max.toNat % 4096 = 0
  frameCount : pmm.frameCount = max.toNat / 4096
  pos : 0 < pmm.frameCount
  free_iff : ∀ f, f < pmm.frameCount →
    (bitmapTest pmm f = false ↔ f ≠ 0 ∧ FreedBySome regions f ∧ ¬ReservedBySome regions f)

theorem pmmInitFromMap_result {regions : List BootMemRegion} {storage : Bytes}
    {bytes max : UInt64} {pmm : PmmState}
    (h : pmmInitFromMap regions storage bytes max = some pmm) : InitResult regions max pmm := by
  unfold pmmInitFromMap at h
  split_ifs at h with h1 h2 h3
  have halign : max.toNat % 4096 = 0 := by
    apply and_4095_eq_zero
    by_contra hne
    exact h2 (Or.inr hne)
  -- the three passes of the source, each on the state of the one before
  set s0 := pmmBlank storage max with hs0
  have hc0 : PmmCore s0 := pmmBlank_core storage max halign
  have m1 := marks_freeUsableRegions regions hc0
  set s1 := freeUsableRegions regions s0
  have m2 := marks_markRangeUsed (m1.core hc0) 0 4096
  set s2 := markRangeUsed 0 4096 s1
  have hc2 := m2.core (m1.core hc0)
  have m3 := marks_reserveOtherRegions regions hc2
  set s3 := reserveOtherRegions regions s2
  have hc3 := m3.core hc2
  have hcount : s3.frameCount = max.toNat / 4096 := by
    rw [m3.shape.frameCount, m2.shape.frameCount, m1.shape.frameCount]
    rfl
  have hpmm : pmm = { s3 with initialized := true } := by
    injection h with h
    exact h.symm
  rw [hpmm]
  have hpos : 0 < max.toNat / 4096 := by
    have hne : max.toNat ≠ 0 := fun h0 => h2 (Or.inl (UInt64.toNat_inj.mp h0))
    omega
  refine ⟨⟨hc3.maxPhys_eq, hc3.maxPhys_lt, hc3.free_card, hc3.total, hc3.hint_le, hc3.hint_used⟩,
    rfl, halign, hcount, hcount ▸ hpos, ?_⟩
  intro f hf
  show bitmapTest s3 f = false ↔ _
  change f < s3.frameCount at hf
  have hf2 : f < s2.frameCount := by rwa [m3.shape.frameCount] at hf
  have hf1 : f < s1.frameCount := by rwa [m2.shape.frameCount] at hf2
  have hf0 : f < s0.frameCount := by rwa [m1.shape.frameCount] at hf1
  -- the last pass that touches a frame decides
  by_cases hR : ReservedBySome regions f
  · simp [m3.hit f hf2 hR, hR]
  rw [m3.miss f hf2 hR]
  by_cases hz : f = 0
  · rw [m2.hit f hf1 ((reservesFrame_zero f).mpr hz)]
    simp [hz]
  rw [m2.miss f hf1 (fun hF => hz ((reservesFrame_zero f).mp hF))]
  by_cases hF : FreedBySome regions f
  · simp [m1.hit f hf0 hF, hF, hz, hR]
  · rw [m1.miss f hf0 hF, pmmBlank_test storage max f hf0]
    simp [hF]

/-! ## The intended meaning -/

/-- The region contains the whole of frame `f`. -/
def BootMemRegion.Contains (r : BootMemRegion) (f : Nat) : Prop :=
  r.base.toNat ≤ f * 4096 ∧ f * 4096 + 4096 ≤ r.base.toNat + r.length.toNat

/-- The region has a byte in frame `f`. -/
def BootMemRegion.Overlaps (r : BootMemRegion) (f : Nat) : Prop :=
  0 < r.length.toNat ∧ r.base.toNat < f * 4096 + 4096 ∧ f * 4096 < r.base.toNat + r.length.toNat

/-- Frame `f` is usable memory of the map. -/
def UsableFrame (regions : List BootMemRegion) (f : Nat) : Prop :=
  f ≠ 0 ∧ (∃ r ∈ regions, r.type = bootMemUsable ∧ r.Contains f) ∧
    ∀ r ∈ regions, r.type ≠ bootMemUsable → ¬r.Overlaps f

/-! ## Regions near the end of the address space

The last page of the 64-bit range starts at `topPage`. -/

def topPage : Nat := 2 ^ 64 - 4096

/-- A usable region whose sum does not fit in 64 bits: the code drops it whole. -/
def BootMemRegion.Dropped (r : BootMemRegion) : Prop :=
  r.type = bootMemUsable ∧ 2 ^ 64 ≤ r.base.toNat + r.length.toNat

/-- A usable region inside the last page: its rounded start wraps to address 0. -/
def BootMemRegion.StartWraps (r : BootMemRegion) : Prop :=
  r.type = bootMemUsable ∧ 0 < r.length.toNat ∧ topPage < r.base.toNat ∧
    r.base.toNat + r.length.toNat < 2 ^ 64

/-- A region of another type that ends in the last page or beyond: its rounded end wraps to
address 0, or its sum does not fit, and the code reserves nothing. -/
def BootMemRegion.Lost (r : BootMemRegion) : Prop :=
  r.type ≠ bootMemUsable ∧ topPage < r.base.toNat + r.length.toNat

theorem freesFrame_of_startWraps {r : BootMemRegion} (h : r.StartWraps) {f : Nat}
    (hf : f * 4096 < topPage) : FreesFrame r.base r.length f := by
  obtain ⟨-, hlen, hbase, hend⟩ := h
  unfold topPage at hf hbase
  refine ⟨?_, hend, by omega, by omega⟩
  intro h0
  rw [h0] at hlen
  exact absurd hlen (by decide)

theorem freesFrame_iff_contains {r : BootMemRegion} (hu : r.type = bootMemUsable)
    (hw : ¬r.StartWraps) (hd : ¬r.Dropped) {f : Nat} :
    FreesFrame r.base r.length f ↔ r.Contains f := by
  have hsum : r.base.toNat + r.length.toNat < 2 ^ 64 := by
    by_contra hge
    exact hd ⟨hu, by omega⟩
  unfold FreesFrame BootMemRegion.Contains
  constructor
  · rintro ⟨hlen, -, h1, h2⟩
    have hbase : r.base.toNat ≤ topPage := by
      by_contra hgt
      refine hw ⟨hu, ?_, by omega, hsum⟩
      exact Nat.pos_of_ne_zero (fun h0 => hlen (UInt64.toNat_inj.mp h0))
    unfold topPage at hbase
    omega
  · rintro ⟨h1, h2⟩
    refine ⟨?_, hsum, by omega, by omega⟩
    intro h0
    rw [h0] at h2
    change f * 4096 + 4096 ≤ r.base.toNat + 0 at h2
    omega

theorem not_freesFrame_of_dropped {r : BootMemRegion} (hd : r.Dropped) (f : Nat) :
    ¬FreesFrame r.base r.length f := by
  rintro ⟨-, hlt, -⟩
  have := hd.2
  omega

theorem not_reservesFrame_of_lost {r : BootMemRegion} (hl : r.Lost) (f : Nat) :
    ¬ReservesFrame r.base r.length f := by
  rintro ⟨-, hlt, h1, h2⟩
  have := hl.2
  unfold topPage at this
  omega

theorem reservesFrame_iff_overlaps {r : BootMemRegion} (ho : r.type ≠ bootMemUsable)
    (hl : ¬r.Lost) {f : Nat} : ReservesFrame r.base r.length f ↔ r.Overlaps f := by
  have hsum : r.base.toNat + r.length.toNat ≤ topPage := by
    by_contra hgt
    exact hl ⟨ho, by omega⟩
  unfold topPage at hsum
  unfold ReservesFrame BootMemRegion.Overlaps
  have hlen : r.length ≠ 0 ↔ 0 < r.length.toNat := by
    rw [Nat.pos_iff_ne_zero, not_iff_not, ← UInt64.toNat_inj]
    rfl
  rw [hlen]
  omega

/-! ## When the map is exact

For one frame, what the code does is decided by four facts: some properly handled usable
region contains it, some usable region with a wrapped start floods the map, some properly
handled other region overlaps it. What it should do is decided by containment and overlap
alone. `TopHarmless` says the regions near the top do not make the two differ. -/

/-- A usable region that the code rounds correctly contains the frame. -/
def UsableKept (regions : List BootMemRegion) (f : Nat) : Prop :=
  ∃ r ∈ regions, r.type = bootMemUsable ∧ ¬r.Dropped ∧ ¬r.StartWraps ∧ r.Contains f

/-- A usable region that the code drops contains the frame. -/
def UsableDropped (regions : List BootMemRegion) (f : Nat) : Prop :=
  ∃ r ∈ regions, r.Dropped ∧ r.Contains f

/-- A usable region lies inside the last page. -/
def StartWrapsSome (regions : List BootMemRegion) : Prop := ∃ r ∈ regions, r.StartWraps

/-- A region of another type that the code rounds correctly overlaps the frame. -/
def OtherKept (regions : List BootMemRegion) (f : Nat) : Prop :=
  ∃ r ∈ regions, r.type ≠ bootMemUsable ∧ ¬r.Lost ∧ r.Overlaps f

/-- A region of another type that the code loses overlaps the frame. -/
def OtherLost (regions : List BootMemRegion) (f : Nat) : Prop :=
  ∃ r ∈ regions, r.Lost ∧ r.Overlaps f

/-- The regions in the last page or beyond do not change the status of frame `f`. -/
structure TopHarmless (regions : List BootMemRegion) (f : Nat) : Prop where
  reservation : OtherLost regions f → ¬UsableKept regions f ∧ ¬StartWrapsSome regions
  dropped : UsableDropped regions f →
    UsableKept regions f ∨ StartWrapsSome regions ∨ OtherLost regions f
  wrapped : StartWrapsSome regions →
    UsableKept regions f ∨ (UsableDropped regions f ∧ ¬OtherLost regions f)

theorem freedBySome_iff {regions : List BootMemRegion} {f : Nat} (hf : f * 4096 < topPage) :
    FreedBySome regions f ↔ UsableKept regions f ∨ StartWrapsSome regions := by
  constructor
  · rintro ⟨r, hr, hu, hfree⟩
    by_cases hw : r.StartWraps
    · exact Or.inr ⟨r, hr, hw⟩
    · have hd : ¬r.Dropped := fun hd => not_freesFrame_of_dropped hd f hfree
      exact Or.inl ⟨r, hr, hu, hd, hw, (freesFrame_iff_contains hu hw hd).mp hfree⟩
  · rintro (⟨r, hr, hu, hd, hw, hcont⟩ | ⟨r, hr, hw⟩)
    · exact ⟨r, hr, hu, (freesFrame_iff_contains hu hw hd).mpr hcont⟩
    · exact ⟨r, hr, hw.1, freesFrame_of_startWraps hw hf⟩

theorem reservedBySome_iff {regions : List BootMemRegion} {f : Nat} :
    ReservedBySome regions f ↔ OtherKept regions f := by
  constructor
  · rintro ⟨r, hr, ho, hres⟩
    have hl : ¬r.Lost := fun hl => not_reservesFrame_of_lost hl f hres
    exact ⟨r, hr, ho, hl, (reservesFrame_iff_overlaps ho hl).mp hres⟩
  · rintro ⟨r, hr, ho, hl, hov⟩
    exact ⟨r, hr, ho, (reservesFrame_iff_overlaps ho hl).mpr hov⟩

/-- Which usable regions contain a frame below the last page: one that is handled properly
or one that is dropped, never one with a wrapped start. -/
theorem contained_iff {regions : List BootMemRegion} {f : Nat} (hf : f * 4096 < topPage) :
    (∃ r ∈ regions, r.type = bootMemUsable ∧ r.Contains f) ↔
      UsableKept regions f ∨ UsableDropped regions f := by
  constructor
  · rintro ⟨r, hr, hu, hcont⟩
    have hw : ¬r.StartWraps := by
      rintro ⟨-, -, hbase, -⟩
      have := hcont.1
      omega
    by_cases hd : r.Dropped
    · exact Or.inr ⟨r, hr, hd, hcont⟩
    · exact Or.inl ⟨r, hr, hu, hd, hw, hcont⟩
  · rintro (⟨r, hr, hu, -, -, hcont⟩ | ⟨r, hr, hd, hcont⟩)
    · exact ⟨r, hr, hu, hcont⟩
    · exact ⟨r, hr, hd.1, hcont⟩

theorem not_overlapped_iff {regions : List BootMemRegion} {f : Nat} :
    (∀ r ∈ regions, r.type ≠ bootMemUsable → ¬r.Overlaps f) ↔
      ¬OtherKept regions f ∧ ¬OtherLost regions f := by
  constructor
  · intro h
    refine ⟨?_, ?_⟩
    · rintro ⟨r, hr, ho, -, hov⟩
      exact h r hr ho hov
    · rintro ⟨r, hr, hl, hov⟩
      exact h r hr hl.1 hov
  · rintro ⟨hk, hl⟩ r hr ho hov
    by_cases hlost : r.Lost
    · exact hl ⟨r, hr, hlost, hov⟩
    · exact hk ⟨r, hr, ho, hlost, hov⟩

/-- One frame is marked as it should be exactly when the regions near the top are harmless
for it. -/
theorem frame_exact_iff {regions : List BootMemRegion} {f : Nat} (hf : f * 4096 < topPage)
    (h0 : f ≠ 0) :
    ((f ≠ 0 ∧ FreedBySome regions f ∧ ¬ReservedBySome regions f) ↔ UsableFrame regions f) ↔
      OtherKept regions f ∨ TopHarmless regions f := by
  have hth : TopHarmless regions f ↔
      (OtherLost regions f → ¬UsableKept regions f ∧ ¬StartWrapsSome regions) ∧
      (UsableDropped regions f →
        UsableKept regions f ∨ StartWrapsSome regions ∨ OtherLost regions f) ∧
      (StartWrapsSome regions →
        UsableKept regions f ∨ (UsableDropped regions f ∧ ¬OtherLost regions f)) :=
    ⟨fun h => ⟨h.reservation, h.dropped, h.wrapped⟩, fun h => ⟨h.1, h.2.1, h.2.2⟩⟩
  unfold UsableFrame
  rw [freedBySome_iff hf, reservedBySome_iff, contained_iff hf, not_overlapped_iff, hth]
  by_cases hK : OtherKept regions f <;> by_cases hU : UsableKept regions f <;>
    by_cases hW : StartWrapsSome regions <;> by_cases hL : OtherLost regions f <;>
    by_cases hD : UsableDropped regions f <;> simp [hK, hU, hW, hL, hD, h0]

/-- The address of frame `f` as the interface takes it. -/
theorem pmmIsFrameFree_eq {regions : List BootMemRegion} {max : UInt64} {pmm : PmmState}
    (hr : InitResult regions max pmm) {f : Nat} (hf : f * 4096 < max.toNat) :
    pmmIsFrameFree pmm (UInt64.ofNat (f * 4096)) = !bitmapTest pmm f := by
  have hlt := max.toNat_lt
  have haddr : (UInt64.ofNat (f * 4096)).toNat = f * 4096 := by
    rw [UInt64.toNat_ofNat', Nat.mod_eq_of_lt (by omega)]
  have hmask : UInt64.ofNat (f * 4096) &&& (4096 - 1) = 0 := by
    apply UInt64.toNat_inj.mp
    rw [and_4095, haddr]
    show f * 4096 % 4096 = 0
    omega
  have hmax : pmm.maxPhys = pmm.frameCount * 4096 := hr.core.maxPhys_eq
  have hcount := hr.frameCount
  have halign := hr.aligned
  unfold pmmIsFrameFree
  rw [hr.initialized, hmask, haddr]
  rw [if_neg (by simp), if_neg (by simp; omega)]
  show (!bitmapTest pmm (f * 4096 / 4096)) = _
  rw [show f * 4096 / 4096 = f by omega]

/-- **The boot map is exact up to the top of the address space.** After a successful
`pmm_init_from_map`, the free frames are the usable ones if and only if, for every frame
other than 0 that no properly handled other region overlaps, the regions near the end of the
64-bit range are harmless. -/
theorem pmmInitFromMap_exact_iff {regions : List BootMemRegion} {storage : Bytes}
    {bytes max : UInt64} {pmm : PmmState}
    (h : pmmInitFromMap regions storage bytes max = some pmm) :
    (∀ f, f * 4096 < max.toNat →
      (pmmIsFrameFree pmm (UInt64.ofNat (f * 4096)) = true ↔ UsableFrame regions f)) ↔
    ∀ f, 0 < f → f * 4096 < max.toNat → OtherKept regions f ∨ TopHarmless regions f := by
  have hr := pmmInitFromMap_result h
  have hlt := max.toNat_lt
  have hcount := hr.frameCount
  have halign := hr.aligned
  have hframe : ∀ f, f * 4096 < max.toNat →
      (pmmIsFrameFree pmm (UInt64.ofNat (f * 4096)) = true ↔
        f ≠ 0 ∧ FreedBySome regions f ∧ ¬ReservedBySome regions f) := by
    intro f hf
    rw [pmmIsFrameFree_eq hr hf, Bool.not_eq_true', hr.free_iff f (by omega)]
  have htop : ∀ f, f * 4096 < max.toNat → f * 4096 < topPage := by
    intro f hf
    unfold topPage
    omega
  constructor
  · intro hall f h0 hf
    rw [← frame_exact_iff (htop f hf) (by omega), ← hframe f hf]
    exact hall f hf
  · intro hall f hf
    rw [hframe f hf]
    by_cases h0 : f = 0
    · -- frame 0 is taken back and never usable
      simp [UsableFrame, h0]
    · exact (frame_exact_iff (htop f hf) h0).mpr (hall f (by omega) hf)

/-- A memory map with a reserved region that ends in the last page. -/
def lostReservationMap : List BootMemRegion :=
  [⟨0, 0x10000, bootMemUsable⟩, ⟨0x4000, 0xffffffffffffbfff, 2⟩]

/-- A memory map whose regions end well below the last page. -/
def plainMap : List BootMemRegion := [⟨0, 0x10000, bootMemUsable⟩, ⟨0x4000, 0x1000, 2⟩]

theorem pmmInitFromMap_exact_plain :
    ∃ pmm, pmmInitFromMap plainMap Bytes.zero 2 0x10000 = some pmm ∧
      ((∀ f, f * 4096 < (0x10000 : UInt64).toNat →
        (pmmIsFrameFree pmm (UInt64.ofNat (f * 4096)) = true ↔ UsableFrame plainMap f)) ↔
      ∀ f, 0 < f → f * 4096 < (0x10000 : UInt64).toNat →
        OtherKept plainMap f ∨ TopHarmless plainMap f) := by
  obtain ⟨pmm, h⟩ := Option.isSome_iff_exists.mp
    (by decide : (pmmInitFromMap plainMap Bytes.zero 2 0x10000).isSome = true)
  exact ⟨pmm, h, pmmInitFromMap_exact_iff h⟩

/-- Frame 5 lies in a reserved region and is free after initialisation. -/
theorem pmmInitFromMap_loses_reservation :
    ¬∀ (regions : List BootMemRegion) (storage : Bytes) (bytes max : UInt64) (pmm : PmmState),
      pmmInitFromMap regions storage bytes max = some pmm →
      ∀ f, f * 4096 < max.toNat →
        (pmmIsFrameFree pmm (UInt64.ofNat (f * 4096)) = true ↔ UsableFrame regions f) := by
  intro hall
  obtain ⟨pmm, h⟩ := Option.isSome_iff_exists.mp
    (by decide : (pmmInitFromMap lostReservationMap Bytes.zero 2 0x10000).isSome = true)
  have hfree : pmmIsFrameFree pmm (UInt64.ofNat (5 * 4096)) = true := by
    have hrun : (pmmInitFromMap lostReservationMap Bytes.zero 2 0x10000).map
        (fun p => pmmIsFrameFree p (UInt64.ofNat (5 * 4096))) = some true := by decide
    rw [h] at hrun
    simpa using hrun
  have hus := (hall _ _ _ _ _ h 5 (by decide)).mp hfree
  exact hus.2.2 ⟨0x4000, 0xffffffffffffbfff, 2⟩ (by simp [lostReservationMap]) (by decide)
    (by unfold BootMemRegion.Overlaps; decide)

end Mcsos.Pmm
