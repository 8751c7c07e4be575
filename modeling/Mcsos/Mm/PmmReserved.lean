import Mcsos.Mm.PmmRuns

set_option autoImplicit false

/-! # Reserved frames along a run

One bit stands for "handed out" and for "reserved", and `pmm_free_frame` clears it for either. So
a reserved frame stays out of reach exactly as long as nobody frees it: `SafeFrees` says that the
calls of a run do not, and the first call that does makes a later `pmm_alloc_frame` hand it out.
-/

namespace Mcsos.Pmm

/-! ## What is reserved -/

/-- The range of a `pmm_reserve_range` call, as a region. -/
def rangeRegion (base length : UInt64) : BootMemRegion := ⟨base, length, 0⟩

/-- The region ends below the last page. -/
def BootMemRegion.EndsBelow (r : BootMemRegion) : Prop := r.base.toNat + r.length.toNat ≤ topPage

/-- The range of a call, if it has one, ends below the last page. -/
def PmmOp.EndsBelow : PmmOp → Prop
  | .reserve base length => (rangeRegion base length).EndsBelow
  | _ => True

/-- The call asks for frame `f` to be reserved. -/
def PmmOp.Reserves (f : Nat) : PmmOp → Prop
  | .reserve base length => (rangeRegion base length).Overlaps f
  | _ => False

/-- Frame `f` is not for use: by the map, or since one of the calls. -/
def ReservedFrame (regions : List BootMemRegion) (ops : List PmmOp) (f : Nat) : Prop :=
  (∃ r ∈ regions, r.type ≠ bootMemUsable ∧ r.Overlaps f) ∨
  (¬∃ r ∈ regions, r.type = bootMemUsable ∧ r.Contains f) ∨
  ∃ op ∈ ops, op.Reserves f

theorem ReservedFrame.append {regions : List BootMemRegion} {ops : List PmmOp} {f : Nat}
    (h : ReservedFrame regions ops f) (ops' : List PmmOp) :
    ReservedFrame regions (ops ++ ops') f := by
  rcases h with h | h | ⟨op, hop, hres⟩
  · exact Or.inl h
  · exact Or.inr (Or.inl h)
  · exact Or.inr (Or.inr ⟨op, List.mem_append_left _ hop, hres⟩)

theorem reservedFrame_concat {regions : List BootMemRegion} {ops : List PmmOp} {op : PmmOp}
    {f : Nat} : ReservedFrame regions (ops ++ [op]) f ↔
      ReservedFrame regions ops f ∨ op.Reserves f := by
  constructor
  · rintro (h | h | ⟨op', hop, hres⟩)
    · exact Or.inl (Or.inl h)
    · exact Or.inl (Or.inr (Or.inl h))
    · rcases List.mem_append.mp hop with hop | hop
      · exact Or.inl (Or.inr (Or.inr ⟨op', hop, hres⟩))
      · rw [List.mem_singleton.mp hop] at hres
        exact Or.inr hres
  · rintro (h | h)
    · exact h.append [op]
    · exact Or.inr (Or.inr ⟨op, List.mem_append_right _ List.mem_cons_self, h⟩)

/-- No frame that is not for use is free. -/
def ReservedUsed (regions : List BootMemRegion) (ops : List PmmOp) (pmm : PmmState) : Prop :=
  ∀ f, f < pmm.frameCount → ReservedFrame regions ops f → bitmapTest pmm f = true

/-! ## Which calls keep reserved frames used -/

/-- The call does not free a reserved frame: its address is not that of one. -/
def PmmOp.Safe (regions : List BootMemRegion) (before : List PmmOp) (frameCount : Nat) :
    PmmOp → Prop
  | .free physAddr => ∀ f, 0 < f → f < frameCount → physAddr.toNat = f * pmmPageSize →
      ¬ReservedFrame regions before f
  | _ => True

/-- No call of the run frees a frame that is reserved then. -/
def SafeFrees (regions : List BootMemRegion) (frameCount : Nat) (ops : List PmmOp) : Prop :=
  ∀ pre op post, ops = pre ++ op :: post → op.Safe regions pre frameCount

section Runs

variable {regions : List BootMemRegion} {frameCount : Nat} {ops : List PmmOp}

theorem SafeFrees.left {pre post : List PmmOp} (h : SafeFrees regions frameCount (pre ++ post)) :
    SafeFrees regions frameCount pre := by
  intro p op q hpq
  refine h p op (q ++ post) ?_
  rw [hpq, List.append_assoc, List.cons_append]

theorem safeFrees_concat {op : PmmOp} : SafeFrees regions frameCount (ops ++ [op]) ↔
    SafeFrees regions frameCount ops ∧ op.Safe regions ops frameCount := by
  constructor
  · exact fun h => ⟨h.left, h ops op [] rfl⟩
  · rintro ⟨h, hop⟩ p op' q hpq
    rcases List.eq_nil_or_concat' q with rfl | ⟨q', x, rfl⟩
    · obtain ⟨rfl, hx⟩ := List.append_inj' hpq rfl
      rw [← List.singleton_inj.mp hx]
      exact hop
    · rw [← List.cons_append, ← List.append_assoc] at hpq
      exact h p op' q' (List.append_inj' hpq rfl).1

theorem SafeFrees.allocs (h : SafeFrees regions frameCount ops) (n : Nat) :
    SafeFrees regions frameCount (ops ++ List.replicate n .alloc) := by
  induction n with
  | zero =>
      rw [List.replicate_zero, List.append_nil]
      exact h
  | succ n ih =>
      rw [List.replicate_succ', ← List.append_assoc]
      exact safeFrees_concat.mpr ⟨ih, trivial⟩

theorem pmmRun_concat (pmm : PmmState) (ops : List PmmOp) (op : PmmOp) :
    pmmRun pmm (ops ++ [op]) = op.step (pmmRun pmm ops) := List.foldl_concat ..

/-- A region that ends below the last page is rounded correctly. -/
theorem BootMemRegion.EndsBelow.kept {r : BootMemRegion} (h : r.EndsBelow) :
    ¬r.StartWraps ∧ ¬r.Dropped ∧ ¬r.Lost := by
  have hend : r.base.toNat + r.length.toNat ≤ topPage := h
  have htop : topPage < 2 ^ 64 := by decide
  refine ⟨fun hw => ?_, fun hd => ?_, fun hl => ?_⟩
  · have := hw.2.2.1
    omega
  · have := hd.2
    omega
  · have := hl.2
    omega

/-- Without regions near the top, initialisation leaves just the usable frames free. -/
theorem InitResult.free_iff_usable {max : UInt64} {pmm : PmmState} (h : InitResult regions max pmm)
    (hends : ∀ r ∈ regions, r.EndsBelow) {f : Nat} (hf : f < pmm.frameCount) :
    bitmapTest pmm f = false ↔ UsableFrame regions f := by
  have hfreed : FreedBySome regions f ↔ ∃ r ∈ regions, r.type = bootMemUsable ∧ r.Contains f := by
    apply exists_congr
    intro r
    apply and_congr_right
    intro hr
    obtain ⟨hwraps, hdropped, -⟩ := (hends r hr).kept
    exact and_congr_right fun hu => freesFrame_iff_contains hu hwraps hdropped
  have hreserved : ¬ReservedBySome regions f ↔
      ∀ r ∈ regions, r.type ≠ bootMemUsable → ¬r.Overlaps f := by
    constructor
    · intro hnot r hr ho hov
      exact hnot ⟨r, hr, ho, (reservesFrame_iff_overlaps ho (hends r hr).kept.2.2).mpr hov⟩
    · rintro hnot ⟨r, hr, ho, hres⟩
      exact hnot r hr ho ((reservesFrame_iff_overlaps ho (hends r hr).kept.2.2).mp hres)
  rw [h.free_iff f hf, hfreed, hreserved]
  rfl

theorem InitResult.mem_freeSet {max : UInt64} {pmm : PmmState} (h : InitResult regions max pmm)
    (hends : ∀ r ∈ regions, r.EndsBelow) {f : Nat} :
    f ∈ freeSet pmm ↔ f * pmmPageSize < max.toNat ∧ UsableFrame regions f := by
  have hbelow : f < pmm.frameCount ↔ f * pmmPageSize < max.toNat := by
    have hcount := h.frameCount
    have halign := h.aligned
    unfold pmmPageSize
    omega
  rw [Pmm.mem_freeSet, ← hbelow]
  exact and_congr_right fun hf => h.free_iff_usable hends hf

/-- Initialisation leaves nothing free that is not for use. -/
theorem InitResult.reservedUsed {max : UInt64} {pmm : PmmState} (h : InitResult regions max pmm)
    (hends : ∀ r ∈ regions, r.EndsBelow) : ReservedUsed regions [] pmm := by
  intro f hf hres
  by_contra hbit
  obtain ⟨-, hu, hother⟩ := (h.free_iff_usable hends hf).mp (Bool.eq_false_iff.mpr hbit)
  rcases hres with ⟨r, hr, ho, hov⟩ | hno | ⟨op, hop, -⟩
  · exact hother r hr ho hov
  · exact hno hu
  · cases hop

theorem step_frameCount {s : PmmRun} (hinv : PmmInv s.pmm) (op : PmmOp) :
    (op.step s).pmm.frameCount = s.pmm.frameCount := by
  cases op with
  | alloc =>
      show (pmmAllocFrame s.pmm).2.frameCount = _
      rcases pmmAllocFrame_cases hinv with ⟨-, heq⟩ | ⟨f, -, -, heq⟩
      · rw [heq]
      · rw [heq]
        exact (markFrameUsed_shape f s.pmm).frameCount
  | free physAddr =>
      show (pmmFreeFrame physAddr s.pmm).2.frameCount = _
      rcases pmmFreeFrame_cases hinv physAddr with heq | ⟨f, -, -, -, -, heq⟩
      · rw [heq]
      · rw [heq]
        exact (markFrameFree_shape f s.pmm).frameCount
  | reserve base length =>
      show (pmmReserveRange base length s.pmm).2.frameCount = _
      unfold pmmReserveRange
      split_ifs with hbad
      · rfl
      · exact (marks_markRangeUsed hinv.core base length).shape.frameCount

theorem InitResult.run_frameCount {max : UInt64} {pmm : PmmState}
    (h : InitResult regions max pmm) (ops : List PmmOp) :
    (pmmRun pmm ops).pmm.frameCount = pmm.frameCount := by
  induction ops using List.reverseRecOn with
  | nil => rfl
  | append_singleton ops op ih =>
      rw [pmmRun_concat, step_frameCount (h.runInv ops).inv op]
      exact ih

/-- A call that is safe keeps reserved frames used. -/
theorem ReservedUsed.step {s : PmmRun} (h : ReservedUsed regions ops s.pmm) (hinv : PmmInv s.pmm)
    {op : PmmOp} (hsafe : op.Safe regions ops s.pmm.frameCount) (hends : op.EndsBelow) :
    ReservedUsed regions (ops ++ [op]) (op.step s).pmm := by
  intro g hg hres
  rw [step_frameCount hinv op] at hg
  cases op with
  | alloc =>
      have hbit := h g hg ((reservedFrame_concat.mp hres).resolve_right id)
      show bitmapTest (pmmAllocFrame s.pmm).2 g = true
      rcases pmmAllocFrame_cases hinv with ⟨-, heq⟩ | ⟨f, hf, -, heq⟩
      · rw [heq]
        exact hbit
      · rw [heq]
        show bitmapTest (markFrameUsed f s.pmm) g = true
        rw [markFrameUsed_test (mem_freeSet.mp hf).1, hbit, Bool.or_true]
  | free physAddr =>
      have hres' := (reservedFrame_concat.mp hres).resolve_right id
      show bitmapTest (pmmFreeFrame physAddr s.pmm).2 g = true
      rcases pmmFreeFrame_cases hinv physAddr with heq | ⟨f, h0, hfc, -, haddr, heq⟩
      · rw [heq]
        exact h g hg hres'
      · -- a safe free gives back no reserved frame
        have hne : g ≠ f := by
          rintro rfl
          exact hsafe g h0 hfc haddr hres'
        rw [heq]
        show bitmapTest (markFrameFree f s.pmm) g = true
        rw [markFrameFree_test hfc, h g hg hres', Bool.and_true, decide_eq_false hne]
        rfl
  | reserve base length =>
      -- the reservation marks just the frames that its range meets, as its end does not wrap
      have hiff : ReservesFrame base length g ↔ (rangeRegion base length).Overlaps g :=
        @reservesFrame_iff_overlaps (rangeRegion base length)
          (by decide : (0 : UInt32) ≠ bootMemUsable) (fun hl => absurd hl.2 (not_lt.mpr hends)) g
      show bitmapTest (pmmReserveRange base length s.pmm).2 g = true
      unfold pmmReserveRange
      split_ifs with hbad
      · rcases reservedFrame_concat.mp hres with hres | hov
        · exact h g hg hres
        · have hlen := hbad.resolve_left (by rw [hinv.initialized]; decide)
          exact absurd hlen (hiff.mpr hov).1
      · have hm := marks_markRangeUsed hinv.core base length
        by_cases hR : ReservesFrame base length g
        · exact hm.hit g hg hR
        · show bitmapTest (markRangeUsed base length s.pmm) g = true
          rw [hm.miss g hg hR]
          exact h g hg ((reservedFrame_concat.mp hres).resolve_right fun hov => hR (hiff.mpr hov))

theorem ReservedUsed.run {max : UInt64} {pmm : PmmState} (hi : InitResult regions max pmm)
    (hends : ∀ r ∈ regions, r.EndsBelow) (hops : ∀ op ∈ ops, op.EndsBelow)
    (hsafe : SafeFrees regions pmm.frameCount ops) :
    ReservedUsed regions ops (pmmRun pmm ops).pmm := by
  induction ops using List.reverseRecOn with
  | nil => exact hi.reservedUsed hends
  | append_singleton ops op ih =>
      have hused := ih (fun o ho => hops o (List.mem_append_left _ ho)) hsafe.left
      have hop := (safeFrees_concat.mp hsafe).2
      rw [← hi.run_frameCount ops] at hop
      rw [pmmRun_concat]
      exact hused.step (hi.runInv ops).inv hop
        (hops op (List.mem_append_right _ List.mem_cons_self))

/-! ## What is handed out -/

/-- No `pmm_alloc_frame` of the run returns a frame that is reserved then. -/
def HandsOutNoReserved (regions : List BootMemRegion) (pmm : PmmState) (ops : List PmmOp) : Prop :=
  ∀ pre post f, ops = pre ++ .alloc :: post →
    (pmmAllocFrame (pmmRun pmm pre).pmm).1 = f * pmmPageSize → ¬ReservedFrame regions pre f

theorem SafeFrees.handsOut {max : UInt64} {pmm : PmmState} (hi : InitResult regions max pmm)
    (hends : ∀ r ∈ regions, r.EndsBelow) (hops : ∀ op ∈ ops, op.EndsBelow)
    (hsafe : SafeFrees regions pmm.frameCount ops) : HandsOutNoReserved regions pmm ops := by
  rintro pre post f rfl halloc hres
  have hused := ReservedUsed.run hi hends (fun o ho => hops o (List.mem_append_left _ ho))
    hsafe.left
  rcases pmmAllocFrame_cases (hi.runInv pre).inv with ⟨-, heq⟩ | ⟨g, hg, -, heq⟩
  · rw [heq] at halloc
    exact frame_addr_ne_invalid f halloc.symm
  · rw [heq] at halloc
    have hgf : g = f := Nat.eq_of_mul_eq_mul_right (by decide : 0 < pmmPageSize) halloc
    obtain ⟨hgc, hbit⟩ := mem_freeSet.mp hg
    rw [hused g hgc (by rw [hgf]; exact hres)] at hbit
    cases hbit

/-- A free frame is handed out sooner or later. -/
theorem free_handed_out {n f : Nat} {s : PmmRun} (hinv : PmmInv s.pmm)
    (hcard : (freeSet s.pmm).card = n) (hf : f ∈ freeSet s.pmm) :
    ∃ k, (pmmAllocFrame ((List.replicate k PmmOp.alloc).foldl PmmOp.step s).pmm).1 =
      f * pmmPageSize := by
  induction n generalizing s with
  | zero =>
      rw [Finset.card_eq_zero.mp hcard] at hf
      cases hf
  | succ n ih =>
      rcases pmmAllocFrame_cases hinv with ⟨hempty, -⟩ | ⟨g, hg, hmin, heq⟩
      · rw [hempty] at hf
        cases hf
      · by_cases hgf : g = f
        · refine ⟨0, ?_⟩
          rw [← hgf]
          exact congrArg Prod.fst heq
        · -- the frame below goes first
          have hstep : ((PmmOp.alloc).step s).pmm =
              { markFrameUsed g s.pmm with nextHint := g + 1 } :=
            congrArg Prod.snd heq
          have hset : freeSet ((PmmOp.alloc).step s).pmm = (freeSet s.pmm).erase g := by
            rw [hstep]
            exact freeSet_markFrameUsed (mem_freeSet.mp hg).1
          have hcard' : (freeSet ((PmmOp.alloc).step s).pmm).card = n := by
            rw [hset, Finset.card_erase_of_mem hg, hcard]
            rfl
          have hf' : f ∈ freeSet ((PmmOp.alloc).step s).pmm := by
            rw [hset]
            exact Finset.mem_erase.mpr ⟨Ne.symm hgf, hf⟩
          obtain ⟨k, hk⟩ := ih (hstep ▸ hinv.alloc hg hmin) hcard' hf'
          exact ⟨k + 1, hk⟩

/-- The address of a used frame other than 0 is accepted. -/
theorem pmmFreeFrame_accepts {pmm : PmmState} (hinv : PmmInv pmm) {a : UInt64} {f : Nat}
    (h0 : 0 < f) (hf : f < pmm.frameCount) (ha : a.toNat = f * pmmPageSize)
    (hbit : bitmapTest pmm f = true) : pmmFreeFrame a pmm = (true, markFrameFree f pmm) := by
  have hphys : pmm.maxPhys = pmm.frameCount * 4096 := hinv.core.maxPhys_eq
  have ha' : a.toNat = f * 4096 := ha
  have hmask : a &&& (4096 - 1) = 0 := by
    apply UInt64.toNat_inj.mp
    rw [and_4095, ha']
    exact Nat.mul_mod_left f 4096
  have hbad : ¬(a &&& (4096 - 1) ≠ 0 ∨ a = 0 ∨ pmm.maxPhys ≤ a.toNat) := by
    rintro (hm | hz | hmax)
    · exact hm hmask
    · rw [hz] at ha'
      change 0 = f * 4096 at ha'
      omega
    · omega
  have hdiv : a.toNat / pmmPageSize = f := by
    rw [ha]
    exact Nat.mul_div_cancel f (by decide)
  unfold pmmFreeFrame
  rw [hinv.initialized, if_neg (by decide), if_neg hbad, hdiv]
  dsimp only
  rw [hbit, if_neg (by decide)]

/-- A call that is not safe makes its frame free. -/
theorem free_of_not_safe {s : PmmRun} (hinv : PmmInv s.pmm) {op : PmmOp}
    (h : ¬op.Safe regions ops s.pmm.frameCount) :
    ∃ f, f ∈ freeSet (op.step s).pmm ∧ ReservedFrame regions ops f := by
  cases op with
  | alloc => exact absurd trivial h
  | reserve base length => exact absurd trivial h
  | free physAddr =>
      unfold PmmOp.Safe at h
      push Not at h
      obtain ⟨f, h0, hfc, haddr, hres⟩ := h
      refine ⟨f, ?_, hres⟩
      show f ∈ freeSet (pmmFreeFrame physAddr s.pmm).2
      by_cases hbit : bitmapTest s.pmm f = true
      · rw [pmmFreeFrame_accepts hinv h0 hfc haddr hbit]
        rw [freeSet_markFrameFree hfc]
        exact Finset.mem_insert_self f _
      · -- the frame is free already, and the call is refused
        have hfree : f ∈ freeSet s.pmm := mem_freeSet.mpr ⟨hfc, Bool.eq_false_iff.mpr hbit⟩
        rcases pmmFreeFrame_cases hinv physAddr with heq | ⟨g, -, hgc, -, -, heq⟩
        · rw [heq]
          exact hfree
        · rw [heq, freeSet_markFrameFree hgc]
          exact Finset.mem_insert_of_mem hfree

end Runs

/-- Reserved frames are never handed out, whatever point of the run one stops at to allocate all
that is left, if and only if no call of the run frees a frame that is reserved then. -/
theorem pmmRun_reserved_iff {regions : List BootMemRegion} {storage : Bytes} {bytes max : UInt64}
    {pmm : PmmState} (h : pmmInitFromMap regions storage bytes max = some pmm)
    (hends : ∀ r ∈ regions, r.EndsBelow) {ops : List PmmOp} (hops : ∀ op ∈ ops, op.EndsBelow) :
    (∀ pre post n, ops = pre ++ post →
        HandsOutNoReserved regions pmm (pre ++ List.replicate n .alloc)) ↔
      SafeFrees regions pmm.frameCount ops := by
  have hi := pmmInitFromMap_result h
  constructor
  · rintro hall pre op post rfl
    by_contra hop
    have hinv := hi.runInv pre
    rw [← hi.run_frameCount pre] at hop
    obtain ⟨f, hf, hres⟩ := free_of_not_safe hinv.inv hop
    obtain ⟨k, hk⟩ := free_handed_out (hinv.step op).inv rfl hf
    have hrun : (List.replicate k PmmOp.alloc).foldl PmmOp.step (op.step (pmmRun pmm pre)) =
        pmmRun pmm (pre ++ [op] ++ List.replicate k .alloc) := by
      unfold pmmRun
      rw [List.foldl_append, List.foldl_concat]
    rw [hrun] at hk
    refine hall (pre ++ [op]) post (k + 1) (by rw [List.append_assoc]; rfl) _ [] f ?_ hk
      ((hres.append [op]).append _)
    rw [List.replicate_succ', List.append_assoc (pre ++ [op])]
  · rintro hsafe pre post n rfl
    apply (hsafe.left.allocs n).handsOut hi hends
    intro op hop
    rcases List.mem_append.mp hop with hop | hop
    · exact hops op (List.mem_append_left _ hop)
    · rw [List.eq_of_mem_replicate hop]
      trivial

/-- Calls that free what was handed out. -/
def goodCalls : List PmmOp := [.alloc, .free 0x1000, .reserve 0x5000 1, .alloc]

theorem goodCalls_safe (n : Nat) : SafeFrees plainMap n goodCalls := by
  have hnil : SafeFrees plainMap n [] := fun pre op post h =>
    absurd h.symm (List.append_ne_nil_of_right_ne_nil pre (List.cons_ne_nil op post))
  have hfree : (PmmOp.free 0x1000).Safe plainMap [.alloc] n := by
    intro f _ _ hf hres
    obtain rfl : f = 1 := by
      change 4096 = f * 4096 at hf
      omega
    rcases hres with ⟨r, hr, ho, hov⟩ | hno | ⟨op, hop, hres⟩
    · rcases List.mem_pair.mp hr with rfl | rfl
      · exact ho rfl
      · exact absurd hov.2.1 (by decide)
    · exact hno ⟨_, List.mem_cons_self, rfl, by decide, by decide⟩
    · rw [List.mem_singleton.mp hop] at hres
      exact hres
  have h1 : SafeFrees plainMap n [.alloc] := hnil.allocs 1
  have h2 : SafeFrees plainMap n [.alloc, .free 0x1000] := safeFrees_concat.mpr ⟨h1, hfree⟩
  have hres : (PmmOp.reserve 0x5000 1).Safe plainMap [.alloc, .free 0x1000] n := trivial
  exact (safeFrees_concat.mpr ⟨h2, hres⟩).allocs 1

theorem plainMap_endsBelow : ∀ r ∈ plainMap, r.EndsBelow := by
  intro r hr
  unfold BootMemRegion.EndsBelow
  rcases List.mem_pair.mp hr with rfl | rfl <;> decide

theorem pmmRun_reserved_plain :
    ∃ pmm, pmmInitFromMap plainMap Bytes.zero 2 0x10000 = some pmm ∧
      HandsOutNoReserved plainMap pmm goodCalls := by
  obtain ⟨pmm, h⟩ := Option.isSome_iff_exists.mp
    (by decide : (pmmInitFromMap plainMap Bytes.zero 2 0x10000).isSome = true)
  have hops : ∀ op ∈ goodCalls, op.EndsBelow := by
    intro op hop
    unfold goodCalls at hop
    rcases List.mem_cons.mp hop with rfl | hop
    · trivial
    · rcases List.mem_cons.mp hop with rfl | hop
      · trivial
      · rcases List.mem_pair.mp hop with rfl | rfl
        · show (rangeRegion 0x5000 1).base.toNat + (rangeRegion 0x5000 1).length.toNat ≤ topPage
          decide
        · trivial
  exact ⟨pmm, h, (pmmRun_reserved_iff h plainMap_endsBelow hops).mpr (goodCalls_safe _) goodCalls [] 0
    (List.append_nil goodCalls).symm⟩

/-- Frame 4 is reserved by the map, freed by a call and handed out. -/
theorem pmmAllocFrame_hands_out_reserved :
    ¬∀ (regions : List BootMemRegion) (storage : Bytes) (bytes max : UInt64) (pmm : PmmState)
        (ops : List PmmOp), pmmInitFromMap regions storage bytes max = some pmm →
      (∀ r ∈ regions, r.EndsBelow) → (∀ op ∈ ops, op.EndsBelow) →
      HandsOutNoReserved regions pmm ops := by
  intro hall
  obtain ⟨pmm, h⟩ := Option.isSome_iff_exists.mp
    (by decide : (pmmInitFromMap plainMap Bytes.zero 2 0x10000).isSome = true)
  have hrun : (pmmInitFromMap plainMap Bytes.zero 2 0x10000).map (fun p =>
      (pmmAllocFrame (pmmRun p [.free 0x4000, .alloc, .alloc, .alloc]).pmm).1) =
      some (4 * pmmPageSize) := by decide
  rw [h] at hrun
  have halloc := Option.some.inj hrun
  have hops : ∀ op ∈ [PmmOp.free 0x4000, .alloc, .alloc, .alloc, .alloc], op.EndsBelow := by
    intro op hop
    rcases List.mem_cons.mp hop with rfl | hop
    · trivial
    · rw [List.eq_of_mem_replicate (show op ∈ List.replicate 4 .alloc from hop)]
      trivial
  exact hall _ _ _ _ _ _ h plainMap_endsBelow hops [.free 0x4000, .alloc, .alloc, .alloc] [] 4 rfl
    halloc
    (Or.inl ⟨⟨0x4000, 0x1000, 2⟩, List.mem_cons_of_mem _ List.mem_cons_self, by decide, by decide,
      by decide, by decide⟩)

end Mcsos.Pmm
