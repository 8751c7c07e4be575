import Mcsos.Mm.KernelSpace
import Mcsos.Mm.VmmLater

set_option autoImplicit false

/-! # Page tables and frames in one kernel

The virtual memory takes its tables from the frame allocator, and the rest of the kernel takes
frames from it too, writes to them, and gives them back. Along every such run each frame is a table,
or held by somebody, or free, or one that the boot map has not given out; a table is no one's
to write to, so the translations stay what the calls of the virtual memory have made them.
-/

namespace Mcsos.KernelMemory

open Pmm Vmm

/-! ## Runs -/

/-- The kernel, the frames that others than the virtual memory hold, and the calls of the virtual
memory, the latest first. -/
structure KernelWorld where
  vm : KernelVm
  held : List UInt64
  hist : History

/-- What can happen next. Who holds a frame may write to it and give it back. -/
inductive KernelStep (root : UInt64) : KernelWorld → KernelWorld → Prop
  | vmm (w : KernelWorld) (op : VmmOp) : KernelStep root w
      ⟨(vmmCall root w.vm op).2, w.held, (op, (vmmCall root w.vm op).1) :: w.hist⟩
  | alloc (w : KernelWorld) (h : UInt64.ofNat (pmmAllocFrame w.vm.pmm).1 ≠ invalidPhys) :
      KernelStep root w ⟨{ w.vm with pmm := (pmmAllocFrame w.vm.pmm).2 },
        UInt64.ofNat (pmmAllocFrame w.vm.pmm).1 :: w.held, w.hist⟩
  | allocNone (w : KernelWorld) (h : UInt64.ofNat (pmmAllocFrame w.vm.pmm).1 = invalidPhys) :
      KernelStep root w ⟨{ w.vm with pmm := (pmmAllocFrame w.vm.pmm).2 }, w.held, w.hist⟩
  | free (w : KernelWorld) (frame : UInt64) (h : frame ∈ w.held) : KernelStep root w
      ⟨{ w.vm with pmm := (pmmFreeFrame frame w.vm.pmm).2 }, w.held.erase frame, w.hist⟩
  | write (w : KernelWorld) (frame : UInt64) (content : Nat → UInt64) (h : frame ∈ w.held) :
      KernelStep root w ⟨⟨w.vm.pmm,
        Function.update w.vm.mem (kernelPhysToVirt staticHhdmOffset frame) content⟩, w.held, w.hist⟩

/-- The runs of the kernel. -/
abbrev KernelRun (root : UInt64) : KernelWorld → KernelWorld → Prop :=
  Relation.ReflTransGen (KernelStep root)

/-- The entries of a page in memory, little-endian. -/
def pageEntries (mem : Klib.Mem) (page : UInt64) (i : Nat) : UInt64 :=
  (List.range 8).foldr
    (fun j value => value <<< 8 ||| (mem (Klib.byteAt page (8 * i + j))).toUInt64) 0

/-- The kernel after its memory bring-up. -/
def afterBringUp (s : KernelState) : KernelWorld := ⟨⟨s.pmm, pageEntries s.mem⟩, [], []⟩

/-- The root is the first frame that `boot` hands out, and zeroed. -/
structure RootReady (boot : PmmState) (root : UInt64) (w : KernelWorld) : Prop where
  pmm : w.vm.pmm = (kernelVmmAlloc boot).2
  answer : UInt64.ofNat (kernelVmmAlloc boot).1 = root
  valid : root ≠ invalidPhys
  zero : ∀ t, tablePointer root = some t → ∀ i, i < entriesPerTable → w.vm.mem t i = 0
  held : w.held = []
  hist : w.hist = []

/-- The answer of `vmm_query_page` with the kernel space. -/
def kernelQuery (root : UInt64) (s : KernelVm) (vaddr : UInt64) : Except VmmErr VmmMapping :=
  queryPage (spaceOver root s) vaddr ⟨s.mem, 0, []⟩

/-- The frame of the table with this name, as the links in memory have it. -/
def tableFrame (root : UInt64) (s : KernelVm) (p : Name) : Option UInt64 :=
  frameAt (spaceOver root s) ⟨s.mem, 0, []⟩ p

/-- Where all frames are. `boot` is the frame allocator as the boot map has it. -/
structure FramesApart (root : UInt64) (boot : PmmState) (w : KernelWorld) : Prop where
  used : ∀ g, g < boot.frameCount → (bitmapTest w.vm.pmm g = true ↔
    bitmapTest boot g = true ∨ (∃ p, tableFrame root w.vm p = some (frameAddr g)) ∨
      frameAddr g ∈ w.held)
  table_free : ∀ p f, tableFrame root w.vm p = some f →
    ∃ g, g < boot.frameCount ∧ f = frameAddr g ∧ bitmapTest boot g = false
  held_free : ∀ f, f ∈ w.held →
    ∃ g, g < boot.frameCount ∧ f = frameAddr g ∧ bitmapTest boot g = false
  apart : ∀ p f, tableFrame root w.vm p = some f → f ∉ w.held
  linked_once : ∀ p q f, tableFrame root w.vm p = some f → tableFrame root w.vm q = some f → p = q
  held_once : w.held.Nodup

/-! ## The invariant -/

/-- The answers of `alloc_frame` in the calls so far are `past`; `before` has been given back. The
tables are the tree `node`, with the mappings `leaf`. -/
structure KernelInv (root : UInt64) (boot : PmmState) (past : Nat → UInt64 × (Nat → UInt64))
    (k : Nat) (before : List UInt64) (node : Name → Option UInt64)
    (leaf : Name → Option (UInt64 × UInt64)) (held : List UInt64) (s : KernelVm) : Prop where
  boot_zero : bitmapTest boot 0 = true
  small : boot.frameCount * 4096 ≤ 2 ^ 52
  pmm : PmmInv s.pmm
  count : s.pmm.frameCount = boot.frameCount
  rep : Rep (withPast past k (spaceOver root s)) ⟨s.mem, k, before⟩ node leaf
  owned : Owned (withPast past k (spaceOver root s)) ⟨s.mem, k, before⟩ node
  past_frame : ∀ n, n < k → (past n).1 ≠ invalidPhys →
    ∃ g, g < boot.frameCount ∧ (past n).1 = frameAddr g
  past_fresh : ∀ n, n < k → (past n).1 ≠ invalidPhys → tablePointer (past n).1 ≠ none →
    (past n).1 ≠ root ∧ ∀ m, m < n → (past m).1 ≠ (past n).1
  table : ∀ p f, node p = some f →
    ∃ g, g < boot.frameCount ∧ f = frameAddr g ∧ bitmapTest boot g = false
  held_frame : ∀ f, f ∈ held →
    ∃ g, g < boot.frameCount ∧ f = frameAddr g ∧ bitmapTest boot g = false
  apart : ∀ p f, node p = some f → f ∉ held
  nodup : held.Nodup
  used : ∀ g, g < boot.frameCount → (bitmapTest s.pmm g = true ↔
    bitmapTest boot g = true ∨ (∃ p, node p = some (frameAddr g)) ∨ frameAddr g ∈ held)

namespace KernelInv

variable {root : UInt64} {boot : PmmState} {past : Nat → UInt64 × (Nat → UInt64)} {k : Nat}
variable {before : List UInt64} {node : Name → Option UInt64}
variable {leaf : Name → Option (UInt64 × UInt64)} {held : List UInt64} {s : KernelVm}

theorem frame_lt (h : KernelInv root boot past k before node leaf held s) {g : Nat}
    (hg : g < boot.frameCount) : g * 4096 < 2 ^ 64 := by
  have hsmall := h.small
  omega

theorem frame_pos (h : KernelInv root boot past k before node leaf held s) {g : Nat}
    (hg : bitmapTest boot g = false) : 0 < g := by
  rcases Nat.eq_zero_or_pos g with rfl | hpos
  · rw [h.boot_zero] at hg
    cases hg
  · exact hpos

/-- A free frame is nobody's, and no table. -/
theorem free_frame (h : KernelInv root boot past k before node leaf held s) {g : Nat}
    (hg : g < boot.frameCount) (hfree : bitmapTest s.pmm g = false) :
    bitmapTest boot g = false ∧ (∀ p, node p ≠ some (frameAddr g)) ∧ frameAddr g ∉ held := by
  have hnot : ¬(bitmapTest boot g = true ∨ (∃ p, node p = some (frameAddr g)) ∨
      frameAddr g ∈ held) := by
    rw [← h.used g hg, hfree]
    exact Bool.false_ne_true
  rw [not_or, not_or, not_exists, Bool.not_eq_true] at hnot
  exact hnot

/-- The new answers of a call are free frames. -/
theorem answer_free (h : KernelInv root boot past k before node leaf held s) {n : Nat}
    (hvalid : allocAnswer s.pmm n ≠ invalidPhys) :
    ∃ g, g < boot.frameCount ∧ allocAnswer s.pmm n = frameAddr g ∧
      bitmapTest s.pmm g = false := by
  obtain ⟨g, hg, hanswer, hfree, -⟩ := allocAnswer_valid h.pmm hvalid
  exact ⟨g, h.count ▸ hg, hanswer, hfree 0 (Nat.zero_le n)⟩

/-- A frame that has been taken for a table is one. -/
theorem past_table (h : KernelInv root boot past k before node leaf held s) {n : Nat} (hn : n < k)
    (hvalid : (past n).1 ≠ invalidPhys) (hvirt : tablePointer (past n).1 ≠ none) :
    ∃ p, p ≠ [] ∧ node p = some (past n).1 := by
  refine h.owned.linked _ (mem_answers.mpr ⟨n, hn, ?_⟩) hvalid hvirt
  rw [withPast_old hn]

theorem table_past (h : KernelInv root boot past k before node leaf held s) {p : Name}
    {f : UInt64} (hp : node p = some f) (hne : p ≠ []) :
    ∃ n, n < k ∧ (past n).1 = f ∧ f ≠ invalidPhys := by
  obtain ⟨n, hn, hf, hvalid⟩ := h.rep.frame p f hne hp
  rw [withPast_old hn] at hf
  exact ⟨n, hn, hf, hvalid⟩

/-- The frame allocator keeps to what the virtual memory relies on. -/
theorem lawful (h : KernelInv root boot past k before node leaf held s) :
    Lawful (withPast past k (spaceOver root s)) := by
  have hanswer : ∀ n, ((withPast past k (spaceOver root s)).allocFrame (k + n)).1 =
      allocAnswer s.pmm n := fun n => by rw [withPast_new]; rfl
  have hsmall := h.small
  refine ⟨?_, fun n hvalid => ?_, fun n table hvalid hvirt => ?_, fun f g table _ _ => ?_⟩
  · obtain ⟨g, hg, hroot, -⟩ := h.table [] root h.rep.root
    show isAligned4k root = true
    rw [hroot]
    exact frameAddr_aligned (h.frame_lt hg)
  · have hframe : ∃ g, g < boot.frameCount ∧
        ((withPast past k (spaceOver root s)).allocFrame n).1 = frameAddr g := by
      rcases Nat.lt_or_ge n k with hn | hn
      · rw [withPast_old hn] at hvalid ⊢
        exact h.past_frame n hn hvalid
      · obtain ⟨j, rfl⟩ := Nat.exists_eq_add_of_le hn
        rw [hanswer] at hvalid ⊢
        obtain ⟨g, hg, heq, -⟩ := h.answer_free hvalid
        exact ⟨g, hg, heq⟩
    obtain ⟨g, hg, heq⟩ := hframe
    rw [heq]
    refine ⟨frameAddr_aligned (h.frame_lt hg), ?_⟩
    rw [frameAddr_toNat (h.frame_lt hg)]
    omega
  · rcases Nat.lt_or_ge n k with hn | hn
    · rw [withPast_old hn] at hvalid hvirt ⊢
      have hne : tablePointer (past n).1 ≠ none := by
        rw [show tablePointer (past n).1 = some table from hvirt]
        exact Option.some_ne_none table
      obtain ⟨hroot, hold⟩ := h.past_fresh n hn hvalid hne
      refine ⟨hroot, fun m hm => ?_⟩
      rw [withPast_old (hm.trans hn)]
      exact hold m hm
    · obtain ⟨j, rfl⟩ := Nat.exists_eq_add_of_le hn
      rw [hanswer] at hvalid hvirt ⊢
      obtain ⟨g, hg, heq, hfree⟩ := h.answer_free hvalid
      obtain ⟨-, hnode, -⟩ := h.free_frame hg hfree
      refine ⟨fun hroot => hnode [] ?_, fun m hm hsame => ?_⟩
      · rw [← heq, hroot]
        exact h.rep.root
      · rcases Nat.lt_or_ge m k with hmk | hmk
        · rw [withPast_old hmk] at hsame
          have hne : tablePointer (past m).1 ≠ none := by
            rw [hsame, show tablePointer (allocAnswer s.pmm j) = some table from hvirt]
            exact Option.some_ne_none table
          obtain ⟨p, -, hp⟩ := h.past_table hmk (hsame ▸ hvalid) hne
          rw [hsame, heq] at hp
          exact hnode p hp
        · obtain ⟨i, rfl⟩ := Nat.exists_eq_add_of_le hmk
          rw [hanswer] at hsame
          exact allocAnswer_ne h.pmm (by omega) hvalid hsame
  · exact tablePointer_inj

/-! ## One step -/

/-- The tables stay as they are while others use the frame allocator and their own frames. -/
theorem outside (h : KernelInv root boot past k before node leaf held s) {s' : KernelVm}
    {held' : List UInt64} (hpmm : PmmInv s'.pmm) (hcount : s'.pmm.frameCount = boot.frameCount)
    (hmem : ∀ p f t i, node p = some f → tablePointer f = some t → i < 512 →
      s'.mem t i = s.mem t i)
    (hframe : ∀ f, f ∈ held' →
      ∃ g, g < boot.frameCount ∧ f = frameAddr g ∧ bitmapTest boot g = false)
    (hapart : ∀ p f, node p = some f → f ∉ held') (hnodup : held'.Nodup)
    (hused : ∀ g, g < boot.frameCount → (bitmapTest s'.pmm g = true ↔
      bitmapTest boot g = true ∨ (∃ p, node p = some (frameAddr g)) ∨ frameAddr g ∈ held')) :
    KernelInv root boot past k before node leaf held' s' := by
  have hanswers : ∀ n, n < k → ((withPast past k (spaceOver root s')).allocFrame n).1 =
      ((withPast past k (spaceOver root s)).allocFrame n).1 := fun n hn => by
    rw [withPast_old hn, withPast_old hn]
  refine ⟨h.boot_zero, h.small, hpmm, hcount, h.rep.congr rfl rfl hanswers rfl hmem, ⟨?_, ?_⟩,
    h.past_frame, h.past_fresh, h.table, hframe, hapart, hnodup, hused⟩
  · rw [answers_congr hanswers]
    exact h.owned.linked
  · rw [answers_congr hanswers]
    exact h.owned.freed

theorem alloc (h : KernelInv root boot past k before node leaf held s)
    (hvalid : UInt64.ofNat (pmmAllocFrame s.pmm).1 ≠ invalidPhys) :
    KernelInv root boot past k before node leaf (UInt64.ofNat (pmmAllocFrame s.pmm).1 :: held)
      { s with pmm := (pmmAllocFrame s.pmm).2 } := by
  rcases kernelVmmAlloc_cases h.pmm with ⟨-, hinvalid, -⟩ | ⟨f, hf, hanswer, hinv, hcount, hbits⟩
  · exact absurd hinvalid hvalid
  unfold kernelVmmAlloc at hanswer hinv hcount hbits
  obtain ⟨hfc, hfree⟩ := mem_freeSet.mp hf
  rw [h.count] at hfc
  obtain ⟨hboot, hnode, hheld⟩ := h.free_frame hfc hfree
  rw [hanswer]
  refine h.outside hinv (hcount.trans h.count) (fun _ _ _ _ _ _ _ => rfl) (fun a ha => ?_)
    (fun p a hp ha => ?_) (List.nodup_cons.mpr ⟨hheld, h.nodup⟩) fun g hg => ?_
  · rcases List.mem_cons.mp ha with rfl | ha
    · exact ⟨f, hfc, rfl, hboot⟩
    · exact h.held_frame a ha
  · rcases List.mem_cons.mp ha with rfl | ha
    · exact hnode p hp
    · exact h.apart p a hp ha
  · have hsame : frameAddr g = frameAddr f ↔ g = f :=
      ⟨frameAddr_inj (h.frame_lt hg) (h.frame_lt hfc), fun heq => by rw [heq]⟩
    rw [hbits, Bool.or_eq_true, decide_eq_true_iff, h.used g hg, List.mem_cons, hsame,
      or_left_comm]
    exact or_congr_right or_left_comm

theorem allocNone (h : KernelInv root boot past k before node leaf held s)
    (hinvalid : UInt64.ofNat (pmmAllocFrame s.pmm).1 = invalidPhys) :
    KernelInv root boot past k before node leaf held { s with pmm := (pmmAllocFrame s.pmm).2 } := by
  rcases kernelVmmAlloc_cases h.pmm with ⟨-, -, hsame⟩ | ⟨f, hf, hanswer, -⟩
  · unfold kernelVmmAlloc at hsame
    rw [hsame]
    exact h
  · have hfc := (mem_freeSet.mp hf).1
    rw [h.count] at hfc
    exact absurd (hanswer.symm.trans hinvalid) (frameAddr_ne_invalid (h.frame_lt hfc))

theorem free (h : KernelInv root boot past k before node leaf held s) {frame : UInt64}
    (hmem : frame ∈ held) :
    KernelInv root boot past k before node leaf (held.erase frame)
      { s with pmm := (pmmFreeFrame frame s.pmm).2 } := by
  obtain ⟨f, hf, rfl, hboot⟩ := h.held_frame frame hmem
  obtain ⟨hinv, hcount, hbits⟩ :=
    kernelVmmFree_spec h.pmm (h.frame_pos hboot) (h.count.symm ▸ hf)
  unfold kernelVmmFree at hinv hcount hbits
  refine h.outside hinv (hcount.trans h.count) (fun _ _ _ _ _ _ _ => rfl)
    (fun a ha => h.held_frame a (List.mem_of_mem_erase ha))
    (fun p a hp ha => h.apart p a hp (List.mem_of_mem_erase ha)) (h.nodup.erase _) fun g hg => ?_
  rw [hbits, Bool.and_eq_true, h.used g hg, h.nodup.mem_erase_iff]
  have hsame : frameAddr g = frameAddr f ↔ g = f :=
    ⟨frameAddr_inj (h.frame_lt hg) (h.frame_lt hf), fun heq => by rw [heq]⟩
  by_cases hgf : g = f
  · -- the frame that is given back is neither a table nor kept by the boot map
    subst hgf
    have hnode : ¬∃ p, node p = some (frameAddr g) := fun ⟨p, hp⟩ => h.apart p _ hp hmem
    simp [hboot, hnode]
  · simp [hgf, hsame]

theorem write (h : KernelInv root boot past k before node leaf held s) {frame : UInt64}
    (hmem : frame ∈ held) (content : Nat → UInt64) :
    KernelInv root boot past k before node leaf held
      ⟨s.pmm, Function.update s.mem (kernelPhysToVirt staticHhdmOffset frame) content⟩ := by
  refine h.outside h.pmm h.count (fun p f t i hp ht _ => ?_) h.held_frame h.apart h.nodup h.used
  have hne : t ≠ kernelPhysToVirt staticHhdmOffset frame := by
    rintro rfl
    have heq := tablePointer_eq ht
    unfold kernelPhysToVirt at heq
    have hframe : frame = f := by grind
    exact h.apart p f hp (hframe ▸ hmem)
  show Function.update s.mem _ content t i = _
  rw [Function.update_of_ne hne]

/-! ## A call of the virtual memory -/

section Call

variable {t : VmmState UInt64} {node' : Name → Option UInt64}
variable {leaf' : Name → Option (UInt64 × UInt64)}

theorem tablePointer_ne_none (hrep : Rep (withPast past k (spaceOver root s)) t node' leaf')
    {p : Name} {f : UInt64} (hp : node' p = some f) : tablePointer f ≠ none := by
  obtain ⟨u, hu⟩ := hrep.virt p f hp
  rw [show tablePointer f = some u from hu]
  exact Option.some_ne_none u

/-- What the call gives back is what `kernel_phys_to_virt` rejects of its own answers. -/
theorem given_back (h : KernelInv root boot past k before node leaf held s)
    (howned : Owned (withPast past k (spaceOver root s)) (t.later k before) node') :
    t.freed = (answers (spaceOver root s) t.calls).filter (rejects (spaceOver root s)) := by
  have hanswers : answers (withPast past k (spaceOver root s)) (k + t.calls) =
      answers (spaceOver root s) t.calls ++ answers (withPast past k (spaceOver root s)) k :=
    answers_withPast t.calls
  have hall : t.freed ++ before = (answers (withPast past k (spaceOver root s))
      (k + t.calls)).filter (rejects (spaceOver root s)) := howned.freed rfl
  have hbefore : before = (answers (withPast past k (spaceOver root s)) k).filter
      (rejects (spaceOver root s)) := h.owned.freed rfl
  rw [hanswers, List.filter_append, ← hbefore] at hall
  exact List.append_cancel_right hall

/-- Each table was one before, or is a new answer. -/
theorem table_cases (h : KernelInv root boot past k before node leaf held s)
    (hrep : Rep (withPast past k (spaceOver root s)) (t.later k before) node' leaf') {p : Name}
    {f : UInt64} (hp : node' p = some f) :
    (∃ q, node q = some f) ∨
      ∃ n, n < t.calls ∧ allocAnswer s.pmm n = f ∧ f ≠ invalidPhys ∧ tablePointer f ≠ none := by
  have hvirt := tablePointer_ne_none hrep hp
  by_cases hnil : p = []
  · rw [hnil, hrep.root] at hp
    exact Or.inl ⟨[], h.rep.root.trans hp⟩
  · obtain ⟨n, hn, hf, hvalid⟩ := hrep.frame p f hnil hp
    rcases Nat.lt_or_ge n k with hnk | hnk
    · rw [withPast_old hnk] at hf
      obtain ⟨q, -, hq⟩ := h.past_table hnk (hf ▸ hvalid) (hf ▸ hvirt)
      exact Or.inl ⟨q, hf ▸ hq⟩
    · obtain ⟨j, rfl⟩ := Nat.exists_eq_add_of_le hnk
      rw [withPast_new] at hf
      have hj : k + j < k + t.calls := hn
      exact Or.inr ⟨j, by omega, hf, hvalid, hvirt⟩

/-- A new table was a free frame. -/
theorem table_free (h : KernelInv root boot past k before node leaf held s)
    (hrep : Rep (withPast past k (spaceOver root s)) (t.later k before) node' leaf') {p : Name}
    {f : UInt64} (hp : node' p = some f) :
    (∃ q, node q = some f) ∨
      ∃ g, g < boot.frameCount ∧ f = frameAddr g ∧ bitmapTest s.pmm g = false := by
  refine (h.table_cases hrep hp).imp id ?_
  rintro ⟨n, -, rfl, hvalid, -⟩
  exact h.answer_free hvalid

/-- No table is lost. -/
theorem table_kept (h : KernelInv root boot past k before node leaf held s)
    (hrep : Rep (withPast past k (spaceOver root s)) (t.later k before) node' leaf')
    (howned : Owned (withPast past k (spaceOver root s)) (t.later k before) node') {q : Name}
    {f : UInt64} (hq : node q = some f) : ∃ p, node' p = some f := by
  by_cases hnil : q = []
  · rw [hnil, h.rep.root] at hq
    exact ⟨[], hrep.root.trans hq⟩
  · obtain ⟨n, hn, hf, hvalid⟩ := h.table_past hq hnil
    have hmem : f ∈ answers (withPast past k (spaceOver root s)) (t.later k before).calls :=
      mem_answers.mpr ⟨n, Nat.lt_add_right t.calls hn, by rw [withPast_old hn, hf]⟩
    obtain ⟨p, -, hp⟩ := howned.linked f hmem hvalid (tablePointer_ne_none h.rep hq)
    exact ⟨p, hp⟩

/-- A frame that the call takes and does not give back is a table. -/
theorem answer_table (h : KernelInv root boot past k before node leaf held s)
    (howned : Owned (withPast past k (spaceOver root s)) (t.later k before) node') {n g : Nat}
    (hn : n < t.calls) (hg : g < boot.frameCount) (hanswer : allocAnswer s.pmm n = frameAddr g)
    (hvirt : tablePointer (frameAddr g) ≠ none) : ∃ p, node' p = some (frameAddr g) := by
  have hmem : frameAddr g ∈
      answers (withPast past k (spaceOver root s)) (t.later k before).calls :=
    mem_answers.mpr ⟨k + n, Nat.add_lt_add_left hn k, by rw [withPast_new]; exact hanswer⟩
  obtain ⟨p, -, hp⟩ :=
    howned.linked _ hmem (frameAddr_ne_invalid (h.frame_lt hg)) hvirt
  exact ⟨p, hp⟩

/-- After the call its answers belong to the past. -/
theorem finish (h : KernelInv root boot past k before node leaf held s)
    (hrep : Rep (withPast past k (spaceOver root s)) (t.later k before) node' leaf')
    (howned : Owned (withPast past k (spaceOver root s)) (t.later k before) node') :
    KernelInv root boot (withPast past k (spaceOver root s)).allocFrame (k + t.calls)
      (t.freed ++ before) node' leaf' held (finish s t) := by
  obtain ⟨hinv, hcount, hbits⟩ := finish_spec h.pmm (h.given_back howned)
  have hpast : ∀ n, n < k + t.calls →
      ((withPast (withPast past k (spaceOver root s)).allocFrame (k + t.calls)
        (spaceOver root (KernelMemory.finish s t))).allocFrame n).1 =
      ((withPast past k (spaceOver root s)).allocFrame n).1 := fun n hn =>
    congrArg Prod.fst (withPast_old hn)
  refine ⟨h.boot_zero, h.small, hinv, hcount.trans h.count,
    hrep.congr rfl rfl hpast rfl (fun _ _ _ _ _ _ _ => rfl), ⟨?_, ?_⟩, fun n hn hvalid => ?_,
    fun n hn hvalid hvirt => ?_, fun p f hp => ?_, h.held_frame, fun p f hp => ?_, h.nodup,
    fun g hg => ?_⟩
  · rw [answers_congr hpast]
    exact howned.linked
  · rw [answers_congr hpast]
    exact howned.freed
  · rcases Nat.lt_or_ge n k with hnk | hnk
    · rw [withPast_old hnk] at hvalid ⊢
      exact h.past_frame n hnk hvalid
    · obtain ⟨j, rfl⟩ := Nat.exists_eq_add_of_le hnk
      rw [withPast_new] at hvalid ⊢
      obtain ⟨g, hg, heq, -⟩ := h.answer_free hvalid
      exact ⟨g, hg, heq⟩
  · obtain ⟨u, hu⟩ := Option.ne_none_iff_exists'.mp hvirt
    exact h.lawful.alloc_fresh n u hvalid hu
  · rcases h.table_free hrep hp with ⟨q, hq⟩ | ⟨g, hg, heq, hfree⟩
    · exact h.table q f hq
    · exact ⟨g, hg, heq, (h.free_frame hg hfree).1⟩
  · rcases h.table_free hrep hp with ⟨q, hq⟩ | ⟨g, hg, rfl, hfree⟩
    · exact h.apart q f hq
    · exact (h.free_frame hg hfree).2.2
  · rw [hbits g (h.count.symm ▸ hg), h.used g hg]
    constructor
    · rintro ((hboot | ⟨q, hq⟩ | hheld) | ⟨n, hn, hanswer, hvirt⟩)
      · exact Or.inl hboot
      · exact Or.inr (Or.inl (h.table_kept hrep howned hq))
      · exact Or.inr (Or.inr hheld)
      · exact Or.inr (Or.inl (h.answer_table howned hn hg hanswer hvirt))
    · rintro (hboot | ⟨p, hp⟩ | hheld)
      · exact Or.inl (Or.inl hboot)
      · rcases h.table_cases hrep hp with hold | ⟨n, hn, hanswer, -, hvirt⟩
        · exact Or.inl (Or.inr (Or.inl hold))
        · exact Or.inr ⟨n, hn, hanswer, hvirt⟩
      · exact Or.inl (Or.inr (Or.inr hheld))

end Call

/-- A call of the virtual memory: the tree goes on to hold what the history says. -/
theorem call (h : KernelInv root boot past k before node leaf held s) {hist : History}
    (hleaf : ∀ v, GoodAddr v → leaf (entryName v) = latestMap hist v) (op : VmmOp) :
    ∃ past' k' before' node' leaf',
      KernelInv root boot past' k' before' node' leaf' held (vmmCall root s op).2 ∧
      ∀ v, GoodAddr v →
        leaf' (entryName v) = latestMap ((op, (vmmCall root s op).1) :: hist) v := by
  obtain ⟨node', leaf', hrep, howned, hleaf'⟩ := h.rep.step h.lawful hleaf op
  have hlater : vmmStep (withPast past k (spaceOver root s)) ⟨s.mem, k, before⟩ op = _ :=
    vmmStep_later (s := ⟨s.mem, 0, []⟩) op
  rw [hlater] at hrep howned hleaf'
  exact ⟨_, _, _, node', leaf', h.finish hrep (howned h.owned), hleaf'⟩

end KernelInv

/-! ## Runs -/

section Runs

variable {root : UInt64} {boot : PmmState} {w w' : KernelWorld}

/-- The invariant, with a tree that holds what the history says. -/
def WorldInv (root : UInt64) (boot : PmmState) (w : KernelWorld) : Prop :=
  ∃ past k before node leaf, KernelInv root boot past k before node leaf w.held w.vm ∧
    ∀ v, GoodAddr v → leaf (entryName v) = latestMap w.hist v

theorem WorldInv.step (h : WorldInv root boot w) (hstep : KernelStep root w w') :
    WorldInv root boot w' := by
  obtain ⟨past, k, before, node, leaf, hinv, hleaf⟩ := h
  cases hstep with
  | vmm op => exact hinv.call hleaf op
  | alloc hvalid => exact ⟨past, k, before, node, leaf, hinv.alloc hvalid, hleaf⟩
  | allocNone hinvalid => exact ⟨past, k, before, node, leaf, hinv.allocNone hinvalid, hleaf⟩
  | free frame hmem => exact ⟨past, k, before, node, leaf, hinv.free hmem, hleaf⟩
  | write frame content hmem => exact ⟨past, k, before, node, leaf, hinv.write hmem content, hleaf⟩

theorem WorldInv.run (h : WorldInv root boot w) (hrun : KernelRun root w w') :
    WorldInv root boot w' := by
  induction hrun with
  | refl => exact h
  | tail _ hstep ih => exact ih.step hstep

theorem pageEntries_zero {mem : Klib.Mem} {page : UInt64} {i : Nat}
    (h : ∀ j, j < 8 → mem (Klib.byteAt page (8 * i + j)) = 0) : pageEntries mem page i = 0 := by
  have hrange : List.range 8 = [0, 1, 2, 3, 4, 5, 6, 7] := rfl
  unfold pageEntries
  rw [hrange]
  have h0 := h 0 (by decide)
  rw [Nat.add_zero] at h0
  simp [h, h0]

/-- Bring-up takes the first frame for the root, and zeroes it. -/
theorem bringUp_rootReady {regions : List BootMemRegion} {storage : Bytes} {bytes max : UInt64}
    {s s' : KernelState} (hinit : pmmInitFromMap regions storage bytes max = some boot)
    (hup : bringUp (some storage) bytes max (some regions) s = (.ok (), s')) :
    RootReady boot s'.kernelSpace.rootPaddr (afterBringUp s') := by
  have hcall : callPmmInitFromMap (some regions) (some storage) bytes max s.pmm = (true, boot) := by
    unfold callPmmInitFromMap
    dsimp only
    rw [hinit]
  unfold bringUp at hup
  rw [hcall] at hup
  dsimp only at hup
  rw [if_neg (by decide)] at hup
  by_cases hvalid : UInt64.ofNat (pmmAllocFrame boot).1 = invalidPhys
  · rw [if_pos hvalid] at hup
    cases hup
  · rw [if_neg hvalid] at hup
    cases hspace : vmmSpaceInit (UInt64.ofNat (pmmAllocFrame boot).1) staticHhdmOffset
      (some kernelVmmAlloc) (some kernelVmmFree) (some kernelPhysToVirt) with
    | none =>
        rw [hspace] at hup
        cases hup
    | some space =>
        rw [hspace] at hup
        unfold vmmSpaceInit at hspace
        split at hspace
        · cases hspace
        cases hspace
        cases hup
        refine ⟨rfl, rfl, hvalid, fun t ht i hi => ?_, rfl, rfl⟩
        dsimp only [afterBringUp] at ht ⊢
        obtain rfl := tablePointer_eq ht
        have hsize : pageSize.toNat = 4096 := by decide
        have hi : i < 512 := hi
        refine pageEntries_zero fun j hj => ?_
        have hin : 8 * i + j < pageSize.toNat := by omega
        exact localMemzero_apply _ hin s.mem

/-- After the bring-up the root is the only table. -/
theorem RootReady.worldInv (hb : RootReady boot root w) (hboot : PmmInv boot)
    (htable : tablePointer root ≠ none) (hsmall : boot.frameCount * 4096 ≤ 2 ^ 52) :
    WorldInv root boot w := by
  rcases kernelVmmAlloc_cases hboot with ⟨-, hinvalid, -⟩ | ⟨f, hf, hanswer, hinv, hcount, hbits⟩
  · exact absurd (hb.answer.symm.trans hinvalid) hb.valid
  obtain ⟨hfc, hfree⟩ := mem_freeSet.mp hf
  have hroot : root = frameAddr f := hb.answer.symm.trans hanswer
  have hnode : ∀ p f', rootNode (spaceOver root w.vm) p = some f' → p = [] ∧ f' = root := by
    intro p f' hp
    unfold rootNode at hp
    split at hp
    · next hnil => exact ⟨hnil, (Option.some.inj hp).symm⟩
    · cases hp
  obtain ⟨t, ht⟩ := Option.ne_none_iff_exists'.mp htable
  have hzero : RootZero (withPast (fun _ => (0, fun _ => 0)) 0 (spaceOver root w.vm))
      ⟨w.vm.mem, 0, []⟩ := hb.zero
  rw [← hb.pmm] at hinv hcount hbits
  refine ⟨fun _ => (0, fun _ => 0), 0, [], _, _, ⟨hboot.zero_used, hsmall, hinv, hcount,
    hzero.rep ht, ⟨fun f' hf' => ?_, fun _ => rfl⟩, fun n hn => ?_, fun n hn => ?_,
    fun p f' hp => ?_, fun a ha => ?_, fun p f' _ ha => ?_, ?_, fun g hg => ?_⟩, fun v _ => ?_⟩
  · cases hf'
  · omega
  · omega
  · obtain ⟨-, rfl⟩ := hnode p f' hp
    exact ⟨f, hfc, hroot, hfree⟩
  · rw [hb.held] at ha
    cases ha
  · rw [hb.held] at ha
    cases ha
  · rw [hb.held]
    exact List.nodup_nil
  · have htable : (∃ p, rootNode (spaceOver root w.vm) p = some (frameAddr g)) ↔ g = f := by
      constructor
      · rintro ⟨p, hp⟩
        have heq := (hnode p _ hp).2.trans hroot
        exact frameAddr_inj (frame_lt hboot hg) (frame_lt hboot hfc) heq
      · rintro rfl
        exact ⟨[], by rw [rootNode, if_pos rfl, ← hroot]; rfl⟩
    have hheld : frameAddr g ∉ w.held := by
      rw [hb.held]
      exact List.not_mem_nil
    rw [hbits, Bool.or_eq_true, decide_eq_true_iff, or_comm]
    refine or_congr Iff.rfl ⟨fun h => Or.inl (htable.mpr h), fun h => ?_⟩
    exact htable.mp (h.resolve_right hheld)
  · rw [hb.hist]
    rfl

theorem KernelInv.tableFrame_eq {past : Nat → UInt64 × (Nat → UInt64)} {k : Nat}
    {before : List UInt64} {node : Name → Option UInt64}
    {leaf : Name → Option (UInt64 × UInt64)}
    (h : KernelInv root boot past k before node leaf w.held w.vm) (p : Name) :
    tableFrame root w.vm p = node p := by
  rw [← h.rep.frameAt_eq h.lawful p]
  unfold tableFrame
  apply frameAt_congr <;> rfl

theorem WorldInv.framesApart (h : WorldInv root boot w) : FramesApart root boot w := by
  obtain ⟨past, k, before, node, leaf, hinv, -⟩ := h
  have hnode := hinv.tableFrame_eq
  refine ⟨fun g hg => ?_, fun p f hp => ?_, hinv.held_frame, fun p f hp => ?_,
    fun p q f hp hq => ?_, hinv.nodup⟩
  · simp only [hnode]
    exact hinv.used g hg
  · rw [hnode] at hp
    exact hinv.table p f hp
  · rw [hnode] at hp
    exact hinv.apart p f hp
  · rw [hnode] at hp hq
    exact hinv.rep.inj p q f hp hq

theorem WorldInv.query_eq (h : WorldInv root boot w) {v : UInt64} (hv : GoodAddr v) :
    kernelQuery root w.vm v = match latestMap w.hist v with
      | none => .error .notFound
      | some (paddr, flags) =>
        .ok ⟨v, paddr &&& pteAddrMask, ptePresent ||| (flags &&& allowed)⟩ := by
  obtain ⟨past, k, before, node, leaf, hinv, hleaf⟩ := h
  rw [← hleaf v hv]
  exact hinv.rep.queryPage_eq hinv.lawful hv

/-- **Page tables and frames stay apart.** From the memory bring-up on, whatever the virtual memory
is called for and whoever takes frames, writes to them and gives them back: a frame is used exactly
when the boot map has kept it, or it is a table, or somebody holds it, and it is one of these only;
and a lookup answers what the calls of the virtual memory say. -/
theorem kernelRun_frames {regions : List BootMemRegion} {storage : Bytes} {bytes max : UInt64}
    {s s' : KernelState} (hinit : pmmInitFromMap regions storage bytes max = some boot)
    (hmax : max.toNat ≤ 2 ^ 52)
    (hup : bringUp (some storage) bytes max (some regions) s = (.ok (), s'))
    (htable : tablePointer s'.kernelSpace.rootPaddr ≠ none)
    (hrun : KernelRun s'.kernelSpace.rootPaddr (afterBringUp s') w) :
    FramesApart s'.kernelSpace.rootPaddr boot w ∧
    ∀ v, GoodAddr v → kernelQuery s'.kernelSpace.rootPaddr w.vm v = match latestMap w.hist v with
      | none => .error .notFound
      | some (paddr, flags) =>
        .ok ⟨v, paddr &&& pteAddrMask, ptePresent ||| (flags &&& allowed)⟩ := by
  have hres := pmmInitFromMap_result hinit
  have hsmall : boot.frameCount * 4096 ≤ 2 ^ 52 := by
    have hcount := hres.frameCount
    omega
  have hworld := ((bringUp_rootReady hinit hup).worldInv hres.inv htable hsmall).run hrun
  exact ⟨hworld.framesApart, fun v hv => hworld.query_eq hv⟩

/-- A machine with 64 KiB brought up: memory is full of ones before. -/
def smallMachine : KernelState :=
  (bringUp (some Bytes.zero) 2 0x10000 (some plainMap)
    ⟨pmmBlank Bytes.zero 0, fun _ => 0xff, 0, 0, none, none, none⟩).2

/-- Somebody takes a frame and fills it, then a page is mapped. -/
theorem kernelRun_frames_small : ∃ boot w,
    KernelRun smallMachine.kernelSpace.rootPaddr (afterBringUp smallMachine) w ∧
      w.held = [0x2000] ∧ FramesApart smallMachine.kernelSpace.rootPaddr boot w ∧
      kernelQuery smallMachine.kernelSpace.rootPaddr w.vm 0x800000 = .error .notFound := by
  obtain ⟨boot, hinit⟩ := Option.isSome_iff_exists.mp
    (by decide : (pmmInitFromMap plainMap Bytes.zero 2 0x10000).isSome = true)
  have hup : bringUp (some Bytes.zero) 2 0x10000 (some plainMap)
      ⟨pmmBlank Bytes.zero 0, fun _ => 0xff, 0, 0, none, none, none⟩ = (.ok (), smallMachine) :=
    Prog.eq_of_ok (by decide +kernel)
  have hframe : UInt64.ofNat (pmmAllocFrame (afterBringUp smallMachine).vm.pmm).1 = 0x2000 := by
    decide +kernel
  obtain ⟨w, hrun, hheld, hnone⟩ : ∃ w,
      KernelRun smallMachine.kernelSpace.rootPaddr (afterBringUp smallMachine) w ∧
        w.held = [0x2000] ∧ latestMap w.hist 0x800000 = none := by
    have halloc : KernelRun smallMachine.kernelSpace.rootPaddr (afterBringUp smallMachine) _ :=
      .single (.alloc _ (by rw [hframe]; decide))
    rw [hframe] at halloc
    exact ⟨_, (halloc.tail (.write _ 0x2000 (fun _ => 0xffffffffffffffff)
      List.mem_cons_self)).tail (.vmm _ (.map 0x400000 0x9000 2)), rfl,
      latestMap_cons_of_ne (by decide)⟩
  obtain ⟨hapart, hquery⟩ := kernelRun_frames hinit (by decide) hup (by decide +kernel) hrun
  have hlatest := hquery 0x800000 ⟨by decide, by decide⟩
  rw [hnone] at hlatest
  exact ⟨boot, w, hrun, hheld, hapart, hlatest⟩

end Runs

end Mcsos.KernelMemory
