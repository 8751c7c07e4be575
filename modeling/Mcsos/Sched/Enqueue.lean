import Mcsos.Sched.Validate

set_option autoImplicit false

/-! # Putting a thread into the ready queue (`kernel/mcsos_thread.c`)

`mcsos_sched_enqueue` does not look at the queue: that a thread is not in it yet is inferred from
the state of the thread, and a ready thread is taken. A thread that is queued already has its link
cleared, which cuts the queue off behind it, and is then linked behind the last one, which is itself
where it stood at the end.
-/

namespace Mcsos.Sched

variable {T : Type} [DecidableEq T] {s : State T} {q : List T} {t : T}

/-! ## Counting the queue -/

omit [DecidableEq T] in
theorem readyCountLoop_linked {cursor : Option T} {turns count : Nat}
    (h : Linked (fun t => (s.threads t).next) cursor q) (hlen : q.length ≤ turns) :
    readyCountLoop s turns cursor count = some (count + q.length) := by
  induction q generalizing cursor turns count with
  | nil =>
      obtain rfl : cursor = none := h
      simp [readyCountLoop]
  | cons t q ih =>
      obtain ⟨rfl, hq⟩ := h
      cases turns with
      | zero => simp at hlen
      | succ turns =>
          rw [readyCountLoop, ih hq (by simpa using hlen), List.length_cons]
          congr 1
          omega

omit [DecidableEq T] in
/-- A queue that leads to a node linked to itself is never counted to its end. -/
theorem readyCountLoop_circle {cursor : Option T} {p : List T} (turns count : Nat)
    (h : LinkedTo (fun t => (s.threads t).next) cursor p (some t))
    (ht : (s.threads t).next = some t) : readyCountLoop s turns cursor count = none := by
  induction turns generalizing cursor p count with
  | zero =>
      cases p with
      | nil =>
          obtain rfl : cursor = some t := h
          rfl
      | cons u p =>
          obtain ⟨rfl, -⟩ := h
          rfl
  | succ turns ih =>
      cases p with
      | nil =>
          obtain rfl : cursor = some t := h
          rw [readyCountLoop]
          exact ih (p := []) _ ht
      | cons u p =>
          obtain ⟨rfl, hp⟩ := h
          rw [readyCountLoop]
          exact ih _ hp

/-! ## What a good call does -/

/-- The call changes nothing, or it puts the thread behind the queue `q`, which is then accepted and
can be counted. -/
def EnqueueKeeps (s : State T) (q : List T) (t : T) : Prop :=
  (∃ rc, rc ≠ schedOk ∧ schedEnqueue s (some t) = (s, rc)) ∨
    ∃ s', schedEnqueue s (some t) = (s', schedOk) ∧
      Linked (fun u => (s'.threads u).next) s'.sched.readyHead (q ++ [t]) ∧
      schedValidate s' = schedOk ∧ ∃ turns, schedReadyCount s' turns = some (q.length + 1)

theorem enqueueKeeps_of_new (hv : schedValidate s = schedOk)
    (hq : Linked (fun u => (s.threads u).next) s.sched.readyHead q) (ht : t ∉ q)
    (hc : s.sched.current = some t → s.states t = .running ∨ s.states t = .zombie) :
    EnqueueKeeps s q t := by
  obtain ⟨hi, hcurrent, q', h⟩ := schedValidate_iff.mp hv
  obtain rfl := hq.unique h.linked
  by_cases he : Enqueueable s t
  · refine Or.inr ?_
    have hne : some t ≠ s.sched.current := by
      intro hct
      rcases hc hct.symm with hs | hs <;> simp [Enqueueable, hs] at he
    have hm : (s.threads t).magic = threadMagic := by simpa [validThreadObject] using he.1
    obtain ⟨s', hcall, hq', hframe, hstates⟩ := schedEnqueue_spec hi hm he.2 h.readyQueue ht
    have hvalid : ∀ u, validThreadObject s' u = validThreadObject s u := by
      intro u
      cases u with
      | none => rfl
      | some u => simp [validThreadObject, hframe.magic]
    refine ⟨s', hcall, hq'.queue.linked, schedValidate_iff.mpr ⟨?_, ?_, q ++ [t], ?_⟩, ?_⟩
    · rw [hframe.initialized, hi]
    · rw [hvalid, hframe.current, hcurrent]
    · refine hq'.wellFormed fun u hu => ⟨?_, ?_, ?_⟩
      · rw [hvalid]
        rcases List.mem_append.mp hu with hu | hu
        · exact (h.nodes u hu).1
        · obtain rfl : u = t := by simpa using hu
          exact he.1
      · rw [hstates]
        by_cases hut : u = t
        · rw [hut, Function.update_self]
        · rw [Function.update_of_ne hut]
          have hu : u ∈ q := by simpa [hut] using hu
          exact (h.nodes u hu).2.1
      · rw [hframe.current]
        rcases List.mem_append.mp hu with hu | hu
        · exact (h.nodes u hu).2.2
        · obtain rfl : u = t := by simpa using hu
          exact hne
    · refine ⟨q.length + 1, ?_⟩
      rw [schedReadyCount, if_neg (by simp [hframe.initialized, hi]),
        readyCountLoop_linked hq'.queue.linked (by simp)]
      simp
  · exact Or.inl (schedEnqueue_refuses he)

/-- The call keeps an accepted queue, unless the thread is in it already, or is the current thread
and not in a state that the call refuses. -/
theorem schedEnqueue_keeps_iff (hv : schedValidate s = schedOk)
    (hq : Linked (fun u => (s.threads u).next) s.sched.readyHead q) :
    EnqueueKeeps s q t ↔ t ∉ q ∧
      (s.sched.current = some t → s.states t = .running ∨ s.states t = .zombie) := by
  constructor
  · intro hkeeps
    obtain ⟨hi, hcurrent, q', h⟩ := schedValidate_iff.mp hv
    obtain rfl := hq.unique h.linked
    -- whatever the call takes ends up in the new queue
    have htaken : Enqueueable s t → t ∉ q ∧ s.sched.current ≠ some t := by
      intro he
      have hcall := schedEnqueue_takes hi he
      rcases hkeeps with ⟨rc, hrc, hrefused⟩ | ⟨s', hs', hq', hv', -⟩
      · rw [hrefused] at hcall
        exact absurd (congrArg Prod.snd hcall) hrc
      · refine ⟨fun hmem => ?_, fun hct => ?_⟩
        · have hnodup := hq'.nodup
          simp [List.nodup_append] at hnodup
          exact hnodup.2 t hmem rfl
        · obtain ⟨-, -, q', h'⟩ := schedValidate_iff.mp hv'
          obtain rfl := hq'.unique h'.linked
          refine (h'.nodes t (by simp)).2.2 ?_
          obtain rfl : linkLast _ t = s' := congrArg Prod.fst (hcall.symm.trans hs')
          rw [(linkLast_frame _ _).current, modify_sched, hct]
    refine ⟨fun hmem => ?_, fun hct => ?_⟩
    · have hnode := h.nodes t hmem
      exact (htaken ⟨hnode.1, Or.inr (Or.inl hnode.2.1)⟩).1 hmem
    · by_contra hstate
      push Not at hstate
      refine (htaken ⟨hct ▸ hcurrent, ?_⟩).2 hct
      cases hs : s.states t <;> simp_all
  · rintro ⟨ht, hc⟩
    exact enqueueKeeps_of_new hv hq ht hc

/-! ## Threads that are queued already -/

/-- The links behind the call, where there is a last thread. -/
theorem schedEnqueue_links (hi : s.sched.initialized = true) (he : Enqueueable s t) {last : T}
    (hl : s.sched.readyTail = some last) :
    ∃ s', schedEnqueue s (some t) = (s', schedOk) ∧ s'.sched.initialized = true ∧
      s'.sched.readyHead = s.sched.readyHead ∧
      ∀ u, (s'.threads u).next =
        if u = last then some t else if u = t then none else (s.threads u).next := by
  refine ⟨_, schedEnqueue_takes hi he, ?_, ?_, ?_⟩
  · rw [(linkLast_frame _ _).initialized, modify_sched, hi]
  · simp [linkLast, hl]
  · intro u
    simp only [linkLast, modify_sched, hl, modifySched_threads]
    by_cases hul : u = last
    · rw [hul, modify_same, if_pos rfl]
    · rw [modify_other hul, if_neg hul]
      by_cases hut : u = t
      · rw [hut, modify_same, if_pos rfl]
      · rw [modify_other hut, if_neg hut]

/-- The last thread, put into the queue again, is linked to itself, and no count comes to an end. -/
theorem schedEnqueue_last (hv : schedValidate s = schedOk)
    (hq : Linked (fun u => (s.threads u).next) s.sched.readyHead (q ++ [t])) :
    ∃ s', schedEnqueue s (some t) = (s', schedOk) ∧ ∀ turns, schedReadyCount s' turns = none := by
  obtain ⟨hi, -, q', h⟩ := schedValidate_iff.mp hv
  obtain rfl := hq.unique h.linked
  have hnode := h.nodes t (by simp)
  have hl : s.sched.readyTail = some t := by simp [h.last]
  obtain ⟨s', hcall, hi', hhead, hlinks⟩ :=
    schedEnqueue_links hi ⟨hnode.1, Or.inr (Or.inl hnode.2.1)⟩ hl
  refine ⟨s', hcall, fun turns => ?_⟩
  have hother : ∀ u ∈ q, u ≠ t := by
    have hnodup := hq.nodup
    simp [List.nodup_append] at hnodup
    exact hnodup.2
  have hpart : LinkedTo (fun u => (s'.threads u).next) s'.sched.readyHead q (some t) := by
    rw [hhead]
    apply (Linked.append_iff.mp hq).1.congr
    intro u hu
    rw [hlinks, if_neg (hother u hu), if_neg (hother u hu)]
  rw [schedReadyCount, if_neg (by simp [hi'])]
  exact readyCountLoop_circle turns 0 hpart (by rw [hlinks, if_pos rfl])

/-- Any other thread of the queue, put into it again, becomes its end: the rest is lost. -/
theorem schedEnqueue_front (hv : schedValidate s = schedOk) {u : T} {r : List T}
    (hq : Linked (fun u => (s.threads u).next) s.sched.readyHead (q ++ t :: u :: r)) :
    ∃ s', schedEnqueue s (some t) = (s', schedOk) ∧
      Linked (fun u => (s'.threads u).next) s'.sched.readyHead (q ++ [t]) := by
  obtain ⟨hi, -, q', h⟩ := schedValidate_iff.mp hv
  obtain rfl := hq.unique h.linked
  have hnode := h.nodes t (by simp)
  obtain ⟨last, hlast⟩ : ∃ last, (u :: r).getLast? = some last := ⟨_, List.getLast?_cons⟩
  have hmem : last ∈ u :: r := List.mem_of_getLast? hlast
  have hl : s.sched.readyTail = some last := by
    rw [h.last, List.getLast?_append, List.getLast?_cons_cons, hlast, Option.some_or]
  obtain ⟨s', hcall, -, hhead, hlinks⟩ :=
    schedEnqueue_links hi ⟨hnode.1, Or.inr (Or.inl hnode.2.1)⟩ hl
  have hnodup := hq.nodup
  rw [List.nodup_append, List.nodup_cons] at hnodup
  obtain ⟨-, ⟨htr, -⟩, hapart⟩ := hnodup
  have htl : t ≠ last := fun he => htr (he ▸ hmem)
  refine ⟨s', hcall, ?_⟩
  rw [Linked.append_iff, hhead]
  refine ⟨(Linked.append_iff.mp hq).1.congr fun v hv => ?_, rfl, ?_⟩
  · have hvl : v ≠ last := hapart v hv last (List.mem_cons_of_mem _ hmem)
    have hvt : v ≠ t := hapart v hv t (by simp)
    rw [hlinks, if_neg hvl, if_neg hvt]
  · show (s'.threads t).next = none
    rw [hlinks, if_neg htl, if_pos rfl]

/-- The thread that runs is 0, and 1 is ready. -/
def oneReadyState : State Nat where
  sched := ⟨some 0, some 0, some 1, some 1, 2, 1, 0, 0, true⟩
  threads := fun t =>
    ⟨threadMagic, 0, 0, if t = 1 then .ready else if t = 0 then .running else .new, zeroContext,
      0, 0, 0, 0, none, 0, 0, 0⟩

theorem oneReadyState_linked :
    Linked (fun u => (oneReadyState.threads u).next) oneReadyState.sched.readyHead [1] := ⟨rfl, rfl⟩

theorem oneReadyState_valid : schedValidate oneReadyState = schedOk :=
  schedValidate_iff.mpr ⟨rfl, rfl, [1], oneReadyState_linked, rfl, by simp, by
    intro t ht
    obtain rfl : t = 1 := by simpa using ht
    exact ⟨rfl, rfl, by decide⟩, rfl⟩

theorem schedEnqueue_keeps_new : EnqueueKeeps oneReadyState [1] 2 :=
  (schedEnqueue_keeps_iff oneReadyState_valid oneReadyState_linked).mpr
    ⟨by decide, fun h => absurd h (by decide)⟩

/-- A ready thread is taken a second time. -/
theorem schedEnqueue_twice :
    schedValidate oneReadyState = schedOk ∧
      Linked (fun u => (oneReadyState.threads u).next) oneReadyState.sched.readyHead [1] ∧
      (∃ s', schedEnqueue oneReadyState (some 1) = (s', schedOk) ∧
        ∀ turns, schedReadyCount s' turns = none) ∧
      ¬EnqueueKeeps oneReadyState [1] 1 := by
  have hlast := schedEnqueue_last (q := []) oneReadyState_valid oneReadyState_linked
  refine ⟨oneReadyState_valid, oneReadyState_linked, hlast, ?_⟩
  obtain ⟨s', hcall, hcount⟩ := hlast
  rintro (⟨rc, hrc, hrefused⟩ | ⟨s'', hcall', -, -, turns, hturns⟩)
  · exact hrc (congrArg Prod.snd (hrefused.symm.trans hcall))
  · obtain rfl : s' = s'' := congrArg Prod.fst (hcall.symm.trans hcall')
    rw [hcount turns] at hturns
    cases hturns

end Mcsos.Sched
