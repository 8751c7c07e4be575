import Mcsos.Lib.LinkedQueue
import Mcsos.Sched.Thread

set_option autoImplicit false

/-! # What the scheduler's pieces do (`kernel/mcsos_thread.c`)

Each piece moves threads in or out of the ready queue, and changes the state of one thread. What it
does to the queue, to the states and to the rest is said apart.
-/

namespace Mcsos.Sched

variable {T : Type} [DecidableEq T] {s : State T} {q : List T} {t : T}

/-! ## What the pieces change -/

def State.states (s : State T) (t : T) : ThreadState := (s.threads t).state

/-- The ready queue is `q`, and is counted. -/
structure ReadyQueue (s : State T) (q : List T) : Prop where
  queue : Queue (fun t => (s.threads t).next) s.sched.readyHead s.sched.readyTail q
  count : s.sched.runnableCount = q.length

/-- All but the queue, the states and the statistics is as before. -/
structure Frame (s s' : State T) : Prop where
  magic : ∀ t, (s'.threads t).magic = (s.threads t).magic
  current : s'.sched.current = s.sched.current
  idle : s'.sched.idle = s.sched.idle
  initialized : s'.sched.initialized = s.sched.initialized

omit [DecidableEq T] in
theorem Frame.refl (s : State T) : Frame s s := ⟨fun _ => rfl, rfl, rfl, rfl⟩

omit [DecidableEq T] in
theorem Frame.trans {s s' s'' : State T} (h : Frame s s') (h' : Frame s' s'') : Frame s s'' :=
  ⟨fun t => (h'.magic t).trans (h.magic t), h'.current.trans h.current, h'.idle.trans h.idle,
    h'.initialized.trans h.initialized⟩

theorem modify_same (f : Thread T → Thread T) : (s.modify t f).threads t = f (s.threads t) :=
  Function.update_self ..

theorem modify_other {u : T} (h : u ≠ t) (f : Thread T → Thread T) :
    (s.modify t f).threads u = s.threads u := Function.update_of_ne h ..

/-- Part of a thread object that a change leaves alone. -/
theorem modify_keeps {α : Type} (g : Thread T → α) {f : Thread T → Thread T}
    (h : ∀ th, g (f th) = g th) (u : T) : g ((s.modify t f).threads u) = g (s.threads u) := by
  by_cases hu : u = t
  · subst hu
    rw [modify_same, h]
  · rw [modify_other hu]

theorem modify_states {f : Thread T → Thread T} {st : ThreadState} (h : ∀ th, (f th).state = st) :
    (s.modify t f).states = Function.update s.states t st := by
  funext u
  by_cases hu : u = t
  · subst hu
    rw [State.states, modify_same, h, Function.update_self]
  · rw [State.states, modify_other hu, Function.update_of_ne hu]
    rfl

theorem ReadyQueue.modify (h : ReadyQueue s q) {f : Thread T → Thread T}
    (hf : t ∈ q → ∀ th, (f th).next = th.next) : ReadyQueue (s.modify t f) q := by
  refine ⟨h.queue.congr fun u hu => ?_, h.count⟩
  by_cases hut : u = t
  · subst hut
    show ((s.modify u f).threads u).next = _
    rw [modify_same, hf hu]
  · show ((s.modify t f).threads u).next = _
    rw [modify_other hut]

theorem Frame.modify {f : Thread T → Thread T} (hf : ∀ th, (f th).magic = th.magic) :
    Frame s (s.modify t f) := ⟨modify_keeps Thread.magic hf, rfl, rfl, rfl⟩

omit [DecidableEq T] in
theorem ReadyQueue.modifySched (h : ReadyQueue s q) {f : Scheduler T → Scheduler T}
    (hh : (f s.sched).readyHead = s.sched.readyHead) (ht : (f s.sched).readyTail = s.sched.readyTail)
    (hc : (f s.sched).runnableCount = s.sched.runnableCount) : ReadyQueue (s.modifySched f) q := by
  refine ⟨?_, hc.trans h.count⟩
  rw [modifySched_sched, hh, ht]
  exact h.queue

/-! ## The queue operations -/

theorem linkLast_queue (h : ReadyQueue s q) (ht : t ∉ q) (hn : (s.threads t).next = none) :
    ReadyQueue (linkLast s t) (q ++ [t]) := by
  have hc : s.sched.runnableCount + 1 = (q ++ [t]).length := by
    rw [h.count, List.length_append, List.length_singleton]
  cases hl : s.sched.readyTail with
  | none =>
      obtain rfl : q = [] := (hl ▸ h.queue).eq_nil
      simp only [linkLast, hl]
      exact ⟨Queue.push_first hn, hc⟩
  | some last =>
      have hm : last ∈ q := List.mem_of_getLast? (h.queue.last.symm.trans hl)
      have htl : t ≠ last := fun he => ht (he ▸ hm)
      have hqueue : Queue (fun u => (s.threads u).next) s.sched.readyHead (some last) q :=
        hl ▸ h.queue
      simp only [linkLast, hl]
      refine ⟨?_, hc⟩
      simp only [modifySched_threads, modifySched_sched, modify_sched]
      refine hqueue.push ht (fun u _ hul => ?_) ?_ ?_
      · rw [modify_other hul]
      · rw [modify_same]
      · rw [modify_other htl, hn]

theorem linkLast_frame (s : State T) (t : T) : Frame s (linkLast s t) := by
  cases hl : s.sched.readyTail with
  | none =>
      simp only [linkLast, hl]
      exact ⟨fun _ => rfl, rfl, rfl, rfl⟩
  | some last =>
      simp only [linkLast, hl]
      refine ⟨fun u => ?_, rfl, rfl, rfl⟩
      simp only [modifySched_threads]
      exact modify_keeps Thread.magic (fun _ => by rfl) u

theorem linkLast_states (s : State T) (t : T) : (linkLast s t).states = s.states := by
  funext u
  cases hl : s.sched.readyTail with
  | none =>
      simp only [linkLast, hl]
      rfl
  | some last =>
      simp only [State.states, linkLast, hl, modifySched_threads]
      exact modify_keeps Thread.state (fun _ => by rfl) u

/-- A thread that `mcsos_sched_enqueue` takes. -/
def Enqueueable (s : State T) (t : T) : Prop :=
  validThreadObject s (some t) = true ∧
    (s.states t = .new ∨ s.states t = .ready ∨ s.states t = .blocked)

theorem schedEnqueue_takes (hi : s.sched.initialized = true) (h : Enqueueable s t) :
    schedEnqueue s (some t) =
      (linkLast (s.modify t fun th => { th with state := .ready, next := none }) t, schedOk) := by
  have hstate : ¬((s.threads t).state ≠ .new ∧ (s.threads t).state ≠ .ready ∧
      (s.threads t).state ≠ .blocked) := by
    rintro ⟨h1, h2, h3⟩
    rcases h.2 with hs | hs | hs
    · exact h1 hs
    · exact h2 hs
    · exact h3 hs
  rw [schedEnqueue, if_neg (by simp [hi, h.1]), if_neg hstate]

/-- All other threads are refused, and nothing changes. -/
theorem schedEnqueue_refuses (h : ¬Enqueueable s t) :
    ∃ rc, rc ≠ schedOk ∧ schedEnqueue s (some t) = (s, rc) := by
  rw [schedEnqueue]
  split_ifs with hvalid hstate
  · exact ⟨schedEinval, by decide, rfl⟩
  · exact ⟨schedEstate, by decide, rfl⟩
  · exfalso
    apply h
    push Not at hvalid
    refine ⟨hvalid.2, ?_⟩
    by_contra hs
    apply hstate
    push Not at hs
    exact hs

/-- A thread that waits goes behind the queue. -/
theorem schedEnqueue_spec (hi : s.sched.initialized = true)
    (hm : (s.threads t).magic = threadMagic)
    (hs : s.states t = .new ∨ s.states t = .ready ∨ s.states t = .blocked)
    (h : ReadyQueue s q) (ht : t ∉ q) :
    ∃ s', schedEnqueue s (some t) = (s', schedOk) ∧ ReadyQueue s' (q ++ [t]) ∧ Frame s s' ∧
      s'.states = Function.update s.states t .ready := by
  have hq := h.modify (t := t) (f := fun th => { th with state := .ready, next := none })
    fun hmem => absurd hmem ht
  exact ⟨_, schedEnqueue_takes hi ⟨by simp [validThreadObject, hm], hs⟩,
    linkLast_queue hq ht (by rw [modify_same]),
    Frame.trans (Frame.modify fun _ => by rfl) (linkLast_frame _ _),
    (linkLast_states _ _).trans (modify_states fun _ => by rfl)⟩

theorem unlinkFirst_queue (h : ReadyQueue s (t :: q)) (ht : t ∉ q)
    (hq : Queue (fun t => (s.threads t).next) (s.threads t).next
      (if (s.threads t).next = none then none else s.sched.readyTail) q) :
    ReadyQueue (unlinkFirst s t) q := by
  refine ⟨?_, ?_⟩
  · simp only [unlinkFirst, modifySched_threads, modifySched_sched, modify_sched]
    apply hq.congr
    intro u hu
    rw [modify_other (show u ≠ t from fun he => ht (he ▸ hu)), modifySched_threads]
  · simp only [unlinkFirst, modifySched_sched, modify_sched]
    rw [h.count, List.length_cons, Nat.add_sub_cancel]

theorem unlinkFirst_frame (s : State T) (t : T) : Frame s (unlinkFirst s t) := by
  refine ⟨fun u => ?_, rfl, rfl, rfl⟩
  simp only [unlinkFirst, modifySched_threads]
  rw [modify_keeps Thread.magic (fun _ => by rfl), modifySched_threads]

theorem unlinkFirst_states (s : State T) (t : T) : (unlinkFirst s t).states = s.states := by
  funext u
  simp only [State.states, unlinkFirst, modifySched_threads]
  rw [modify_keeps Thread.state (fun _ => by rfl), modifySched_threads]

/-- The first ready thread leaves the queue; the idle thread is taken where there is none. -/
theorem schedPickNext_spec (hi : s.sched.initialized = true) (h : ReadyQueue s q) :
    ∃ s' next q', schedPickNext s = (s', next) ∧ ReadyQueue s' q' ∧ Frame s s' ∧
      s'.states = s.states ∧
      (q = [] ∧ q' = [] ∧ next = s.sched.idle ∨ ∃ t, q = t :: q' ∧ t ∉ q' ∧ next = some t) := by
  cases hh : s.sched.readyHead with
  | none =>
      obtain rfl : q = [] := (hh ▸ h.queue).eq_nil_of_head
      refine ⟨s, s.sched.idle, [], ?_, h, Frame.refl s, rfl, Or.inl ⟨rfl, rfl, rfl⟩⟩
      rw [schedPickNext, if_neg (by simp [hi]), hh]
  | some t =>
      obtain ⟨q', rfl, ht, hq'⟩ := (hh ▸ h.queue).pop
      refine ⟨unlinkFirst s t, some t, q', ?_, unlinkFirst_queue h ht hq',
        unlinkFirst_frame s t, unlinkFirst_states s t, Or.inr ⟨t, rfl, ht, rfl⟩⟩
      rw [schedPickNext, if_neg (by simp [hi]), hh]

theorem switchTo_queue (h : ReadyQueue s q) (old next : T) :
    ReadyQueue (switchTo s old next) q := by
  unfold switchTo
  refine ReadyQueue.modifySched ?_ (by rfl) (by rfl) (by rfl)
  refine ReadyQueue.modify ?_ fun _ _ => by rfl
  refine ReadyQueue.modify ?_ fun _ _ => by rfl
  refine ReadyQueue.modifySched ?_ (by rfl) (by rfl) (by rfl)
  exact h.modify fun _ _ => rfl

theorem switchTo_magic (s : State T) (old next u : T) :
    ((switchTo s old next).threads u).magic = (s.threads u).magic := by
  simp only [switchTo, modifySched_threads]
  rw [modify_keeps Thread.magic (fun _ => by rfl), modify_keeps Thread.magic (fun _ => by rfl),
    modifySched_threads, modify_keeps Thread.magic (fun _ => by rfl)]

theorem switchTo_states (s : State T) (old next : T) :
    (switchTo s old next).states = Function.update s.states next .running := by
  rw [← modify_states (s := s) (f := fun th => { th with state := .running }) fun _ => rfl]
  funext u
  simp only [State.states, switchTo, modifySched_threads]
  rw [modify_keeps Thread.state (fun _ => by rfl), modify_keeps Thread.state (fun _ => by rfl),
    modifySched_threads]

/-- What a yield does once a thread has been picked. -/
theorem schedYield_picked {s₁ : State T} {c n : T} (hi : s.sched.initialized = true)
    (hc : s.sched.current = some c) (hcv : validThreadObject s (some c) = true)
    (hpick : schedPickNext s = (s₁, some n)) (hnv : validThreadObject s₁ (some n) = true) :
    schedYield s =
      if n = c then (s₁.modify c fun th => { th with state := .running }, schedOk)
      else if (s₁.threads c).state = .running ∧ some c ≠ s₁.sched.idle then
        let r := schedEnqueue (s₁.modify c fun th => { th with state := .ready }) (some c)
        if r.2 ≠ schedOk then r else (switchTo r.1 c n, schedOk)
      else (switchTo s₁ c n, schedOk) := by
  have hguard : ¬(¬s.sched.initialized = true ∨ ¬validThreadObject s (some c) = true) := by
    simp [hi, hcv]
  rw [schedYield, hc]
  simp only [if_neg hguard, hpick, hnv, not_true, if_false]

end Mcsos.Sched
