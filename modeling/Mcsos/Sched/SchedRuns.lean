import Mcsos.Sched.Validate

set_option autoImplicit false

/-! # Where every thread is (`kernel/mcsos_thread.c`)

At any time each enqueued thread is the current one, or in the ready queue, or blocked, and its
state says which. `SchedInv` names the queue and the current thread, and reads all states off them;
each call is then a move of one or two threads between the three places.
-/

namespace Mcsos.Sched

variable {T : Type} [DecidableEq T] {s : State T} {q : List T} {t : T}

/-! ## The invariant -/

/-- The state that goes with the place of a thread: `c` is current, `q` queued, `es` enqueued at
some time. The current thread runs, but for the moment when it is about to be switched away. -/
def placeState (boot : T) (es q : List T) (c : T) (now : ThreadState) (t : T) : ThreadState :=
  if t = c then now
  else if t = boot then .running
  else if t ∈ q then .ready
  else if t ∈ es then .blocked
  else .new

/-- Every thread has its place; `ps` are the prepared threads and `es` the enqueued ones. -/
structure SchedInv (boot : T) (ps es q : List T) (c : T) (now : ThreadState) (s : State T) :
    Prop where
  initialized : s.sched.initialized = true
  idle : s.sched.idle = some boot
  current : s.sched.current = some c
  ready : ReadyQueue s q
  magic : ∀ t, t = boot ∨ t ∈ ps → (s.threads t).magic = threadMagic
  states : ∀ t, t = boot ∨ t ∈ ps → s.states t = placeState boot es q c now t
  boot_not_prepared : boot ∉ ps
  enqueued_prepared : ∀ t ∈ es, t ∈ ps
  queued_enqueued : ∀ t ∈ q, t ∈ es
  current_enqueued : c = boot ∨ c ∈ es
  current_not_queued : c ∉ q

namespace SchedInv

variable {boot c : T} {ps es : List T} {now : ThreadState}

theorem boot_not_queued (h : SchedInv boot ps es q c now s) : boot ∉ q := fun hb =>
  h.boot_not_prepared (h.enqueued_prepared boot (h.queued_enqueued boot hb))

theorem current_thread (h : SchedInv boot ps es q c now s) : c = boot ∨ c ∈ ps :=
  h.current_enqueued.imp id (h.enqueued_prepared c)

theorem current_state (h : SchedInv boot ps es q c now s) : s.states c = now := by
  rw [h.states c h.current_thread, placeState, if_pos rfl]

theorem valid (h : SchedInv boot ps es q c now s) (ht : t = boot ∨ t ∈ ps) :
    validThreadObject s (some t) = true := by
  simp [validThreadObject, h.magic t ht]

/-- The processor goes to `n`; all others are where they belong already. -/
theorem switchTo (h : SchedInv boot ps es q c now s) {s' : State T} {q' : List T} {n : T}
    (hinit : s'.sched.initialized = true) (hidle : s'.sched.idle = some boot)
    (hmagic : ∀ t, t = boot ∨ t ∈ ps → (s'.threads t).magic = threadMagic)
    (hq' : ReadyQueue s' q') (hn : n = boot ∨ n ∈ es) (hnq : n ∉ q') (hq'es : ∀ t ∈ q', t ∈ es)
    (hstates : ∀ t, t = boot ∨ t ∈ ps → t ≠ n →
      s'.states t = placeState boot es q' n .running t) :
    SchedInv boot ps es q' n .running (Sched.switchTo s' c n) := by
  refine ⟨hinit, hidle, rfl, switchTo_queue hq' c n, fun t ht => ?_, fun t ht => ?_,
    h.boot_not_prepared, h.enqueued_prepared, hq'es, hn, hnq⟩
  · rw [switchTo_magic, hmagic t ht]
  · rw [switchTo_states]
    by_cases htn : t = n
    · rw [htn, Function.update_self, placeState, if_pos rfl]
    · rw [Function.update_of_ne htn, hstates t ht htn]

/-- `n` has been picked in place of `c`: it is out of the queue, and all others are where they
were. -/
structure Picked (boot : T) (ps es q : List T) (c n : T) (now : ThreadState) (s : State T) :
    Prop where
  initialized : s.sched.initialized = true
  idle : s.sched.idle = some boot
  current : s.sched.current = some c
  ready : ReadyQueue s q
  magic : ∀ t, t = boot ∨ t ∈ ps → (s.threads t).magic = threadMagic
  states : ∀ t, t = boot ∨ t ∈ ps → t ≠ n → s.states t = placeState boot es q c now t
  queued_enqueued : ∀ t ∈ q, t ∈ es
  current_not_queued : c ∉ q
  next_enqueued : n = boot ∨ n ∈ es
  next_not_queued : n ∉ q

/-- The first of the queue is picked, or else the idle thread. -/
theorem pick (h : SchedInv boot ps es q c now s) :
    ∃ s' n q', schedPickNext s = (s', some n) ∧ Picked boot ps es q' c n now s' := by
  obtain ⟨s', next, q', hpick, hq', hframe, hstates, hnext⟩ :=
    schedPickNext_spec h.initialized h.ready
  obtain ⟨n, rfl, hnq, hn, hmem⟩ : ∃ n, next = some n ∧ n ∉ q' ∧ (n = boot ∨ n ∈ q) ∧
      ∀ t, t ≠ n → (t ∈ q ↔ t ∈ q') := by
    rcases hnext with ⟨rfl, rfl, rfl⟩ | ⟨n, rfl, hnq, rfl⟩
    · exact ⟨boot, h.idle, by simp, Or.inl rfl, fun t _ => Iff.rfl⟩
    · exact ⟨n, rfl, hnq, Or.inr (by simp), fun t ht => by simp [ht]⟩
  have hsub : ∀ t ∈ q', t ∈ q := fun t ht => (hmem t fun he => hnq (he ▸ ht)).mpr ht
  refine ⟨s', n, q', hpick, hframe.initialized.trans h.initialized, hframe.idle.trans h.idle,
    hframe.current.trans h.current, hq', fun t ht => (hframe.magic t).trans (h.magic t ht),
    fun t ht htn => ?_, fun t ht => h.queued_enqueued t (hsub t ht),
    fun hc => h.current_not_queued (hsub c hc), hn.imp id (h.queued_enqueued n), hnq⟩
  rw [hstates, h.states t ht]
  simp only [placeState, hmem t htn]

theorem Picked.current_state {s' : State T} {q' : List T} {n : T}
    (p : Picked boot ps es q' c n now s') (h : SchedInv boot ps es q c now s) (hnc : n ≠ c) :
    (s'.threads c).state = now := by
  have hstate := p.states c h.current_thread (Ne.symm hnc)
  rwa [placeState, if_pos rfl] at hstate

/-- The current thread is picked again, which only the idle one can be, and goes on. -/
theorem Picked.stay {s' : State T} {q' : List T} (p : Picked boot ps es q' c c now s')
    (h : SchedInv boot ps es q c now s) :
    SchedInv boot ps es q' c .running (s'.modify c fun th => { th with state := .running }) := by
  refine ⟨p.initialized, p.idle, p.current, p.ready.modify fun hm => absurd hm p.next_not_queued,
    fun t ht => ?_, fun t ht => ?_, h.boot_not_prepared, h.enqueued_prepared, p.queued_enqueued,
    p.next_enqueued, p.next_not_queued⟩
  · rw [modify_keeps Thread.magic (fun _ => by rfl), p.magic t ht]
  · rw [modify_states (fun _ => by rfl)]
    by_cases htc : t = c
    · rw [htc, Function.update_self, placeState, if_pos rfl]
    · rw [Function.update_of_ne htc, p.states t ht htc]
      simp only [placeState, if_neg htc]

/-- The old thread still runs, and goes to the end of the queue. -/
theorem Picked.requeue {s' : State T} {q' : List T} {n : T}
    (p : Picked boot ps es q' c n .running s') (h : SchedInv boot ps es q c .running s)
    (hnc : n ≠ c) (hcb : c ≠ boot) :
    ∃ s₂, schedEnqueue (s'.modify c fun th => { th with state := .ready }) (some c) =
        (s₂, schedOk) ∧
      SchedInv boot ps es (q' ++ [c]) n .running (Sched.switchTo s₂ c n) := by
  obtain ⟨s₂, henq, hq₂, hframe₂, hstates₂⟩ := schedEnqueue_spec
    (s := s'.modify c fun th => { th with state := .ready }) (t := c) (q := q') p.initialized
    (by rw [modify_keeps Thread.magic (fun _ => by rfl), p.magic c h.current_thread])
    (Or.inr (Or.inl (by rw [modify_states (fun _ => by rfl), Function.update_self])))
    (p.ready.modify fun _ _ => by rfl) p.current_not_queued
  refine ⟨s₂, henq, ?_⟩
  refine h.switchTo (hframe₂.initialized.trans p.initialized) (hframe₂.idle.trans p.idle)
    (fun t ht => ?_) hq₂ p.next_enqueued (by simp [p.next_not_queued, hnc]) (fun t ht => ?_)
    (fun t ht htn => ?_)
  · rw [hframe₂.magic, modify_keeps Thread.magic (fun _ => by rfl), p.magic t ht]
  · rcases List.mem_append.mp ht with ht | ht
    · exact p.queued_enqueued t ht
    · obtain rfl : t = c := by simpa using ht
      exact h.current_enqueued.resolve_left hcb
  · rw [hstates₂, modify_states (fun _ => by rfl), Function.update_idem]
    by_cases htc : t = c
    · subst htc
      simp [placeState, htn, hcb]
    · rw [Function.update_of_ne htc, p.states t ht htn]
      have hm : t ∈ q' ++ [c] ↔ t ∈ q' := by
        rw [List.mem_append, List.mem_singleton, or_iff_left htc]
      simp only [placeState, if_neg htc, if_neg htn, hm]

/-- The old thread is blocked, or the idle one, and is in no queue afterwards. -/
theorem Picked.leave {s' : State T} {q' : List T} {n : T}
    (p : Picked boot ps es q' c n now s') (h : SchedInv boot ps es q c now s)
    (hout : now = .running ∧ c = boot ∨ now = .blocked ∧ c ≠ boot) :
    SchedInv boot ps es q' n .running (Sched.switchTo s' c n) := by
  refine h.switchTo p.initialized p.idle p.magic p.ready p.next_enqueued p.next_not_queued
    p.queued_enqueued fun t ht htn => ?_
  rw [p.states t ht htn]
  by_cases htc : t = c
  · subst htc
    rcases hout with ⟨rfl, rfl⟩ | ⟨rfl, htb⟩
    · simp [placeState]
    · simp [placeState, htn, htb, p.current_not_queued, h.current_enqueued.resolve_left htb]
  · simp only [placeState, if_neg htc, if_neg htn]

/-- The first of the queue, or else the idle thread, becomes current; the old thread goes to the
end of the queue where it still runs. -/
theorem yield (h : SchedInv boot ps es q c now s)
    (hnow : now = .running ∨ now = .blocked ∧ c ≠ boot) :
    ∃ s' q' c', schedYield s = (s', schedOk) ∧ SchedInv boot ps es q' c' .running s' := by
  obtain ⟨s₁, n, q', hpick, p⟩ := h.pick
  have hvalid : validThreadObject s₁ (some n) = true := by
    simp [validThreadObject, p.magic n (p.next_enqueued.imp id (h.enqueued_prepared n))]
  have hstep := schedYield_picked h.initialized h.current (h.valid h.current_thread) hpick hvalid
  by_cases hnc : n = c
  · subst hnc
    exact ⟨_, q', n, hstep.trans (if_pos rfl), p.stay h⟩
  rw [if_neg hnc, p.current_state h hnc, p.idle] at hstep
  by_cases hback : now = .running ∧ c ≠ boot
  · obtain ⟨rfl, hcb⟩ := hback
    obtain ⟨s₂, henq, h₂⟩ := p.requeue h hnc hcb
    refine ⟨Sched.switchTo s₂ c n, q' ++ [c], n, ?_, h₂⟩
    rw [hstep, if_pos ⟨rfl, fun he => hcb (Option.some.inj he)⟩, henq]
    simp
  · have hout : now = .running ∧ c = boot ∨ now = .blocked ∧ c ≠ boot :=
      hnow.imp (fun hr => ⟨hr, not_not.mp fun hcb => hback ⟨hr, hcb⟩⟩) id
    refine ⟨Sched.switchTo s₁ c n, q', n, ?_, p.leave h hout⟩
    rw [hstep, if_neg]
    rintro ⟨hr, hi⟩
    exact hback ⟨hr, fun hcb => hi (congrArg some hcb)⟩

/-! ## The calls keep the invariant -/

theorem tick (h : SchedInv boot ps es q c now s) :
    SchedInv boot ps es q c now (schedTick s).1 := by
  have hguard : ¬(¬s.sched.initialized = true ∨ ¬validThreadObject s (some c) = true) := by
    simp [h.initialized, h.valid h.current_thread]
  rw [schedTick, h.current]
  simp only [if_neg hguard]
  have hq : ReadyQueue (s.modifySched fun sc => { sc with ticks := sc.ticks + 1 }) q :=
    h.ready.modifySched rfl rfl rfl
  refine ⟨h.initialized, h.idle, h.current, hq.modify fun _ _ => by rfl, fun t ht => ?_,
    fun t ht => ?_, h.boot_not_prepared, h.enqueued_prepared, h.queued_enqueued,
    h.current_enqueued, h.current_not_queued⟩
  · rw [modify_keeps Thread.magic (fun _ => by rfl)]
    exact h.magic t ht
  · rw [State.states, modify_keeps Thread.state (fun _ => by rfl)]
    exact h.states t ht

theorem blockCurrent (h : SchedInv boot ps es q c .running s) :
    ∃ q' c', SchedInv boot ps es q' c' .running (threadBlockCurrent s).1 := by
  have hguard : ¬(¬s.sched.initialized = true ∨ ¬validThreadObject s (some c) = true) := by
    simp [h.initialized, h.valid h.current_thread]
  rw [threadBlockCurrent, h.current]
  simp only [if_neg hguard, h.idle]
  by_cases hcb : c = boot
  · rw [if_pos (by rw [hcb])]
    exact ⟨q, c, h⟩
  rw [if_neg fun he => hcb (Option.some.inj he)]
  have hb : SchedInv boot ps es q c .blocked
      (s.modify c fun th => { th with state := .blocked }) := by
    refine ⟨h.initialized, h.idle, h.current, h.ready.modify fun _ _ => by rfl, fun t ht => ?_,
      fun t ht => ?_, h.boot_not_prepared, h.enqueued_prepared, h.queued_enqueued,
      h.current_enqueued, h.current_not_queued⟩
    · rw [modify_keeps Thread.magic (fun _ => by rfl), h.magic t ht]
    · rw [modify_states (fun _ => by rfl)]
      by_cases htc : t = c
      · rw [htc, Function.update_self, placeState, if_pos rfl]
      · rw [Function.update_of_ne htc, h.states t ht]
        simp only [placeState, if_neg htc]
  obtain ⟨s', q', c', he, h'⟩ := hb.yield (Or.inr ⟨rfl, hcb⟩)
  rw [he]
  exact ⟨q', c', h'⟩

/-- A thread that is new or blocked, and is none of the others, is put into the queue. -/
theorem enqueued (h : SchedInv boot ps es q c now s) (ht : t ∈ ps) (htq : t ∉ q) (htc : t ≠ c)
    (hs : s.states t = .new ∨ s.states t = .blocked) :
    SchedInv boot ps (t :: es) (q ++ [t]) c now (schedEnqueue s (some t)).1 := by
  obtain ⟨s', he, hq', hframe, hstates⟩ := schedEnqueue_spec h.initialized (h.magic t (Or.inr ht))
    (hs.imp id Or.inr) h.ready htq
  rw [he]
  refine ⟨hframe.initialized.trans h.initialized, hframe.idle.trans h.idle,
    hframe.current.trans h.current, hq', fun u hu => (hframe.magic u).trans (h.magic u hu),
    fun u hu => ?_, h.boot_not_prepared, ?_, ?_, h.current_enqueued.imp id (List.mem_cons_of_mem t),
    ?_⟩
  · rw [hstates]
    by_cases hut : u = t
    · have htb : t ≠ boot := fun he => h.boot_not_prepared (he ▸ ht)
      rw [hut, Function.update_self]
      simp [placeState, htc, htb]
    · rw [Function.update_of_ne hut, h.states u hu]
      have hq : u ∈ q ++ [t] ↔ u ∈ q := by
        rw [List.mem_append, List.mem_singleton, or_iff_left hut]
      have hes : u ∈ t :: es ↔ u ∈ es := by rw [List.mem_cons, or_iff_right hut]
      simp only [placeState, hq, hes]
  · intro u hu
    rcases List.mem_cons.mp hu with rfl | hu
    · exact ht
    · exact h.enqueued_prepared u hu
  · intro u hu
    rcases List.mem_append.mp hu with hu | hu
    · exact List.mem_cons_of_mem t (h.queued_enqueued u hu)
    · exact List.mem_cons.mpr (Or.inl (by simpa using hu))
  · simp [h.current_not_queued, Ne.symm htc]

theorem of_mem (h : SchedInv boot ps (t :: es) q c now s) (ht : t ∈ es) :
    SchedInv boot ps es q c now s := by
  have hes : ∀ u, u ∈ t :: es ↔ u ∈ es := fun u =>
    ⟨fun hu => (List.mem_cons.mp hu).elim (fun he => he ▸ ht) id, List.mem_cons_of_mem t⟩
  exact ⟨h.initialized, h.idle, h.current, h.ready, h.magic,
    fun u hu => (h.states u hu).trans (by simp only [placeState, hes]), h.boot_not_prepared,
    fun u hu => h.enqueued_prepared u ((hes u).mpr hu),
    fun u hu => (hes u).mp (h.queued_enqueued u hu),
    h.current_enqueued.imp id (hes c).mp, h.current_not_queued⟩

/-- A thread that waits is in none of the other places. -/
theorem waits (h : SchedInv boot ps es q c .running s) (ht : t = boot ∨ t ∈ ps)
    (hs : s.states t = .new ∨ s.states t = .blocked) :
    t ∈ ps ∧ t ∉ q ∧ t ≠ c ∧ (s.states t = .blocked ↔ t ∈ es) := by
  rw [h.states t ht, placeState] at hs ⊢
  by_cases htc : t = c
  · simp [htc] at hs
  rw [if_neg htc] at hs ⊢
  by_cases htb : t = boot
  · simp [htb] at hs
  rw [if_neg htb] at hs ⊢
  by_cases htq : t ∈ q
  · simp [htq] at hs
  rw [if_neg htq]
  by_cases hte : t ∈ es <;> simp [hte, ht.resolve_left htb, htq, htc]

theorem enqueue (h : SchedInv boot ps es q c .running s) (ht : t ∈ ps) (hte : t ∉ es) :
    ∃ q', SchedInv boot ps (t :: es) q' c .running (schedEnqueue s (some t)).1 := by
  have htq : t ∉ q := fun hq => hte (h.queued_enqueued t hq)
  have htb : t ≠ boot := fun he => h.boot_not_prepared (he ▸ ht)
  have htc : t ≠ c := fun he =>
    h.current_enqueued.elim (fun hc => htb (he.trans hc)) fun hc => hte (he ▸ hc)
  have hs : s.states t = .new := by
    rw [h.states t (Or.inr ht), placeState, if_neg htc, if_neg htb, if_neg htq, if_neg hte]
  exact ⟨q ++ [t], h.enqueued ht htq htc (Or.inl hs)⟩

theorem markReady (h : SchedInv boot ps es q c .running s) (ht : t = boot ∨ t ∈ ps) :
    ∃ q', SchedInv boot ps es q' c .running (threadMarkReady s (some t)).1 := by
  rw [threadMarkReady, if_neg (by simp [h.valid ht])]
  by_cases hb : (s.threads t).state = .blocked
  · obtain ⟨htp, htq, htc, hes⟩ := h.waits ht (Or.inr hb)
    rw [if_neg (not_not.mpr hb)]
    exact ⟨q ++ [t], (h.enqueued htp htq htc (Or.inr hb)).of_mem (hes.mp hb)⟩
  · rw [if_pos hb]
    exact ⟨q, h⟩

end SchedInv

/-- A prepared thread is new; a call that fails changes nothing. -/
theorem threadPrepare_cases (trampoline : UInt64) (s : State T) (t : T)
    (name entry arg stackBase stackSize id : UInt64) :
    (∃ rc, rc ≠ schedOk ∧
      threadPrepare trampoline s t name entry arg stackBase stackSize id = (s, rc)) ∨
    ∃ th : Thread T, th.magic = threadMagic ∧ th.state = .new ∧
      threadPrepare trampoline s t name entry arg stackBase stackSize id =
        (s.modify t fun _ => th, schedOk) := by
  unfold threadPrepare
  dsimp only
  by_cases h1 : entry = 0 ∨ stackBase = 0
  · exact Or.inl ⟨_, by decide, if_pos h1⟩
  rw [if_neg h1]
  by_cases h2 : stackSize < minKernelStack
  · exact Or.inl ⟨_, by decide, if_pos h2⟩
  rw [if_neg h2]
  by_cases h3 : stackBase + stackSize ≤ stackBase
  · exact Or.inl ⟨_, by decide, if_pos h3⟩
  rw [if_neg h3]
  by_cases h4 : alignDown (stackBase + stackSize) stackAlign ≤ stackBase + 128
  · exact Or.inl ⟨_, by decide, if_pos h4⟩
  rw [if_neg h4]
  exact Or.inr ⟨_, rfl, rfl, rfl⟩

theorem SchedInv.prepare {boot c : T} {ps es : List T}
    (h : SchedInv boot ps es q c .running s) (htb : t ≠ boot) (htp : t ∉ ps) {th : Thread T}
    (hm : th.magic = threadMagic) (hs : th.state = .new) :
    SchedInv boot (t :: ps) es q c .running (s.modify t fun _ => th) := by
  have hte : t ∉ es := fun he => htp (h.enqueued_prepared t he)
  have htq : t ∉ q := fun hq => hte (h.queued_enqueued t hq)
  have htc : t ≠ c := fun he =>
    h.current_thread.elim (fun hc => htb (he.trans hc)) fun hc => htp (he ▸ hc)
  refine ⟨h.initialized, h.idle, h.current, h.ready.modify fun hq => absurd hq htq,
    fun u hu => ?_, fun u hu => ?_, ?_, fun u hu => List.mem_cons_of_mem t
      (h.enqueued_prepared u hu), h.queued_enqueued, h.current_enqueued, h.current_not_queued⟩
  · by_cases hut : u = t
    · rw [hut, modify_same, hm]
    · rw [modify_other hut, h.magic u (hu.imp id fun hu => (List.mem_cons.mp hu).resolve_left hut)]
  · rw [modify_states (fun _ => hs)]
    by_cases hut : u = t
    · rw [hut, Function.update_self, placeState, if_neg htc, if_neg htb, if_neg htq, if_neg hte]
    · rw [Function.update_of_ne hut,
        h.states u (hu.imp id fun hu => (List.mem_cons.mp hu).resolve_left hut)]
  · simp [h.boot_not_prepared, Ne.symm htb]

/-! ## The check that the code makes itself -/

theorem SchedInv.queueable {boot c : T} {ps es : List T}
    (h : SchedInv boot ps es q c .running s) (ht : t ∈ q) : Queueable s t := by
  have htp : t = boot ∨ t ∈ ps := Or.inr (h.enqueued_prepared t (h.queued_enqueued t ht))
  have htc : t ≠ c := fun he => h.current_not_queued (he ▸ ht)
  have htb : t ≠ boot := fun he => h.boot_not_queued (he ▸ ht)
  refine ⟨h.valid htp, ?_, ?_⟩
  · rw [h.states t htp, placeState, if_neg htc, if_neg htb, if_pos ht]
  · rw [h.current]
    exact fun he => htc (Option.some.inj he)

theorem SchedInv.validate {boot c : T} {ps es : List T}
    (h : SchedInv boot ps es q c .running s) : schedValidate s = schedOk := by
  have hcurrent : validThreadObject s s.sched.current = true := by
    rw [h.current]
    exact h.valid h.current_thread
  exact schedValidate_iff.mpr
    ⟨h.initialized, hcurrent, q, h.ready.wellFormed fun t ht => h.queueable ht⟩

/-! ## Runs -/

/-- A run from `mcsos_scheduler_init` on: the state, the threads that have been prepared, and those
that have been enqueued. Each thread is prepared once and enqueued once. -/
inductive SchedRun (bootName trampoline : UInt64) (boot : T) : State T → List T → List T → Prop
  | init (s : State T) : SchedRun bootName trampoline boot (schedulerInit bootName s boot).1 [] []
  | prepare {s ps es t} (name entry arg stackBase stackSize id : UInt64) :
      SchedRun bootName trampoline boot s ps es → t ≠ boot → t ∉ ps →
      (threadPrepare trampoline s t name entry arg stackBase stackSize id).2 = schedOk →
      SchedRun bootName trampoline boot
        (threadPrepare trampoline s t name entry arg stackBase stackSize id).1 (t :: ps) es
  | enqueue {s ps es t} : SchedRun bootName trampoline boot s ps es → t ∈ ps → t ∉ es →
      SchedRun bootName trampoline boot (schedEnqueue s (some t)).1 ps (t :: es)
  | yield {s ps es} : SchedRun bootName trampoline boot s ps es →
      SchedRun bootName trampoline boot (schedYield s).1 ps es
  | tick {s ps es} : SchedRun bootName trampoline boot s ps es →
      SchedRun bootName trampoline boot (schedTick s).1 ps es
  | blockCurrent {s ps es} : SchedRun bootName trampoline boot s ps es →
      SchedRun bootName trampoline boot (threadBlockCurrent s).1 ps es
  | markReady {s ps es t} : SchedRun bootName trampoline boot s ps es → t = boot ∨ t ∈ ps →
      SchedRun bootName trampoline boot (threadMarkReady s (some t)).1 ps es

variable {bootName trampoline : UInt64} {boot : T} {ps es : List T}

theorem schedulerInit_inv (bootName : UInt64) (s : State T) (boot : T) :
    SchedInv boot [] [] [] boot .running (schedulerInit bootName s boot).1 := by
  refine ⟨rfl, rfl, rfl, ⟨Queue.empty, rfl⟩, fun t ht => ?_, fun t ht => ?_, by simp, by simp,
    by simp, Or.inl rfl, by simp⟩
  · obtain rfl : t = boot := by simpa using ht
    simp [schedulerInit]
  · obtain rfl : t = boot := by simpa using ht
    simp [schedulerInit, State.states, placeState]

theorem SchedRun.inv (h : SchedRun bootName trampoline boot s ps es) :
    ∃ q c, SchedInv boot ps es q c .running s := by
  induction h with
  | init s => exact ⟨[], boot, schedulerInit_inv bootName s boot⟩
  | @prepare s ps es t name entry arg stackBase stackSize id _ htb htp hok ih =>
      obtain ⟨q, c, hi⟩ := ih
      rcases threadPrepare_cases trampoline s t name entry arg stackBase stackSize id with
        ⟨rc, hrc, he⟩ | ⟨th, hm, hs, he⟩
      · exact absurd ((congrArg Prod.snd he).symm.trans hok) hrc
      · rw [he]
        exact ⟨q, c, hi.prepare htb htp hm hs⟩
  | enqueue _ htp hte ih =>
      obtain ⟨q, c, hi⟩ := ih
      obtain ⟨q', hi'⟩ := hi.enqueue htp hte
      exact ⟨q', c, hi'⟩
  | yield _ ih =>
      obtain ⟨q, c, hi⟩ := ih
      obtain ⟨s', q', c', he, hi'⟩ := hi.yield (Or.inl rfl)
      rw [he]
      exact ⟨q', c', hi'⟩
  | tick _ ih =>
      obtain ⟨q, c, hi⟩ := ih
      exact ⟨q, c, hi.tick⟩
  | blockCurrent _ ih =>
      obtain ⟨q, c, hi⟩ := ih
      exact hi.blockCurrent
  | markReady _ ht ih =>
      obtain ⟨q, c, hi⟩ := ih
      obtain ⟨q', hi'⟩ := hi.markReady ht
      exact ⟨q', c, hi'⟩

/-- Each enqueued thread is in one place: it is current and runs, or is once in the queue and
ready, or is blocked. -/
theorem SchedInv.place {c : T} (h : SchedInv boot ps es q c .running s) (ht : t ∈ es) :
    (t = c ∧ t ∉ q ∧ s.states t = .running) ∨
    (t ≠ c ∧ q.count t = 1 ∧ s.states t = .ready) ∨
    (t ≠ c ∧ t ∉ q ∧ s.states t = .blocked) := by
  have htp := h.enqueued_prepared t ht
  have htb : t ≠ boot := fun he => h.boot_not_prepared (he ▸ htp)
  rw [h.states t (Or.inr htp), placeState]
  by_cases htc : t = c
  · exact Or.inl ⟨htc, htc ▸ h.current_not_queued, if_pos htc⟩
  rw [if_neg htc, if_neg htb]
  by_cases htq : t ∈ q
  · exact Or.inr (Or.inl ⟨htc, List.count_eq_one_of_mem h.ready.queue.nodup htq, if_pos htq⟩)
  · exact Or.inr (Or.inr ⟨htc, htq, by rw [if_neg htq, if_pos ht]⟩)

theorem SchedInv.only_current_runs {c : T} (h : SchedInv boot ps es q c .running s)
    (ht : t = boot ∨ t ∈ ps) (hr : s.states t = .running) : t = boot ∨ t = c := by
  rw [h.states t ht, placeState] at hr
  by_cases htc : t = c
  · exact Or.inr htc
  by_cases htb : t = boot
  · exact Or.inl htb
  rw [if_neg htc, if_neg htb] at hr
  split_ifs at hr

/-- After any calls, no thread is lost and none is twice in the scheduler. -/
theorem schedRun_places (h : SchedRun bootName trampoline boot s ps es) :
    schedValidate s = schedOk ∧ s.sched.idle = some boot ∧
    ∃ q c, s.sched.current = some c ∧ (c = boot ∨ c ∈ es) ∧
      Linked (fun t => (s.threads t).next) s.sched.readyHead q ∧
      s.sched.readyTail = q.getLast? ∧ s.sched.runnableCount = q.length ∧
      boot ∉ q ∧ (∀ t ∈ q, t ∈ es) ∧
      (∀ t ∈ es,
        (t = c ∧ t ∉ q ∧ s.states t = .running) ∨
        (t ≠ c ∧ q.count t = 1 ∧ s.states t = .ready) ∨
        (t ≠ c ∧ t ∉ q ∧ s.states t = .blocked)) ∧
      (∀ t, t = boot ∨ t ∈ ps → s.states t = .running → t = boot ∨ t = c) := by
  obtain ⟨q, c, hi⟩ := h.inv
  exact ⟨hi.validate, hi.idle, q, c, hi.current, hi.current_enqueued, hi.ready.queue.linked,
    hi.ready.queue.last, hi.ready.count, hi.boot_not_queued, hi.queued_enqueued,
    fun t ht => hi.place ht, fun t ht hr => hi.only_current_runs ht hr⟩

/-- Memory before there is a scheduler. -/
def blankState : State Nat :=
  ⟨⟨none, none, none, none, 0, 0, 0, 0, false⟩,
    fun _ => ⟨0, 0, 0, .new, ⟨0, 0, 0, 0, 0, 0, 0, 0⟩, 0, 0, 0, 0, none, 0, 0, 0⟩⟩

/-- A second thread runs, blocks and is ready again. -/
theorem schedRun_places_woken : ∃ s', SchedRun 0 0 0 s' [1] [1] ∧
    schedValidate s' = schedOk := by
  have hinit : SchedRun 0 0 0 (schedulerInit 0 blankState 0).1 [] [] := SchedRun.init blankState
  have hprepare := hinit.prepare (t := 1) 0 1 0 4096 8192 1 (by decide) (by decide) rfl
  have henqueue := hprepare.enqueue (t := 1) (by decide) (by decide)
  have hrun := henqueue.yield.blockCurrent.markReady (t := 1) (Or.inr (by decide))
  exact ⟨_, hrun, (schedRun_places hrun).1⟩

end Mcsos.Sched
