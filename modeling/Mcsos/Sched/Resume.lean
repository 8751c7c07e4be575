import Mcsos.Sched.ContextSwitch
import Mcsos.Sched.SchedRuns

set_option autoImplicit false

/-! # Processor and scheduler together

A call of `mcsos_sched_yield` or `mcsos_thread_block_current` that picks another thread ends in a
call of `mcsos_context_switch`. Beside the scheduler, a run has the processor here, and for each
thread that does not run what it finds when it goes on. Code that runs in between may do anything,
but leaves the contexts and the return addresses of the threads that wait alone.
-/

namespace Mcsos.Sched

open Word64 X86

variable {T : Type} [DecidableEq T]

/-! ## The calls that switch -/

/-- The threads of the call of `mcsos_context_switch` in `mcsos_sched_yield`, if it comes to one. -/
def yieldCall (s : State T) : Option (T × T) :=
  match s.sched.current with
  | none => none
  | some old =>
    if ¬s.sched.initialized ∨ ¬validThreadObject s (some old) then none
    else
      match schedPickNext s with
      | (_, none) => none
      | (s, some next) =>
        if ¬validThreadObject s (some next) then none
        else if next = old then none
        else if (s.threads old).state = .running ∧ some old ≠ s.sched.idle then
          if (schedEnqueue (s.modify old fun th => { th with state := .ready }) (some old)).2 ≠
            schedOk then none else some (old, next)
        else some (old, next)

/-- The same for `mcsos_thread_block_current`. -/
def blockCall (s : State T) : Option (T × T) :=
  match s.sched.current with
  | none => none
  | some current =>
    if ¬s.sched.initialized ∨ ¬validThreadObject s (some current) then none
    else if some current = s.sched.idle then none
    else yieldCall (s.modify current fun th => { th with state := .blocked })

/-- A call by which a thread may give up the processor. -/
inductive GiveUp where
  | yield
  | block

def GiveUp.run : GiveUp → State T → State T
  | .yield, s => (schedYield s).1
  | .block, s => (threadBlockCurrent s).1

def GiveUp.call : GiveUp → State T → Option (T × T)
  | .yield, s => yieldCall s
  | .block, s => blockCall s

theorem schedPickNext_current (s : State T) :
    (schedPickNext s).1.sched.current = s.sched.current := by
  unfold schedPickNext
  split_ifs
  · split <;> rfl
  · rfl

theorem schedEnqueue_current (s : State T) (t : Option T) :
    (schedEnqueue s t).1.sched.current = s.sched.current := by
  cases t with
  | none => rfl
  | some t =>
      unfold schedEnqueue
      dsimp only
      split_ifs
      · rfl
      · rfl
      · unfold linkLast
        dsimp only
        split <;> rfl

theorem schedTick_current (s : State T) : (schedTick s).1.sched.current = s.sched.current := by
  unfold schedTick
  cases hcurrent : s.sched.current with
  | none => exact hcurrent
  | some current =>
      dsimp only
      split_ifs
      · exact hcurrent
      · exact hcurrent

theorem threadMarkReady_current (s : State T) (t : T) :
    (threadMarkReady s (some t)).1.sched.current = s.sched.current := by
  unfold threadMarkReady
  dsimp only
  split_ifs
  · rfl
  · exact schedEnqueue_current s (some t)
  · rfl

/-- The current thread before and after a call with this switch. -/
def CurrentAfter (s s' : State T) : Option (T × T) → Prop
  | none => s'.sched.current = s.sched.current
  | some (old, next) =>
    next ≠ old ∧ s.sched.current = some old ∧ s'.sched.current = some next

/-- The scheduler's current thread changes where the registers are switched, and only there. -/
theorem yieldCall_current (s : State T) : CurrentAfter s (schedYield s).1 (yieldCall s) := by
  unfold yieldCall schedYield
  cases hcurrent : s.sched.current with
  | none => rfl
  | some old =>
      dsimp only
      by_cases hguard : ¬s.sched.initialized ∨ ¬validThreadObject s (some old)
      · rw [if_pos hguard, if_pos hguard]
        rfl
      rw [if_neg hguard, if_neg hguard]
      have hpick := schedPickNext_current s
      rcases hres : schedPickNext s with ⟨s₁, _ | next⟩
      · rw [hres] at hpick
        exact hpick
      rw [hres] at hpick
      have henq := schedEnqueue_current (s₁.modify old fun th => { th with state := .ready })
        (some old)
      dsimp only at hpick henq ⊢
      by_cases hvalid : ¬validThreadObject s₁ (some next)
      · rw [if_pos hvalid, if_pos hvalid]
        exact hpick
      rw [if_neg hvalid, if_neg hvalid]
      by_cases hsame : next = old
      · rw [if_pos hsame, if_pos hsame]
        exact hpick
      rw [if_neg hsame, if_neg hsame]
      by_cases hrun : (s₁.threads old).state = .running ∧ some old ≠ s₁.sched.idle
      · rw [if_pos hrun, if_pos hrun]
        by_cases hrc : (schedEnqueue (s₁.modify old fun th => { th with state := .ready })
            (some old)).2 ≠ schedOk
        · rw [if_pos hrc, if_pos hrc]
          exact henq.trans hpick
        · rw [if_neg hrc, if_neg hrc]
          exact ⟨hsame, hcurrent, rfl⟩
      · rw [if_neg hrun, if_neg hrun]
        exact ⟨hsame, hcurrent, rfl⟩

theorem blockCall_current (s : State T) :
    CurrentAfter s (threadBlockCurrent s).1 (blockCall s) := by
  unfold blockCall threadBlockCurrent
  cases hcurrent : s.sched.current with
  | none => rfl
  | some old =>
      dsimp only
      by_cases hguard : ¬s.sched.initialized ∨ ¬validThreadObject s (some old)
      · rw [if_pos hguard, if_pos hguard]
        rfl
      rw [if_neg hguard, if_neg hguard]
      by_cases hidle : some old = s.sched.idle
      · rw [if_pos hidle, if_pos hidle]
        rfl
      rw [if_neg hidle, if_neg hidle]
      exact yieldCall_current (s.modify old fun th => { th with state := .blocked })

theorem GiveUp.current (g : GiveUp) (s : State T) : CurrentAfter s (g.run s) (g.call s) := by
  cases g with
  | yield => exact yieldCall_current s
  | block => exact blockCall_current s

/-! ## Runs -/

/-- The code of the switch, and the address of `thread->context` for each thread object. -/
structure Placement (T : Type) where
  prog : Program
  entry : UInt64
  resume : UInt64
  ctx : T → UInt64
  code : SwitchCode prog entry resume
  apart : ∀ t u, t ≠ u → Apart (ctx t) 64 (ctx u) 64

/-- The scheduler, the processor, and for each thread that waits for the processor what it finds
when it gets it. -/
structure Machine (T : Type) where
  state : State T
  cpu : Cpu
  resume : T → Option Context

section Runs

variable (L : Placement T)

/-- What other code may do while threads wait. -/
def Untouched (m : Machine T) (c' : Cpu) : Prop :=
  ∀ t r, m.resume t = some r →
    SameOn m.cpu.mem c'.mem (L.ctx t) 64 ∧ SameOn m.cpu.mem c'.mem (r.rsp - 8) 8

/-- The processor is about to call `mcsos_context_switch(&old->context, &next->context)`, with the
return address on the stack of `old`. -/
structure AtCall (m : Machine T) (old next : T) : Prop where
  rdi : m.cpu.regs .rdi = L.ctx old
  rsi : m.cpu.regs .rsi = L.ctx next
  outside : L.prog (load m.cpu.mem (m.cpu.regs .rsp)) = none
  stack : ∀ t, Apart (L.ctx t) 64 (m.cpu.regs .rsp) 8

/-- The code of the switch has been left. -/
def Switched (c : Cpu) (t : X86.State) : Prop :=
  Reaches L.prog ⟨c, L.entry⟩ t ∧ L.prog t.rip = none

/-- Runs of scheduler and processor. The calls are those of `SchedRun`; `work` is all other code. -/
inductive CpuRun (bootName trampoline : UInt64) (boot : T) : Machine T → List T → List T → Prop
  | init (s : State T) (c : Cpu) :
      CpuRun bootName trampoline boot ⟨(schedulerInit bootName s boot).1, c, fun _ => none⟩ [] []
  | work {m ps es c'} : CpuRun bootName trampoline boot m ps es → Untouched L m c' →
      CpuRun bootName trampoline boot { m with cpu := c' } ps es
  | prepare {m ps es t c'} (name entry arg stackBase stackSize id : UInt64) :
      CpuRun bootName trampoline boot m ps es → t ≠ boot → t ∉ ps →
      (threadPrepare trampoline m.state t name entry arg stackBase stackSize id).2 = schedOk →
      (∀ u, Apart (L.ctx u) 64 stackBase stackSize.toNat) → Untouched L m c' →
      contextAt c'.mem (L.ctx t) = ((threadPrepare trampoline m.state t name entry arg stackBase
        stackSize id).1.threads t).context →
      CpuRun bootName trampoline boot
        ⟨(threadPrepare trampoline m.state t name entry arg stackBase stackSize id).1, c',
          Function.update m.resume t (some (contextAt c'.mem (L.ctx t)))⟩ (t :: ps) es
  | enqueue {m ps es t} : CpuRun bootName trampoline boot m ps es → t ∈ ps → t ∉ es →
      CpuRun bootName trampoline boot { m with state := (schedEnqueue m.state (some t)).1 } ps
        (t :: es)
  | tick {m ps es} : CpuRun bootName trampoline boot m ps es →
      CpuRun bootName trampoline boot { m with state := (schedTick m.state).1 } ps es
  | markReady {m ps es t} : CpuRun bootName trampoline boot m ps es → t = boot ∨ t ∈ ps →
      CpuRun bootName trampoline boot { m with state := (threadMarkReady m.state (some t)).1 } ps es
  | stay {m ps es} (g : GiveUp) : CpuRun bootName trampoline boot m ps es →
      g.call m.state = none →
      CpuRun bootName trampoline boot { m with state := g.run m.state } ps es
  | switch {m ps es old next t} (g : GiveUp) : CpuRun bootName trampoline boot m ps es →
      g.call m.state = some (old, next) → AtCall L m old next → Switched L m.cpu t →
      CpuRun bootName trampoline boot
        ⟨g.run m.state, t.cpu,
          Function.update (Function.update m.resume old (some (callerOf m.cpu))) next none⟩ ps es

variable {L} {bootName trampoline : UInt64} {boot : T} {m : Machine T} {ps es : List T}

/-- The scheduler's part of a run. -/
theorem CpuRun.sched (h : CpuRun L bootName trampoline boot m ps es) :
    SchedRun bootName trampoline boot m.state ps es := by
  induction h with
  | init s c => exact .init s
  | work _ _ ih => exact ih
  | prepare name entry arg stackBase stackSize id _ htb htp hok _ _ _ ih =>
      exact ih.prepare name entry arg stackBase stackSize id htb htp hok
  | enqueue _ htp hte ih => exact ih.enqueue htp hte
  | tick _ ih => exact ih.tick
  | markReady _ ht ih => exact ih.markReady ht
  | stay g _ _ ih =>
      cases g with
      | yield => exact ih.yield
      | block => exact ih.blockCurrent
  | switch g _ _ _ _ ih =>
      cases g with
      | yield => exact ih.yield
      | block => exact ih.blockCurrent

/-! ## The threads that wait -/

/-- A thread that waits goes on as `r` says. -/
structure Waits (L : Placement T) (c : Cpu) (t : T) (r : Context) : Prop where
  outside : L.prog r.rip = none
  parked : Parked L.resume c.mem (L.ctx t) r
  slot : ∀ u, Apart (L.ctx u) 64 (r.rsp - 8) 8

/-- Every thread but the current one waits. -/
structure WaitInv (L : Placement T) (boot : T) (ps : List T) (m : Machine T) : Prop where
  waits : ∀ t r, m.resume t = some r → Waits L m.cpu t r
  known : ∀ t, t = boot ∨ t ∈ ps → m.state.sched.current ≠ some t → ∃ r, m.resume t = some r

omit [DecidableEq T] in
theorem Waits.same {c c' : Cpu} {t : T} {r : Context} (h : Waits L c t r)
    (hcontext : SameOn c.mem c'.mem (L.ctx t) 64) (hslot : SameOn c.mem c'.mem (r.rsp - 8) 8) :
    Waits L c' t r := ⟨h.outside, h.parked.same hcontext hslot, h.slot⟩

omit [DecidableEq T] in
/-- A call that leaves the current thread where it is. -/
theorem WaitInv.call (h : WaitInv L boot ps m) {s' : State T}
    (hs : s'.sched.current = m.state.sched.current) : WaitInv L boot ps { m with state := s' } :=
  ⟨h.waits, fun t ht hne => h.known t ht (hs ▸ hne)⟩

omit [DecidableEq T] in
theorem WaitInv.work (h : WaitInv L boot ps m) {c' : Cpu} (hc : Untouched L m c') :
    WaitInv L boot ps { m with cpu := c' } :=
  ⟨fun t r hr => (h.waits t r hr).same (hc t r hr).1 (hc t r hr).2, h.known⟩

omit [DecidableEq T] in
/-- The switch of a waiting thread against the caller. -/
theorem WaitInv.resumes (h : WaitInv L boot ps m) {old next : T} {r : Context}
    (hne : next ≠ old) (hr : m.resume next = some r) (hat : AtCall L m old next) :
    ∃ c', Reaches L.prog ⟨m.cpu, L.entry⟩ ⟨c', r.rip⟩ ∧ contextOf c' r.rip = r ∧
      Parked L.resume c'.mem (L.ctx old) (callerOf m.cpu) ∧
      ∀ b, 64 ≤ (b - L.ctx old).toNat → c'.mem b = m.cpu.mem b := by
  have hw := h.waits next r hr
  have hswitch := switch_resumes (c := m.cpu) (r := r) L.code
    (by rw [hat.rdi, hat.rsi]; exact L.apart old next (Ne.symm hne))
    (by rw [hat.rdi]; exact hat.stack old) (by rw [hat.rsi]; exact hw.parked)
    (by rw [hat.rdi]; exact hw.slot old)
  rwa [hat.rdi] at hswitch

/-- The caller waits now, in place of the thread that goes on. -/
theorem WaitInv.switch (h : WaitInv L boot ps m) {s' : State T} {old next : T} {t : X86.State}
    (hcurrent : CurrentAfter m.state s' (some (old, next))) {r : Context}
    (hr : m.resume next = some r) (hat : AtCall L m old next) (ht : Switched L m.cpu t) :
    WaitInv L boot ps ⟨s', t.cpu,
      Function.update (Function.update m.resume old (some (callerOf m.cpu))) next none⟩ := by
  obtain ⟨hne, hold, hnext⟩ := hcurrent
  obtain ⟨c', hrun, -, hcaller, hframe⟩ := h.resumes hne hr hat
  obtain rfl : t = ⟨c', r.rip⟩ := ht.1.unique hrun ht.2 (h.waits next r hr).outside
  have hback : (callerOf m.cpu).rsp - 8 = m.cpu.regs .rsp := UInt64.add_sub_cancel _ _
  refine ⟨fun u q hu => ?_, fun u hu hcur => ?_⟩
  · dsimp only at hu ⊢
    have hun : u ≠ next := fun he => by
      rw [he, Function.update_self] at hu
      cases hu
    rw [Function.update_of_ne hun] at hu
    by_cases huo : u = old
    · rw [huo, Function.update_self] at hu
      obtain rfl := Option.some.inj hu
      rw [huo]
      exact ⟨hat.outside, hcaller, fun v => by rw [hback]; exact hat.stack v⟩
    · rw [Function.update_of_ne huo] at hu
      have hw := h.waits u q hu
      exact hw.same (fun i hi => hframe _ ((L.apart old u (Ne.symm huo)).byte hi))
        (fun i hi => hframe _ ((hw.slot old).byte hi))
  · have hun : u ≠ next := fun he => hcur (he ▸ hnext)
    by_cases huo : u = old
    · exact ⟨callerOf m.cpu, by simp [huo, Ne.symm hne]⟩
    · obtain ⟨q, hq⟩ := h.known u hu fun he => huo (Option.some.inj (he.symm.trans hold))
      exact ⟨q, by simp [hun, huo, hq]⟩

/-- Where a new thread starts: at the trampoline, with a stack pointer 16 bytes at least above the
base of its stack. -/
theorem threadPrepare_context {s : State T} {t : T}
    {name entry arg stackBase stackSize id : UInt64}
    (hok : (threadPrepare trampoline s t name entry arg stackBase stackSize id).2 = schedOk) :
    ∃ rsp, ((threadPrepare trampoline s t name entry arg stackBase stackSize id).1.threads
        t).context = { zeroContext with rsp := rsp, rip := trampoline } ∧
      ∃ d, rsp - 8 = stackBase + UInt64.ofNat d ∧ d + 8 ≤ stackSize.toNat := by
  unfold threadPrepare at hok ⊢
  dsimp only at hok ⊢
  by_cases h1 : entry = 0 ∨ stackBase = 0
  · rw [if_pos h1] at hok
    cases hok
  rw [if_neg h1] at hok ⊢
  by_cases h2 : stackSize < minKernelStack
  · rw [if_pos h2] at hok
    cases hok
  rw [if_neg h2] at hok ⊢
  by_cases h3 : stackBase + stackSize ≤ stackBase
  · rw [if_pos h3] at hok
    cases hok
  rw [if_neg h3] at hok ⊢
  set top := alignDown (stackBase + stackSize) stackAlign with htop
  by_cases h4 : top ≤ stackBase + 128
  · rw [if_pos h4] at hok
    cases hok
  rw [if_neg h4]
  refine ⟨top - 8, by rw [modify_same], ?_⟩
  have hle : top ≤ stackBase + stackSize := UInt64.and_le_left
  have hlow := stackBase.toNat_lt
  have hsize := stackSize.toNat_lt
  have hmin : 4096 ≤ stackSize.toNat := by
    have := UInt64.not_lt.mp h2
    rwa [minKernelStack, UInt64.le_iff_toNat_le] at this
  rw [UInt64.not_le, UInt64.lt_iff_toNat_lt, UInt64.toNat_add] at h3 h4
  rw [UInt64.le_iff_toNat_le, UInt64.toNat_add] at hle
  have h128 : (128 : UInt64).toNat = 128 := rfl
  refine ⟨top.toNat - 16 - stackBase.toNat, ?_, by omega⟩
  have h8 : (8 : UInt64).toNat = 8 := rfl
  refine UInt64.toNat_inj.mp ?_
  rw [UInt64.toNat_sub, UInt64.toNat_sub, UInt64.toNat_add, UInt64.toNat_ofNat']
  omega

theorem WaitInv.prepare (h : WaitInv L boot ps m) {t : T} {c' : Cpu}
    {name entry arg stackBase stackSize id : UInt64} (htramp : L.prog trampoline = none)
    (hok : (threadPrepare trampoline m.state t name entry arg stackBase stackSize id).2 = schedOk)
    (hstack : ∀ u, Apart (L.ctx u) 64 stackBase stackSize.toNat) (hc : Untouched L m c')
    (hcontext : contextAt c'.mem (L.ctx t) = ((threadPrepare trampoline m.state t name entry arg
      stackBase stackSize id).1.threads t).context) :
    WaitInv L boot (t :: ps)
      ⟨(threadPrepare trampoline m.state t name entry arg stackBase stackSize id).1, c',
        Function.update m.resume t (some (contextAt c'.mem (L.ctx t)))⟩ := by
  obtain ⟨rsp, hnew, d, hd, hfit⟩ := threadPrepare_context hok
  refine ⟨fun u r hu => ?_, fun u hu hcur => ?_⟩
  · dsimp only at hu ⊢
    by_cases hut : u = t
    · subst hut
      rw [Function.update_self] at hu
      obtain rfl := Option.some.inj hu
      refine ⟨?_, Or.inl rfl, fun v => ?_⟩
      · rw [hcontext, hnew]
        exact htramp
      · rw [hcontext, hnew]
        dsimp only
        rw [hd]
        exact (hstack v).sub (by decide) hfit
    · rw [Function.update_of_ne hut] at hu
      exact (h.waits u r hu).same (hc u r hu).1 (hc u r hu).2
  · dsimp only at hcur ⊢
    by_cases hut : u = t
    · exact ⟨_, by rw [hut, Function.update_self]⟩
    · rw [Function.update_of_ne hut]
      refine h.known u (hu.imp_right fun hm => (List.mem_cons.mp hm).resolve_left hut) fun he => ?_
      rcases threadPrepare_cases trampoline m.state t name entry arg stackBase stackSize id with
        ⟨rc, hrc, hres⟩ | ⟨th, -, -, hres⟩
      · exact hrc ((congrArg Prod.snd hres).symm.trans hok)
      · rw [hres] at hcur
        exact hcur he

theorem CpuRun.current (h : CpuRun L bootName trampoline boot m ps es) {c : T}
    (hc : m.state.sched.current = some c) : c = boot ∨ c ∈ ps := by
  obtain ⟨q, c', hi⟩ := h.sched.inv
  obtain rfl := Option.some.inj (hc.symm.trans hi.current)
  exact hi.current_thread

/-- The thread that a call gives the processor to waits. -/
theorem CpuRun.next (h : CpuRun L bootName trampoline boot m ps es) (hi : WaitInv L boot ps m)
    {g : GiveUp} {old next : T} (hcall : g.call m.state = some (old, next)) :
    ∃ r, m.resume next = some r := by
  have hcurrent := g.current m.state
  rw [hcall] at hcurrent
  obtain ⟨hne, hold, hnext⟩ := hcurrent
  refine hi.known next ?_ fun he => hne (Option.some.inj (he.symm.trans hold))
  have hafter : SchedRun bootName trampoline boot (g.run m.state) ps es := by
    cases g with
    | yield => exact h.sched.yield
    | block => exact h.sched.blockCurrent
  obtain ⟨q, c', hi'⟩ := hafter.inv
  obtain rfl := Option.some.inj (hnext.symm.trans hi'.current)
  exact hi'.current_thread

theorem CpuRun.waits (h : CpuRun L bootName trampoline boot m ps es)
    (htramp : L.prog trampoline = none) : WaitInv L boot ps m := by
  induction h with
  | init s c =>
      refine ⟨fun t r hr => (nomatch hr), fun t ht hne => ?_⟩
      obtain rfl : t = boot := by simpa using ht
      exact absurd rfl hne
  | work _ hc ih => exact ih.work hc
  | prepare name entry arg stackBase stackSize id _ _ _ hok hstack hc hcontext ih =>
      exact ih.prepare htramp hok hstack hc hcontext
  | enqueue _ _ _ ih => exact ih.call (schedEnqueue_current _ _)
  | @tick m ps es _ ih => exact ih.call (schedTick_current m.state)
  | @markReady m ps es t _ _ ih => exact ih.call (threadMarkReady_current m.state t)
  | @stay m ps es g _ hcall ih =>
      have hcurrent := g.current m.state
      rw [hcall] at hcurrent
      exact ih.call hcurrent
  | @switch m ps es old next t g hrun hcall hat ht ih =>
      obtain ⟨r, hr⟩ := hrun.next ih hcall
      exact ih.switch (hcall ▸ g.current m.state) hr hat ht

/-- However many threads have run in between: a thread that gets the processor goes on with the
stack pointer, the registers and the return address it had when it gave the processor up, or at the
trampoline with its new stack, and nothing in memory has changed but the context of the caller. -/
theorem cpuRun_resumes (h : CpuRun L bootName trampoline boot m ps es)
    (htramp : L.prog trampoline = none) {g : GiveUp} {old next : T}
    (hcall : g.call m.state = some (old, next)) (hat : AtCall L m old next) :
    ∃ r, m.resume next = some r ∧ (∃ t, Switched L m.cpu t) ∧
      ∀ t, Switched L m.cpu t → contextOf t.cpu t.rip = r ∧
        ∀ b, 64 ≤ (b - L.ctx old).toNat → t.cpu.mem b = m.cpu.mem b := by
  have hi := h.waits htramp
  obtain ⟨r, hr⟩ := h.next hi hcall
  have hne : next ≠ old := by
    have hcurrent := g.current m.state
    rw [hcall] at hcurrent
    exact hcurrent.1
  obtain ⟨c', hrun, hcontext, -, hframe⟩ := hi.resumes hne hr hat
  have hout := (hi.waits next r hr).outside
  refine ⟨r, hr, ⟨⟨c', r.rip⟩, hrun, hout⟩, fun t ht => ?_⟩
  obtain rfl : t = ⟨c', r.rip⟩ := ht.1.unique hrun ht.2 hout
  exact ⟨hcontext, hframe⟩

end Runs

/-- The code at `0x1000`, with four bytes for each instruction. -/
def smallProgram : Program := fun a =>
  if a < 0x1000 ∨ a % 4 ≠ 0 then none
  else ((contextSwitch 0x1044 ++ [.ret])[((a - 0x1000) / 4).toNat]?).map fun i => (i, a + 4)

/-- Two threads. -/
def smallPlacement : Placement Bool where
  prog := smallProgram
  entry := 0x1000
  resume := 0x1044
  ctx t := if t then 0x20040 else 0x20000
  code :=
    { body := by
        unfold contextSwitch contextSwitchSave contextSwitchLoad
        repeat' first | exact .nil _ | refine .cons rfl ?_
      label := ⟨0x1048, rfl⟩ }
  apart := by
    unfold Apart
    decide

/-- A processor of the boot thread, about to call the switch for the first time, with the return
address `0x3000`; the second context in memory is that of a new thread. -/
def smallCpu : Cpu where
  regs r := if r = .rdi then 0x20000 else if r = .rsi then 0x20040 else 0x40000
  mem := store (store (store (fun _ => 0) 0x20040 0x30ff8) 0x20078 0x2000) 0x40000 0x3000
  rflags := 0x202
  cs := 8
  ss := 16

/-- The registers of the new thread, about to call the switch on its own stack. -/
def smallRegs (r : Reg) : UInt64 :=
  if r = .rdi then 0x20040 else if r = .rsi then 0x20000 else 0x30f00

/-- The first switch goes to the new thread, which works on its stack and yields too. The second one
goes back, and the boot thread has its stack pointer and registers again, behind its call. -/
theorem cpuRun_resumes_small : ∃ m ps es, CpuRun smallPlacement 0 0x2000 false m ps es ∧
    m.state.sched.current = some true ∧ m.cpu.regs = smallRegs ∧
    ∃ t, Switched smallPlacement m.cpu t ∧ t.rip = 0x3000 ∧ t.cpu.regs .rsp = 0x40008 ∧
      t.cpu.regs .rbx = 0x40000 := by
  have hinit : CpuRun smallPlacement 0 0x2000 false
      ⟨(schedulerInit 0 ⟨⟨none, none, none, none, 0, 0, 0, 0, false⟩, fun _ =>
        ⟨0, 0, 0, .new, zeroContext, 0, 0, 0, 0, none, 0, 0, 0⟩⟩ false).1, smallCpu,
        fun _ => none⟩ [] [] := .init _ _
  have hcontext : contextAt smallCpu.mem (smallPlacement.ctx true) =
      ⟨0x30ff8, 0, 0, 0, 0, 0, 0, 0x2000⟩ := by
    rw [contextAt, Context.mk.injEq]
    decide +kernel
  have hprepare := hinit.prepare (t := true) 0 1 0 0x30000 4096 1 (by decide)
    (by decide) rfl (by unfold Apart; decide)
    (show Untouched smallPlacement _ smallCpu from
      fun _ r hr => absurd hr.symm (Option.some_ne_none r))
    (by rw [hcontext]; rfl)
  have hrun := hprepare.enqueue (t := true) (by decide) (by decide)
  obtain ⟨r, -, ⟨t, ht⟩, hall⟩ := cpuRun_resumes hrun rfl
    (show GiveUp.yield.call _ = some (false, true) from rfl)
    ⟨rfl, rfl, by decide +kernel, by unfold Apart; decide⟩
  have hmem := (hall t ht).2
  -- the first switch has left alone the slot of the address that the second call returns to
  have hslot : SameOn smallCpu.mem t.cpu.mem 0x30f00 8 := fun i hi =>
    hmem _ ((show Apart 0x20000 64 0x30f00 8 by unfold Apart; decide).byte hi)
  have hreturn : smallPlacement.prog (load t.cpu.mem 0x30f00) = none := by
    rw [hslot.load]
    decide +kernel
  have hstack : ∀ u, Apart (smallPlacement.ctx u) 64 0x30f00 8 := by
    unfold Apart
    decide
  have hswitched := hrun.switch .yield rfl
    ⟨rfl, rfl, by decide +kernel, by unfold Apart; decide⟩ ht
  have hwork := hswitched.work (show Untouched smallPlacement _ { t.cpu with regs := smallRegs } from
    fun _ _ _ => ⟨fun _ _ => rfl, fun _ _ => rfl⟩)
  refine ⟨_, _, _, hwork, rfl, rfl, ?_⟩
  obtain ⟨r', hr', ⟨t', ht'⟩, hall'⟩ := cpuRun_resumes hwork rfl
    (show GiveUp.yield.call _ = some (true, false) from rfl)
    ⟨rfl, rfl, hreturn, hstack⟩
  obtain rfl : callerOf smallCpu = r' := Option.some.inj hr'
  have hback := (hall' t' ht').1
  have hrip : (callerOf smallCpu).rip = 0x3000 := by
    show load smallCpu.mem 0x40000 = 0x3000
    decide +kernel
  exact ⟨t', ht', (congrArg Context.rip hback).trans hrip, congrArg Context.rsp hback,
    congrArg Context.rbx hback⟩

end Mcsos.Sched
