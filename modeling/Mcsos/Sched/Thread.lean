import Mathlib.Tactic

set_option autoImplicit false

/-! # The scheduler (`kernel/mcsos_thread.c`)

Threads are objects in memory, and `T` is the type of their addresses; a pointer is an `Option T`.
The scheduler keeps the running thread, the idle thread, and a queue of ready threads that is
linked through the thread objects. `runnable_count` is a `Nat`: it counts thread objects, of which
the address space has fewer than `2 ^ 64`.
-/

namespace Mcsos.Sched

def schedOk : Int := 0
def schedEinval : Int := -1
def schedEstate : Int := -2
def schedEstack : Int := -3
def schedEcorrupt : Int := -4

def threadMagic : UInt64 := 0x4d43534f53544852
def stackAlign : UInt64 := 16
def minKernelStack : UInt64 := 4096

/-- `mcsos_thread_state_t`. -/
inductive ThreadState where
  | new
  | ready
  | running
  | blocked
  | zombie
  deriving DecidableEq

/-- `mcsos_context_t`. -/
structure Context where
  rsp : UInt64
  rbp : UInt64
  rbx : UInt64
  r12 : UInt64
  r13 : UInt64
  r14 : UInt64
  r15 : UInt64
  rip : UInt64

/-- `mcsos_thread_t`; `name`, `entry`, `arg` and `stackBase` are addresses. -/
structure Thread (T : Type) where
  magic : UInt64
  id : UInt64
  name : UInt64
  state : ThreadState
  context : Context
  entry : UInt64
  arg : UInt64
  stackBase : UInt64
  stackSize : UInt64
  next : Option T
  switches : UInt64
  ticks : UInt64
  exitCode : Int32

/-- `mcsos_scheduler_t`. -/
structure Scheduler (T : Type) where
  current : Option T
  idle : Option T
  readyHead : Option T
  readyTail : Option T
  nextId : UInt64
  runnableCount : Nat
  contextSwitches : UInt64
  ticks : UInt64
  initialized : Bool

/-- The scheduler and the thread objects. -/
structure State (T : Type) where
  sched : Scheduler T
  threads : T → Thread T

section Operations

variable {T : Type}

def State.modifySched (s : State T) (f : Scheduler T → Scheduler T) : State T :=
  { s with sched := f s.sched }

def validThreadObject (s : State T) : Option T → Bool
  | none => false
  | some t => (s.threads t).magic == threadMagic

def zeroContext : Context := ⟨0, 0, 0, 0, 0, 0, 0, 0⟩

/-- `value & ~(alignment - 1)`. -/
def alignDown (value alignment : UInt64) : UInt64 := value &&& ~~~(alignment - 1)

variable [DecidableEq T]

/-- Change thread object `t`. -/
def State.modify (s : State T) (t : T) (f : Thread T → Thread T) : State T :=
  { s with threads := Function.update s.threads t (f (s.threads t)) }

omit [DecidableEq T] in
@[simp] theorem modifySched_sched (s : State T) (f : Scheduler T → Scheduler T) :
    (s.modifySched f).sched = f s.sched := rfl

omit [DecidableEq T] in
@[simp] theorem modifySched_threads (s : State T) (f : Scheduler T → Scheduler T) :
    (s.modifySched f).threads = s.threads := rfl

@[simp] theorem modify_sched (s : State T) (t : T) (f : Thread T → Thread T) :
    (s.modify t f).sched = s.sched := rfl

/-- `mcsos_scheduler_init`; `bootName` is the address of `"boot"`. -/
def schedulerInit (bootName : UInt64) (s : State T) (boot : T) : State T × Int :=
  let bootThread : Thread T :=
    { magic := threadMagic, id := 0, name := bootName, state := .running, context := zeroContext,
      entry := 0, arg := 0, stackBase := 0, stackSize := 0, next := none, switches := 0,
      ticks := 0, exitCode := 0 }
  ({ sched :=
      { current := some boot, idle := some boot, readyHead := none, readyTail := none,
        nextId := 1, runnableCount := 0, contextSwitches := 0, ticks := 0, initialized := true }
     threads := Function.update s.threads boot bootThread }, schedOk)

/-- `mcsos_thread_prepare`; `trampoline` is the address of `mcsos_thread_trampoline`. The zero it
pushes on the new stack is left out. -/
def threadPrepare (trampoline : UInt64) (s : State T) (thread : T)
    (name entry arg stackBase stackSize id : UInt64) : State T × Int :=
  if entry = 0 ∨ stackBase = 0 then (s, schedEinval)
  else if stackSize < minKernelStack then (s, schedEstack)
  else
    let low := stackBase
    let high := low + stackSize
    if high ≤ low then (s, schedEstack)
    else
      let top := alignDown high stackAlign
      if top ≤ low + 128 then (s, schedEstack)
      else
        let top := top - 8
        (s.modify thread fun _ =>
          { magic := threadMagic, id := id, name := name, state := .new,
            context := { zeroContext with rsp := top, rip := trampoline },
            entry := entry, arg := arg, stackBase := stackBase, stackSize := stackSize,
            next := none, switches := 0, ticks := 0, exitCode := 0 }, schedOk)

/-- The end of `mcsos_sched_enqueue`: link the thread behind the last one, and count it. -/
def linkLast (s : State T) (t : T) : State T :=
  let s :=
    match s.sched.readyTail with
    | none => s.modifySched fun sc => { sc with readyHead := some t, readyTail := some t }
    | some tail =>
      let s := s.modify tail fun th => { th with next := some t }
      s.modifySched fun sc => { sc with readyTail := some t }
  s.modifySched fun sc => { sc with runnableCount := sc.runnableCount + 1 }

/-- `mcsos_sched_enqueue`. -/
def schedEnqueue (s : State T) : Option T → State T × Int
  | none => (s, schedEinval)
  | some t =>
    if ¬s.sched.initialized ∨ ¬validThreadObject s (some t) then (s, schedEinval)
    else if (s.threads t).state ≠ .new ∧ (s.threads t).state ≠ .ready ∧
        (s.threads t).state ≠ .blocked then (s, schedEstate)
    else (linkLast (s.modify t fun th => { th with state := .ready, next := none }) t, schedOk)

/-- The end of `mcsos_sched_pick_next`: the first thread leaves the queue. -/
def unlinkFirst (s : State T) (t : T) : State T :=
  let head := (s.threads t).next
  let s := s.modifySched fun sc =>
    { sc with readyHead := head, readyTail := if head = none then none else sc.readyTail }
  let s := s.modify t fun th => { th with next := none }
  s.modifySched fun sc => { sc with runnableCount := sc.runnableCount - 1 }

/-- `mcsos_sched_pick_next`. -/
def schedPickNext (s : State T) : State T × Option T :=
  if ¬s.sched.initialized then (s, none)
  else
    match s.sched.readyHead with
    | none => (s, s.sched.idle)
    | some t => (unlinkFirst s t, some t)

/-- The end of `mcsos_sched_yield`, which gives the processor to `next`. The switch of the
registers is left out. -/
def switchTo (s : State T) (old next : T) : State T :=
  let s := s.modify next fun th => { th with state := .running }
  let s := s.modifySched fun sc => { sc with current := some next }
  let s := s.modify old fun th => { th with switches := th.switches + 1 }
  let s := s.modify next fun th => { th with switches := th.switches + 1 }
  s.modifySched fun sc => { sc with contextSwitches := sc.contextSwitches + 1 }

/-- `mcsos_sched_yield`. -/
def schedYield (s : State T) : State T × Int :=
  match s.sched.current with
  | none => (s, schedEinval)
  | some old =>
    if ¬s.sched.initialized ∨ ¬validThreadObject s (some old) then (s, schedEinval)
    else
      match schedPickNext s with
      | (s, none) => (s, schedEcorrupt)
      | (s, some next) =>
        if ¬validThreadObject s (some next) then (s, schedEcorrupt)
        else if next = old then (s.modify old fun th => { th with state := .running }, schedOk)
        else if (s.threads old).state = .running ∧ some old ≠ s.sched.idle then
          let (s, rc) :=
            schedEnqueue (s.modify old fun th => { th with state := .ready }) (some old)
          if rc ≠ schedOk then (s, rc) else (switchTo s old next, schedOk)
        else (switchTo s old next, schedOk)

/-- `mcsos_sched_tick`. -/
def schedTick (s : State T) : State T × Int :=
  match s.sched.current with
  | none => (s, schedEinval)
  | some current =>
    if ¬s.sched.initialized ∨ ¬validThreadObject s (some current) then (s, schedEinval)
    else
      let s := s.modifySched fun sc => { sc with ticks := sc.ticks + 1 }
      (s.modify current fun th => { th with ticks := th.ticks + 1 }, schedOk)

/-- `mcsos_thread_block_current`. -/
def threadBlockCurrent (s : State T) : State T × Int :=
  match s.sched.current with
  | none => (s, schedEinval)
  | some current =>
    if ¬s.sched.initialized ∨ ¬validThreadObject s (some current) then (s, schedEinval)
    else if some current = s.sched.idle then (s, schedEstate)
    else schedYield (s.modify current fun th => { th with state := .blocked })

/-- `mcsos_thread_mark_ready`. -/
def threadMarkReady (s : State T) : Option T → State T × Int
  | none => (s, schedEinval)
  | some t =>
    if ¬validThreadObject s (some t) then (s, schedEinval)
    else if (s.threads t).state ≠ .blocked then (s, schedEstate)
    else schedEnqueue s (some t)

/-- `turns` turns of the loop of `mcsos_sched_ready_count`; `none` when it is not at its end then. -/
def readyCountLoop (s : State T) : (turns : Nat) → (cursor : Option T) → (count : Nat) → Option Nat
  | _, none, count => some count
  | 0, some _, _ => none
  | turns + 1, some t, count => readyCountLoop s turns (s.threads t).next (count + 1)

/-- `mcsos_sched_ready_count`, if it needs no more than `turns` turns. -/
def schedReadyCount (s : State T) (turns : Nat) : Option Nat :=
  if ¬s.sched.initialized then some 0 else readyCountLoop s turns s.sched.readyHead 0

/-- The loop of `mcsos_sched_validate`: the last node and their number, or an error. -/
def validateLoop (s : State T) (cursor last : Option T) (count : Nat) :
    Except Int (Option T × Nat) :=
  match cursor with
  | none => .ok (last, count)
  | some t =>
    if ¬validThreadObject s (some t) ∨ (s.threads t).state ≠ .ready then .error schedEcorrupt
    else if some t = s.sched.current then .error schedEcorrupt
    else if count + 1 > s.sched.runnableCount + 1 then .error schedEcorrupt
    else validateLoop s (s.threads t).next (some t) (count + 1)
  termination_by s.sched.runnableCount + 2 - count

/-- `mcsos_sched_validate`. -/
def schedValidate (s : State T) : Int :=
  if ¬s.sched.initialized ∨ ¬validThreadObject s s.sched.current then schedEinval
  else
    match validateLoop s s.sched.readyHead none 0 with
    | .error rc => rc
    | .ok (last, count) =>
      if last ≠ s.sched.readyTail then schedEcorrupt
      else if count ≠ s.sched.runnableCount then schedEcorrupt
      else schedOk

end Operations

end Mcsos.Sched
