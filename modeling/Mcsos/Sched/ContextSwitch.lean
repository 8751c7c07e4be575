import Mcsos.Lib.X86
import Mcsos.Sched.Thread

set_option autoImplicit false

/-! # The context switch (`arch/x86_64/context_switch.S`)

`mcsos_context_switch` is called with the context of the thread that gives up the processor in `rdi`
and the one of the thread that gets it in `rsi`. It saves the registers that a call has to keep,
with its own label `1:` as the place to go on from, loads those of the other thread, and jumps to
where that one goes on: to the `ret` at the label, or to the trampoline of a new thread.
-/

namespace Mcsos.Sched

open Word64 X86

/-! ## The code -/

/-- `resume` is the address of the label `1:`. -/
def contextSwitchSave (resume : UInt64) : List Instr :=
  [.lea .rax resume,
    .store .rsp 0 .rdi,
    .store .rbp 8 .rdi,
    .store .rbx 16 .rdi,
    .store .r12 24 .rdi,
    .store .r13 32 .rdi,
    .store .r14 40 .rdi,
    .store .r15 48 .rdi,
    .store .rax 56 .rdi]

def contextSwitchLoad : List Instr :=
  [.load 0 .rsi .rsp,
    .load 8 .rsi .rbp,
    .load 16 .rsi .rbx,
    .load 24 .rsi .r12,
    .load 32 .rsi .r13,
    .load 40 .rsi .r14,
    .load 48 .rsi .r15]

/-- `mcsos_context_switch` up to its label. -/
def contextSwitch (resume : UInt64) : List Instr :=
  contextSwitchSave resume ++ contextSwitchLoad ++ [.jmpMem 56 .rsi]

/-- The function lies at `entry`, with its label at `resume`. -/
structure SwitchCode (prog : Program) (entry resume : UInt64) : Prop where
  body : Laid prog entry (contextSwitch resume) resume
  label : ∃ after, prog resume = some (.ret, after)

/-! ## Contexts -/

/-- The context in memory at `a`. -/
def contextAt (m : Mem) (a : UInt64) : Context :=
  ⟨load m (a + UInt64.ofNat 0), load m (a + UInt64.ofNat 8), load m (a + UInt64.ofNat 16),
    load m (a + UInt64.ofNat 24), load m (a + UInt64.ofNat 32), load m (a + UInt64.ofNat 40),
    load m (a + UInt64.ofNat 48), load m (a + UInt64.ofNat 56)⟩

/-- The registers of a processor that a call has to keep, and where it is. -/
def contextOf (c : Cpu) (rip : UInt64) : Context :=
  ⟨c.regs .rsp, c.regs .rbp, c.regs .rbx, c.regs .r12, c.regs .r13, c.regs .r14, c.regs .r15, rip⟩

theorem contextAt_same {m m' : Mem} {a : UInt64} (h : SameOn m m' a 64) :
    contextAt m' a = contextAt m a := by
  unfold contextAt
  rw [h.load_at (by omega), h.load_at (by omega), h.load_at (by omega), h.load_at (by omega),
    h.load_at (by omega), h.load_at (by omega), h.load_at (by omega), h.load_at (by omega)]

/-! ## Saving and loading -/

section Code

variable {resume : UInt64} {c : Cpu}

/-- The memory after the stores: the context at `rdi` is that of the caller. -/
theorem save_context (resume : UInt64) (c : Cpu) :
    contextAt (effects (contextSwitchSave resume) c).mem (c.regs .rdi) = contextOf c resume := by
  have hne : ∀ r : Reg, r ≠ .rax → (c.set .rax resume).regs r = c.regs r := fun r hr =>
    Cpu.set_ne c resume hr
  simp only [contextSwitchSave, effects_cons, effects_nil, Instr.effect, Cpu.write_regs,
    Cpu.write_mem, Cpu.set_mem, Cpu.set_self, hne .rdi (by decide), hne .rsp (by decide),
    hne .rbp (by decide), hne .rbx (by decide), hne .r12 (by decide), hne .r13 (by decide),
    hne .r14 (by decide), hne .r15 (by decide)]
  unfold contextAt contextOf
  simp (disch := omega) only [load_store_same, load_store_offset]

theorem save_regs (resume : UInt64) (c : Cpu) {r : Reg} (hr : r ≠ .rax) :
    (effects (contextSwitchSave resume) c).regs r = c.regs r := by
  simp only [contextSwitchSave, effects_cons, effects_nil, Instr.effect, Cpu.write_regs]
  exact Cpu.set_ne c resume hr

/-- The stores are all to the 64 bytes of the context. -/
theorem save_frame (resume : UInt64) (c : Cpu) {b : UInt64} (h : 64 ≤ (b - c.regs .rdi).toNat) :
    (effects (contextSwitchSave resume) c).mem b = c.mem b := by
  have hrdi : (c.set .rax resume).regs .rdi = c.regs .rdi := Cpu.set_ne c resume (by decide)
  simp only [contextSwitchSave, effects_cons, effects_nil, Instr.effect, Cpu.write_regs,
    Cpu.write_mem, Cpu.set_mem, hrdi]
  simp (disch := omega) only [store_outside h]

/-- Each load reads the context at `rsi`, which the loads before it have left alone. -/
theorem load_context (c : Cpu) (rip : UInt64) :
    contextOf (effects contextSwitchLoad c) rip = { contextAt c.mem (c.regs .rsi) with rip := rip } := by
  simp [contextSwitchLoad, Instr.effect, contextOf, contextAt, Cpu.set, Cpu.word]

theorem load_kept (c : Cpu) :
    (effects contextSwitchLoad c).mem = c.mem ∧
      (effects contextSwitchLoad c).regs .rsi = c.regs .rsi := by
  refine ⟨rfl, ?_⟩
  simp [contextSwitchLoad, Instr.effect, Cpu.set]

end Code

/-! ## One switch -/

section Switch

variable {prog : Program} {entry resume : UInt64} {c : Cpu}

/-- The function up to its label: the context at `rdi` is that of the caller, the one at `rsi` has
been loaded, and no byte of memory outside of the first has changed. -/
theorem switch_body (hcode : SwitchCode prog entry resume)
    (hapart : Apart (c.regs .rdi) 64 (c.regs .rsi) 64) :
    ∃ c', Reaches prog ⟨c, entry⟩ ⟨c', (contextAt c.mem (c.regs .rsi)).rip⟩ ∧
      contextOf c' (contextAt c.mem (c.regs .rsi)).rip = contextAt c.mem (c.regs .rsi) ∧
      contextAt c'.mem (c.regs .rdi) = contextOf c resume ∧
      ∀ b, 64 ≤ (b - c.regs .rdi).toNat → c'.mem b = c.mem b := by
  obtain ⟨b₂, hstraight, hjump⟩ := hcode.body.split
  obtain ⟨b₁, hsave, hload⟩ := hstraight.split
  set c₁ := effects (contextSwitchSave resume) c with hc₁
  set c₂ := effects contextSwitchLoad c₁ with hc₂
  have hrsi : c₁.regs .rsi = c.regs .rsi := save_regs resume c (by decide)
  have hframe : ∀ b, 64 ≤ (b - c.regs .rdi).toNat → c₁.mem b = c.mem b := fun b hb =>
    save_frame resume c hb
  have hother : contextAt c₁.mem (c.regs .rsi) = contextAt c.mem (c.regs .rsi) :=
    contextAt_same fun i hi => hframe _ (hapart.byte hi)
  have hkept := load_kept c₁
  rw [← hc₂] at hkept
  have hrun : Reaches prog ⟨c, entry⟩ ⟨c₂, b₂⟩ :=
    (hsave.run rfl c).trans (hload.run rfl c₁)
  cases hjump with
  | cons hat _ =>
      have hrip : c₂.word .rsi 56 = (contextAt c.mem (c.regs .rsi)).rip := by
        rw [Cpu.word, hkept.1, hkept.2, hrsi, ← hother]
        rfl
      refine ⟨c₂, ?_, ?_, ?_, ?_⟩
      · rw [← hrip]
        exact hrun.trans (reaches_step hat c₂)
      · rw [hc₂, load_context, hrsi, hother]
      · rw [hkept.1]
        exact save_context resume c
      · rw [hkept.1]
        exact hframe

/-! ## Threads that do not run -/

/-- What a caller of the function finds when the call returns. -/
def callerOf (c : Cpu) : Context :=
  { contextOf c (load c.mem (c.regs .rsp)) with rsp := c.regs .rsp + 8 }

/-- The thread with its context at `a` goes on as `r` says when it gets the processor: either that
is its context, or the context leads to the label, and the return address on its stack to `r`. -/
def Parked (resume : UInt64) (m : Mem) (a : UInt64) (r : Context) : Prop :=
  contextAt m a = r ∨
    contextAt m a = { r with rsp := r.rsp - 8, rip := resume } ∧ load m (r.rsp - 8) = r.rip

theorem Parked.same {m m' : Mem} {a : UInt64} {r : Context} (h : Parked resume m a r)
    (hcontext : SameOn m m' a 64) (hslot : SameOn m m' (r.rsp - 8) 8) : Parked resume m' a r := by
  unfold Parked
  rwa [contextAt_same hcontext, hslot.load]

/-- The thread at `rsi` goes on where it was, and the caller is parked at `rdi`. -/
theorem switch_resumes (hcode : SwitchCode prog entry resume)
    (hapart : Apart (c.regs .rdi) 64 (c.regs .rsi) 64)
    (hslot : Apart (c.regs .rdi) 64 (c.regs .rsp) 8) {r : Context}
    (hparked : Parked resume c.mem (c.regs .rsi) r)
    (hnext : Apart (c.regs .rdi) 64 (r.rsp - 8) 8) :
    ∃ c', Reaches prog ⟨c, entry⟩ ⟨c', r.rip⟩ ∧ contextOf c' r.rip = r ∧
      Parked resume c'.mem (c.regs .rdi) (callerOf c) ∧
      ∀ b, 64 ≤ (b - c.regs .rdi).toNat → c'.mem b = c.mem b := by
  obtain ⟨c', hrun, hloaded, hsaved, hframe⟩ := switch_body hcode hapart
  have hcaller : Parked resume c'.mem (c.regs .rdi) (callerOf c) := by
    have hback : (callerOf c).rsp - 8 = c.regs .rsp := UInt64.add_sub_cancel _ _
    refine Or.inr ⟨?_, ?_⟩
    · rw [hback, hsaved]
      rfl
    · rw [hback]
      exact SameOn.load fun i hi => hframe _ (hslot.byte hi)
  rcases hparked with hfresh | ⟨hcontext, hreturn⟩
  · rw [hfresh] at hrun hloaded
    exact ⟨c', hrun, hloaded, hcaller, hframe⟩
  · -- the context leads to the `ret` at the label
    obtain ⟨after, hlabel⟩ := hcode.label
    rw [hcontext] at hrun hloaded
    have hrsp : c'.regs .rsp = r.rsp - 8 := congrArg Context.rsp hloaded
    have htop : c'.word .rsp 0 = r.rip := by
      have hzero : r.rsp - 8 + UInt64.ofNat 0 = r.rsp - 8 := UInt64.add_zero _
      rw [Cpu.word, hrsp, hzero, ← hreturn]
      exact SameOn.load fun i hi => hframe _ (hnext.byte hi)
    have hret := reaches_step hlabel c'
    refine ⟨c'.set .rsp (c'.regs .rsp + 8), ?_, ?_, hcaller, hframe⟩
    · rw [Instr.exec, htop] at hret
      exact hrun.trans hret
    · have hfields := Context.mk.injEq .. ▸ hloaded
      have hne : ∀ q : Reg, q ≠ .rsp → (c'.set .rsp (c'.regs .rsp + 8)).regs q = c'.regs q :=
        fun q hq => Cpu.set_ne c' _ hq
      obtain ⟨-, hrbp, hrbx, hr12, hr13, hr14, hr15, -⟩ := hfields
      rw [contextOf, Cpu.set_self, hne .rbp (by decide), hne .rbx (by decide),
        hne .r12 (by decide), hne .r13 (by decide), hne .r14 (by decide), hne .r15 (by decide),
        hrsp, UInt64.sub_add_cancel, hrbp, hrbx, hr12, hr13, hr14, hr15]

end Switch

end Mcsos.Sched
