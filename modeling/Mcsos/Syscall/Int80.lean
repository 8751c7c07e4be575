import Mcsos.Lib.X86
import Mcsos.Syscall.Syscall

set_option autoImplicit false

/-! # `int $0x80` (`kernel/syscall/syscall_entry.S`)

The stub makes an `mcsos_syscall_frame_t` on the stack, calls `mcsos_syscall_dispatch_frame` with
it, and returns the result in `rax`.
-/

namespace Mcsos.Syscall

open Word64 X86

/-! ## The frame -/

/-- `mcsos_syscall_frame_t`. -/
structure SyscallFrame where
  nr : UInt64
  arg0 : UInt64
  arg1 : UInt64
  arg2 : UInt64
  arg3 : UInt64
  arg4 : UInt64
  arg5 : UInt64
  ret : Int64

/-- The frame in memory at `a`. -/
def frameAt (m : Mem) (a : UInt64) : SyscallFrame :=
  ⟨load m (a + UInt64.ofNat 0), load m (a + UInt64.ofNat 8), load m (a + UInt64.ofNat 16),
    load m (a + UInt64.ofNat 24), load m (a + UInt64.ofNat 32), load m (a + UInt64.ofNat 40),
    load m (a + UInt64.ofNat 48), (load m (a + UInt64.ofNat 56)).toInt64⟩

/-- `mcsos_syscall_dispatch_frame`, on the memory and the rest of the machine. -/
def syscallDispatchFrame {M : Type} (ops : GOps M) (region : UserRegion) (frame : UInt64)
    (mem : Mem) (m : M) : Mem × M :=
  if frame = 0 then (mem, m)
  else
    let f := frameAt mem frame
    let (ret, m) := syscallDispatch ops region f.nr f.arg0 f.arg1 f.arg2 f.arg3 f.arg4 f.arg5 m
    (store mem (frame + UInt64.ofNat 56) ret.toUInt64, m)

theorem frameAt_same {m m' : Mem} {a : UInt64} (h : SameOn m m' a 64) :
    frameAt m' a = frameAt m a := by
  unfold frameAt
  rw [h.load_at (by omega), h.load_at (by omega), h.load_at (by omega), h.load_at (by omega),
    h.load_at (by omega), h.load_at (by omega), h.load_at (by omega), h.load_at (by omega)]

/-! ## The stub -/

/-- The stores of the stub. -/
def int80Stores : List Instr :=
  [.store .rax 0 .rsp,
    .store .rdi 8 .rsp,
    .store .rsi 16 .rsp,
    .store .rdx 24 .rsp,
    .store .r10 32 .rsp,
    .store .r8 40 .rsp,
    .store .r9 48 .rsp,
    .storeImm 0 56 .rsp]

/-- `x86_64_syscall_int80_stub` up to the call. -/
def int80Enter (dispatch : UInt64) : List Instr :=
  [.cld, .sub 64 .rsp] ++ int80Stores ++ [.mov .rsp .rdi, .call dispatch]

/-- The stub after the call. -/
def int80Leave : List Instr := [.load 56 .rsp .rax, .add 64 .rsp, .iretq]

/-- The stub lies at `stub`; `back` is the return address of the call. -/
structure Int80Code (prog : Program) (stub dispatch back : UInt64) : Prop where
  enter : Laid prog stub (int80Enter dispatch) back
  leave : ∃ b, Laid prog back int80Leave b

theorem int80Stores_frame (c : Cpu) : frameAt (effects int80Stores c).mem (c.regs .rsp) =
    ⟨c.regs .rax, c.regs .rdi, c.regs .rsi, c.regs .rdx, c.regs .r10, c.regs .r8, c.regs .r9,
      0⟩ := by
  simp only [int80Stores, effects_cons, effects_nil, Instr.effect, Cpu.write_regs, Cpu.write_mem]
  unfold frameAt
  simp (disch := omega) only [load_store_same, load_store_offset]
  rfl

theorem int80Stores_outside (c : Cpu) {b : UInt64} (h : 64 ≤ (b - c.regs .rsp).toNat) :
    (effects int80Stores c).mem b = c.mem b := by
  simp only [int80Stores, effects_cons, effects_nil, Instr.effect, Cpu.write_regs, Cpu.write_mem]
  simp (disch := omega) only [store_outside h]

/-! ## A call -/

section Call

variable {prog : Program} {stub dispatch back base rip : UInt64} {c c' : Cpu}

/-- The C function has returned: the frame, and what the processor has pushed above it, are as the
function leaves them. -/
structure FrameDispatched {M : Type} (ops : GOps M) (region : UserRegion) (m : M) (c₁ c₂ : Cpu) :
    Prop where
  rsp : c₂.regs .rsp = c₁.regs .rsp + 8
  frame : SameOn (syscallDispatchFrame ops region (c₁.regs .rdi) c₁.mem m).1 c₂.mem
    (c₁.regs .rdi) 104

/-- From the interrupt to the call of the C function. -/
theorem int80_enter (hcode : Int80Code prog stub dispatch back) (h : Delivered base none c rip c') :
    ∃ c₁, Reaches prog ⟨c', stub⟩ ⟨c₁, dispatch⟩ ∧ c₁.regs .rdi = base - 104 ∧
      c₁.regs .rsp = base - 112 ∧ load c₁.mem (base - 112) = back ∧
      frameAt c₁.mem (base - 104) = ⟨c.regs .rax, c.regs .rdi, c.regs .rsi, c.regs .rdx,
        c.regs .r10, c.regs .r8, c.regs .r9, 0⟩ ∧
      WordsAt c₁.mem (base - 40) [rip, c.cs, c.rflags, c.regs .rsp, c.ss] := by
  obtain ⟨a, hstraight, hrest⟩ := Laid.split _ _ hcode.enter
  obtain ⟨a', hhead, hstores⟩ := Laid.split _ _ hstraight
  set cs := (Instr.sub 64 .rsp).effect (Instr.cld.effect c') with hcs
  set cf := effects int80Stores cs with hcf
  have hrun : Reaches prog ⟨c', stub⟩ ⟨cf, a⟩ :=
    (hhead.run rfl c').trans (hstores.run rfl cs)
  have htop : c'.regs .rsp = base - 40 := by
    rw [h.rsp, Cpu.set_self]
    rfl
  have hrsp : cs.regs .rsp = base - 104 := by
    have hsub : cs.regs .rsp = c'.regs .rsp - 64 := Cpu.set_self _ _ _
    rw [hsub, htop]
    grind
  have hregs : ∀ r, r ≠ .rsp → cs.regs r = c.regs r := fun r hr => by
    have hkeep : cs.regs r = c'.regs r := Cpu.set_ne _ _ hr
    exact hkeep.trans ((h.regs r hr).trans (Cpu.set_ne c base hr))
  have hframe := int80Stores_frame cs
  rw [← hcf, hrsp, hregs .rax (by decide), hregs .rdi (by decide), hregs .rsi (by decide),
    hregs .rdx (by decide), hregs .r10 (by decide), hregs .r8 (by decide),
    hregs .r9 (by decide)] at hframe
  -- the stores are below what the processor has pushed
  have hwords : WordsAt cf.mem (base - 40) [rip, c.cs, c.rflags, c.regs .rsp, c.ss] := by
    have hpushed := h.words
    rw [htop] at hpushed
    refine hpushed.same fun i hi => int80Stores_outside cs ?_
    have hb := base.toNat_lt
    rw [hrsp, UInt64.toNat_sub, UInt64.toNat_add, UInt64.toNat_sub, UInt64.toNat_sub,
      UInt64.toNat_ofNat']
    have h40 : UInt64.toNat 40 = 40 := rfl
    have h104 : UInt64.toNat 104 = 104 := rfl
    have hlen : i < 40 := hi
    omega
  have hrspf : cf.regs .rsp = base - 104 := hrsp
  have hbelow : base - 104 - 8 = base - 112 := by grind
  -- the return address is below the frame
  have hsame : SameOn cf.mem (store cf.mem (base - 112) back) (base - 104) 104 := by
    have hb := base.toNat_lt
    have h112 : UInt64.toNat 112 = 112 := rfl
    have h104 : UInt64.toNat 104 = 104 := rfl
    refine store_sameOn ⟨?_, ?_⟩ <;> rw [UInt64.toNat_sub, UInt64.toNat_sub, UInt64.toNat_sub] <;>
      omega
  have hup : base - 104 + UInt64.ofNat 64 = base - 40 := by
    have h64 : UInt64.ofNat 64 = 64 := rfl
    rw [h64]
    grind
  cases hrest with
  | cons hmov hcall =>
      cases hcall with
      | cons hcall hend =>
          cases hend
          have hrdi : (cf.set .rdi (cf.regs .rsp)).regs .rsp = base - 104 :=
            (Cpu.set_ne cf _ (by decide)).trans hrspf
          refine ⟨(cf.set .rdi (cf.regs .rsp)).pushWord back,
            (hrun.trans (reaches_step hmov cf)).trans (reaches_step hcall _), ?_, ?_, ?_, ?_, ?_⟩
          · rw [Cpu.pushWord, Cpu.set_ne _ _ (by decide), Cpu.write_regs, Cpu.set_self, hrspf]
          · rw [Cpu.pushWord, Cpu.set_self, hrdi, hbelow]
          · rw [Cpu.pushWord, Cpu.set_mem, Cpu.write_mem, hrdi, hbelow, load_store_same]
          · rw [Cpu.pushWord, Cpu.set_mem, Cpu.write_mem, hrdi, hbelow, Cpu.set_mem,
              frameAt_same (hsame.take (by decide)), hframe]
          · rw [Cpu.pushWord, Cpu.set_mem, Cpu.write_mem, hrdi, hbelow, Cpu.set_mem]
            refine hwords.same ?_
            rw [← hup]
            exact hsame.sub (by simp)

/-- From the return of the C function to the interrupted program. -/
theorem int80_leave (hcode : Int80Code prog stub dispatch back) {c₂ : Cpu}
    (hrsp : c₂.regs .rsp = base - 104)
    (hwords : WordsAt c₂.mem (base - 40) [rip, c.cs, c.rflags, c.regs .rsp, c.ss]) :
    ∃ c₃, Reaches prog ⟨c₂, back⟩ ⟨c₃, rip⟩ ∧
      c₃.regs .rax = load c₂.mem (base - 104 + UInt64.ofNat 56) ∧ c₃.regs .rsp = c.regs .rsp ∧
      (∀ r, r ≠ .rax → r ≠ .rsp → c₃.regs r = c₂.regs r) ∧ c₃.mem = c₂.mem ∧
      c₃.rflags = c.rflags ∧ c₃.cs = c.cs ∧ c₃.ss = c.ss := by
  obtain ⟨b, hleave⟩ := hcode.leave
  obtain ⟨a, hstraight, hrest⟩ := Laid.split [.load 56 .rsp .rax, .add 64 .rsp] _ hleave
  set c₃ := c₂.set .rax (c₂.word .rsp 56) with hc₃
  set c₄ := c₃.set .rsp (c₃.regs .rsp + 64) with hc₄
  have hrun : Reaches prog ⟨c₂, back⟩ ⟨c₄, a⟩ := hstraight.run rfl c₂
  have hrax : c₄.regs .rax = load c₂.mem (base - 104 + UInt64.ofNat 56) := by
    rw [hc₄, Cpu.set_ne _ _ (by decide), hc₃, Cpu.set_self, Cpu.word, hrsp]
  have hrsp₄ : c₄.regs .rsp = base - 40 := by
    rw [hc₄, Cpu.set_self, hc₃, Cpu.set_ne _ _ (by decide), hrsp]
    grind
  have hother : ∀ r, r ≠ .rax → r ≠ .rsp → c₄.regs r = c₂.regs r := fun r hax hsp => by
    rw [hc₄, Cpu.set_ne _ _ hsp, hc₃, Cpu.set_ne _ _ hax]
  have hmem : c₄.mem = c₂.mem := rfl
  set c₅ := c₄.set .rsp (c.regs .rsp) with hc₅
  cases hrest with
  | cons hiret _ =>
      have hlast := reaches_step hiret c₄
      rw [iretq_exec _ (by rw [hmem, hrsp₄]; exact hwords)] at hlast
      refine ⟨{ c₅ with rflags := c.rflags, cs := c.cs, ss := c.ss }, hrun.trans hlast, ?_, ?_,
        fun r hax hsp => ?_, hmem, rfl, rfl, rfl⟩
      · show c₅.regs .rax = _
        rw [hc₅, Cpu.set_ne _ _ (by decide), hrax]
      · show c₅.regs .rsp = _
        rw [hc₅, Cpu.set_self]
      · show c₅.regs r = _
        rw [hc₅, Cpu.set_ne _ _ hsp, hother r hax hsp]

/-- A system call: its number and its arguments are in the registers, the program goes on behind the
interrupt with the result in `rax` and with its stack pointer, flags and segments. The other
registers are as the C function leaves them. The C function is entered with the stack at a multiple
of 16 bytes where the interrupt's stack began at one. -/
theorem int80_call (hcode : Int80Code prog stub dispatch back) (hbase : base ≠ 104)
    (h : Delivered base none c rip c') :
    ∃ c₁, Reaches prog ⟨c', stub⟩ ⟨c₁, dispatch⟩ ∧ c₁.regs .rsp = base - 112 ∧
      ∀ {M : Type} (ops : GOps M) (region : UserRegion) (m : M) (c₂ : Cpu),
        FrameDispatched ops region m c₁ c₂ →
        ∃ c₃, Reaches prog ⟨c₂, load c₁.mem (c₁.regs .rsp)⟩ ⟨c₃, rip⟩ ∧
          c₃.regs .rax = (syscallDispatch ops region (c.regs .rax) (c.regs .rdi) (c.regs .rsi)
            (c.regs .rdx) (c.regs .r10) (c.regs .r8) (c.regs .r9) m).1.toUInt64 ∧
          c₃.regs .rsp = c.regs .rsp ∧
          (∀ r, r ≠ .rax → r ≠ .rsp → c₃.regs r = c₂.regs r) ∧ c₃.mem = c₂.mem ∧
          c₃.rflags = c.rflags ∧ c₃.cs = c.cs ∧ c₃.ss = c.ss := by
  obtain ⟨c₁, hrun, hrdi, hrsp, hback, hframe, hwords⟩ := int80_enter hcode h
  refine ⟨c₁, hrun, hrsp, fun {M} ops region m c₂ hdone => ?_⟩
  have hnull : base - 104 ≠ 0 := fun he => hbase (by grind)
  have hsame := hdone.frame
  have hrsp₂ := hdone.rsp
  rw [hrdi, syscallDispatchFrame, if_neg hnull, hframe] at hsame
  dsimp only at hsame
  set ret := (syscallDispatch ops region (c.regs .rax) (c.regs .rdi) (c.regs .rsi) (c.regs .rdx)
    (c.regs .r10) (c.regs .r8) (c.regs .r9) m).1.toUInt64
  have hup : base - 104 + UInt64.ofNat 64 = base - 40 := by
    have h64 : UInt64.ofNat 64 = 64 := rfl
    rw [h64]
    grind
  have hret := hsame.load_at (d := 56) (by decide)
  rw [load_store_same] at hret
  have hstored : WordsAt (store c₁.mem (base - 104 + UInt64.ofNat 56) ret) (base - 40)
      [rip, c.cs, c.rflags, c.regs .rsp, c.ss] := by
    have hb := base.toNat_lt
    have h104 : UInt64.toNat 104 = 104 := rfl
    have h40 : UInt64.toNat 40 = 40 := rfl
    refine hwords.same (store_sameOn ⟨?_, ?_⟩) <;> rw [UInt64.toNat_sub, UInt64.toNat_sub,
      UInt64.toNat_add, UInt64.toNat_sub, UInt64.toNat_ofNat']
    · omega
    · simp only [List.length_cons, List.length_nil]
      omega
  have hwords₂ : WordsAt c₂.mem (base - 40) [rip, c.cs, c.rflags, c.regs .rsp, c.ss] := by
    refine hstored.same ?_
    rw [← hup]
    exact hsame.sub (by simp)
  have hbase₂ : c₂.regs .rsp = base - 104 := by rw [hrsp₂, hrsp]; grind
  obtain ⟨c₃, hrun₃, hrax₃, hkept⟩ := int80_leave hcode hbase₂ hwords₂
  refine ⟨c₃, ?_, hrax₃.trans hret, hkept⟩
  rw [hrsp, hback]
  exact hrun₃

end Call

/-- The stub alone in its page. -/
def smallInt80Pages (p : UInt64) : List Instr :=
  if p = 1 then int80Enter 0x9000 ++ int80Leave else []

/-- `sys_ping`. -/
theorem int80_call_ping : ∃ c₁ c₂ c₃ : Cpu, Reaches (paged smallInt80Pages)
    ⟨c₂, load c₁.mem (c₁.regs .rsp)⟩ ⟨c₃, 0x7000⟩ ∧ c₃.regs .rax = 0x2605020A := by
  obtain ⟨back, henter, hleave⟩ := Laid.split (int80Enter 0x9000) int80Leave
    (laid_paged smallInt80Pages (p := 1) (by decide) (by decide))
  obtain ⟨c', hdel⟩ := exists_delivered 0x80000 none ⟨fun _ => 0, fun _ => 0, 2, 8, 16⟩ 0x7000
  obtain ⟨c₁, -, -, hcall⟩ := int80_call ⟨henter, ⟨_, hleave⟩⟩ (by decide) hdel
  obtain ⟨c₃, hrun, hrax, -⟩ := hcall (M := Unit) (syscallInit none) ⟨0, 0⟩ ()
    ⟨(c₁.set .rsp (c₁.regs .rsp + 8)).regs, (syscallDispatchFrame (M := Unit) (syscallInit none)
      ⟨0, 0⟩ (c₁.regs .rdi) c₁.mem ()).1, 2, 8, 16⟩
    ⟨Cpu.set_self c₁ .rsp _, SameOn.refl _ _ _⟩
  exact ⟨c₁, _, c₃, hrun, hrax⟩

end Mcsos.Syscall
