import Mcsos.Arch.Isr

set_option autoImplicit false

/-! # Interrupts of the kernel (`kernel/core/trap.c`, `kernel/arch/x86_64/idt.c`)

The dispatcher of all traps and the interrupt table. `isr.S` makes the stubs of the hardware
interrupts in `.rodata`, behind the table of stubs, and the linker script maps that section without
the right to execute. The fetch of such a stub is a page fault.
-/

namespace Mcsos.Arch

open Word64 X86

/-! ## The dispatcher -/

/-- `struct trap_frame`. -/
structure TrapFrame where
  r15 : UInt64
  r14 : UInt64
  r13 : UInt64
  r12 : UInt64
  r11 : UInt64
  r10 : UInt64
  r9 : UInt64
  r8 : UInt64
  rbp : UInt64
  rdi : UInt64
  rsi : UInt64
  rdx : UInt64
  rcx : UInt64
  rbx : UInt64
  rax : UInt64
  trapNo : UInt64
  errorCode : UInt64
  rip : UInt64
  cs : UInt64
  rflags : UInt64
  rsp : UInt64
  ss : UInt64

/-- The frame in memory at `a`. -/
def trapFrameAt (m : Mem) (a : UInt64) : TrapFrame :=
  let field (i : Nat) : UInt64 := load m (a + UInt64.ofNat (8 * i))
  { r15 := field 0, r14 := field 1, r13 := field 2, r12 := field 3, r11 := field 4,
    r10 := field 5, r9 := field 6, r8 := field 7, rbp := field 8, rdi := field 9, rsi := field 10,
    rdx := field 11, rcx := field 12, rbx := field 13, rax := field 14, trapNo := field 15,
    errorCode := field 16, rip := field 17, cs := field 18, rflags := field 19, rsp := field 20,
    ss := field 21 }

/-- What handling an interrupt changes: `g_ticks`, and the bytes written to ports. -/
structure Irqs where
  ticks : UInt64
  out : List (UInt16 × UInt8)

def Irqs.outb (d : Irqs) (port : UInt16) (value : UInt8) : Irqs :=
  { d with out := d.out ++ [(port, value)] }

def picMasterCmd : UInt16 := 0x20
def picSlaveCmd : UInt16 := 0xA0
def picEoi : UInt8 := 0x20

def picSendEoi (irq : UInt8) (d : Irqs) : Irqs :=
  let d := if irq ≥ 8 then d.outb picSlaveCmd picEoi else d
  d.outb picMasterCmd picEoi

def timerOnIrq0 (d : Irqs) : Irqs := { d with ticks := d.ticks + 1 }

/-- `x86_64_trap_dispatch`; `none` where it stays in `cli; hlt`. -/
def trapDispatch (tf : TrapFrame) (d : Irqs) : Option Irqs :=
  if tf.trapNo ≥ 32 ∧ tf.trapNo ≤ 47 then
    let d := if tf.trapNo = 32 then timerOnIrq0 d else d
    some (picSendEoi (tf.trapNo - 32).toUInt8 d)
  else if tf.trapNo = 3 then some d
  else none

/-! ## The table -/

/-- `struct idt_entry`, without the reserved word. -/
structure IdtEntry where
  isrLow : UInt16
  kernelCs : UInt16
  ist : UInt8
  attributes : UInt8
  isrMid : UInt16
  isrHigh : UInt32

/-- The entry that `x86_64_idt_set_gate` writes. -/
def idtGate (addr : UInt64) (attributes : UInt8) : IdtEntry where
  isrLow := (addr &&& 0xFFFF).toUInt16
  kernelCs := 0x08
  ist := 0
  attributes := attributes
  isrMid := ((addr >>> 16) &&& 0xFFFF).toUInt16
  isrHigh := ((addr >>> 32) &&& 0xFFFFFFFF).toUInt32

/-- `x86_64_idt_set_gate`; `none` where it writes behind the table. -/
def idtSetGate (idt : List IdtEntry) (vector : UInt8) (addr : UInt64) (attributes : UInt8) :
    Option (List IdtEntry) :=
  if vector.toNat < idt.length then some (idt.set vector.toNat (idtGate addr attributes)) else none

/-- The vectors that `x86_64_idt_init` sets, in its order. -/
def idtVectors : List UInt8 :=
  [14, 32, 33, 34, 35, 36, 37, 38, 39, 40, 41, 42, 43, 44, 45, 46, 47]

/-- `x86_64_idt_init` on the table that is zero at first. -/
def idtInit (stubs : UInt64 → UInt64) : Option (List IdtEntry) :=
  idtVectors.foldlM (fun idt v => idtSetGate idt v (stubs v.toUInt64) 0x8E)
    (List.replicate 48 ⟨0, 0, 0, 0, 0, 0⟩)

/-- What the processor takes from an entry: the handler, if the entry is present. -/
def IdtEntry.handler (e : IdtEntry) : Option UInt64 :=
  if e.attributes &&& 0x80 = 0 then none
  else some (UInt64.ofNat
    (e.isrLow.toNat + 2 ^ 16 * e.isrMid.toNat + 2 ^ 32 * e.isrHigh.toNat))

/-! ## What the dispatcher sees -/

section Exceptions

variable {prog : Program} {stubs : UInt64 → UInt64} {common dispatch back : UInt64}
  {base rip v : UInt64} {code : Option UInt64} {c c' : Cpu}

/-- The fields of the frame. `isr_common` pushes `rbp` before `rdi` and `rsi`, and the structure has
it behind them, so the fields `rbp` and `rsi` are exchanged. -/
theorem trapFrameAt_frame {m : Mem} {a : UInt64} (h : WordsAt m a (frameWords c rip v code)) :
    trapFrameAt m a =
      { r15 := c.regs .r15, r14 := c.regs .r14, r13 := c.regs .r13, r12 := c.regs .r12,
        r11 := c.regs .r11, r10 := c.regs .r10, r9 := c.regs .r9, r8 := c.regs .r8,
        rbp := c.regs .rsi, rdi := c.regs .rdi, rsi := c.regs .rbp, rdx := c.regs .rdx,
        rcx := c.regs .rcx, rbx := c.regs .rbx, rax := c.regs .rax, trapNo := v,
        errorCode := code.getD 0, rip := rip, cs := c.cs, rflags := c.rflags,
        rsp := c.regs .rsp, ss := c.ss } := by
  have hword : ∀ i (hi : i < 22), load m (a + UInt64.ofNat (8 * i)) =
      (frameWords c rip v code)[i] := h
  unfold trapFrameAt
  rw [TrapFrame.mk.injEq]
  exact ⟨hword 0 (by decide), hword 1 (by decide), hword 2 (by decide), hword 3 (by decide),
    hword 4 (by decide), hword 5 (by decide), hword 6 (by decide), hword 7 (by decide),
    hword 8 (by decide), hword 9 (by decide), hword 10 (by decide), hword 11 (by decide),
    hword 12 (by decide), hword 13 (by decide), hword 14 (by decide), hword 15 (by decide),
    hword 16 (by decide), hword 17 (by decide), hword 18 (by decide), hword 19 (by decide),
    hword 20 (by decide), hword 21 (by decide)⟩

/-- Of the exceptions, the dispatcher comes back from the breakpoint only. -/
theorem trapDispatch_exception {tf : TrapFrame} (hv : tf.trapNo < 32) (d : Irqs) :
    trapDispatch tf d = if tf.trapNo = 3 then some d else none := by
  rw [trapDispatch, if_neg fun h => UInt64.not_le.mpr hv h.1]

/-- Each exception reaches the dispatcher with its vector, its error code and all registers of the
interrupted code in the frame, and where the dispatcher comes back, that code goes on with all of
its registers and flags. -/
theorem exception_transparent (hcode : IsrCode prog stubs common dispatch back) (hv : v < 32)
    (herr : code.isSome ↔ v ∈ errVectors) (h : Delivered base code c rip c') :
    ∃ c₁, Reaches prog ⟨c', stubs v⟩ ⟨c₁, dispatch⟩ ∧
      (trapFrameAt c₁.mem (c₁.regs .rdi) =
        { r15 := c.regs .r15, r14 := c.regs .r14, r13 := c.regs .r13, r12 := c.regs .r12,
          r11 := c.regs .r11, r10 := c.regs .r10, r9 := c.regs .r9, r8 := c.regs .r8,
          rbp := c.regs .rsi, rdi := c.regs .rdi, rsi := c.regs .rbp, rdx := c.regs .rdx,
          rcx := c.regs .rcx, rbx := c.regs .rbx, rax := c.regs .rax, trapNo := v,
          errorCode := code.getD 0, rip := rip, cs := c.cs, rflags := c.rflags,
          rsp := c.regs .rsp, ss := c.ss }) ∧
      (∀ d, trapDispatch (trapFrameAt c₁.mem (c₁.regs .rdi)) d = if v = 3 then some d else none) ∧
      (∀ b, 184 ≤ (b - (base - 184)).toNat → c₁.mem b = c.mem b) ∧
      ∀ c₂, Returned c₁ c₂ →
        Reaches prog ⟨c₂, load c₁.mem (c₁.regs .rsp)⟩ ⟨{ c with mem := c₂.mem }, rip⟩ := by
  obtain ⟨c₁, hrun, hrdi, hwords, hframe, hback⟩ := isr_transparent hcode hv herr h
  have htf := trapFrameAt_frame hwords
  rw [← hrdi] at htf
  refine ⟨c₁, hrun, htf, fun d => ?_, hframe, hback⟩
  rw [htf]
  exact trapDispatch_exception hv d

end Exceptions

/-- The stubs one in a page, then the rest of the exception code. -/
def smallIsrPages (p : UInt64) : List Instr :=
  if p < 32 then isrStub 0x40000 p
  else if p = 0x40 then isrEnter 0x60000 ++ isrLeave
  else []

theorem smallIsrPages_stub {p : UInt64} (hp : p < 32) :
    smallIsrPages p = isrStub 0x40000 p := if_pos hp

theorem smallIsrCode : ∃ back, IsrCode (paged smallIsrPages) (4096 * ·) 0x40000 0x60000 back := by
  have hcommon := laid_paged smallIsrPages (p := 0x40) (by decide) (by decide)
  obtain ⟨back, henter, hleave⟩ := Laid.split (isrEnter 0x60000) isrLeave hcommon
  refine ⟨back, fun v hv => ?_, henter, ⟨_, hleave⟩⟩
  have hpage := smallIsrPages_stub hv
  have hv32 : v.toNat < 32 := hv
  have hshort : (smallIsrPages v).length ≤ 512 := by
    rw [hpage, isrStub]
    split_ifs <;> simp [isrErr, isrNoerr]
  rw [← hpage]
  exact ⟨_, laid_paged _ (by omega) hshort⟩

/-- A breakpoint, and the way back from it. -/
theorem exception_transparent_breakpoint :
    ∃ back c₁, IsrCode (paged smallIsrPages) (4096 * ·) 0x40000 0x60000 back ∧
      (trapFrameAt c₁.mem (c₁.regs .rdi)).trapNo = 3 ∧
      ∀ c₂, Returned c₁ c₂ → ∃ c₃, Reaches (paged smallIsrPages)
        ⟨c₂, load c₁.mem (c₁.regs .rsp)⟩ ⟨c₃, 0x1000⟩ ∧ c₃.regs .rax = 7 := by
  obtain ⟨back, hcode⟩ := smallIsrCode
  obtain ⟨c', hdel⟩ := exists_delivered 0x80000 none ⟨fun _ => 7, fun _ => 0, 2, 8, 16⟩ 0x1000
  obtain ⟨c₁, -, hframe, -, -, hback⟩ := exception_transparent (v := 3) hcode (by decide)
    (by decide) hdel
  exact ⟨back, c₁, hcode, congrArg TrapFrame.trapNo hframe, fun c₂ h => ⟨_, hback c₂ h, rfl⟩⟩

/-! ## What the table says -/

theorem idtGate_handler (addr : UInt64) : (idtGate addr 0x8E).handler = some addr := by
  have hpresent : ¬(idtGate addr 0x8E).attributes &&& 0x80 = 0 := by
    show ¬(0x8E : UInt8) &&& 0x80 = 0
    decide
  have h16 : UInt64.toNat 0xFFFF = 2 ^ 16 - 1 := rfl
  have h32 : UInt64.toNat 0xFFFFFFFF = 2 ^ 32 - 1 := rfl
  have hlow : (idtGate addr 0x8E).isrLow.toNat = addr.toNat % 2 ^ 16 := by
    rw [idtGate, UInt64.toNat_toUInt16, UInt64.toNat_and, h16, Nat.and_two_pow_sub_one_eq_mod,
      Nat.mod_mod]
  have hmid : (idtGate addr 0x8E).isrMid.toNat = addr.toNat / 2 ^ 16 % 2 ^ 16 := by
    have hshift : UInt64.toNat 16 % 64 = 16 := rfl
    rw [idtGate, UInt64.toNat_toUInt16, UInt64.toNat_and, h16, Nat.and_two_pow_sub_one_eq_mod,
      Nat.mod_mod, UInt64.toNat_shiftRight, hshift, Nat.shiftRight_eq_div_pow]
  have hhigh : (idtGate addr 0x8E).isrHigh.toNat = addr.toNat / 2 ^ 32 % 2 ^ 32 := by
    have hshift : UInt64.toNat 32 % 64 = 32 := rfl
    rw [idtGate, UInt64.toNat_toUInt32, UInt64.toNat_and, h32, Nat.and_two_pow_sub_one_eq_mod,
      Nat.mod_mod, UInt64.toNat_shiftRight, hshift, Nat.shiftRight_eq_div_pow]
  have hlt := addr.toNat_lt
  have hall : addr.toNat % 2 ^ 16 + 2 ^ 16 * (addr.toNat / 2 ^ 16 % 2 ^ 16) +
      2 ^ 32 * (addr.toNat / 2 ^ 32 % 2 ^ 32) = addr.toNat := by omega
  rw [IdtEntry.handler, if_neg hpresent, hlow, hmid, hhigh, hall, UInt64.ofNat_toNat]

/-- The handler that the table has for a vector. -/
def idtHandler (idt : List IdtEntry) (v : Nat) : Option UInt64 :=
  idt[v]?.bind IdtEntry.handler

/-- Setting gates: the later one counts, but all have the handler of their vector here. -/
theorem idtSetGates (stubs : UInt64 → UInt64) (vs : List UInt8) (idt : List IdtEntry)
    (hvs : ∀ v ∈ vs, v.toNat < idt.length) :
    ∃ idt', vs.foldlM (fun idt v => idtSetGate idt v (stubs v.toUInt64) 0x8E) idt = some idt' ∧
      idt'.length = idt.length ∧ ∀ v : UInt8, idtHandler idt' v.toNat =
        if v ∈ vs then some (stubs v.toUInt64) else idtHandler idt v.toNat := by
  induction vs generalizing idt with
  | nil => exact ⟨idt, rfl, rfl, fun v => rfl⟩
  | cons w vs ih =>
      have hw := hvs w List.mem_cons_self
      have hset : idtSetGate idt w (stubs w.toUInt64) 0x8E =
          some (idt.set w.toNat (idtGate (stubs w.toUInt64) 0x8E)) := if_pos hw
      obtain ⟨idt', hrun, hlen, hall⟩ := ih (idt.set w.toNat (idtGate (stubs w.toUInt64) 0x8E))
        (fun v hv => by rw [List.length_set]; exact hvs v (List.mem_cons_of_mem w hv))
      refine ⟨idt', by rw [List.foldlM_cons, hset]; exact hrun, by rw [hlen, List.length_set],
        fun v => ?_⟩
      rw [hall]
      by_cases hv : v ∈ vs
      · rw [if_pos hv, if_pos (List.mem_cons_of_mem w hv)]
      rw [if_neg hv]
      by_cases hvw : v = w
      · rw [hvw, if_pos List.mem_cons_self, idtHandler, List.getElem?_set_self hw]
        exact idtGate_handler _
      · rw [if_neg fun hm => (List.mem_cons.mp hm).elim hvw hv, idtHandler,
          List.getElem?_set_ne fun he => hvw (UInt8.toNat_inj.mp he.symm), idtHandler]

/-- After `x86_64_idt_init`, the page fault and the hardware interrupts have gates, and no other
vector has one. -/
theorem idtInit_handlers (stubs : UInt64 → UInt64) :
    ∃ idt, idtInit stubs = some idt ∧ idt.length = 48 ∧ ∀ v : UInt8, idtHandler idt v.toNat =
      if v ∈ idtVectors then some (stubs v.toUInt64) else none := by
  obtain ⟨idt, hrun, hlen, hall⟩ := idtSetGates stubs idtVectors
    (List.replicate 48 ⟨0, 0, 0, 0, 0, 0⟩) (by simp [idtVectors])
  refine ⟨idt, hrun, hlen, fun v => ?_⟩
  have hzero : idtHandler (List.replicate 48 ⟨0, 0, 0, 0, 0, 0⟩) v.toNat = none := by
    rw [idtHandler, List.getElem?_replicate]
    split_ifs <;> rfl
  rw [hall, hzero]

/-! ## What interrupts do -/

section Interrupts

variable {prog : Program} {text : Set UInt64} {handler : Option UInt64}
  {stubs : UInt64 → UInt64} {common dispatch back base rip e : UInt64} {c c' : Cpu}

/-- The dispatcher has been called for a page fault at `rip`, and does not come back. -/
structure StuckInFault (c₁ : Cpu) (rip : UInt64) : Prop where
  trapNo : (trapFrameAt c₁.mem (c₁.regs .rdi)).trapNo = 14
  rip : (trapFrameAt c₁.mem (c₁.regs .rdi)).rip = rip
  stays : ∀ d, trapDispatch (trapFrameAt c₁.mem (c₁.regs .rdi)) d = none

/-- Each run from the state `s` leads on to the dispatcher, and there to a fault at `rip`. -/
def EndsInFault (prog : Program) (text : Set UInt64) (handler : Option UInt64) (dispatch : UInt64)
    (s : X86.State) (rip : UInt64) : Prop :=
  ∀ t, FetchRun prog text handler s t → ∃ c₁, FetchRun prog text handler t ⟨c₁, dispatch⟩ ∧
    StuckInFault c₁ rip ∧ (t.rip = dispatch → t.cpu = c₁)

/-- A page fault: its stub and `isr_common` lie in the text. -/
theorem pageFault_ends (hcode : IsrCode prog stubs common dispatch back)
    (htext : ∀ a, (prog a).isSome → a ∈ text) (hin : dispatch ∈ text) (hend : prog dispatch = none)
    (h : Delivered base (some e) c rip c') :
    EndsInFault prog text handler dispatch ⟨c', stubs 14⟩ rip := by
  obtain ⟨c₁, hrun, hrdi, hwords, -⟩ := isr_transparent (v := 14) hcode (by decide)
    ⟨fun _ => by decide, fun _ => rfl⟩ h
  have htf := trapFrameAt_frame hwords
  rw [← hrdi] at htf
  intro t ht
  have hway : Reaches prog t ⟨c₁, dispatch⟩ := ht.on_way htext hin hend hrun
  refine ⟨c₁, hway.fetchRun htext, ⟨by rw [htf], by rw [htf], fun d => ?_⟩, fun hat => ?_⟩
  · rw [htf]
    exact trapDispatch_exception (show (14 : UInt64) < 32 by decide) d
  · -- the dispatcher is none of this code, so the way is over there
    rcases Relation.ReflTransGen.cases_head hway with rfl | ⟨w, hw, -⟩
    · rfl
    · simp [step, hat, hend] at hw

/-- A stub that is not executable: its fetch faults, and that fault is the one that counts. -/
theorem noText_ends (hcode : IsrCode prog stubs common dispatch back)
    (htext : ∀ a, (prog a).isSome → a ∈ text) (hin : dispatch ∈ text) (hend : prog dispatch = none)
    {a : UInt64} (ha : a ∉ text) (hne : a ≠ dispatch) :
    EndsInFault prog text (some (stubs 14)) dispatch ⟨c', a⟩ a := by
  intro t ht
  rcases ht.of_fault ha with rfl | ⟨e, pf, c'', hpf, hdel, hrest⟩
  · -- the fault is still to come
    obtain ⟨c'', hdel⟩ := exists_delivered (c'.regs .rsp &&& ~~~15) (some 0) c' a
    have hfirst : FetchStep prog text (some (stubs 14)) ⟨c', a⟩ ⟨c'', stubs 14⟩ :=
      .fault ha rfl hdel
    have hfault : EndsInFault prog text (some (stubs 14)) dispatch ⟨c'', stubs 14⟩ a :=
      pageFault_ends hcode htext hin hend hdel
    obtain ⟨c₁, hrun, hstuck, -⟩ := hfault _ .refl
    exact ⟨c₁, .head hfirst hrun, hstuck, fun hat => absurd hat hne⟩
  · obtain rfl := Option.some.inj hpf
    exact pageFault_ends hcode htext hin hend hdel t hrest

/-- **No interrupt gets anywhere**: after `x86_64_idt_init`, each vector that has a gate ends with the
dispatcher in a page fault from which it does not come back. For the page fault it is the one that
was raised, and for a hardware interrupt the one that the fetch of its stub raises, so that neither
the timer is reached nor the code that was interrupted. -/
theorem interrupts_lost (hcode : IsrCode prog stubs common dispatch back)
    (htext : ∀ a, (prog a).isSome → a ∈ text) (hin : dispatch ∈ text) (hend : prog dispatch = none)
    (hirq : ∀ n, 32 ≤ n → n ≤ 47 → stubs n ∉ text) :
    ∃ idt, idtInit stubs = some idt ∧ ∀ (v : UInt8) (handler : UInt64),
      idtHandler idt v.toNat = some handler →
      ∀ base code c rip c', (code.isSome ↔ v = 14) → Delivered base code c rip c' →
        EndsInFault prog text (idtHandler idt 14) dispatch ⟨c', handler⟩
          (if v = 14 then rip else handler) := by
  obtain ⟨idt, hinit, -, hall⟩ := idtInit_handlers stubs
  refine ⟨idt, hinit, fun v handler hv base code c rip c' hcodeword h => ?_⟩
  have hfault : idtHandler idt 14 = some (stubs 14) := hall 14
  have hset : ∀ v ∈ idtVectors, v = 14 ∨ v ≠ 14 ∧ 32 ≤ v.toUInt64 ∧ v.toUInt64 ≤ 47 := by
    simp [idtVectors]
  rw [hall] at hv
  by_cases hmem : v ∈ idtVectors
  · rw [if_pos hmem] at hv
    obtain rfl := Option.some.inj hv
    rcases hset v hmem with rfl | ⟨hne, hlow, hhigh⟩
    · -- of the vectors with a gate, only the page fault pushes an error code
      obtain ⟨e, rfl⟩ := Option.isSome_iff_exists.mp (hcodeword.mpr rfl)
      rw [if_pos rfl]
      exact pageFault_ends hcode htext hin hend h
    · have hstub := hirq v.toUInt64 hlow hhigh
      rw [if_neg hne, hfault]
      exact noText_ends hcode htext hin hend hstub fun heq => hstub (heq ▸ hin)
  · rw [if_neg hmem] at hv
    cases hv

end Interrupts

/-- The pages with code, and the one of the dispatcher. -/
def smallText : Set UInt64 := {a | smallIsrPages (a / 4096) ≠ [] ∨ a / 4096 = 0x60}

/-- A timer interrupt. -/
theorem interrupts_lost_timer : ∃ idt c' c₁, idtInit (4096 * ·) = some idt ∧
    idtHandler idt 32 = some 0x20000 ∧
    FetchRun (paged smallIsrPages) smallText (idtHandler idt 14) ⟨c', 0x20000⟩ ⟨c₁, 0x60000⟩ ∧
    StuckInFault c₁ 0x20000 := by
  obtain ⟨back, hcode⟩ := smallIsrCode
  have htext : ∀ a, (paged smallIsrPages a).isSome → a ∈ smallText := by
    intro a ha
    refine Or.inl fun hnil => ?_
    rw [paged, hnil] at ha
    split_ifs at ha <;> simp at ha
  have hirq : ∀ n, 32 ≤ n → n ≤ 47 → 4096 * n ∉ smallText := by
    intro n h32 h47 hn
    have h47' : n.toNat ≤ 47 := h47
    have hpage : 4096 * n / 4096 = n := by
      refine UInt64.toNat_inj.mp ?_
      have h4096 : UInt64.toNat 4096 = 4096 := rfl
      rw [UInt64.toNat_div, UInt64.toNat_mul, h4096]
      omega
    rw [smallText, Set.mem_ofPred_eq, hpage, smallIsrPages, if_neg (UInt64.not_lt.mpr h32)] at hn
    rcases hn with hcode | rfl
    · refine hcode (if_neg ?_)
      rintro rfl
      exact absurd h47 (by decide)
    · exact absurd h47 (by decide)
  obtain ⟨idt, hinit, hall⟩ := interrupts_lost hcode htext (Or.inr (by decide)) (by decide) hirq
  obtain ⟨idt', hinit', -, hhandlers⟩ := idtInit_handlers (4096 * ·)
  obtain rfl := Option.some.inj (hinit.symm.trans hinit')
  obtain ⟨c', hdel⟩ := exists_delivered 0x80000 none ⟨fun _ => 7, fun _ => 0, 2, 8, 16⟩ 0x1000
  have hgate : idtHandler idt 32 = some 0x20000 := hhandlers 32
  obtain ⟨c₁, hrun, hstuck, -⟩ :=
    hall 32 0x20000 hgate _ none _ _ _ (by decide) hdel _ .refl
  exact ⟨idt, c', c₁, hinit, hgate, hrun, hstuck⟩

end Mcsos.Arch
