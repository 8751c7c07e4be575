import Mcsos.Lib.X86

set_option autoImplicit false

/-! # Exceptions (`kernel/arch/x86_64/isr.S`)

Each vector has a stub. It pushes the vector, and before it a zero where the processor has pushed no
error code, and jumps to `isr_common`, which saves the registers, calls `x86_64_trap_dispatch` with
the stack as its argument, and undoes all of it. The stubs of the hardware interrupts lie behind the
table of the others in `.rodata`, which is not executable, and so are not code here.
-/

namespace Mcsos.Arch

open Word64 X86

/-! ## The code -/

/-- The pushes of `isr_common`. -/
def isrSaved : List Reg :=
  [.rax, .rbx, .rcx, .rdx, .rbp, .rdi, .rsi, .r8, .r9, .r10, .r11, .r12, .r13, .r14, .r15]

/-- Its pops. -/
def isrRestored : List Reg :=
  [.r15, .r14, .r13, .r12, .r11, .r10, .r9, .r8, .rsi, .rdi, .rbp, .rdx, .rcx, .rbx, .rax]

/-- `isr_common` up to the call of the dispatcher. -/
def isrEnter (dispatch : UInt64) : List Instr :=
  isrSaved.map .push ++ [.mov .rsp .rdi, .call dispatch]

/-- `isr_common` after the call. -/
def isrLeave : List Instr := isrRestored.map .pop ++ [.add 16 .rsp, .iretq]

/-- `ISR_NOERR vector`. -/
def isrNoerr (common vector : UInt64) : List Instr := [.pushImm 0, .pushImm vector, .jmp common]

/-- `ISR_ERR vector`. -/
def isrErr (common vector : UInt64) : List Instr := [.pushImm vector, .jmp common]

/-- The vectors with `ISR_ERR`. -/
def errVectors : List UInt64 := [8, 10, 11, 12, 13, 14, 17, 21, 29, 30]

/-- `isr_stub_` and the vector. -/
def isrStub (common vector : UInt64) : List Instr :=
  if vector ∈ errVectors then isrErr common vector else isrNoerr common vector

/-- The code of the exceptions lies in memory; `back` is the return address of the call. -/
structure IsrCode (prog : Program) (stubs : UInt64 → UInt64) (common dispatch back : UInt64) :
    Prop where
  stub : ∀ v < 32, ∃ b, Laid prog (stubs v) (isrStub common v) b
  enter : Laid prog common (isrEnter dispatch) back
  leave : ∃ b, Laid prog back isrLeave b

/-! ## The frame -/

/-- The words that the dispatcher finds: the registers, the vector and the error code, and what the
processor has pushed. -/
def frameWords (c : Cpu) (rip vector : UInt64) (code : Option UInt64) : List UInt64 :=
  isrRestored.map c.regs ++ ([vector, code.getD 0] ++ [rip, c.cs, c.rflags, c.regs .rsp, c.ss])

/-- The call has come back, and has left the frame alone. -/
structure Returned (c₁ c₂ : Cpu) : Prop where
  rsp : c₂.regs .rsp = c₁.regs .rsp + 8
  frame : SameOn c₁.mem c₂.mem (c₁.regs .rsp + 8) 176

section Stubs

variable {prog : Program} {stubs : UInt64 → UInt64} {common dispatch back : UInt64}
  {base rip v : UInt64} {code : Option UInt64} {c c' : Cpu}

/-- The stub makes one frame out of the two kinds of exceptions. -/
theorem isrStub_run (hcode : IsrCode prog stubs common dispatch back) (hv : v < 32)
    (herr : code.isSome ↔ v ∈ errVectors) (h : Delivered base code c rip c') :
    ∃ c₂, Reaches prog ⟨c', stubs v⟩ ⟨c₂, common⟩ ∧
      Pushed ([v, code.getD 0] ++ [rip, c.cs, c.rflags, c.regs .rsp, c.ss]) (c.set .rsp base) c₂ := by
  obtain ⟨b, hstub⟩ := hcode.stub v hv
  unfold isrStub at hstub
  by_cases he : v ∈ errVectors
  · rw [if_pos he] at hstub
    obtain ⟨e, rfl⟩ := Option.isSome_iff_exists.mp (herr.mpr he)
    obtain ⟨a, hpush, hjump⟩ := Laid.split [.pushImm v] _ hstub
    cases hjump with
    | cons hat _ =>
        exact ⟨c'.pushWord v, (hpush.run rfl c').trans (reaches_step hat _),
          Pushed.push h (by simp) v⟩
  · rw [if_neg he] at hstub
    obtain rfl : code = none := Option.not_isSome_iff_eq_none.mp fun hs => he (herr.mp hs)
    obtain ⟨a, hpush, hjump⟩ := Laid.split [.pushImm 0, .pushImm v] _ hstub
    cases hjump with
    | cons hat _ =>
        exact ⟨(c'.pushWord 0).pushWord v, (hpush.run rfl c').trans (reaches_step hat _),
          Pushed.push (Pushed.push h (by simp) 0) (by simp) v⟩

/-- From the exception to the call of the dispatcher: the frame is on the stack, below it the return
address, and `rdi` points to it. -/
theorem isr_enter (hcode : IsrCode prog stubs common dispatch back) (hv : v < 32)
    (herr : code.isSome ↔ v ∈ errVectors) (h : Delivered base code c rip c') :
    ∃ c₁, Reaches prog ⟨c', stubs v⟩ ⟨c₁.set .rdi (base - 176), dispatch⟩ ∧
      Pushed (back :: frameWords c rip v code) (c.set .rsp base) c₁ := by
  obtain ⟨c₂, hstub, hpushed⟩ := isrStub_run hcode hv herr h
  obtain ⟨a, hpushes, hrest⟩ := Laid.split _ _ hcode.enter
  set c₃ := effects (isrSaved.map .push) c₂ with hc₃
  have hsaved : (isrSaved.map c₂.regs).reverse = isrRestored.map c.regs := by
    rw [List.map_congr_left (g := c.regs) fun r hr => ?_]
    · rfl
    · have hne : r ≠ .rsp := fun he => absurd (he ▸ hr) (by decide)
      exact (hpushed.regs r hne).trans (Cpu.set_ne c base hne)
  have hframe : Pushed (frameWords c rip v code) (c.set .rsp base) c₃ := by
    have hall := pushed_effects isrSaved (by decide) (by decide) c₂
    rw [hsaved] at hall
    exact hpushed.trans hall (by simp [isrRestored])
  have hrsp : c₃.regs .rsp = base - 176 := by
    rw [hframe.rsp, Cpu.set_self]
    rfl
  refine ⟨c₃.pushWord back, ?_, hframe.push (by simp [frameWords, isrRestored]) back⟩
  have hrun : Reaches prog ⟨c', stubs v⟩ ⟨c₃, a⟩ := hstub.trans (hpushes.run rfl c₂)
  cases hrest with
  | cons hmov hcall =>
      cases hcall with
      | cons hcall hend =>
          cases hend
          refine (hrun.trans (reaches_step hmov c₃)).trans ?_
          have hlast := reaches_step hcall (c₃.set .rdi (c₃.regs .rsp))
          have hsame : (c₃.set .rdi (c₃.regs .rsp)).pushWord back =
              (c₃.pushWord back).set .rdi (base - 176) := by
            have hkeep : (c₃.set .rdi (c₃.regs .rsp)).regs .rsp = c₃.regs .rsp :=
              Cpu.set_ne c₃ _ (by decide)
            have hswap := Function.update_comm (a := Reg.rdi) (b := Reg.rsp) (by decide)
              (c₃.regs .rsp) (c₃.regs .rsp - 8) c₃.regs
            unfold Cpu.pushWord
            rw [hkeep, ← hrsp]
            unfold Cpu.set Cpu.write
            dsimp only
            rw [hswap]
          rw [← hsame]
          exact hlast

/-- After the call: all registers, the flags and the segments are those of the interrupted code. -/
theorem isr_leave (hcode : IsrCode prog stubs common dispatch back) {c₂ : Cpu}
    (hrsp : c₂.regs .rsp = base - 176) (h : WordsAt c₂.mem (base - 176) (frameWords c rip v code)) :
    Reaches prog ⟨c₂, back⟩ ⟨{ c with mem := c₂.mem }, rip⟩ := by
  obtain ⟨b, hleave⟩ := hcode.leave
  obtain ⟨a, hpops, hrest⟩ := Laid.split _ _ hleave
  unfold frameWords at h
  rw [wordsAt_append, wordsAt_append] at h
  obtain ⟨hregs, -, hwords⟩ := h
  have hpopped := popped_effects isrRestored (c := c₂) (by decide) (by decide) (by simp)
    (hrsp.symm ▸ hregs)
  set c₃ := effects (isrRestored.map .pop) c₂ with hc₃
  have hall : ∀ r, r ≠ .rsp → c₃.regs r = c.regs r := fun r hr => by
    refine List.map_inj_left.mp hpopped.popped r ?_
    cases r <;> first | exact absurd rfl hr | decide
  have hrsp₃ : c₃.regs .rsp = base - 176 + UInt64.ofNat (8 * isrRestored.length) := by
    rw [hpopped.rsp, hrsp]
  set c₄ := (Instr.add 16 .rsp).effect c₃ with hc₄
  have hrsp₄ : c₄.regs .rsp = base - 176 + UInt64.ofNat (8 * isrRestored.length) +
      UInt64.ofNat (8 * 2) := by
    rw [hc₄, Instr.effect, Cpu.set_self, hrsp₃]
    rfl
  have hregs₄ : ∀ r, r ≠ .rsp → c₄.regs r = c.regs r := fun r hr =>
    (Cpu.set_ne c₃ _ hr).trans (hall r hr)
  have hmem₄ : c₄.mem = c₂.mem := hpopped.mem
  cases hrest with
  | cons hadd hret =>
      cases hret with
      | cons hiret hend =>
          refine ((hpops.run rfl c₂).trans (reaches_step hadd c₃)).trans ?_
          have hlast := reaches_step hiret c₄
          rw [List.length_map] at hwords
          rw [iretq_exec _ (by rw [hmem₄, hrsp₄]; exact hwords)] at hlast
          have hback : ({ c₄.set .rsp (c.regs .rsp) with
              rflags := c.rflags, cs := c.cs, ss := c.ss } : Cpu) = { c with mem := c₂.mem } := by
            have hregs : (c₄.set .rsp (c.regs .rsp)).regs = c.regs := funext fun r => by
              by_cases hr : r = .rsp
              · rw [hr, Cpu.set_self]
              · rw [Cpu.set_ne _ _ hr, hregs₄ r hr]
            dsimp only
            rw [hregs, Cpu.set_mem, hmem₄]
          rw [← hback]
          exact hlast

/-- Where the dispatcher comes back, the interrupted code goes on as if nothing had happened, but
for what the dispatcher did to memory. -/
theorem isr_transparent (hcode : IsrCode prog stubs common dispatch back) (hv : v < 32)
    (herr : code.isSome ↔ v ∈ errVectors) (h : Delivered base code c rip c') :
    ∃ c₁, Reaches prog ⟨c', stubs v⟩ ⟨c₁, dispatch⟩ ∧ c₁.regs .rdi = base - 176 ∧
      WordsAt c₁.mem (base - 176) (frameWords c rip v code) ∧
      (∀ b, 184 ≤ (b - (base - 184)).toNat → c₁.mem b = c.mem b) ∧
      ∀ c₂, Returned c₁ c₂ →
        Reaches prog ⟨c₂, load c₁.mem (c₁.regs .rsp)⟩ ⟨{ c with mem := c₂.mem }, rip⟩ := by
  obtain ⟨c₁, hrun, hpushed⟩ := isr_enter hcode hv herr h
  have hlen : (frameWords c rip v code).length = 22 := rfl
  have hrsp : c₁.regs .rsp = base - 184 := by
    rw [hpushed.rsp, Cpu.set_self]
    rfl
  have hup : base - 184 + 8 = base - 176 := by grind
  obtain ⟨hback, hframe⟩ := wordsAt_cons.mp hpushed.words
  rw [hrsp] at hback hframe
  rw [hup] at hframe
  have hrsp₁ : (c₁.set .rdi (base - 176)).regs .rsp = base - 184 :=
    (Cpu.set_ne c₁ _ (by decide)).trans hrsp
  refine ⟨c₁.set .rdi (base - 176), hrun, Cpu.set_self _ _ _, hframe, fun b hb => ?_,
    fun c₂ hret => ?_⟩
  · refine (hpushed.frame b ?_).trans rfl
    rw [List.length_cons, hlen, hrsp]
    exact hb
  · have hrsp₂ := hret.rsp
    have hsame := hret.frame
    rw [hrsp₁, hup] at hrsp₂ hsame
    rw [hrsp₁, Cpu.set_mem, hback]
    exact isr_leave hcode hrsp₂ (hframe.same (by rw [hlen]; exact hsame))

end Stubs

end Mcsos.Arch
