import Mathlib.Logic.Relation
import Mcsos.Lib.Word64

set_option autoImplicit false

/-! # A small x86-64

Registers, memory and the instructions that move words between them, push and pop, jump, call and
return. Code is a map from addresses to instructions with the address after each, so that nothing
depends on how long an instruction is. The arithmetic flags are left out: nothing here reads them.
`step` is the run of code that may be executed; in `FetchStep` an instruction is fetched first, and
the fetch from memory that may not be executed is a page fault.
-/

namespace Mcsos.X86

open Word64

inductive Reg where
  | rax | rbx | rcx | rdx | rsi | rdi | rbp | rsp
  | r8 | r9 | r10 | r11 | r12 | r13 | r14 | r15
  deriving DecidableEq

structure Cpu where
  regs : Reg → UInt64
  mem : Mem
  rflags : UInt64
  cs : UInt64
  ss : UInt64

/-- A processor, and where it is. -/
structure State where
  cpu : Cpu
  rip : UInt64

inductive Instr where
  /-- `leaq target(%rip), %dst` -/
  | lea (dst : Reg) (target : UInt64)
  /-- `movq %src, %dst` -/
  | mov (src dst : Reg)
  /-- `movq disp(%base), %dst` -/
  | load (disp : Nat) (base dst : Reg)
  /-- `movq %src, disp(%base)` -/
  | store (src : Reg) (disp : Nat) (base : Reg)
  /-- `movq $value, disp(%base)` -/
  | storeImm (value : UInt64) (disp : Nat) (base : Reg)
  /-- `addq $value, %dst` -/
  | add (value : UInt64) (dst : Reg)
  /-- `subq $value, %dst` -/
  | sub (value : UInt64) (dst : Reg)
  /-- `pushq %src` -/
  | push (src : Reg)
  /-- `pushq $value` -/
  | pushImm (value : UInt64)
  /-- `popq %dst` -/
  | pop (dst : Reg)
  | cld
  /-- `jmp target` -/
  | jmp (target : UInt64)
  /-- `jmp *disp(%base)` -/
  | jmpMem (disp : Nat) (base : Reg)
  /-- `call target` -/
  | call (target : UInt64)
  | ret
  | iretq

/-! ## What instructions do -/

namespace Cpu

def set (c : Cpu) (r : Reg) (v : UInt64) : Cpu := { c with regs := Function.update c.regs r v }

def write (c : Cpu) (a v : UInt64) : Cpu := { c with mem := Word64.store c.mem a v }

/-- The word `v` on top of the stack. -/
def pushWord (c : Cpu) (v : UInt64) : Cpu :=
  (c.write (c.regs .rsp - 8) v).set .rsp (c.regs .rsp - 8)

/-- The word at `disp` from where `base` points to. -/
def word (c : Cpu) (base : Reg) (disp : Nat) : UInt64 :=
  Word64.load c.mem (c.regs base + UInt64.ofNat disp)

@[simp] theorem set_mem (c : Cpu) (r : Reg) (v : UInt64) : (c.set r v).mem = c.mem := rfl
@[simp] theorem set_rflags (c : Cpu) (r : Reg) (v : UInt64) : (c.set r v).rflags = c.rflags := rfl
@[simp] theorem set_cs (c : Cpu) (r : Reg) (v : UInt64) : (c.set r v).cs = c.cs := rfl
@[simp] theorem set_ss (c : Cpu) (r : Reg) (v : UInt64) : (c.set r v).ss = c.ss := rfl
@[simp] theorem write_regs (c : Cpu) (a v : UInt64) : (c.write a v).regs = c.regs := rfl
@[simp] theorem write_mem (c : Cpu) (a v : UInt64) :
    (c.write a v).mem = Word64.store c.mem a v := rfl
@[simp] theorem write_rflags (c : Cpu) (a v : UInt64) : (c.write a v).rflags = c.rflags := rfl
@[simp] theorem write_cs (c : Cpu) (a v : UInt64) : (c.write a v).cs = c.cs := rfl
@[simp] theorem write_ss (c : Cpu) (a v : UInt64) : (c.write a v).ss = c.ss := rfl

@[simp] theorem set_self (c : Cpu) (r : Reg) (v : UInt64) : (c.set r v).regs r = v :=
  Function.update_self _ _ _

theorem set_ne (c : Cpu) {r q : Reg} (v : UInt64) (h : q ≠ r) : (c.set r v).regs q = c.regs q :=
  Function.update_of_ne h _ _

end Cpu

/-- Instructions that go on with the next one. -/
def Instr.straight : Instr → Bool
  | .jmp _ | .jmpMem _ _ | .call _ | .ret | .iretq => false
  | _ => true

/-- The direction flag of `rflags`. -/
def directionFlag : UInt64 := 0x400

/-- What such an instruction does. -/
def Instr.effect : Instr → Cpu → Cpu
  | .lea dst target, c => c.set dst target
  | .mov src dst, c => c.set dst (c.regs src)
  | .load disp base dst, c => c.set dst (c.word base disp)
  | .store src disp base, c => c.write (c.regs base + UInt64.ofNat disp) (c.regs src)
  | .storeImm value disp base, c => c.write (c.regs base + UInt64.ofNat disp) value
  | .add value dst, c => c.set dst (c.regs dst + value)
  | .sub value dst, c => c.set dst (c.regs dst - value)
  | .push src, c => c.pushWord (c.regs src)
  | .pushImm value, c => c.pushWord value
  | .pop dst, c => (c.set .rsp (c.regs .rsp + 8)).set dst (Word64.load c.mem (c.regs .rsp))
  | .cld, c => { c with rflags := c.rflags &&& ~~~directionFlag }
  | _, c => c

/-- One instruction, with the address after it. -/
def Instr.exec (after : UInt64) : Instr → Cpu → State
  | .jmp target, c => ⟨c, target⟩
  | .jmpMem disp base, c => ⟨c, c.word base disp⟩
  | .call target, c => ⟨c.pushWord after, target⟩
  | .ret, c => ⟨c.set .rsp (c.regs .rsp + 8), c.word .rsp 0⟩
  | .iretq, c =>
    ⟨{ c.set .rsp (c.word .rsp 24) with
        rflags := c.word .rsp 16, cs := c.word .rsp 8, ss := c.word .rsp 32 }, c.word .rsp 0⟩
  | i, c => ⟨i.effect c, after⟩

def effects (is : List Instr) (c : Cpu) : Cpu := is.foldl (fun c i => i.effect c) c

@[simp] theorem effects_nil (c : Cpu) : effects [] c = c := rfl

@[simp] theorem effects_cons (i : Instr) (is : List Instr) (c : Cpu) :
    effects (i :: is) c = effects is (i.effect c) := rfl

theorem effects_append (is js : List Instr) (c : Cpu) :
    effects (is ++ js) c = effects js (effects is c) := List.foldl_append

/-! ## Runs -/

/-- The instruction at an address, and the address after it. -/
abbrev Program := UInt64 → Option (Instr × UInt64)

def step (prog : Program) (s : State) : Option State :=
  (prog s.rip).map fun (i, after) => i.exec after s.cpu

/-- Some steps lead from one state to the other. -/
abbrev Reaches (prog : Program) : State → State → Prop :=
  Relation.ReflTransGen fun s s' => step prog s = some s'

/-- The instructions lie one after the other, from the first address to the second. -/
inductive Laid (prog : Program) : UInt64 → List Instr → UInt64 → Prop
  | nil (a : UInt64) : Laid prog a [] a
  | cons {a after b : UInt64} {i : Instr} {is : List Instr} (h : prog a = some (i, after))
      (rest : Laid prog after is b) : Laid prog a (i :: is) b

section Runs

variable {prog : Program}

theorem exec_straight {i : Instr} (h : i.straight = true) (after : UInt64) (c : Cpu) :
    i.exec after c = ⟨i.effect c, after⟩ := by
  cases i <;> first | exact Bool.noConfusion h | rfl

/-- Code without jumps runs to its end. -/
theorem Laid.run {a b : UInt64} {is : List Instr} (h : Laid prog a is b)
    (hs : is.all Instr.straight = true) (c : Cpu) : Reaches prog ⟨c, a⟩ ⟨effects is c, b⟩ := by
  induction h generalizing c with
  | nil a => exact .refl
  | @cons a after b i is hat _ ih =>
      rw [List.all_cons, Bool.and_eq_true] at hs
      refine .head ?_ (ih hs.2 (i.effect c))
      rw [step, hat]
      exact congrArg some (exec_straight hs.1 after c)

theorem Laid.append {a b d : UInt64} {is js : List Instr} (h : Laid prog a is b)
    (h' : Laid prog b js d) : Laid prog a (is ++ js) d := by
  induction h with
  | nil a => exact h'
  | cons hat _ ih => exact .cons hat (ih h')

/-- Where code is laid, each part of it is. -/
theorem Laid.split {a d : UInt64} (is js : List Instr) (h : Laid prog a (is ++ js) d) :
    ∃ b, Laid prog a is b ∧ Laid prog b js d := by
  induction is generalizing a with
  | nil => exact ⟨a, .nil a, h⟩
  | cons i is ih =>
      cases h with
      | cons hat rest =>
          obtain ⟨b, hb, hd⟩ := ih rest
          exact ⟨b, .cons hat hb, hd⟩

/-- The code ends in one state at most. -/
theorem Reaches.unique {s t t' : State} (h : Reaches prog s t) (h' : Reaches prog s t')
    (ht : prog t.rip = none) (ht' : prog t'.rip = none) : t = t' := by
  have hstop : ∀ {u v : State}, prog u.rip = none → Reaches prog u v → v = u := fun hu huv => by
    rcases Relation.ReflTransGen.cases_head huv with rfl | ⟨w, hw, -⟩
    · rfl
    · simp [step, hu] at hw
  have htotal := Relation.ReflTransGen.total_of_right_unique
    (fun a b c hb hc => Option.some.inj (hb.symm.trans hc)) h h'
  rcases htotal with htt | htt
  · exact (hstop ht htt).symm
  · exact hstop ht' htt

/-- One instruction, whichever. -/
theorem reaches_step {a after : UInt64} {i : Instr} (h : prog a = some (i, after)) (c : Cpu) :
    Reaches prog ⟨c, a⟩ (i.exec after c) := by
  refine .single ?_
  rw [step, h]
  rfl

/-! ### Code in pages -/

/-- Each page holds some code from its start on, with eight bytes for every instruction. -/
def paged (code : UInt64 → List Instr) : Program := fun a =>
  if a % 8 = 0 then ((code (a / 4096))[(a % 4096 / 8).toNat]?).map fun i => (i, a + 8) else none

theorem paged_at {code : UInt64 → List Instr} {p : UInt64} (hp : p.toNat < 2 ^ 52) {k : Nat}
    (hk : k < 512) (hlen : k < (code p).length) :
    paged code (4096 * p + UInt64.ofNat (8 * k)) =
      some ((code p)[k], 4096 * p + UInt64.ofNat (8 * (k + 1))) := by
  have h4096 : UInt64.toNat 4096 = 4096 := rfl
  have h8 : UInt64.toNat 8 = 8 := rfl
  set a := 4096 * p + UInt64.ofNat (8 * k) with ha
  have hnat : a.toNat = 4096 * p.toNat + 8 * k := by
    rw [ha, UInt64.toNat_add, UInt64.toNat_mul, UInt64.toNat_ofNat', h4096]
    omega
  have halign : a % 8 = 0 := by
    refine UInt64.toNat_inj.mp ?_
    rw [UInt64.toNat_mod, hnat, h8, UInt64.toNat_zero]
    omega
  have hpage : a / 4096 = p := by
    refine UInt64.toNat_inj.mp ?_
    rw [UInt64.toNat_div, hnat, h4096]
    omega
  have hoff : (a % 4096 / 8).toNat = k := by
    rw [UInt64.toNat_div, UInt64.toNat_mod, hnat, h4096, h8]
    omega
  have hafter : a + 8 = 4096 * p + UInt64.ofNat (8 * (k + 1)) := by
    rw [ha, Nat.mul_succ, UInt64.ofNat_add, ← UInt64.add_assoc]
    rfl
  rw [paged, if_pos halign, hpage, hoff, List.getElem?_eq_getElem hlen, Option.map_some, hafter]

theorem laid_paged (code : UInt64 → List Instr) {p : UInt64} (hp : p.toNat < 2 ^ 52)
    (hlen : (code p).length ≤ 512) :
    Laid (paged code) (4096 * p) (code p) (4096 * p + UInt64.ofNat (8 * (code p).length)) := by
  have hdrop : ∀ n k, k + n = (code p).length →
      Laid (paged code) (4096 * p + UInt64.ofNat (8 * k)) ((code p).drop k)
        (4096 * p + UInt64.ofNat (8 * (code p).length)) := by
    intro n
    induction n with
    | zero =>
        intro k hk
        rw [List.drop_eq_nil_of_le (by omega), ← hk]
        exact .nil _
    | succ n ih =>
        intro k hk
        have hlt : k < (code p).length := by omega
        rw [List.drop_eq_getElem_cons hlt]
        exact .cons (paged_at hp (by omega) hlt) (ih (k + 1) (by omega))
  have hall := hdrop (code p).length 0 (by omega)
  have hzero : 4096 * p + UInt64.ofNat (8 * 0) = 4096 * p := UInt64.add_zero _
  rwa [hzero] at hall

end Runs

/-! ## The stack

Registers that are pushed one after the other and popped in the opposite order come back. -/

section Stack

variable {m m' : Mem} {a w : UInt64} {ws : List UInt64} {rs : List Reg} {c : Cpu}

/-- The words `ws` lie in memory from `a` on. -/
def WordsAt (m : Mem) (a : UInt64) (ws : List UInt64) : Prop :=
  ∀ i (h : i < ws.length), Word64.load m (a + UInt64.ofNat (8 * i)) = ws[i]

theorem ofNat_eight : UInt64.ofNat 8 = 8 := rfl

theorem wordsAt_cons :
    WordsAt m a (w :: ws) ↔ Word64.load m a = w ∧ WordsAt m (a + 8) ws := by
  have haddr : ∀ i, a + UInt64.ofNat (8 * (i + 1)) = a + 8 + UInt64.ofNat (8 * i) := fun i => by
    rw [show 8 * (i + 1) = 8 + 8 * i by omega, UInt64.ofNat_add, ← UInt64.add_assoc, ofNat_eight]
  have hzero : a + UInt64.ofNat (8 * 0) = a := UInt64.add_zero a
  constructor
  · intro h
    refine ⟨?_, fun i hi => ?_⟩
    · have h0 := h 0 (Nat.succ_pos _)
      rwa [hzero] at h0
    · have hs := h (i + 1) (Nat.succ_lt_succ hi)
      rwa [haddr] at hs
  · rintro ⟨h0, hs⟩ i hi
    cases i with
    | zero =>
        rw [hzero]
        exact h0
    | succ i =>
        rw [haddr]
        exact hs i (Nat.lt_of_succ_lt_succ hi)

theorem wordsAt_append {vs : List UInt64} :
    WordsAt m a (vs ++ ws) ↔ WordsAt m a vs ∧ WordsAt m (a + UInt64.ofNat (8 * vs.length)) ws := by
  induction vs generalizing a with
  | nil =>
      have hzero : a + UInt64.ofNat (8 * 0) = a := UInt64.add_zero a
      rw [List.length_nil, hzero]
      exact ⟨fun h => ⟨fun i hi => absurd hi (Nat.not_lt_zero i), h⟩, And.right⟩
  | cons v vs ih =>
      have hnext : a + 8 + UInt64.ofNat (8 * vs.length) =
          a + UInt64.ofNat (8 * (v :: vs).length) := by
        rw [List.length_cons, Nat.mul_succ, Nat.add_comm (8 * vs.length) 8, UInt64.ofNat_add,
          ← UInt64.add_assoc, ofNat_eight]
      rw [List.cons_append, wordsAt_cons, ih, wordsAt_cons, hnext, and_assoc]

theorem WordsAt.same (h : WordsAt m a ws) (hsame : SameOn m m' a (8 * ws.length)) :
    WordsAt m' a ws := fun i hi => by
  rw [hsame.load_at (by omega), h i hi]

/-- `c'` is `c` with the words `ws` pushed, the last one on the list first. -/
structure Pushed (ws : List UInt64) (c c' : Cpu) : Prop where
  rsp : c'.regs .rsp = c.regs .rsp - UInt64.ofNat (8 * ws.length)
  regs : ∀ r, r ≠ .rsp → c'.regs r = c.regs r
  words : WordsAt c'.mem (c'.regs .rsp) ws
  frame : ∀ b, 8 * ws.length ≤ (b - c'.regs .rsp).toNat → c'.mem b = c.mem b

theorem Pushed.nil (c : Cpu) : Pushed [] c c :=
  ⟨(UInt64.sub_zero _).symm, fun _ _ => rfl, fun i hi => absurd hi (Nat.not_lt_zero i),
    fun _ _ => rfl⟩

/-- One word more. -/
theorem Pushed.push {c' : Cpu} (h : Pushed ws c c') (hlen : 8 * ws.length + 8 ≤ 2 ^ 64)
    (w : UInt64) : Pushed (w :: ws) c (c'.pushWord w) := by
  have hrsp : (c'.pushWord w).regs .rsp = c'.regs .rsp - 8 := Cpu.set_self _ _ _
  have hmem : (c'.pushWord w).mem = Word64.store c'.mem (c'.regs .rsp - 8) w := rfl
  have htotal : c'.regs .rsp - 8 = c.regs .rsp - UInt64.ofNat (8 * (ws.length + 1)) := by
    rw [h.rsp, Nat.mul_succ, UInt64.ofNat_add]
    show c.regs .rsp - UInt64.ofNat (8 * ws.length) - 8 =
      c.regs .rsp - (UInt64.ofNat (8 * ws.length) + 8)
    grind
  have hback : c'.regs .rsp - 8 + 8 = c'.regs .rsp := UInt64.sub_add_cancel _ _
  refine ⟨hrsp.trans htotal, fun r hr => (Cpu.set_ne _ _ hr).trans (h.regs r hr), ?_,
    fun b hb => ?_⟩
  · rw [hrsp, hmem, wordsAt_cons]
    refine ⟨load_store_same _ _ _, ?_⟩
    rw [hback]
    refine h.words.same (store_sameOn ⟨?_, ?_⟩)
    · have := (c'.regs .rsp).toNat_lt
      rw [UInt64.toNat_sub, UInt64.toNat_sub]
      have h8 : (8 : UInt64).toNat = 8 := rfl
      omega
    · have := (c'.regs .rsp).toNat_lt
      rw [UInt64.toNat_sub, UInt64.toNat_sub]
      have h8 : (8 : UInt64).toNat = 8 := rfl
      omega
  · have h8 : (8 : UInt64).toNat = 8 := rfl
    have hblt := b.toNat_lt
    have hr := (c'.regs .rsp).toNat_lt
    rw [hrsp, List.length_cons, UInt64.toNat_sub, UInt64.toNat_sub] at hb
    rw [hmem, Word64.store, if_neg]
    · refine h.frame b ?_
      rw [UInt64.toNat_sub]
      omega
    · rw [UInt64.toNat_sub, UInt64.toNat_sub]
      omega

/-- What is pushed later lies below. -/
theorem Pushed.trans {vs : List UInt64} {c₁ c₂ : Cpu} (h : Pushed ws c c₁) (h' : Pushed vs c₁ c₂)
    (hlen : 8 * vs.length + 8 * ws.length ≤ 2 ^ 64) : Pushed (vs ++ ws) c c₂ := by
  have hback : c₂.regs .rsp + UInt64.ofNat (8 * vs.length) = c₁.regs .rsp := by
    rw [h'.rsp, UInt64.sub_add_cancel]
  have hdist : ∀ b : UInt64, 8 * vs.length ≤ (b - c₂.regs .rsp).toNat →
      (b - c₂.regs .rsp).toNat = 8 * vs.length + (b - c₁.regs .rsp).toNat := fun b hb => by
    have hb₂ := b.toNat_lt
    have hr := (c₂.regs .rsp).toNat_lt
    rw [← hback]
    rw [UInt64.toNat_sub] at hb ⊢
    rw [UInt64.toNat_sub, UInt64.toNat_add, UInt64.toNat_ofNat']
    omega
  refine ⟨?_, fun r hr => (h'.regs r hr).trans (h.regs r hr), ?_, fun b hb => ?_⟩
  · rw [h'.rsp, h.rsp, List.length_append, Nat.mul_add, Nat.add_comm, UInt64.ofNat_add]
    grind
  · rw [wordsAt_append, hback]
    refine ⟨h'.words, h.words.same fun i hi => h'.frame _ ?_⟩
    have hr := (c₁.regs .rsp).toNat_lt
    rw [h'.rsp, UInt64.toNat_sub, UInt64.toNat_add, UInt64.toNat_sub, UInt64.toNat_ofNat',
      UInt64.toNat_ofNat']
    omega
  · rw [List.length_append, Nat.mul_add] at hb
    have hb' := hdist b (by omega)
    exact (h'.frame b (by omega)).trans (h.frame b (by omega))

/-- A list of pushes. -/
theorem pushed_effects (rs : List Reg) (hrsp : Reg.rsp ∉ rs) (hlen : 8 * rs.length ≤ 2 ^ 64) (c : Cpu) :
    Pushed (rs.map c.regs).reverse c (effects (rs.map .push) c) := by
  induction rs using List.reverseRecOn with
  | nil => exact Pushed.nil c
  | append_singleton rs r ih =>
      have hmem : Reg.rsp ∉ rs := fun h => hrsp (List.mem_append_left _ h)
      have hr : r ≠ .rsp := fun h => hrsp (by simp [h])
      have hshort : 8 * rs.length + 8 ≤ 2 ^ 64 := by
        rw [List.length_append, List.length_singleton] at hlen
        omega
      have hih := ih hmem (by omega)
      have hpush := hih.push (by simpa using hshort) ((effects (rs.map .push) c).regs r)
      rw [hih.regs r hr] at hpush
      rw [List.map_append, List.map_append, effects_append, List.reverse_append]
      have heffect : effects (List.map .push [r]) (effects (rs.map .push) c) =
          (effects (rs.map .push) c).pushWord ((effects (rs.map .push) c).regs r) := rfl
      rw [heffect, hih.regs r hr]
      exact hpush

/-- `c'` is `c` with the words on top of the stack popped into `qs`. -/
structure Popped (qs : List Reg) (ws : List UInt64) (c c' : Cpu) : Prop where
  rsp : c'.regs .rsp = c.regs .rsp + UInt64.ofNat (8 * qs.length)
  popped : qs.map c'.regs = ws
  regs : ∀ r, r ∉ qs → r ≠ .rsp → c'.regs r = c.regs r
  mem : c'.mem = c.mem

/-- A list of pops. -/
theorem popped_effects (qs : List Reg) (hrsp : Reg.rsp ∉ qs) (hnodup : qs.Nodup)
    (hlen : qs.length = ws.length) (h : WordsAt c.mem (c.regs .rsp) ws) :
    Popped qs ws c (effects (qs.map .pop) c) := by
  induction qs generalizing c ws with
  | nil =>
      obtain rfl : ws = [] := List.length_eq_zero_iff.mp hlen.symm
      exact ⟨(UInt64.add_zero _).symm, rfl, fun _ _ _ => rfl, rfl⟩
  | cons q qs ih =>
      obtain ⟨w, ws, rfl⟩ := List.exists_cons_of_length_pos (hlen ▸ Nat.succ_pos _ : 0 < ws.length)
      obtain ⟨hq, hnodup⟩ := List.nodup_cons.mp hnodup
      obtain ⟨hw, hws⟩ := wordsAt_cons.mp h
      have hqs : Reg.rsp ∉ qs := fun h => hrsp (List.mem_cons_of_mem q h)
      have hqr : q ≠ .rsp := fun h => hrsp (by simp [h])
      -- after the first pop
      have hsp : ((Instr.pop q).effect c).regs .rsp = c.regs .rsp + 8 :=
        (Cpu.set_ne _ _ (Ne.symm hqr)).trans (Cpu.set_self _ _ _)
      have hval : ((Instr.pop q).effect c).regs q = w := (Cpu.set_self _ _ _).trans hw
      have hrest := ih hqs hnodup (Nat.succ.inj hlen)
        (c := (Instr.pop q).effect c) (by rw [hsp]; exact hws)
      refine ⟨?_, ?_, fun r hr hne => ?_, hrest.mem⟩
      · rw [List.map_cons, effects_cons, hrest.rsp, hsp, List.length_cons, Nat.mul_succ,
          Nat.add_comm (8 * qs.length) 8, UInt64.ofNat_add, ← UInt64.add_assoc, ofNat_eight]
      · rw [List.map_cons, List.map_cons, effects_cons, hrest.popped, hrest.regs q hq hqr, hval]
      · rw [List.mem_cons, not_or] at hr
        rw [List.map_cons, effects_cons, hrest.regs r hr.2 hne]
        exact (Cpu.set_ne _ _ hr.1).trans (Cpu.set_ne _ _ hne)

end Stack

/-! ## Interrupts -/

section Interrupts

variable {prog : Program} {c c' : Cpu} {rip base : UInt64} {code : Option UInt64}

/-- `c'` is what an interrupt or exception makes of `c` at `rip`: on a stack that starts at `base`
the processor has pushed `ss`, `rsp`, `rflags`, `cs` and `rip`, and for some exceptions an error
code. The flags and the segments for the handler are not told. -/
def Delivered (base : UInt64) (code : Option UInt64) (c : Cpu) (rip : UInt64) (c' : Cpu) : Prop :=
  Pushed (code.toList ++ [rip, c.cs, c.rflags, c.regs .rsp, c.ss]) (c.set .rsp base) c'

/-- Wherever the stack is, an interrupt can come. -/
theorem exists_delivered (base : UInt64) (code : Option UInt64) (c : Cpu) (rip : UInt64) :
    ∃ c', Delivered base code c rip c' := by
  have hpush : ∀ ws : List UInt64, 8 * ws.length ≤ 2 ^ 64 → ∃ c', Pushed ws (c.set .rsp base) c' := by
    intro ws
    induction ws with
    | nil => exact fun _ => ⟨_, Pushed.nil _⟩
    | cons w ws ih =>
        intro hlen
        rw [List.length_cons] at hlen
        obtain ⟨c', h⟩ := ih (by omega)
        exact ⟨_, h.push (by omega) w⟩
  refine hpush _ ?_
  cases code <;> simp

/-- `iretq` goes back. -/
theorem iretq_exec {cs rflags rsp ss : UInt64} (after : UInt64)
    (h : WordsAt c.mem (c.regs .rsp) [rip, cs, rflags, rsp, ss]) :
    Instr.iretq.exec after c =
      ⟨{ c.set .rsp rsp with rflags := rflags, cs := cs, ss := ss }, rip⟩ := by
  have hword : ∀ i (hi : i < 5), c.word .rsp (8 * i) = [rip, cs, rflags, rsp, ss][i] := h
  have h0 : c.word .rsp 0 = rip := hword 0 (by decide)
  have h8 : c.word .rsp 8 = cs := hword 1 (by decide)
  have h16 : c.word .rsp 16 = rflags := hword 2 (by decide)
  have h24 : c.word .rsp 24 = rsp := hword 3 (by decide)
  have h32 : c.word .rsp 32 = ss := hword 4 (by decide)
  rw [Instr.exec, h0, h8, h16, h24, h32]

end Interrupts

/-! ## Memory that may not be executed -/

/-- One step where only the addresses in `text` may be executed: the instruction there, or the page
fault that the fetch raises elsewhere, in kernel mode and on the stack that is in use. `handler` is
what the interrupt table has for it. -/
inductive FetchStep (prog : Program) (text : Set UInt64) (handler : Option UInt64) :
    State → State → Prop
  | exec {s s' : State} (hx : s.rip ∈ text) (h : step prog s = some s') :
      FetchStep prog text handler s s'
  | fault {s : State} {e pf : UInt64} {c' : Cpu} (hx : s.rip ∉ text) (hpf : handler = some pf)
      (h : Delivered (s.cpu.regs .rsp &&& ~~~15) (some e) s.cpu s.rip c') :
      FetchStep prog text handler s ⟨c', pf⟩

abbrev FetchRun (prog : Program) (text : Set UInt64) (handler : Option UInt64) :
    State → State → Prop :=
  Relation.ReflTransGen (FetchStep prog text handler)

section Fetch

variable {prog : Program} {text : Set UInt64} {handler : Option UInt64} {s t u : State}

/-- Code that lies in the text runs without a fault. -/
theorem Reaches.fetchRun (htext : ∀ a, (prog a).isSome → a ∈ text) (h : Reaches prog s u) :
    FetchRun prog text handler s u := by
  have hone : ∀ s s' : State, step prog s = some s' → FetchStep prog text handler s s' := by
    intro s s' hstep
    obtain ⟨x, hx, -⟩ := Option.map_eq_some_iff.mp hstep
    exact .exec (htext _ (by rw [hx]; rfl)) hstep
  exact Relation.ReflTransGen.mono hone s u h

/-- Each run from where code leads to its end is on the way to that end. -/
theorem FetchRun.on_way (htext : ∀ a, (prog a).isSome → a ∈ text) (hu : u.rip ∈ text)
    (hend : prog u.rip = none) (h : Reaches prog s u) (hrun : FetchRun prog text handler s t) :
    Reaches prog t u := by
  induction hrun with
  | refl => exact h
  | @tail t t' _ hstep ih =>
      rcases Relation.ReflTransGen.cases_head ih with rfl | ⟨w, hw, hrest⟩
      · -- nothing goes on from the end
        cases hstep with
        | exec _ hx => simp [step, hend] at hx
        | fault hx => exact absurd hu hx
      · cases hstep with
        | exec _ hx => exact Option.some.inj (hw.symm.trans hx) ▸ hrest
        | fault hx =>
            obtain ⟨x, hat, -⟩ := Option.map_eq_some_iff.mp hw
            exact absurd (htext t.rip (by rw [hat]; rfl)) hx

/-- A run from memory that is not text starts with the fault. -/
theorem FetchRun.of_fault (hs : s.rip ∉ text) (hrun : FetchRun prog text handler s t) :
    t = s ∨ ∃ e pf c', handler = some pf ∧
      Delivered (s.cpu.regs .rsp &&& ~~~15) (some e) s.cpu s.rip c' ∧
      FetchRun prog text handler ⟨c', pf⟩ t := by
  rcases Relation.ReflTransGen.cases_head hrun with rfl | ⟨w, hw, hrest⟩
  · exact Or.inl rfl
  · cases hw with
    | exec hx => exact absurd hx hs
    | fault _ hpf h => exact Or.inr ⟨_, _, _, hpf, h, hrest⟩

end Fetch

end Mcsos.X86
