import Mcsos.Syscall.UserRange

set_option autoImplicit false

/-! # What the write system call prints

`MCSOS_SYS_WRITE_SERIAL` checks that the buffer lies in the user region, and then hands its address
to `klog`, which stops at a NUL and knows no length. So the call tells no more than the buffer only
if it is refused or the buffer holds a NUL.
-/

namespace Mcsos.Syscall

/-! ## Printing a string -/

/-- The bytes from `s` on, up to the first NUL. -/
def upToNul (mem : Memory) (s : UInt64) : Printed := fun i =>
  if ∀ j, j ≤ i → mem (s + UInt64.ofNat j) ≠ 0 then some (mem (s + UInt64.ofNat i)) else none

theorem upToNul_eq_some {mem : Memory} {s : UInt64} {i : Nat} {b : UInt8} :
    upToNul mem s i = some b ↔
      (∀ j, j ≤ i → mem (s + UInt64.ofNat j) ≠ 0) ∧ mem (s + UInt64.ofNat i) = b := by
  rw [upToNul]
  split
  · rename_i h
    rw [Option.some_inj]
    exact ⟨fun hb => ⟨h, hb⟩, And.right⟩
  · rename_i h
    exact ⟨fun hb => absurd hb (by simp), fun hb => absurd hb.1 h⟩

/-- Nothing is printed from a NUL on. -/
theorem upToNul_eq_none {mem : Memory} {s : UInt64} {i k : Nat} (hk : k ≤ i)
    (hnul : mem (s + UInt64.ofNat k) = 0) : upToNul mem s i = none :=
  if_neg fun h => h k hk hnul

/-- Only the bytes up to the first NUL matter. -/
theorem upToNul_congr {mem mem' : Memory} {s : UInt64} {k : Nat}
    (hnul : mem (s + UInt64.ofNat k) = 0)
    (h : ∀ j, j ≤ k → mem' (s + UInt64.ofNat j) = mem (s + UInt64.ofNat j)) :
    upToNul mem' s = upToNul mem s := by
  funext i
  by_cases hi : k ≤ i
  · rw [upToNul_eq_none hi hnul, upToNul_eq_none hi ((h k (Nat.le_refl k)).trans hnul)]
  · have hsame : ∀ j, j ≤ i → mem' (s + UInt64.ofNat j) = mem (s + UInt64.ofNat j) :=
      fun j hj => h j (by omega)
    rw [upToNul, upToNul, hsame i (Nat.le_refl i)]
    congr 1
    refine propext (forall_congr' fun j => imp_congr_right fun hj => ?_)
    rw [hsame j hj]

/-! ## Disclosure -/

/-- The memories agree on the bytes of the buffer that lie in the user region. -/
def UserBytesEq (region : UserRegion) (ptr len : UInt64) (mem mem' : Memory) : Prop :=
  ∀ a : UInt64, ptr.toNat ≤ a.toNat → a.toNat < ptr.toNat + len.toNat →
    region.base ≤ a → a < region.limit → mem' a = mem a

/-- A call tells nothing but the buffer: on every memory with the same user bytes it prints the
same, and what it prints are bytes of the buffer at their place. -/
structure DisclosesOnly {T : Type} (call : Kernel T → Int64 × Kernel T) (region : UserRegion)
    (ptr len : UInt64) (k : Kernel T) : Prop where
  same : ∀ mem', UserBytesEq region ptr len k.mem mem' →
    (call { k with mem := mem' }).2.console = (call k).2.console
  inside : ∃ out, (call k).2.console = k.console ++ out ∧
    ∀ p ∈ out, ∀ i b, p i = some b → i < len.toNat ∧ b = k.mem (ptr + UInt64.ofNat i)

/-- The checks that stand before the print. -/
def Refused (region : UserRegion) (ptr len : UInt64) : Prop :=
  ptr = 0 ∨ 4096 < len ∨ userCheckRange region ptr len = false

section

variable {T : Type} [DecidableEq T] (klog : Memory → UInt64 → Printed) (exitText : UInt64)
  (region : UserRegion) (ptr len a2 a3 a4 a5 : UInt64)

theorem kernelCall_writeSerial (k : Kernel T) :
    kernelCall klog exitText region sysWriteSerialNr ptr len a2 a3 a4 a5 k =
      sysWriteSerial (syscallInit (some (kernelOps klog exitText))) region ptr len a2 a3 a4 a5 k :=
  rfl

theorem writeSerial_refused (h : Refused region ptr len) (k : Kernel T) :
    (kernelCall klog exitText region sysWriteSerialNr ptr len a2 a3 a4 a5 k).2 = k := by
  rw [kernelCall_writeSerial, sysWriteSerial]
  split
  · rfl
  · split
    · rfl
    · split
      · rfl
      · rename_i hptr hlen hrange
        exact absurd h (by simp_all [Refused])

theorem writeSerial_accepted (h : ¬Refused region ptr len) (k : Kernel T) :
    (kernelCall klog exitText region sysWriteSerialNr ptr len a2 a3 a4 a5 k).2 =
      k.print klog ptr := by
  obtain ⟨hptr, hlen, hrange⟩ : ptr ≠ 0 ∧ ¬4096 < len ∧ ¬userCheckRange region ptr len = false := by
    simpa [Refused] using h
  rw [kernelCall_writeSerial, sysWriteSerial, if_neg hptr, if_neg hlen,
    if_neg (by simpa using hrange)]
  rfl

variable {klog} (hklog : ∀ mem s, klog mem s = upToNul mem s)

include hklog

/-- A string that ends in the buffer is made of user bytes. -/
theorem disclosesOnly_of_nul (k : Kernel T) (h : ¬Refused region ptr len) {n : Nat}
    (hn : n < len.toNat) (hnul : k.mem (ptr + UInt64.ofNat n) = 0) :
    DisclosesOnly (kernelCall klog exitText region sysWriteSerialNr ptr len a2 a3 a4 a5)
      region ptr len k := by
  have hrange : userCheckRange region ptr len = true := by
    simpa using fun hfalse => h (Or.inr (Or.inr hfalse))
  constructor
  · intro mem' heq
    have hprint : klog mem' ptr = klog k.mem ptr := by
      rw [hklog, hklog]
      apply upToNul_congr hnul
      intro j hj
      obtain ⟨haddr, hbase, hlimit⟩ := buffer_addr hrange (show j < len.toNat by omega)
      exact heq _ (by omega) (by omega) hbase hlimit
    rw [writeSerial_accepted _ _ _ _ _ _ _ _ _ h, writeSerial_accepted _ _ _ _ _ _ _ _ _ h]
    simp only [Kernel.print, hprint]
  · refine ⟨[klog k.mem ptr], ?_, ?_⟩
    · rw [writeSerial_accepted _ _ _ _ _ _ _ _ _ h]
      rfl
    · intro p hp i b hb
      rw [List.mem_singleton.mp hp, hklog, upToNul_eq_some] at hb
      obtain ⟨hchars, hbyte⟩ := hb
      refine ⟨?_, hbyte.symm⟩
      by_contra hi
      exact hchars n (by omega) hnul

/-- Without a NUL in the buffer the print goes on to the byte behind it: it is there on the line if
it is not a NUL itself, and it decides how long the line is if it is one. -/
theorem not_disclosesOnly (k : Kernel T) (h : ¬Refused region ptr len)
    (hnul : ∀ n, n < len.toNat → k.mem (ptr + UInt64.ofNat n) ≠ 0) :
    ¬DisclosesOnly (kernelCall klog exitText region sysWriteSerialNr ptr len a2 a3 a4 a5)
      region ptr len k := by
  intro hd
  set behind : UInt64 := ptr + UInt64.ofNat len.toNat with hbehind
  by_cases hend : k.mem behind = 0
  · -- the same buffer with one more character behind it prints a longer line
    have hother : UserBytesEq region ptr len k.mem (Function.update k.mem behind 1) := by
      intro a hptr hlen _ _
      refine Function.update_of_ne ?_ _ _
      rintro rfl
      have hl := len.toNat_lt
      have hp := ptr.toNat_lt
      rw [hbehind, UInt64.toNat_add, UInt64.toNat_ofNat'] at hptr hlen
      omega
    have hsame := hd.same _ hother
    rw [writeSerial_accepted _ _ _ _ _ _ _ _ _ h, writeSerial_accepted _ _ _ _ _ _ _ _ _ h] at hsame
    have hprint : upToNul (Function.update k.mem behind 1) ptr = upToNul k.mem ptr := by
      simpa [Kernel.print, hklog] using hsame
    have hshort : upToNul k.mem ptr len.toNat = none := upToNul_eq_none (Nat.le_refl _) hend
    have hlong : upToNul (Function.update k.mem behind 1) ptr len.toNat = some 1 := by
      rw [upToNul_eq_some]
      refine ⟨fun j hj => ?_, Function.update_self _ _ _⟩
      by_cases hjl : ptr + UInt64.ofNat j = behind
      · rw [hjl, Function.update_self]
        decide
      · rw [Function.update_of_ne hjl]
        refine hnul j (lt_of_le_of_ne hj ?_)
        rintro rfl
        exact hjl rfl
    rw [hprint, hshort] at hlong
    cases hlong
  -- the byte behind the buffer is printed itself
  · obtain ⟨out, hout, hinside⟩ := hd.inside
    rw [writeSerial_accepted _ _ _ _ _ _ _ _ _ h, Kernel.print, hklog] at hout
    have hmem : upToNul k.mem ptr ∈ out := by
      rw [← List.append_cancel_left hout]
      exact List.mem_singleton.mpr rfl
    have hbyte : upToNul k.mem ptr len.toNat = some (k.mem behind) := by
      rw [upToNul_eq_some]
      refine ⟨fun j hj => ?_, rfl⟩
      rcases Nat.lt_or_eq_of_le hj with hlt | rfl
      · exact hnul j hlt
      · exact hend
    exact absurd (hinside _ hmem _ _ hbyte).1 (Nat.lt_irrefl _)

omit hklog in
theorem disclosesOnly_refused (k : Kernel T) (h : Refused region ptr len) :
    DisclosesOnly (kernelCall klog exitText region sysWriteSerialNr ptr len a2 a3 a4 a5)
      region ptr len k := by
  constructor
  · intro mem' _
    rw [writeSerial_refused _ _ _ _ _ _ _ _ _ h, writeSerial_refused _ _ _ _ _ _ _ _ _ h]
  · refine ⟨[], ?_, fun p hp => absurd hp List.not_mem_nil⟩
    rw [writeSerial_refused _ _ _ _ _ _ _ _ _ h, List.append_nil]

/-- **Disclosure of the write system call.** It tells nothing but the user bytes of its buffer
exactly when its checks refuse it or the buffer holds a NUL. -/
theorem writeSerial_disclosesOnly_iff (k : Kernel T) :
    DisclosesOnly (kernelCall klog exitText region sysWriteSerialNr ptr len a2 a3 a4 a5)
        region ptr len k ↔
      Refused region ptr len ∨ ∃ n, n < len.toNat ∧ k.mem (ptr + UInt64.ofNat n) = 0 := by
  by_cases h : Refused region ptr len
  · exact ⟨fun _ => Or.inl h, fun _ => disclosesOnly_refused _ _ _ _ _ _ _ _ k h⟩
  · rw [or_iff_right h]
    constructor
    · intro hd
      by_contra hnul
      push Not at hnul
      exact not_disclosesOnly _ _ _ _ _ _ _ _ hklog k h hnul hd
    · rintro ⟨n, hn, hnul⟩
      exact disclosesOnly_of_nul _ _ _ _ _ _ _ _ hklog k h hn hnul

end

/-- A user page with the string `hi` at its start. -/
def userPage : UserRegion := ⟨0x400000, 0x401000⟩

def hiMemory : Memory := fun a =>
  if a = 0x400000 then 104 else if a = 0x400001 then 105 else if a = 0x400002 then 0 else 65

/-- A kernel without threads. -/
def plainKernel (mem : Memory) : Kernel Empty :=
  ⟨mem, [], ⟨⟨none, none, none, none, 0, 0, 0, 0, false⟩, nofun⟩⟩

theorem writeSerial_disclosesOnly_terminated :
    DisclosesOnly (kernelCall upToNul 0 userPage sysWriteSerialNr 0x400000 3 0 0 0 0)
      userPage 0x400000 3 (plainKernel hiMemory) :=
  (writeSerial_disclosesOnly_iff 0 userPage 0x400000 3 0 0 0 0 (fun _ _ => rfl)
    (plainKernel hiMemory)).mpr (Or.inr ⟨2, by decide, by decide⟩)

/-- A call with length 0 prints the string at its address. -/
theorem writeSerial_discloses_past_buffer :
    ¬DisclosesOnly (kernelCall upToNul 0 userPage sysWriteSerialNr 0x400000 0 0 0 0 0)
      userPage 0x400000 0 (plainKernel hiMemory) := by
  refine not_disclosesOnly _ _ _ _ _ _ _ _ (fun _ _ => rfl) _ ?_ ?_
  · rintro (h | h | h)
    · exact absurd h (by decide)
    · exact absurd h (by decide)
    · exact absurd h (by decide)
  · intro n hn
    exact absurd hn (Nat.not_lt_zero n)

end Mcsos.Syscall
