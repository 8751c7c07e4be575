import Mcsos.Sched.Thread

set_option autoImplicit false

/-! # System calls (`kernel/syscall/syscall.c` and the operations of `kernel/kernel.c`)

The dispatcher runs operations that somebody registers with it. What such an operation does
depends on the machine it runs on, which is the type `M` here: an operation takes the machine
and returns it changed. The kernel registers its own operations, which write on the serial line
through `klog`. That function is not part of the sources, so it is a parameter.
-/

namespace Mcsos.Syscall

def sysWriteSerialNr : UInt64 := 2
def sysMax : UInt64 := 5

def ok : Int64 := 0
def einval : Int64 := -22
def enosys : Int64 := -38
def efault : Int64 := -14
def ebusy : Int64 := -16

/-- The byte at every address of the machine. -/
abbrev Memory := UInt64 → UInt8

/-- `mcsos_user_region_t`. -/
structure UserRegion where
  base : UInt64
  limit : UInt64

/-- `mcsos_syscall_ops_t`; a NULL pointer is `none`. -/
structure SyscallOps (M : Type) where
  getTicks : Option (M → UInt64 × M)
  yieldCurrent : Option (M → M)
  exitCurrent : Option (Int32 → M → M)
  writeSerial : Option (UInt64 → UInt64 → M → Int64 × M)

/-- `g_ops` as `mcsos_syscall_init` leaves it: there `write_serial` is never NULL. -/
structure GOps (M : Type) where
  getTicks : Option (M → UInt64 × M)
  yieldCurrent : Option (M → M)
  exitCurrent : Option (Int32 → M → M)
  writeSerial : UInt64 → UInt64 → M → Int64 × M

/-- `mcsos_user_check_range`, with `g_user_region` set to `region`. -/
def userCheckRange (region : UserRegion) (addr len : UInt64) : Bool :=
  if len = 0 then true
  else if region.base = 0 ∨ region.limit ≤ region.base then false
  else if addr < region.base then false
  else if addr > region.limit then false
  else
    let last := addr + len - 1
    if last < addr then false
    else if last ≥ region.limit then false
    else true

/-- `for (size_t i = 0; i < len; ++i) d[i] = s[i];`, from the `i`-th byte on with `n` to go. -/
def copyBytes (dst src : UInt64) (mem : Memory) (i : UInt64) : Nat → Memory
  | 0 => mem
  | n + 1 => copyBytes dst src (Function.update mem (dst + i) (mem (src + i))) (i + 1) n

def copyFromUser (region : UserRegion) (dst src len : UInt64) (mem : Memory) : Int64 × Memory :=
  if len = 0 then (ok, mem)
  else if dst = 0 ∨ src = 0 then (einval, mem)
  else if ¬userCheckRange region src len then (efault, mem)
  else (ok, copyBytes dst src mem 0 len.toNat)

section Dispatch

variable {M : Type}

def defaultWriteSerial (_buf len : UInt64) (m : M) : Int64 × M := (len.toInt64, m)

def syscallInit : Option (SyscallOps M) → GOps M
  | none => ⟨none, none, none, defaultWriteSerial⟩
  | some ops =>
      ⟨ops.getTicks, ops.yieldCurrent, ops.exitCurrent,
        ops.writeSerial.getD defaultWriteSerial⟩

/-- `syscall_fn_t`, on the registered operations and the user region. -/
abbrev SyscallFn (M : Type) :=
  GOps M → UserRegion → UInt64 → UInt64 → UInt64 → UInt64 → UInt64 → UInt64 → M → Int64 × M

def sysPing : SyscallFn M := fun _ _ _ _ _ _ _ _ m => (0x2605020A, m)

def sysGetTicks : SyscallFn M := fun ops _ _ _ _ _ _ _ m =>
  match ops.getTicks with
  | none => (ebusy, m)
  | some getTicks => ((getTicks m).1.toInt64, (getTicks m).2)

def sysWriteSerial : SyscallFn M := fun ops region ptr len _ _ _ _ m =>
  if ptr = 0 then (einval, m)
  else if len > 4096 then (einval, m)
  else if ¬userCheckRange region ptr len then (efault, m)
  else ops.writeSerial ptr len m

def sysYield : SyscallFn M := fun ops _ _ _ _ _ _ _ m =>
  match ops.yieldCurrent with
  | none => (ebusy, m)
  | some yieldCurrent => (ok, yieldCurrent m)

def sysExitThread : SyscallFn M := fun ops _ code _ _ _ _ _ m =>
  match ops.exitCurrent with
  | none => (ebusy, m)
  | some exitCurrent => (ok, exitCurrent code.toUInt32.toInt32 m)

def gTable : List (SyscallFn M) :=
  [sysPing, sysGetTicks, sysWriteSerial, sysYield, sysExitThread]

def syscallDispatch (ops : GOps M) (region : UserRegion)
    (nr arg0 arg1 arg2 arg3 arg4 arg5 : UInt64) (m : M) : Int64 × M :=
  if nr ≥ sysMax then (enosys, m)
  else
    match gTable[nr.toNat]? with
    | none => (enosys, m)
    | some fn => fn ops region arg0 arg1 arg2 arg3 arg4 arg5 m

end Dispatch

/-! ## The operations of the kernel -/

/-- What one `klog` puts on the serial line: its bytes one after the other, and `none` from where
it ends on. -/
abbrev Printed := Nat → Option UInt8

/-- What the registered operations of the kernel act on: the memory, what every `klog` has printed
so far, and `g_sched`. -/
structure Kernel (T : Type) where
  mem : Memory
  console : List Printed
  sched : Sched.State T

section KernelOps

/- `klog` prints what it finds at an address; `exitText` is where the message of `k_exit_current`
lies. -/
variable {T : Type} (klog : Memory → UInt64 → Printed) (exitText : UInt64)

/-- `klog(s)`. -/
def Kernel.print (k : Kernel T) (s : UInt64) : Kernel T :=
  { k with console := k.console ++ [klog k.mem s] }

def kGetTicks (k : Kernel T) : UInt64 × Kernel T := (42, k)

def kYieldCurrent [DecidableEq T] (k : Kernel T) : Kernel T :=
  { k with sched := (Sched.schedYield k.sched).1 }

def kExitCurrent (_code : Int32) (k : Kernel T) : Kernel T := k.print klog exitText

def kWriteSerial (buf len : UInt64) (k : Kernel T) : Int64 × Kernel T :=
  (len.toInt64, k.print klog buf)

/-- The operations that `kernel_main` registers. -/
def kernelOps [DecidableEq T] : SyscallOps (Kernel T) where
  getTicks := some kGetTicks
  yieldCurrent := some kYieldCurrent
  exitCurrent := some (kExitCurrent klog exitText)
  writeSerial := some (kWriteSerial klog)

/-- A system call on the running kernel. -/
def kernelCall [DecidableEq T] (region : UserRegion)
    (nr arg0 arg1 arg2 arg3 arg4 arg5 : UInt64) (k : Kernel T) : Int64 × Kernel T :=
  syscallDispatch (syscallInit (some (kernelOps klog exitText))) region
    nr arg0 arg1 arg2 arg3 arg4 arg5 k

end KernelOps

end Mcsos.Syscall
