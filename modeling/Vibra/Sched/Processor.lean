import Vibra.Lib.Bytes
import Vibra.Sched.CpuState

/-! # The processor between user tasks and the kernel

The stubs of `task/ctx_switch.rs` and `syscall/mod.rs` and the table of `interrupts/idt.rs` with
the processor they run on. Kernel code is a few addresses; a kernel task computes freely on its own
stack. What compiled code keeps below a saved context is not modelled: nothing reads it again.
-/

namespace Vibra.Sched

open Vibra.Lib

/-- The registers of a saved context, from the lowest address up. -/
structure Regs where
  r15 : Nat
  r14 : Nat
  r13 : Nat
  r12 : Nat
  r11 : Nat
  r10 : Nat
  r9 : Nat
  r8 : Nat
  rbp : Nat
  rdi : Nat
  rsi : Nat
  rdx : Nat
  rcx : Nat
  rbx : Nat
  rax : Nat
  rip : Nat
  cs : Nat
  rflags : Nat
  rsp : Nat
  ss : Nat

def Regs.words (r : Regs) : List Nat :=
  [r.r15, r.r14, r.r13, r.r12, r.r11, r.r10, r.r9, r.r8, r.rbp, r.rdi, r.rsi, r.rdx, r.rcx, r.rbx,
    r.rax, r.rip, r.cs, r.rflags, r.rsp, r.ss]

/-- What the stub pops and `iretq` takes. -/
def Regs.load (mem : Words) (base : Nat) : Regs where
  r15 := mem (base + 8 * 0)
  r14 := mem (base + 8 * 1)
  r13 := mem (base + 8 * 2)
  r12 := mem (base + 8 * 3)
  r11 := mem (base + 8 * 4)
  r10 := mem (base + 8 * 5)
  r9 := mem (base + 8 * 6)
  r8 := mem (base + 8 * 7)
  rbp := mem (base + 8 * 8)
  rdi := mem (base + 8 * 9)
  rsi := mem (base + 8 * 10)
  rdx := mem (base + 8 * 11)
  rcx := mem (base + 8 * 12)
  rbx := mem (base + 8 * 13)
  rax := mem (base + 8 * 14)
  rip := mem (base + 8 * 15)
  cs := mem (base + 8 * 16)
  rflags := mem (base + 8 * 17)
  rsp := mem (base + 8 * 18)
  ss := mem (base + 8 * 19)

def Regs.isUser (r : Regs) : Bool := r.cs % 4 = 3

def kernelCs : Nat := 0x08
def kernelDs : Nat := 0x10
def userCs : Nat := 0x23
def userDs : Nat := 0x1B

def kernelStackSize : Nat := 8 * 1024

/-- Where the context of an interrupt lands: below the stack pointer, which the processor
aligns. -/
def contextBase (rsp : Nat) : Nat := rsp / 16 * 16 - contextSize

/-- `prepare_task_stack`. -/
def kernelContext (top entry : Nat) : Regs :=
  ⟨0, 0, 0, 0, 0, 0, 0, 0, 0, 0, 0, 0, 0, 0, 0, entry, kernelCs, 0x202, top, kernelDs⟩

/-- `prepare_user_task_stack`. -/
def userContext (entry userRsp : Nat) : Regs :=
  ⟨0, 0, 0, 0, 0, 0, 0, 0, 0, 0, 0, 0, 0, 0, 0, entry, userCs, 0x202, userRsp, userDs⟩

/-- What linking and loading fix: the places of kernel code where a task can stand, how deep
in the stack `int 0x81` is reached from them, and the stack `kshell` was booted on. -/
structure Build where
  /-- Entry of `syscall_dispatch`. -/
  dispatch : Nat
  /-- `syscall_entry` after the call of the dispatcher; also its return address. -/
  done : Nat
  /-- `yield_now` after `int 0x81`, called from the dispatcher. -/
  resumed : Nat
  /-- `yield_now` after `int 0x81`, called from an exception handler. -/
  killed : Nat
  distinct : [dispatch, done, resumed, killed].Nodup
  yieldDepth : Nat
  killDepth : Nat
  yieldDepth_ge : 8 ≤ yieldDepth
  yieldDepth_le : yieldDepth ≤ kernelStackSize / 2
  killDepth_le : killDepth ≤ kernelStackSize / 2
  bootLo : Nat
  bootHi : Nat

structure Cpu where
  kernel : Machine
  mem : Words
  regs : Regs
  /-- In `halt_loop`, or out of the code. -/
  stopped : Bool
  /-- History: the registers a task had at the SYSCALL it is in. Nothing reads it. -/
  called : Nat → Option Regs

/-- The index of the current task, and what it was made with. -/
def Machine.currentTask (m : Machine) : Option (Nat × Made) := do
  let s ← m.sched
  let i ← s.current
  let t ← s.tasks[i]?
  return (i, t.made)

/-- Tasks of `spawn_user_process` have no kernel entry; neither has `kshell`, task 0. -/
def Made.isUser (t : Made) (i : Nat) : Bool := i ≠ 0 && t.entry.isNone

def Made.top (t : Made) : Nat := t.kstackTop.getD 0

def Build.stack (b : Build) (i : Nat) (t : Made) : Nat × Nat :=
  if i = 0 then (b.bootLo, b.bootHi) else (t.top - kernelStackSize, t.top)

/-- An interrupt: `saved` goes on the stack at `base`, the handler runs, and the context it
returns is loaded. -/
def Cpu.interrupt (σ : Cpu) (base : Nat) (saved : Regs)
    (handler : Machine → Nat → Machine × Nat) : Cpu :=
  let mem := σ.mem.store base saved.words
  let r := handler σ.kernel base
  { σ with kernel := r.1, mem := mem, regs := Regs.load mem r.2 }

def sysWrite : Nat := 0
def sysExit : Nat := 1
def sysYield : Nat := 2

/-- The flags SYSCALL clears, `MSR_FMASK`. -/
def fmask : Nat := 1 <<< 9 ||| 1 <<< 8 ||| 1 <<< 3

def sysError : Nat := 2 ^ 64 - 1

/-- SYSCALL, and `syscall_entry` up to the call of the dispatcher. -/
def syscallEntry (b : Build) (σ : Cpu) (i : Nat) : Cpu :=
  let top := σ.kernel.perCpu.kernelRsp
  let r := σ.regs
  let frame := top - 40
  { σ with
    mem := σ.mem.store (frame - 8) [b.done, r.rdi, r.rsi, r.rdx, r.rip, r.rflags]
    regs :=
      { r with
        rcx := r.rip
        r11 := r.rflags
        rflags := r.rflags &&& (2 ^ 64 - 1 - fmask)
        rdi := r.rax
        rsi := frame
        rsp := frame - 8
        rip := b.dispatch
        cs := kernelCs
        ss := kernelDs }
    called := Function.update σ.called i (some r) }

def Cpu.ret (σ : Cpu) (b : Build) (value : Nat) : Cpu :=
  { σ with regs := { σ.regs with rax := value, rsp := σ.regs.rsp + 8, rip := b.done } }

/-- The bytes `sys_write` reads; a null pointer is refused by the checks of a debug build. -/
def writeFaults (readable : Nat → Bool) (ptr len : Nat) : Prop :=
  ptr = 0 ∨ ∃ k < len, readable (ptr + k) = false

instance (readable : Nat → Bool) (ptr len : Nat) : Decidable (writeFaults readable ptr len) :=
  inferInstanceAs (Decidable (_ ∨ _))

/-- `sys_write` refuses the request. -/
def writeRefused (ptr len : Nat) : Prop := 0xFFFF800000000000 ≤ ptr ∨ 4096 < len

instance (ptr len : Nat) : Decidable (writeRefused ptr len) := inferInstanceAs (Decidable (_ ∨ _))

/-- `syscall_dispatch`; `readable` is what the page tables let the kernel read. A fault in the
kernel stops the machine. -/
def syscallDispatch (b : Build) (σ : Cpu) (readable : Nat → Bool) (free : Bool)
    (clock : Clock) : Cpu :=
  let number := σ.regs.rdi
  let frame := σ.regs.rsi
  let ptr := σ.mem (frame + 8)
  let len := σ.mem (frame + 16)
  if number = sysWrite then
    if writeRefused ptr len then σ.ret b sysError
    else if writeFaults readable ptr len then { σ with stopped := true }
    else σ.ret b len
  else if number = sysExit then
    { σ with kernel := exitTask σ.kernel ((currentTaskId σ.kernel).getD 0) }.ret b 0
  else if number = sysYield then
    let rsp := frame - b.yieldDepth
    σ.interrupt (contextBase rsp) { σ.regs with rip := b.resumed, rsp := rsp }
      (softirqHandler · free · clock)
  else σ.ret b sysError

/-- `yield_now` and the dispatcher return, if the return address is still there. -/
def unwind (b : Build) (σ : Cpu) : Cpu :=
  let frame := σ.regs.rsp + b.yieldDepth
  if σ.mem (frame - 8) = b.done then
    { σ with regs := { σ.regs with rax := 0, rsp := frame, rip := b.done } }
  else { σ with stopped := true }

/-- The end of `syscall_entry`, and SYSRET. -/
def syscallExit (σ : Cpu) (i : Nat) : Cpu :=
  let frame := σ.regs.rsp
  let rcx := σ.mem (frame + 24)
  let r11 := σ.mem (frame + 32)
  { σ with
    regs :=
      { σ.regs with
        r10 := σ.regs.rax
        rdi := σ.mem frame
        rsi := σ.mem (frame + 8)
        rdx := σ.mem (frame + 16)
        rcx := rcx
        r11 := r11
        rsp := σ.kernel.perCpu.userRsp
        rip := rcx
        rflags := r11
        cs := userCs
        ss := userDs }
    called := Function.update σ.called i none }

inductive Handler
  | divideByZero | debug | nmi | breakpoint | invalidOpcode | deviceNotAvailable | doubleFault
  | generalProtection | pageFault
  | unexpected (vector : Nat)

/-- The handlers `init` sets by name. -/
def dedicated : Nat → Option Handler
  | 0 => some .divideByZero
  | 1 => some .debug
  | 2 => some .nmi
  | 3 => some .breakpoint
  | 6 => some .invalidOpcode
  | 7 => some .deviceNotAvailable
  | 8 => some .doubleFault
  | 13 => some .generalProtection
  | 14 => some .pageFault
  | _ => none

/-- The table after `install_unexpected_handlers`, which leaves eight vectors alone. -/
def idt (vector : Nat) : Option Handler :=
  if vector < 32 ∧ vector ∉ [0, 2, 3, 6, 7, 8, 13, 14] then some (.unexpected vector)
  else dedicated vector

/-- How a handler ends. -/
inductive Ending
  | halt | resume | kill
  deriving DecidableEq

/-- The handlers, for an exception in ring 3. -/
def Handler.fromUser : Handler → Ending
  | .divideByZero => .halt
  | .debug => .halt
  | .nmi => .resume
  | .breakpoint => .resume
  | .invalidOpcode => .halt
  | .deviceNotAvailable => .halt
  | .doubleFault => .halt
  | .generalProtection => .kill
  | .pageFault => .kill
  | .unexpected _ => .kill

/-- `kill_current_and_yield`, with the frame of the exception at `frame`. -/
def killCurrentAndYield (b : Build) (σ : Cpu) (frame : Nat) (clock : Clock) : Cpu :=
  let rsp := frame - b.killDepth
  { σ with kernel := exitTask σ.kernel ((currentTaskId σ.kernel).getD 0) }.interrupt
    (contextBase rsp) { σ.regs with rip := b.killed, rsp := rsp, cs := kernelCs, ss := kernelDs }
    (softirqHandler · true · clock)

/-- An exception in ring 3: the context is saved, the handler runs. -/
def exception (b : Build) (σ : Cpu) (vector : Nat) (clock : Clock) : Cpu :=
  let frame := contextBase σ.kernel.rsp0
  let σ' := { σ with mem := σ.mem.store frame σ.regs.words }
  match (idt vector).map Handler.fromUser with
  | some .kill => killCurrentAndYield b σ' frame clock
  | some .resume => σ'
  | _ => { σ' with stopped := true }

/-- `kill_current_and_yield` and the handler return: back to the faulting instruction. -/
def killReturn (b : Build) (σ : Cpu) : Cpu :=
  { σ with regs := Regs.load σ.mem (σ.regs.rsp + b.killDepth) }

inductive CpuEvent
  | user (regs : Regs)
  | sysCall
  | dispatch (readable : Nat → Bool) (free : Bool) (clock : Clock)
  | unwind
  | sysRet
  | raise (vector : Nat) (clock : Clock)
  | killReturn
  | tick (free : Bool) (clock : Clock)
  | kernel (regs : Regs) (mem : Words)
  | yield (free : Bool) (clock : Clock)
  | spawn (name : String) (entry : Nat) (priority : Priority) (top : Nat)
  | spawnUser (name : String) (top stackTop code : Nat)
  | exit (id : Nat)
  | sleep (id ticks : Nat)
  | wake (id : Nat)
  | noteTick (free : Bool)

/-- What the allocator promises of a new kernel stack. -/
def FreshStack (b : Build) (m : Machine) (top : Nat) : Prop :=
  top % 16 = 0 ∧ kernelStackSize ≤ top ∧
    (top ≤ b.bootLo ∨ b.bootHi ≤ top - kernelStackSize) ∧
    ∀ s ∈ m.sched, ∀ t ∈ s.tasks, ∀ u ∈ t.kstackTop,
      top + kernelStackSize ≤ u ∨ u + kernelStackSize ≤ top

/-- The current task stands at a place of the kernel's system call or exception code. -/
def Cpu.At (σ : Cpu) (i : Nat) (t : Made) (place : Nat) : Prop :=
  t.isUser i = true ∧ σ.regs.isUser = false ∧ σ.regs.rip = place

def Cpu.Room (σ : Cpu) (b : Build) (i : Nat) (t : Made) : Prop :=
  (b.stack i t).1 + contextSize ≤ σ.regs.rsp / 16 * 16

/-- One step of the processor with the current task `t` of index `i`. User code runs in ring
3 and keeps interrupts on; inside a system call or an exception they are off. A kernel task
computes and yields on its own stack. -/
inductive CpuStep (b : Build) (i : Nat) (t : Made) (σ : Cpu) : CpuEvent → Cpu → Prop
  | user (regs : Regs) : σ.regs.isUser = true → regs.isUser = true →
      CpuStep b i t σ (.user regs) { σ with regs := regs }
  | sysCall : σ.regs.isUser = true → CpuStep b i t σ .sysCall (syscallEntry b σ i)
  | dispatch (readable : Nat → Bool) (free : Bool) (clock : Clock) : σ.At i t b.dispatch →
      CpuStep b i t σ (.dispatch readable free clock) (syscallDispatch b σ readable free clock)
  | unwind : σ.At i t b.resumed → CpuStep b i t σ .unwind (unwind b σ)
  | sysRet : σ.At i t b.done → CpuStep b i t σ .sysRet (syscallExit σ i)
  | raise (vector : Nat) (clock : Clock) : σ.regs.isUser = true →
      CpuStep b i t σ (.raise vector clock) (exception b σ vector clock)
  | killReturn : σ.At i t b.killed → CpuStep b i t σ .killReturn (killReturn b σ)
  | tickUser (free : Bool) (clock : Clock) : σ.regs.isUser = true →
      CpuStep b i t σ (.tick free clock)
        (σ.interrupt (contextBase σ.kernel.rsp0) σ.regs (tickAndSwitch · free · clock))
  | tickKernel (free : Bool) (clock : Clock) : t.isUser i = false → σ.Room b i t →
      CpuStep b i t σ (.tick free clock)
        (σ.interrupt (contextBase σ.regs.rsp) σ.regs (tickAndSwitch · free · clock))
  | kernel (regs : Regs) (mem : Words) : t.isUser i = false → regs.isUser = false →
      (b.stack i t).1 ≤ regs.rsp → regs.rsp ≤ (b.stack i t).2 →
      Words.AgreeOff (b.stack i t).1 (b.stack i t).2 σ.mem mem →
      CpuStep b i t σ (.kernel regs mem) { σ with regs := regs, mem := mem }
  | yield (free : Bool) (clock : Clock) : t.isUser i = false → σ.Room b i t →
      CpuStep b i t σ (.yield free clock)
        (σ.interrupt (contextBase σ.regs.rsp) σ.regs (softirqHandler · free · clock))
  | spawn (name : String) (entry : Nat) (priority : Priority) (top : Nat) :
      FreshStack b σ.kernel top →
      CpuStep b i t σ (.spawn name entry priority top)
        { σ with
          kernel := spawn σ.kernel name entry priority (some top)
          mem := σ.mem.store (top - contextSize) (kernelContext top entry).words }
  | spawnUser (name : String) (top stackTop code : Nat) : FreshStack b σ.kernel top →
      CpuStep b i t σ (.spawnUser name top stackTop code)
        { σ with
          kernel := spawnUserProcess σ.kernel name top stackTop
          mem := σ.mem.store (top - contextSize) (userContext code stackTop).words }
  | exit (id : Nat) : CpuStep b i t σ (.exit id) { σ with kernel := exitTask σ.kernel id }
  | sleep (id ticks : Nat) :
      CpuStep b i t σ (.sleep id ticks) { σ with kernel := sleepTask σ.kernel id ticks }
  | wake (id : Nat) : CpuStep b i t σ (.wake id) { σ with kernel := wakeTask σ.kernel id }
  | noteTick (free : Bool) :
      CpuStep b i t σ (.noteTick free) { σ with kernel := noteTick σ.kernel free }

def Step (b : Build) (σ : Cpu) (e : CpuEvent) (σ' : Cpu) : Prop :=
  σ.stopped = false ∧ ∃ i t, σ.kernel.currentTask = some (i, t) ∧ CpuStep b i t σ e σ'

/-- The machine after boot: `kshell` runs on the boot stack, and the idle task is ready. -/
structure Booted (b : Build) (σ : Cpu) : Prop where
  kernel : ∃ top0 top1 idleEntry rsp0 ticks perCpu,
    σ.kernel = boot (some top0) (some top1) idleEntry rsp0 ticks perCpu ∧
    (∀ top ∈ [top0, top1], top % 16 = 0 ∧ kernelStackSize ≤ top ∧
      (top ≤ b.bootLo ∨ b.bootHi ≤ top - kernelStackSize)) ∧
    (top0 + kernelStackSize ≤ top1 ∨ top1 + kernelStackSize ≤ top0) ∧
    Regs.load σ.mem (top1 - contextSize) = kernelContext top1 idleEntry
  regs : σ.regs.isUser = false ∧ b.bootLo ≤ σ.regs.rsp ∧ σ.regs.rsp ≤ b.bootHi
  stopped : σ.stopped = false
  called : ∀ i, σ.called i = none

end Vibra.Sched
