import Vibra.Lib.Ring

/-! # The preemptive scheduler

`task/mod.rs` with the state its two handlers write besides the scheduler: the ring-0 stack of the
TSS and the per-CPU block of `syscall/mod.rs`.
-/

namespace Vibra.Sched

open Vibra.Lib

/-- Wrapping `u64` arithmetic. -/
def wrap64 (n : Nat) : Nat := n % 2 ^ 64

inductive TaskState
  | ready | running | sleeping | zombie | blocked
  deriving DecidableEq

inductive Priority
  | low | normal | high | critical
  deriving DecidableEq

/-- Task control block. -/
structure Task where
  id : Nat
  name : String
  state : TaskState
  priority : Priority
  timeSlices : Nat
  wakeTime : Option Nat
  entry : Option Nat
  /-- Address of the saved context. -/
  savedRsp : Nat
  /-- Top of the kernel stack. -/
  kstackTop : Option Nat
  userRsp : Nat
  userRflags : Nat
  cpuNs : Nat
  lastStartNs : Nat
  lastIdleNs : Nat
  deriving DecidableEq

structure Scheduler where
  tasks : List Task
  current : Option Nat
  tickCount : Nat
  quantum : Nat
  nextId : Nat
  switches : Nat
  deriving DecidableEq

/-- The block `syscall_entry` works on. -/
structure PerCpu where
  userRsp : Nat
  kernelRsp : Nat
  userRflags : Nat
  deriving DecidableEq

/-- The two clocks a handler reads: uptime and idle time. -/
structure Clock where
  now : Nat
  idle : Nat

/-- `SCHEDULER`, the TSS entry for ring 0, `PERCPU` and `TICKS`. -/
structure Machine where
  sched : Option Scheduler
  rsp0 : Nat
  perCpu : PerCpu
  ticks : Nat
  deriving DecidableEq

def quantumTicks : Nat := 4

/-- `Task.state` of the task with the index. -/
def Scheduler.stateOf (s : Scheduler) (i : Nat) : Option TaskState := s.tasks[i]?.map (·.state)

def Task.wake (t : Task) : Task := { t with state := .ready, wakeTime := none }

/-- A sleeping task whose time has come. -/
def Task.wakeAt (now : Nat) (t : Task) : Task :=
  match t.state, t.wakeTime with
  | .sleeping, some wt => if wt ≤ now then t.wake else t
  | _, _ => t

def advanceTick (s : Scheduler) : Scheduler :=
  { s with
    tickCount := wrap64 (s.tickCount + 1)
    tasks := s.tasks.map (Task.wakeAt (wrap64 (s.tickCount + 1))) }

/-- `note_tick`; `free` says whether `try_lock` gets the scheduler. -/
def noteTick (m : Machine) (free : Bool) : Machine :=
  let m := { m with ticks := wrap64 (m.ticks + 1) }
  if free then { m with sched := m.sched.map advanceTick } else m

/-- Time on the CPU since the task was entered, less the time spent idle. -/
def Task.charge (clock : Clock) (t : Task) : Task :=
  if t.lastStartNs ≠ 0 then
    { t with
      cpuNs := min (t.cpuNs + ((clock.now - t.lastStartNs) - (clock.idle - t.lastIdleNs)))
        (2 ^ 64 - 1) }
  else t

/-- The running task is put back in the queue; a task in any other state stays in it. -/
def Task.requeue (t : Task) : Task :=
  if t.state = .running then { t with state := .ready } else t

def Task.leave (ctx : Nat) (clock : Clock) (t : Task) : Task :=
  ({ t with savedRsp := ctx }.charge clock).requeue

def Task.leaveTick (ctx : Nat) (clock : Clock) (t : Task) : Task :=
  { t.leave ctx clock with timeSlices := wrap64 (t.timeSlices + 1) }

def Task.enter (clock : Clock) (t : Task) : Task :=
  { t with state := .running, lastStartNs := clock.now, lastIdleNs := clock.idle }

/-- The round-robin loop: the task to select, `none` when no task is Ready. -/
def nextReady (tasks : List Task) (cur : Nat) : Option Nat :=
  let tc := tasks.length
  Ring.seek (fun i => tasks[i]?.map (·.state) = some .ready) tc ((cur + 1) % tc) tc
    ((cur + 1) % tc)

/-- The interrupted task `cur` is put back by `f`. -/
def Scheduler.putBack (s : Scheduler) (cur : Nat) (f : Task → Task) : Scheduler :=
  { s with tasks := s.tasks.modify cur f }

def Scheduler.resume (s : Scheduler) (cur : Nat) : Scheduler :=
  { s with tasks := s.tasks.modify cur (fun t => { t with state := .running }) }

/-- The selected task becomes the current one. -/
def Scheduler.dispatch (s : Scheduler) (next : Nat) (clock : Clock) : Scheduler :=
  { s with
    tasks := s.tasks.modify next (Task.enter clock)
    current := some next
    switches := wrap64 (s.switches + 1) }

/-- `gdt::set_kernel_stack` of a task's kernel stack. -/
def Machine.setKernelStack (m : Machine) (top : Option Nat) : Machine :=
  match top with
  | some top => { m with rsp0 := top }
  | none => m

/-- `syscall::update_kernel_stack` of a task's kernel stack. -/
def Machine.updateKernelStack (m : Machine) (top : Option Nat) : Machine :=
  match top with
  | some top => { m with perCpu := { m.perCpu with kernelRsp := top } }
  | none => m

/-- `syscall::save_user_rsp` and `syscall::save_user_rflags`. -/
def Machine.saveUser (m : Machine) (rsp rflags : Nat) : Machine :=
  { m with perCpu := { m.perCpu with userRsp := rsp, userRflags := rflags } }

/-- The end of `tick_and_switch`: the CPU is set up for the selected task. -/
def tickTo (m : Machine) (s : Scheduler) (next ctx : Nat) : Machine × Nat :=
  let m := { m with sched := some s }
  match s.tasks[next]? with
  | none => (m, ctx)
  | some t =>
    let m := (m.setKernelStack t.kstackTop).updateKernelStack t.kstackTop
    (m.saveUser t.userRsp t.userRflags, t.savedRsp)

/-- The end of `softirq_handler`. -/
def yieldTo (m : Machine) (s : Scheduler) (next ctx : Nat) : Machine × Nat :=
  let m := { m with sched := some s }
  match s.tasks[next]? with
  | none => (m, ctx)
  | some t => (m.setKernelStack t.kstackTop, t.savedRsp)

/-- `tick_and_switch`: the new state and the address of the context to resume. -/
def tickAndSwitch (m : Machine) (free : Bool) (ctx : Nat) (clock : Clock) : Machine × Nat :=
  let m := { m with ticks := wrap64 (m.ticks + 1) }
  match (if free then m.sched else none) with
  | none => (m, ctx)
  | some s =>
    let s := advanceTick s
    let tc := s.tasks.length
    if s.tickCount % s.quantum ≠ 0 ∨ tc ≤ 1 then ({ m with sched := some s }, ctx)
    else
      match s.current with
      | none => ({ m with sched := some s }, ctx)
      | some cur =>
        let s := s.putBack cur (Task.leaveTick ctx clock)
        match nextReady s.tasks cur with
        | none => ({ m with sched := some { s.resume cur with current := some cur } }, ctx)
        | some next => tickTo m (s.dispatch next clock) next ctx

/-- `softirq_handler`: a yield, `int 0x81`. -/
def softirqHandler (m : Machine) (free : Bool) (ctx : Nat) (clock : Clock) : Machine × Nat :=
  match (if free then m.sched else none) with
  | none => (m, ctx)
  | some s =>
    match s.current with
    | none => (m, ctx)
    | some cur =>
      if s.tasks.length ≤ 1 then (m, ctx)
      else
        let s := s.putBack cur (Task.leave ctx clock)
        match nextReady s.tasks cur with
        | none => ({ m with sched := some (s.resume cur) }, ctx)
        | some next => yieldTo m (s.dispatch next clock) next ctx

/-- Size of a saved context: 15 registers and the frame of `iretq`. -/
def contextSize : Nat := 20 * 8

/-- A fresh task; its context lies at the top of its kernel stack. -/
def freshTask (id : Nat) (name : String) (priority : Priority) (entry : Option Nat)
    (top userRsp : Nat) : Task where
  id := id
  name := name
  state := .ready
  priority := priority
  timeSlices := 0
  wakeTime := none
  entry := entry
  savedRsp := top - contextSize
  kstackTop := some top
  userRsp := userRsp
  userRflags := 0x200
  cpuNs := 0
  lastStartNs := 0
  lastIdleNs := 0

/-- `init`; each stack is a top address, `none` when there is no memory for it. -/
def initScheduler (top0 top1 : Option Nat) (idleEntry : Nat) : Option Scheduler :=
  match top0, top1 with
  | some top0, some top1 =>
    some
      { tasks :=
          [{ freshTask 0 "kshell" .high none top0 0 with state := .running, savedRsp := 0 },
            freshTask 1 "idle" .low (some idleEntry) top1 0]
        current := some 0
        tickCount := 0
        quantum := quantumTicks
        nextId := 2
        switches := 0 }
  | _, _ => none

/-- The state `init` leaves, with `PERCPU` and the TSS as they were. -/
def initMachine (top0 top1 : Option Nat) (idleEntry rsp0 : Nat) (perCpu : PerCpu)
    (ticks : Nat) : Machine :=
  ⟨initScheduler top0 top1 idleEntry, rsp0, perCpu, ticks⟩

def Scheduler.push (s : Scheduler) (task : Nat → Task) : Scheduler :=
  { s with tasks := s.tasks ++ [task s.nextId], nextId := (s.nextId + 1) % 2 ^ 32 }

def spawn (m : Machine) (name : String) (entry : Nat) (priority : Priority)
    (top : Option Nat) : Machine :=
  match m.sched, top with
  | some s, some top =>
    { m with sched := some (s.push fun id => freshTask id name priority (some entry) top 0) }
  | _, _ => m

/-- The registration at the end of `spawn_user_process`; `stackTop` is the user stack. -/
def spawnUserProcess (m : Machine) (name : String) (top stackTop : Nat) : Machine :=
  match m.sched with
  | some s =>
    { m with sched := some (s.push fun id => freshTask id name .normal none top stackTop) }
  | none => m

/-- The first task that fits is changed, as a `for` loop with a `break` does. -/
def updateFirst (p : Task → Bool) (f : Task → Task) : List Task → List Task
  | [] => []
  | t :: ts => if p t then f t :: ts else t :: updateFirst p f ts

def Scheduler.updateFirst (s : Scheduler) (p : Task → Bool) (f : Task → Task) : Scheduler :=
  { s with tasks := Sched.updateFirst p f s.tasks }

def Task.exit (t : Task) : Task := { t with state := .zombie }

def Task.sleepUntil (time : Nat) (t : Task) : Task :=
  { t with state := .sleeping, wakeTime := some time }

def exitTask (m : Machine) (id : Nat) : Machine :=
  if id = 0 then m
  else { m with sched := m.sched.map fun s => s.updateFirst (·.id = id) Task.exit }

def sleepTask (m : Machine) (id ticks : Nat) : Machine :=
  { m with sched := m.sched.map fun s =>
    s.updateFirst (·.id = id) (Task.sleepUntil (wrap64 (s.tickCount + ticks))) }

def wakeTask (m : Machine) (id : Nat) : Machine :=
  { m with sched := m.sched.map fun s =>
    s.updateFirst (fun t => t.id = id ∧ t.state = .sleeping) Task.wake }

def currentTaskId (m : Machine) : Option Nat := do
  let s ← m.sched
  let i ← s.current
  let t ← s.tasks[i]?
  return t.id

def getKstackTop (m : Machine) : Option Nat := do
  let s ← m.sched
  let i ← s.current
  let t ← s.tasks[i]?
  t.kstackTop

/-- `syscall::init`, what it does to `PERCPU`. -/
def syscallInit (m : Machine) : Machine :=
  { m with perCpu := ⟨0, (getKstackTop m).getD 0, 0x200⟩ }

inductive Event
  | spawn (name : String) (entry : Nat) (priority : Priority) (top : Option Nat)
  | spawnUser (name : String) (top stackTop : Nat)
  | exit (id : Nat)
  | sleep (id ticks : Nat)
  | wake (id : Nat)
  | tick (free : Bool) (ctx : Nat) (clock : Clock)
  | noteTick (free : Bool)
  | yield (free : Bool) (ctx : Nat) (clock : Clock)

def step (m : Machine) : Event → Machine
  | .spawn name entry priority top => spawn m name entry priority top
  | .spawnUser name top stackTop => spawnUserProcess m name top stackTop
  | .exit id => exitTask m id
  | .sleep id ticks => sleepTask m id ticks
  | .wake id => wakeTask m id
  | .tick free ctx clock => (tickAndSwitch m free ctx clock).1
  | .noteTick free => noteTick m free
  | .yield free ctx clock => (softirqHandler m free ctx clock).1

def run (m : Machine) (events : List Event) : Machine := events.foldl step m

def Selects (m : Machine) (e : Event) (n : Nat) : Prop :=
  ∃ s ∈ m.sched, ∃ s' ∈ (step m e).sched,
    s'.switches ≠ s.switches ∧ s'.current = some n

end Vibra.Sched
