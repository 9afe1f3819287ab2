import Vibra.Sched.StackSteps

/-! # What a system call gives back

SYSRET takes RIP and RFLAGS from the frame on the task's own stack, and RSP from the one slot of the
per-CPU block.
-/

namespace Vibra.Sched

open Vibra.Lib

attribute [local irreducible] Words.store

/-- What a step asks of the scheduler. -/
def CpuEvent.requests (b : Build) (σ : Cpu) : CpuEvent → List Event
  | .dispatch _ free clock =>
    if σ.regs.rdi = sysExit then [.exit ((currentTaskId σ.kernel).getD 0)]
    else if σ.regs.rdi = sysYield then
      [.yield free (contextBase (σ.regs.rsi - b.yieldDepth)) clock]
    else []
  | .raise vector clock =>
    if (idt vector).map Handler.fromUser = some .kill then
      [.exit ((currentTaskId σ.kernel).getD 0),
        .yield true (contextBase (contextBase σ.kernel.rsp0 - b.killDepth)) clock]
    else []
  | .tick free clock =>
    [.tick free (contextBase (if σ.regs.isUser then σ.kernel.rsp0 else σ.regs.rsp)) clock]
  | .yield free clock => [.yield free (contextBase σ.regs.rsp) clock]
  | .spawn name entry priority top => [.spawn name entry priority (some top)]
  | .spawnUser name top stackTop _ => [.spawnUser name top stackTop]
  | .exit id => [.exit id]
  | .sleep id ticks => [.sleep id ticks]
  | .wake id => [.wake id]
  | .noteTick free => [.noteTick free]
  | .user _ => []
  | .sysCall => []
  | .unwind => []
  | .sysRet => []
  | .killReturn => []
  | .kernel _ _ => []

/-- A run whose steps all meet a condition, with what it asked of the scheduler. -/
inductive Run (b : Build) (ok : Cpu → CpuEvent → Prop) (σ : Cpu) : List Event → Cpu → Prop
  | refl : Run b ok σ [] σ
  | tail {es : List Event} {σ1 σ2 : Cpu} {e : CpuEvent} : Run b ok σ es σ1 → ok σ1 e →
      Step b σ1 e σ2 → Run b ok σ (es ++ e.requests b σ1) σ2

variable {b : Build} {σ σ' : Cpu} {s : Scheduler} {c : Nat} {t : Made}

theorem Sound.requests {e : CpuEvent} (h : Sound b σ s) (hcur : s.current = some c)
    (ht : s.madeOf c = some t) (hstep : CpuStep b c t σ e σ') :
    σ'.kernel = run σ.kernel (e.requests b σ) := by
  cases hstep with
  | user regs hu hr => rfl
  | sysCall hu => rfl
  | dispatch readable free clock hat =>
    simp only [CpuEvent.requests, syscallDispatch]
    by_cases hw : σ.regs.rdi = sysWrite
    · have he : ¬ σ.regs.rdi = sysExit := by simp [hw, sysWrite, sysExit]
      have hy : ¬ σ.regs.rdi = sysYield := by simp [hw, sysWrite, sysYield]
      simp only [if_pos hw, if_neg he, if_neg hy]
      split
      · rfl
      · split <;> rfl
    · rw [if_neg hw]
      split
      · rfl
      · split <;> rfl
  | unwind hat =>
    simp only [CpuEvent.requests, Sched.unwind]
    split <;> rfl
  | sysRet hat => rfl
  | raise vector clock hu =>
    simp only [CpuEvent.requests]
    by_cases hk : (idt vector).map Handler.fromUser = some .kill
    · rw [if_pos hk, exception_kill hk]
      rfl
    rw [if_neg hk]
    by_cases hr : (idt vector).map Handler.fromUser = some .resume
    · rw [exception_resume hr]
      rfl
    · rw [exception_halt hk hr]
      rfl
  | killReturn hat => rfl
  | tickUser free clock hu =>
    simp only [CpuEvent.requests, if_pos hu]
    rfl
  | tickKernel free clock hk hroom =>
    have hr := (h.inKernel hcur ht hk).1
    simp only [CpuEvent.requests, hr]
    rfl
  | _ => rfl

theorem run_sound {ok : Cpu → CpuEvent → Prop} (hown : ∀ σ e, ok σ e → OwnStack σ e)
    {σ0 : Cpu} (hb : Booted b σ0) {es : List Event} (h : Run b ok σ0 es σ) :
    (∃ s, Sound b σ s) ∧ σ.kernel = Sched.run σ0.kernel es := by
  induction h with
  | refl => exact ⟨sound_boot hb, rfl⟩
  | tail hrun hok hstep ih =>
    obtain ⟨⟨s, hs⟩, hk⟩ := ih
    refine ⟨hs.step hstep (hown _ _ hok), ?_⟩
    obtain ⟨_, c, t, hct, hcpu⟩ := hstep
    obtain ⟨hcur, ht⟩ := (currentTask_eq hs.sched).mp hct
    rw [hs.requests hcur ht hcpu, hk, run_append]

/-- While the current task is in a system call, the slot holds the stack pointer it called
with. -/
def Slot (called : Nat → Option Regs) (m : Machine) : Prop :=
  ∀ s ∈ m.sched, ∀ c ∈ s.current, ∀ r ∈ called c, m.perCpu.userRsp = r.rsp

/-- A switch into a system call finds the stack pointer of the call: a tick the one the task
was made with, a yield the one in the slot. -/
def Finds (called : Nat → Option Regs) (m : Machine) (e : Event) : Prop :=
  ∀ n, Selects m e n → ∀ r ∈ called n, ∀ s ∈ m.sched, ∀ t, s.madeOf n = some t →
    (if e.isTick then t.userRsp else m.perCpu.userRsp) = r.rsp

theorem tickTo_userRsp {m : Machine} {s : Scheduler} {n : Nat} (ht : s.madeOf n = some t)
    (ctx : Nat) : (tickTo m s n ctx).1.perCpu.userRsp = t.userRsp := by
  obtain ⟨u, hu, rfl⟩ := madeOf_eq_some.mp ht
  simp only [tickTo, hu]
  rfl

theorem slot_step {called : Nat → Option Regs} {m : Machine} (hco : ∀ s ∈ m.sched, Coherent s)
    (h : Slot called m) {e : Event} (hf : Finds called m e) : Slot called (step m e) := by
  intro s' hs' n hn r hr
  cases hm : m.sched with
  | none => simp [step_none hm] at hs'
  | some s =>
    obtain ⟨c, hcur, hc, _⟩ := hco s hm
    rcases step_cases hm e with ⟨s1, hs1, hapi, hcpu, _⟩ | ⟨d, f, clock, hd, he, hleave, hl⟩
    · obtain rfl : s1 = s' := Option.some.inj (hs1.symm.trans hs')
      rw [hcpu]
      exact h s hm n (hapi.quiet.current.symm.trans hn) r hr
    rcases hl with ⟨_, hs1, hcpu⟩ | ⟨k, _, hstep⟩
    · obtain rfl := Option.some.inj (hs1.symm.trans hs')
      rw [hcpu]
      exact h s hm n ((base_current e s).symm.trans hn) r hr
    · have hs1 : (step m e).sched = some (((e.base s).putBack d f).dispatch k clock) := by
        rw [hstep]
        exact finish_sched he ..
      obtain rfl := Option.some.inj (hs1.symm.trans hs')
      obtain rfl : k = n := Option.some.inj hn
      have hmade : ∀ i, (((e.base s).putBack d f).dispatch k clock).madeOf i = s.madeOf i :=
        fun i => (madeOf_dispatch _ d k f clock hleave.made i).trans (madeOf_base e s i)
      have hk : k < s.tasks.length := by
        obtain ⟨s2, hs2, hsel⟩ := (selects_of_finish hm he hstep).selected hm hcur hc
        simpa using hsel.first.lt
      obtain ⟨t, ht⟩ := made_of_lt hk
      have hfind := hf k (selects_of_finish hm he hstep) r hr s hm t ht
      rw [← hfind, hstep]
      cases e with
      | tick free ctx clock => exact tickTo_userRsp ((hmade k).trans ht) ctx
      | yield free ctx clock => rw [Event.finish, yieldTo_perCpu]; rfl
      | _ => exact absurd he (by simp [Event.Enters])

theorem slot_run {called : Nat → Option Regs} {m : Machine} (hco : ∀ s ∈ m.sched, Coherent s)
    (h : Slot called m) (es : List Event)
    (hf : ∀ pre e suf, es = pre ++ e :: suf → Finds called (Sched.run m pre) e) :
    Slot called (Sched.run m es) := by
  induction es generalizing m with
  | nil => exact h
  | cons e es ih =>
    refine ih ?_ (slot_step hco h (hf [] e es rfl)) fun pre d suf hsplit =>
      hf (e :: pre) d suf (by rw [hsplit]; rfl)
    exact coherent_run hco [e]

/-- The step leaves the slot right: a SYSCALL finds its own kernel stack and its RSP in the
per-CPU block, and a switch into a system call finds the RSP of the call. -/
def StackPointerKept (b : Build) (σ : Cpu) (e : CpuEvent) : Prop :=
  (e = .sysCall → ∀ i t, σ.kernel.currentTask = some (i, t) →
    t.kstackTop = some σ.kernel.perCpu.kernelRsp ∧ σ.kernel.perCpu.userRsp = σ.regs.rsp) ∧
  ∀ pre d suf, e.requests b σ = pre ++ d :: suf → Finds σ.called (Sched.run σ.kernel pre) d

theorem StackPointerKept.ownStack {e : CpuEvent} (h : StackPointerKept b σ e) : OwnStack σ e :=
  fun he i t hct => (h.1 he i t hct).1

theorem called_step {e : CpuEvent} (hstep : CpuStep b c t σ e σ') :
    σ'.called = σ.called ∨
      e = .sysCall ∧ σ'.called = Function.update σ.called c (some σ.regs) ∨
      e = .sysRet ∧ σ'.called = Function.update σ.called c none := by
  cases hstep with
  | sysCall hu => exact Or.inr (Or.inl ⟨rfl, rfl⟩)
  | sysRet hat => exact Or.inr (Or.inr ⟨rfl, rfl⟩)
  | dispatch readable free clock hat =>
    refine Or.inl ?_
    simp only [syscallDispatch]
    split
    · split
      · rfl
      · split <;> rfl
    · split
      · rfl
      · split <;> rfl
  | unwind hat =>
    refine Or.inl ?_
    unfold Sched.unwind
    simp only []
    split <;> rfl
  | raise vector clock hu =>
    refine Or.inl ?_
    by_cases hk : (idt vector).map Handler.fromUser = some .kill
    · rw [exception_kill hk]
      rfl
    by_cases hr : (idt vector).map Handler.fromUser = some .resume
    · rw [exception_resume hr]
    · rw [exception_halt hk hr]
  | _ => exact Or.inl rfl

theorem slot_cpuStep {e : CpuEvent} (h : Sound b σ s) (hslot : Slot σ.called σ.kernel)
    (hstep : Step b σ e σ') (hok : StackPointerKept b σ e) : Slot σ'.called σ'.kernel := by
  obtain ⟨_, c, t, hct, hcpu⟩ := hstep
  obtain ⟨hcur, ht⟩ := (currentTask_eq h.sched).mp hct
  have hk := h.requests hcur ht hcpu
  rcases called_step hcpu with hc | ⟨rfl, hc⟩ | ⟨rfl, hc⟩
  · rw [hc, hk]
    refine slot_run (fun s1 hs1 => ?_) hslot _ hok.2
    obtain rfl : s = s1 := Option.some.inj (h.sched.symm.trans hs1)
    exact h.coherent
  all_goals
    rw [hc, show σ'.kernel = σ.kernel from hk]
    intro s1 hs1 d hd r hr
    obtain rfl : s = s1 := Option.some.inj (h.sched.symm.trans hs1)
    obtain rfl : c = d := Option.some.inj (hcur.symm.trans hd)
    rw [Function.update_self] at hr
  · obtain rfl : σ.regs = r := Option.some.inj hr
    exact (hok.1 rfl c t hct).2
  · simp at hr

theorem run_slot {σ0 : Cpu} (hb : Booted b σ0) {es : List Event}
    (h : Run b (StackPointerKept b) σ0 es σ) : Slot σ.called σ.kernel := by
  induction h with
  | refl =>
    intro s _ c _ r hr
    rw [hb.called] at hr
    contradiction
  | tail hrun hok hstep ih =>
    obtain ⟨⟨s, hs⟩, _⟩ := run_sound (fun _ _ => StackPointerKept.ownStack) hb hrun
    exact slot_cpuStep hs ih hstep hok

/-- In every run whose steps leave the slot right, SYSRET gives a task the RIP, RFLAGS and RSP
of its SYSCALL. -/
theorem sysRet_restores {σ0 : Cpu} (hb : Booted b σ0) {es : List Event}
    (hrun : Run b (StackPointerKept b) σ0 es σ) (hret : Step b σ .sysRet σ') :
    ∃ i t r, σ.kernel.currentTask = some (i, t) ∧ σ.called i = some r ∧
      σ'.regs.isUser = true ∧ σ'.regs.rip = r.rip ∧ σ'.regs.rflags = r.rflags ∧
      σ'.regs.rsp = r.rsp := by
  obtain ⟨⟨s, hs⟩, _⟩ := run_sound (fun _ _ => StackPointerKept.ownStack) hb hrun
  obtain ⟨_, c, t, hct, hcpu⟩ := hret
  obtain ⟨hcur, ht⟩ := (currentTask_eq hs.sched).mp hct
  cases hcpu with
  | sysRet hat =>
    obtain ⟨hrsp, r, hr, _, hrip, hrflags⟩ := hs.atDone hcur ht hat
    obtain ⟨_, _, hge, _, _⟩ := hs.userStack hcur ht hat.1
    unfold kernelStackSize at hge
    have h24 : σ.regs.rsp + 24 = t.top - 16 := by omega
    have h32 : σ.regs.rsp + 32 = t.top - 8 := by omega
    refine ⟨c, t, r, hct, hr, by simp [syscallExit, Regs.isUser, userCs], ?_, ?_, ?_⟩
    · show σ.mem (σ.regs.rsp + 24) = r.rip
      rw [h24, hrip]
    · show σ.mem (σ.regs.rsp + 32) = r.rflags
      rw [h32, hrflags]
    · exact run_slot hb hrun s hs.sched c hcur r hr

/-! ## A run -/

theorem Run.mono {ok ok' : Cpu → CpuEvent → Prop} (h : ∀ σ e, ok σ e → ok' σ e) {σ0 : Cpu}
    {es : List Event} (hrun : Run b ok σ0 es σ) : Run b ok' σ0 es σ := by
  induction hrun with
  | refl => exact .refl
  | tail hrun hok hstep ih => exact .tail ih (h _ _ hok) hstep

theorem stackPointerKept_of_uncalled (h : ∀ i, σ.called i = none) {e : CpuEvent}
    (he : e ≠ .sysCall) : StackPointerKept b σ e := by
  refine ⟨fun hc => absurd hc he, fun pre d suf _ n _ r hr => ?_⟩
  rw [h] at hr
  contradiction

def Cpu.kernelTick (σ : Cpu) : Cpu :=
  σ.interrupt (contextBase σ.regs.rsp) σ.regs (tickAndSwitch · true · ⟨0, 0⟩)

def Cpu.canTick (σ : Cpu) (b : Build) : Bool :=
  match σ.kernel.currentTask with
  | some (i, t) => !σ.stopped && !t.isUser i &&
      decide ((b.stack i t).1 + contextSize ≤ σ.regs.rsp / 16 * 16)
  | none => false

theorem Cpu.canTick_step (h : σ.canTick b = true) : Step b σ (.tick true ⟨0, 0⟩) σ.kernelTick := by
  unfold Cpu.canTick at h
  cases hct : σ.kernel.currentTask with
  | none => simp [hct] at h
  | some it =>
    obtain ⟨i, t⟩ := it
    simp only [hct, Bool.and_eq_true, Bool.not_eq_true', decide_eq_true_iff] at h
    exact ⟨h.1.1, i, t, hct, .tickKernel true ⟨0, 0⟩ h.1.2 h.2⟩

theorem run_kernelTicks {ok : Cpu → CpuEvent → Prop} {σ0 : Cpu} {es : List Event}
    (h : Run b ok σ0 es σ) (n : Nat)
    (hok : ∀ k < n, ok (Cpu.kernelTick^[k] σ) (.tick true ⟨0, 0⟩))
    (hcan : ∀ k < n, (Cpu.kernelTick^[k] σ).canTick b = true) :
    ∃ es', Run b ok σ0 es' (Cpu.kernelTick^[n] σ) := by
  induction n with
  | zero => exact ⟨es, h⟩
  | succ n ih =>
    obtain ⟨es', hrun⟩ := ih (fun k hk => hok k (by omega)) fun k hk => hcan k (by omega)
    rw [Function.iterate_succ_apply']
    exact ⟨_, .tail hrun (hok n (by omega)) (Cpu.canTick_step (hcan n (by omega)))⟩

def sampleBuild : Build where
  dispatch := 0x100
  done := 0x200
  resumed := 0x300
  killed := 0x400
  distinct := by decide
  yieldDepth := 64
  killDepth := 64
  yieldDepth_ge := by decide
  yieldDepth_le := by decide
  killDepth_le := by decide
  bootLo := 0x1000
  bootHi := 0x3000

def sampleBoot : Cpu where
  kernel := boot (some 0x9000) (some 0xB000) 0x400000 0 0 ⟨0, 0, 0x200⟩
  mem := Words.store (fun _ => 0) (0xB000 - contextSize) (kernelContext 0xB000 0x400000).words
  regs := kernelContext 0x2000 0x600000
  stopped := false
  called := fun _ => none

theorem sampleBoot_booted : Booted sampleBuild sampleBoot where
  kernel := ⟨0x9000, 0xB000, 0x400000, 0, 0, ⟨0, 0, 0x200⟩, rfl, by decide, by decide,
    Regs.load_store _ _ _⟩
  regs := by decide
  stopped := rfl
  called := fun _ => rfl

/-- The shell has made a user task. -/
def sampleSpawn : Cpu :=
  { sampleBoot with
    kernel := spawnUserProcess sampleBoot.kernel "a" 0xD000 0x7000
    mem := sampleBoot.mem.store (0xD000 - contextSize) (userContext 0x10000 0x7000).words }

def sampleUser : Cpu := Cpu.kernelTick^[8] sampleSpawn

theorem sampleUser_ticks : (∀ k < 8, (Cpu.kernelTick^[k] sampleSpawn).canTick sampleBuild = true) ∧
    sampleUser.kernel.currentTask = some (2, ⟨2, none, some 0xD000, 0x7000, 0x200⟩) ∧
      sampleUser.kernel.perCpu = ⟨0x7000, 0xD000, 0x200⟩ ∧ sampleUser.regs.isUser = true := by
  decide +kernel

theorem sampleUser_run {ok : Cpu → CpuEvent → Prop}
    (hspawn : ok sampleBoot (.spawnUser "a" 0xD000 0x7000 0x10000))
    (htick : ∀ k < 8, ok (Cpu.kernelTick^[k] sampleSpawn) (.tick true ⟨0, 0⟩)) :
    ∃ es, Run sampleBuild ok sampleBoot es sampleUser := by
  have hfresh : FreshStack sampleBuild sampleBoot.kernel 0xD000 := by
    refine ⟨by decide, by decide, by decide, fun s hs => ?_⟩
    cases hs
    decide
  refine run_kernelTicks (.tail .refl hspawn ⟨rfl, 0, _, rfl, .spawnUser _ _ _ _ hfresh⟩) 8 htick ?_
  exact sampleUser_ticks.1

theorem sampleUser_state :
    sampleUser.kernel.currentTask = some (2, ⟨2, none, some 0xD000, 0x7000, 0x200⟩) ∧
      sampleUser.kernel.perCpu = ⟨0x7000, 0xD000, 0x200⟩ ∧ sampleUser.regs.isUser = true :=
  sampleUser_ticks.2

theorem sampleUser_task :
    sampleUser.kernel.currentTask = some (2, ⟨2, none, some 0xD000, 0x7000, 0x200⟩) :=
  sampleUser_state.1

def sampleCaller (rsp : Nat) : Cpu :=
  { sampleUser with regs := { userContext 0x10000 rsp with rax := 7 } }

def sampleReturn (rsp : Nat) : Cpu :=
  (syscallEntry sampleBuild (sampleCaller rsp) 2).ret sampleBuild sysError

theorem sampleCall_dispatch (rsp : Nat) (readable : Nat → Bool) (free : Bool) (clock : Clock) :
    syscallDispatch sampleBuild (syscallEntry sampleBuild (sampleCaller rsp) 2) readable free
      clock = sampleReturn rsp := rfl

theorem sampleReturn_run {ok : Cpu → CpuEvent → Prop} {es : List Event} {rsp : Nat}
    (h : Run sampleBuild ok sampleBoot es sampleUser)
    (huser : ok sampleUser (.user (sampleCaller rsp).regs))
    (hcall : ok (sampleCaller rsp) .sysCall)
    (hdispatch : ok (syscallEntry sampleBuild (sampleCaller rsp) 2)
      (.dispatch (fun _ => false) true ⟨0, 0⟩)) :
    ∃ es', Run sampleBuild ok sampleBoot es' (sampleReturn rsp) := by
  have htask := sampleUser_task
  have hstopped : sampleUser.stopped = false := rfl
  have hregs : sampleUser.regs.isUser = true := sampleUser_state.2.2
  have hrun1 := Run.tail h huser ⟨hstopped, 2, _, htask, .user (sampleCaller rsp).regs hregs
    (by simp [sampleCaller, Regs.isUser, userContext, userCs])⟩
  have hrun2 := Run.tail hrun1 hcall ⟨hstopped, 2, _, htask, .sysCall
    (by simp [sampleCaller, Regs.isUser, userContext, userCs])⟩
  refine ⟨_, Run.tail hrun2 hdispatch ⟨hstopped, 2, _, htask, ?_⟩⟩
  rw [← sampleCall_dispatch rsp (fun _ => false) true ⟨0, 0⟩]
  exact .dispatch _ _ _ ⟨rfl, by simp [syscallEntry, Regs.isUser, kernelCs], rfl⟩

theorem sampleReturn_step (rsp : Nat) :
    Step sampleBuild (sampleReturn rsp) .sysRet (syscallExit (sampleReturn rsp) 2) :=
  ⟨rfl, 2, _, sampleUser_task, .sysRet
    ⟨rfl, by simp [sampleReturn, Cpu.ret, syscallEntry, Regs.isUser, kernelCs], rfl⟩⟩

theorem sampleUser_perCpu : sampleUser.kernel.perCpu = ⟨0x7000, 0xD000, 0x200⟩ :=
  sampleUser_state.2.1

theorem stackPointerKept_of_silent {e : CpuEvent} (h : e.requests b σ = []) (he : e ≠ .sysCall) :
    StackPointerKept b σ e :=
  ⟨fun hc => absurd hc he, fun pre d suf hs => by simp [h] at hs⟩

theorem sampleUser_kept :
    ∃ es, Run sampleBuild (StackPointerKept sampleBuild) sampleBoot es sampleUser := by
  refine sampleUser_run (stackPointerKept_of_uncalled (fun _ => rfl) (by simp)) fun k hk => ?_
  refine stackPointerKept_of_uncalled (fun i => ?_) (by simp)
  have hcalled : ∀ n, (Cpu.kernelTick^[n] sampleSpawn).called = fun _ => none := by
    intro n
    induction n with
    | zero => rfl
    | succ n ih =>
      rw [Function.iterate_succ_apply']
      exact ih
  rw [hcalled]

/-- A task that calls with the stack pointer it was made with gets its registers back. -/
theorem sysRet_restores_sample : ∃ i t r, (sampleReturn 0x7000).kernel.currentTask = some (i, t) ∧
    (sampleReturn 0x7000).called i = some r ∧
    (syscallExit (sampleReturn 0x7000) 2).regs.isUser = true ∧
    (syscallExit (sampleReturn 0x7000) 2).regs.rip = r.rip ∧
    (syscallExit (sampleReturn 0x7000) 2).regs.rflags = r.rflags ∧
    (syscallExit (sampleReturn 0x7000) 2).regs.rsp = r.rsp := by
  obtain ⟨es, h⟩ := sampleUser_kept
  have hcall : StackPointerKept sampleBuild (sampleCaller 0x7000) .sysCall := by
    refine ⟨fun _ i t hct => ?_, fun pre d suf hs => by simp [CpuEvent.requests] at hs⟩
    obtain ⟨rfl, rfl⟩ := Prod.mk.inj (Option.some.inj (sampleUser_task.symm.trans hct))
    rw [show (sampleCaller 0x7000).kernel.perCpu = ⟨0x7000, 0xD000, 0x200⟩ from sampleUser_perCpu]
    exact ⟨rfl, rfl⟩
  obtain ⟨es', hrun⟩ := sampleReturn_run h (stackPointerKept_of_silent rfl (by simp)) hcall
    (stackPointerKept_of_silent rfl (by simp))
  exact sysRet_restores sampleBoot_booted hrun (sampleReturn_step 0x7000)

/-- A task that has pushed a word calls on its own kernel stack, and returns with the stack
pointer it was made with. -/
theorem sysRet_loses_rsp : ∃ es, Run sampleBuild OwnStack sampleBoot es (sampleReturn 0x6FF8) ∧
    Booted sampleBuild sampleBoot ∧
    Step sampleBuild (sampleReturn 0x6FF8) .sysRet (syscallExit (sampleReturn 0x6FF8) 2) ∧
    (sampleReturn 0x6FF8).called 2 = some (sampleCaller 0x6FF8).regs ∧
    (sampleCaller 0x6FF8).regs.rsp = 0x6FF8 ∧
    (syscallExit (sampleReturn 0x6FF8) 2).regs.rsp = 0x7000 := by
  obtain ⟨es, h⟩ := sampleUser_kept
  have hcall : OwnStack (sampleCaller 0x6FF8) .sysCall := by
    intro _ i t hct
    obtain ⟨rfl, rfl⟩ := Prod.mk.inj (Option.some.inj (sampleUser_task.symm.trans hct))
    rw [show (sampleCaller 0x6FF8).kernel.perCpu = ⟨0x7000, 0xD000, 0x200⟩ from sampleUser_perCpu]
  obtain ⟨es', hrun⟩ := sampleReturn_run (h.mono fun _ _ => StackPointerKept.ownStack)
    (fun he => by simp at he) hcall (fun he => by simp at he)
  refine ⟨es', hrun, sampleBoot_booted, sampleReturn_step 0x6FF8, rfl, rfl, ?_⟩
  show sampleUser.kernel.perCpu.userRsp = 0x7000
  rw [sampleUser_perCpu]

end Vibra.Sched
