import Mathlib.Data.List.Induction
import Vibra.Sched.RoundRobin

/-! # The per-CPU state after a switch

`tick_and_switch` writes the TSS and the whole per-CPU block; `softirq_handler` writes the TSS only.
-/

namespace Vibra.Sched

open Vibra.Lib

/-- What a task was made with and keeps. -/
structure Made where
  id : Nat
  entry : Option Nat
  kstackTop : Option Nat
  userRsp : Nat
  userRflags : Nat
  deriving DecidableEq

def Task.made (t : Task) : Made := ⟨t.id, t.entry, t.kstackTop, t.userRsp, t.userRflags⟩

theorem Task.made_eq {t u : Task} : t.made = u.made ↔ t.id = u.id ∧ t.entry = u.entry ∧
    t.kstackTop = u.kstackTop ∧ t.userRsp = u.userRsp ∧ t.userRflags = u.userRflags := by
  simp [Task.made]

def PerCpu.Serves (p : PerCpu) (t : Task) : Prop :=
  t.kstackTop = some p.kernelRsp ∧ t.userRsp = p.userRsp ∧ t.userRflags = p.userRflags

def Machine.Serves (m : Machine) (t : Task) : Prop :=
  t.kstackTop = some m.rsp0 ∧ m.perCpu.Serves t

def Event.isTick : Event → Bool
  | .tick .. => true
  | _ => false

theorem PerCpu.Serves.congr {p : PerCpu} {t u : Task} (h : t.made = u.made) :
    p.Serves t ↔ p.Serves u := by
  obtain ⟨_, _, htop, hrsp, hrflags⟩ := Task.made_eq.mp h
  rw [PerCpu.Serves, PerCpu.Serves, htop, hrsp, hrflags]

@[simp] theorem Task.charge_made (clock : Clock) (t : Task) : (t.charge clock).made = t.made := by
  unfold Task.charge
  split <;> rfl

@[simp] theorem Task.leave_made (ctx : Nat) (clock : Clock) (t : Task) :
    (t.leave ctx clock).made = t.made := by
  unfold Task.leave Task.requeue
  split <;> exact Task.charge_made clock { t with savedRsp := ctx }

@[simp] theorem Task.leaveTick_made (ctx : Nat) (clock : Clock) (t : Task) :
    (t.leaveTick ctx clock).made = t.made :=
  Task.leave_made ctx clock t

@[simp] theorem Task.enter_made (clock : Clock) (t : Task) : (t.enter clock).made = t.made := rfl

@[simp] theorem Task.wakeAt_made (now : Nat) (t : Task) : (t.wakeAt now).made = t.made := by
  rcases t.wakeAt_cases now with h | ⟨_, h⟩ <;> rw [h]
  rfl

def Scheduler.madeOf (s : Scheduler) (i : Nat) : Option Made :=
  s.tasks[i]?.map Task.made

theorem getElem?_modify_map {α : Type} (ts : List Task) (k : Nat) {f : Task → Task}
    {g : Task → α} (hf : ∀ t, g (f t) = g t) (i : Nat) :
    (ts.modify k f)[i]?.map g = ts[i]?.map g := by
  simp only [List.getElem?_modify]
  cases ts[i]? with
  | none => rfl
  | some t =>
    simp only [Option.map_some]
    split <;> simp [hf]

theorem madeOf_modify (s : Scheduler) (k : Nat) (f : Task → Task) (hf : ∀ t, (f t).made = t.made)
    (i : Nat) : Scheduler.madeOf { s with tasks := s.tasks.modify k f } i = s.madeOf i :=
  getElem?_modify_map s.tasks k hf i

theorem madeOf_resume (s : Scheduler) (c : Nat) (f : Task → Task)
    (hf : ∀ t, (f t).made = t.made) (i : Nat) :
    ((s.putBack c f).resume c).madeOf i = s.madeOf i :=
  (madeOf_modify (s.putBack c f) c (fun t => { t with state := .running }) (fun _ => rfl) i).trans
    (madeOf_modify s c f hf i)

theorem madeOf_dispatch (s : Scheduler) (c n : Nat) (f : Task → Task) (clock : Clock)
    (hf : ∀ t, (f t).made = t.made) (i : Nat) :
    ((s.putBack c f).dispatch n clock).madeOf i = s.madeOf i :=
  (madeOf_modify (s.putBack c f) n _ (Task.enter_made clock) i).trans (madeOf_modify s c f hf i)

@[simp] theorem madeOf_advanceTick (s : Scheduler) (i : Nat) :
    (advanceTick s).madeOf i = s.madeOf i := by
  simp only [Scheduler.madeOf, advanceTick, List.getElem?_map, Option.map_map]
  cases s.tasks[i]? <;> simp

theorem madeOf_updateFirst (s : Scheduler) (p : Task → Bool) (f : Task → Task)
    (hf : ∀ t, (f t).made = t.made) (i : Nat) : (s.updateFirst p f).madeOf i = s.madeOf i := by
  rcases updateFirst_cases p f s.tasks with ⟨_, he⟩ | ⟨k, t, hk, _, he⟩
  · rw [show s.updateFirst p f = s from by simp [Scheduler.updateFirst, he]]
  · simp only [Scheduler.madeOf, Scheduler.updateFirst, he, List.getElem?_set]
    by_cases hki : k = i
    · subst hki
      rw [if_pos rfl, if_pos (List.getElem?_eq_some_iff.mp hk).1, hk, Option.map_some, hf t,
        Option.map_some]
    · simp [hki]

theorem madeOf_push (s : Scheduler) (task : Nat → Task) {i : Nat} (h : i < s.tasks.length) :
    (s.push task).madeOf i = s.madeOf i := by
  simp only [Scheduler.madeOf, Scheduler.push]
  rw [List.getElem?_append_left h]

@[simp] theorem setKernelStack_perCpu (m : Machine) (top : Option Nat) :
    (m.setKernelStack top).perCpu = m.perCpu := by
  cases top <;> rfl

theorem yieldTo_perCpu (m : Machine) (s : Scheduler) (next ctx : Nat) :
    (yieldTo m s next ctx).1.perCpu = m.perCpu := by
  unfold yieldTo
  simp only []
  split <;> simp

theorem yieldTo_rsp0 {m : Machine} {s : Scheduler} {n : Nat} {t : Task}
    (ht : s.madeOf n = some t.made) (ctx : Nat) :
    (yieldTo m s n ctx).1.rsp0 = t.kstackTop.getD m.rsp0 := by
  unfold yieldTo
  cases hget : s.tasks[n]? with
  | none => simp [Scheduler.madeOf, hget] at ht
  | some u =>
    simp only [Scheduler.madeOf, hget, Option.map_some, Option.some.injEq, Task.made_eq] at ht
    simp only [← ht.2.2.1]
    cases u.kstackTop <;> rfl

theorem tickTo_serves {m : Machine} {s : Scheduler} {n : Nat} {t : Task}
    (ht : s.madeOf n = some t.made) (ctx : Nat) :
    (tickTo m s n ctx).1.Serves t ↔ t.kstackTop.isSome := by
  unfold tickTo
  cases hget : s.tasks[n]? with
  | none => simp [Scheduler.madeOf, hget] at ht
  | some u =>
    simp only [Scheduler.madeOf, hget, Option.map_some, Option.some.injEq, Task.made_eq] at ht
    obtain ⟨_, _, htop, hrsp, hrflags⟩ := ht
    simp only [Machine.Serves, PerCpu.Serves, ← htop, ← hrsp, ← hrflags]
    cases u.kstackTop <;>
      simp [Machine.setKernelStack, Machine.updateKernelStack, Machine.saveUser]

theorem Leaves.made {f : Task → Task} (h : Leaves f) (t : Task) : (f t).made = t.made := by
  obtain ⟨ctx, clock, rfl | rfl⟩ := h <;> exact Task.leave_made ctx clock t

@[simp] theorem madeOf_base (e : Event) (s : Scheduler) (i : Nat) :
    (e.base s).madeOf i = s.madeOf i := by
  cases e with
  | tick free ctx clock => exact madeOf_advanceTick s i
  | _ => rfl

theorem Api.switches {s s' : Scheduler} {e : Event} (h : Api s e s') :
    s'.switches = s.switches := h.quiet.switches

theorem selects_of_finish {m : Machine} {s : Scheduler} {e : Event} {c n : Nat}
    {f : Task → Task} {clock : Clock} (hs : m.sched = some s) (he : e.Enters s)
    (hstep : step m e = e.finish m (((e.base s).putBack c f).dispatch n clock) n) :
    Selects m e n := by
  have hs' : (step m e).sched = some (((e.base s).putBack c f).dispatch n clock) := by
    rw [hstep]
    exact finish_sched he ..
  refine ⟨s, hs, _, hs', ?_, rfl⟩
  have hsw : (((e.base s).putBack c f).dispatch n clock).switches = wrap64 (s.switches + 1) := by
    rw [← base_switches e s]
    rfl
  rw [hsw]
  exact wrap64_succ_ne _

theorem Selects.finish {m : Machine} {e : Event} {n : Nat} (h : Selects m e n) {s : Scheduler}
    (hs : m.sched = some s) :
    e.Enters s ∧ ∃ s1, (∀ i, s1.madeOf i = s.madeOf i) ∧ step m e = e.finish m s1 n := by
  obtain ⟨s0, hs0, s', hs', hsw, hn⟩ := h
  obtain rfl : s = s0 := Option.some.inj (hs.symm.trans hs0)
  rcases step_cases hs e with ⟨s1, hs1, hapi, _, _⟩ | ⟨c, f, clock, _, he, hf, hl⟩
  · obtain rfl : s' = s1 := Option.some.inj (hs'.symm.trans hs1)
    exact absurd hapi.switches hsw
  refine ⟨he, ?_⟩
  rcases hl with ⟨_, hs1, _⟩ | ⟨k, _, hstep⟩
  · obtain rfl := Option.some.inj (hs'.symm.trans hs1)
    exact absurd (base_switches e s) hsw
  · have hs1 : (step m e).sched = some (((e.base s).putBack c f).dispatch k clock) := by
      rw [hstep]
      exact finish_sched he ..
    obtain rfl := Option.some.inj (hs'.symm.trans hs1)
    obtain rfl : k = n := Option.some.inj hn
    exact ⟨_, fun i => (madeOf_dispatch _ c k f clock hf.made i).trans (madeOf_base e s i), hstep⟩

theorem serves_iff {m : Machine} {e : Event} {n : Nat} (h : Selects m e n) {s : Scheduler}
    (hs : m.sched = some s) {t : Task} (ht : s.tasks[n]? = some t) :
    (step m e).Serves t ↔ e.isTick = true ∧ t.kstackTop.isSome = true ∨
      e.isTick = false ∧ m.perCpu.Serves t := by
  obtain ⟨he, s1, hmade, hstep⟩ := h.finish hs
  have ht1 : s1.madeOf n = some t.made := by
    rw [hmade, Scheduler.madeOf, ht]
    rfl
  rw [hstep]
  cases e with
  | tick free ctx clock =>
    simp only [Event.finish, Event.isTick]
    rw [tickTo_serves ht1]
    simp
  | yield free ctx clock =>
    simp only [Event.finish, Event.isTick, Machine.Serves, yieldTo_perCpu, yieldTo_rsp0 ht1]
    have htop : m.perCpu.Serves t → t.kstackTop = some (t.kstackTop.getD m.rsp0) := by
      intro h
      simp [h.1]
    simpa using htop
  | _ => exact absurd he (by simp [Event.Enters])

/-! ## Runs -/

/-- Every task has a kernel stack, and the per-CPU block is the current task's. -/
structure Owned (m : Machine) : Prop where
  kstacks : ∀ s ∈ m.sched, ∀ t ∈ s.tasks, t.kstackTop.isSome = true
  current : ∀ s ∈ m.sched, ∀ c ∈ s.current, ∀ t, s.tasks[c]? = some t → m.perCpu.Serves t

def YieldsHome (m : Machine) (e : Event) : Prop :=
  e.isTick = false → ∀ n, Selects m e n → ∀ s ∈ m.sched, ∀ t, s.tasks[n]? = some t →
    m.perCpu.Serves t

theorem madeOf_eq_some {s : Scheduler} {i : Nat} {h : Made} :
    s.madeOf i = some h ↔ ∃ t, s.tasks[i]? = some t ∧ t.made = h := by
  simp [Scheduler.madeOf]

theorem task_of_made {s s' : Scheduler} {i : Nat} {t : Task} (h : s'.madeOf i = s.madeOf i)
    (ht : s'.tasks[i]? = some t) : ∃ u, s.tasks[i]? = some u ∧ u.made = t.made := by
  have hu : s.madeOf i = some t.made := by
    rw [← h, Scheduler.madeOf, ht]
    rfl
  exact madeOf_eq_some.mp hu

theorem Api.made {s s' : Scheduler} {e : Event} (h : Api s e s') (i : Nat) :
    s'.madeOf i = s.madeOf i ∨
      s.tasks.length ≤ i ∧ ∀ t, s'.tasks[i]? = some t → t.kstackTop.isSome = true := by
  have hpush : ∀ task : Nat → Task, (task s.nextId).kstackTop.isSome = true →
      (s.push task).madeOf i = s.madeOf i ∨ s.tasks.length ≤ i ∧
        ∀ t, (s.push task).tasks[i]? = some t → t.kstackTop.isSome = true := by
    intro task hk
    by_cases hi : i < s.tasks.length
    · exact Or.inl (madeOf_push s task hi)
    · refine Or.inr ⟨by omega, fun t ht => ?_⟩
      simp only [Scheduler.push, List.getElem?_append, if_neg hi, List.getElem?_singleton] at ht
      split at ht
      · cases ht
        exact hk
      · contradiction
  cases h with
  | keep e => exact Or.inl rfl
  | spawn name entry priority top => exact hpush _ rfl
  | spawnUser name top stackTop => exact hpush _ rfl
  | exit id => exact Or.inl (madeOf_updateFirst s _ Task.exit (fun _ => rfl) i)
  | sleep id ticks =>
    exact Or.inl (madeOf_updateFirst s _ (Task.sleepUntil _) (fun _ => rfl) i)
  | wake id => exact Or.inl (madeOf_updateFirst s _ Task.wake (fun _ => rfl) i)
  | clock e => exact Or.inl (madeOf_advanceTick s i)

theorem kstacks_of_made {s s' : Scheduler} (hs : ∀ t ∈ s.tasks, t.kstackTop.isSome = true)
    (h : ∀ i, s'.madeOf i = s.madeOf i ∨
      s.tasks.length ≤ i ∧ ∀ t, s'.tasks[i]? = some t → t.kstackTop.isSome = true) :
    ∀ t ∈ s'.tasks, t.kstackTop.isSome = true := by
  intro t ht
  obtain ⟨i, hi⟩ := List.mem_iff_getElem?.mp ht
  rcases h i with he | ⟨_, hnew⟩
  · obtain ⟨u, hu, hmade⟩ := task_of_made he hi
    have hk : u.kstackTop = t.kstackTop := (Task.made_eq.mp hmade).2.2.1
    exact hk ▸ hs u (List.mem_of_getElem? hu)
  · exact hnew t hi

theorem owned_step {m : Machine} (hco : ∀ s ∈ m.sched, Coherent s) (h : Owned m) {e : Event}
    (hy : YieldsHome m e) : Owned (step m e) := by
  cases hm : m.sched with
  | none =>
    have hn := step_none hm e
    exact ⟨fun s hs => by simp [hn] at hs, fun s hs => by simp [hn] at hs⟩
  | some s =>
    obtain ⟨c, hcur, hc, _⟩ := hco s hm
    have hserve := h.current s hm c hcur
    rcases step_cases hm e with ⟨s', hs', hapi, hcpu, _⟩ | ⟨d, f, clock, hd, he, hf, hl⟩
    · constructor
      · intro s1 hs1
        obtain rfl : s' = s1 := Option.some.inj (hs'.symm.trans hs1)
        exact kstacks_of_made (h.kstacks s hm) hapi.made
      · intro s1 hs1 c1 hc1 t ht
        obtain rfl : s' = s1 := Option.some.inj (hs'.symm.trans hs1)
        obtain rfl : c = c1 := Option.some.inj
          ((hapi.quiet.current.trans hcur).symm.trans hc1)
        rcases hapi.made c with hmade | ⟨hge, _⟩
        · obtain ⟨u, hu, huh⟩ := task_of_made hmade ht
          rw [hcpu]
          exact (PerCpu.Serves.congr huh).mp (hserve u hu)
        · omega
    obtain rfl : c = d := Option.some.inj (hcur.symm.trans hd)
    rcases hl with ⟨_, hs', hcpu⟩ | ⟨n, _, hstep⟩
    · have hmade : ∀ i, (((e.base s).putBack c f).resume c).madeOf i = s.madeOf i :=
        fun i => (madeOf_resume _ c f hf.made i).trans (madeOf_base e s i)
      constructor
      · intro s1 hs1
        obtain rfl := Option.some.inj (hs'.symm.trans hs1)
        exact kstacks_of_made (h.kstacks s hm) fun i => Or.inl (hmade i)
      · intro s1 hs1 c1 hc1 t ht
        obtain rfl := Option.some.inj (hs'.symm.trans hs1)
        have hc1' : (e.base s).current = some c1 := hc1
        obtain rfl : c = c1 := Option.some.inj
          (hcur.symm.trans ((base_current e s).symm.trans hc1'))
        obtain ⟨u, hu, huh⟩ := task_of_made (hmade c) ht
        rw [hcpu]
        exact (PerCpu.Serves.congr huh).mp (hserve u hu)
    · have hs' : (step m e).sched = some (((e.base s).putBack c f).dispatch n clock) := by
        rw [hstep]
        exact finish_sched he ..
      have hmade : ∀ i, (((e.base s).putBack c f).dispatch n clock).madeOf i = s.madeOf i :=
        fun i => (madeOf_dispatch _ c n f clock hf.made i).trans (madeOf_base e s i)
      have hsel : Selects m e n := selects_of_finish hm he hstep
      constructor
      · intro s1 hs1
        obtain rfl := Option.some.inj (hs'.symm.trans hs1)
        exact kstacks_of_made (h.kstacks s hm) fun i => Or.inl (hmade i)
      · intro s1 hs1 c1 hc1 t ht
        obtain rfl := Option.some.inj (hs'.symm.trans hs1)
        obtain rfl : n = c1 := Option.some.inj hc1
        obtain ⟨u, hu, huh⟩ := task_of_made (hmade n) ht
        have hserves : (step m e).Serves u := by
          refine (serves_iff hsel hm hu).mpr ?_
          by_cases ht : e.isTick = true
          · exact Or.inl ⟨ht, h.kstacks s hm u (List.mem_of_getElem? hu)⟩
          · have hf : e.isTick = false := by simpa using ht
            exact Or.inr ⟨hf, hy hf n hsel s hm u hu⟩
        exact (PerCpu.Serves.congr huh).mp hserves.2

theorem yieldsHome_of_owned {m : Machine} {e : Event} (h : Owned (step m e)) :
    YieldsHome m e := by
  intro ht n hsel s hs t htask
  obtain ⟨he, s1, hmade, hstep⟩ := hsel.finish hs
  obtain ⟨s0, hs0, s', hs', _, hn⟩ := hsel
  have hs1 : (step m e).sched = some s1 := by
    rw [hstep]
    exact finish_sched he ..
  obtain rfl : s1 = s' := Option.some.inj (hs1.symm.trans hs')
  have ht1 : s1.madeOf n = some t.made := by
    rw [hmade, Scheduler.madeOf, htask]
    rfl
  obtain ⟨u, hu, huh⟩ := madeOf_eq_some.mp ht1
  have hserves := (PerCpu.Serves.congr huh).mp (h.current s1 hs1 n hn u hu)
  cases e with
  | tick free ctx clock => simp [Event.isTick] at ht
  | yield free ctx clock => rwa [hstep, Event.finish, yieldTo_perCpu] at hserves
  | _ => exact absurd he (by simp [Event.Enters])

def boot (top0 top1 : Option Nat) (idleEntry rsp0 ticks : Nat) (perCpu : PerCpu) : Machine :=
  syscallInit (initMachine top0 top1 idleEntry rsp0 perCpu ticks)

theorem owned_boot (top0 top1 : Option Nat) (idleEntry rsp0 ticks : Nat) (perCpu : PerCpu) :
    Owned (boot top0 top1 idleEntry rsp0 ticks perCpu) := by
  cases top0 <;> cases top1 <;>
    constructor <;>
    simp [boot, syscallInit, initMachine, initScheduler, getKstackTop, freshTask, PerCpu.Serves]

/-- After a switch the ring-0 stack and the per-CPU block are the selected task's exactly when
a tick made the switch, to a task with a kernel stack, or a yield made it and the block was
that task's before. Over whole runs: the block is the current task's in every state exactly
when no yield goes to a task whose block it is not. -/
theorem switch_serves_iff (m : Machine) (events : List Event) :
    (∀ e n s t, Selects m e n → m.sched = some s → s.tasks[n]? = some t →
      ((step m e).Serves t ↔ e.isTick = true ∧ t.kstackTop.isSome = true ∨
        e.isTick = false ∧ m.perCpu.Serves t)) ∧
    ∀ top0 top1 idleEntry rsp0 ticks perCpu,
      (∀ pre suf, events = pre ++ suf →
        Owned (run (boot top0 top1 idleEntry rsp0 ticks perCpu) pre)) ↔
      ∀ pre e suf, events = pre ++ e :: suf →
        YieldsHome (run (boot top0 top1 idleEntry rsp0 ticks perCpu) pre) e := by
  refine ⟨fun e n s t h hs ht => serves_iff h hs ht, ?_⟩
  intro top0 top1 idleEntry rsp0 ticks perCpu
  have hco : ∀ pre, ∀ s ∈ (run (boot top0 top1 idleEntry rsp0 ticks perCpu) pre).sched,
      Coherent s := coherent_run fun s hs => coherent_init hs
  constructor
  · intro h pre e suf hsplit
    have hafter := h (pre ++ [e]) suf (by simp [hsplit])
    rw [run_append] at hafter
    exact yieldsHome_of_owned hafter
  · intro h pre
    induction pre using List.reverseRecOn with
    | nil => exact fun suf _ => owned_boot ..
    | append_singleton pre e ih =>
      intro suf hsplit
      have hsplit' : events = pre ++ e :: suf := by simp [hsplit]
      rw [run_append]
      exact owned_step (hco pre) (ih (e :: suf) hsplit') (h pre e suf hsplit')

/-- Two user tasks are made and the clock runs until the first is current; it yields. -/
def twoUsers : List Event :=
  [.spawnUser "a" 0xD000 0x7000, .spawnUser "b" 0xF000 0x8000] ++
    List.replicate 8 (.tick true 0x1000 ⟨0, 0⟩) ++ [.yield true 0xCF00 ⟨0, 0⟩]

/-- The second user task runs with the kernel stack and the user stack of the first. -/
theorem yield_serves_other :
    ¬ Owned (run (boot (some 0x9000) (some 0xB000) 0x400000 0 0 ⟨0, 0, 0x200⟩) twoUsers) := by
  intro h
  have hb := h.current _ rfl 3 (by decide) _ rfl
  revert hb
  unfold PerCpu.Serves
  decide

end Vibra.Sched
