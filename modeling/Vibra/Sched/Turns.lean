import Vibra.Sched.Scheduler

/-! # What an event can do to the scheduler

An event changes the list of tasks outside the loop, or it is a handler that enters the loop: then
the interrupted task runs on because no task is Ready, or a task is selected.
-/

namespace Vibra.Sched

open Vibra.Lib

theorem stateOf_eq_some {s : Scheduler} {i : Nat} {st : TaskState} :
    s.stateOf i = some st ↔ ∃ t, s.tasks[i]? = some t ∧ t.state = st := by
  simp [Scheduler.stateOf]

theorem stateOf_lt {s : Scheduler} {i : Nat} {st : TaskState} (h : s.stateOf i = some st) :
    i < s.tasks.length := by
  obtain ⟨t, ht, _⟩ := stateOf_eq_some.mp h
  exact (List.getElem?_eq_some_iff.mp ht).1

theorem stateOf_isSome {s : Scheduler} {i : Nat} (h : i < s.tasks.length) :
    ∃ st, s.stateOf i = some st :=
  ⟨s.tasks[i].state, by simp [Scheduler.stateOf, h]⟩

theorem stateOf_modify (s : Scheduler) (k : Nat) (f : Task → Task) (g : TaskState → TaskState)
    (hf : ∀ t, (f t).state = g t.state) (i : Nat) :
    Scheduler.stateOf { s with tasks := s.tasks.modify k f } i =
      if i = k then (s.stateOf i).map g else s.stateOf i := by
  simp only [Scheduler.stateOf, List.getElem?_modify, Option.map_map]
  by_cases h : i = k
  · subst h
    cases s.tasks[i]? <;> simp [hf]
  · simp [h, Ne.symm h]

def TaskState.requeue (st : TaskState) : TaskState := if st = .running then .ready else st

@[simp] theorem Task.charge_state (clock : Clock) (t : Task) :
    (t.charge clock).state = t.state := by
  unfold Task.charge
  split <;> rfl

@[simp] theorem Task.leave_state (ctx : Nat) (clock : Clock) (t : Task) :
    (t.leave ctx clock).state = t.state.requeue := by
  simp only [Task.leave, Task.requeue, TaskState.requeue, Task.charge_state]
  split <;> simp

theorem Task.wakeAt_cases (now : Nat) (t : Task) :
    t.wakeAt now = t ∨ t.state = .sleeping ∧ t.wakeAt now = t.wake := by
  unfold Task.wakeAt
  split
  · rename_i h _
    split
    · exact Or.inr ⟨h, rfl⟩
    · exact Or.inl rfl
  · exact Or.inl rfl

@[simp] theorem advanceTick_current (s : Scheduler) : (advanceTick s).current = s.current := rfl

@[simp] theorem advanceTick_switches (s : Scheduler) : (advanceTick s).switches = s.switches := rfl

@[simp] theorem advanceTick_length (s : Scheduler) :
    (advanceTick s).tasks.length = s.tasks.length := by
  simp [advanceTick]

theorem advanceTick_stateOf (s : Scheduler) (i : Nat) :
    (advanceTick s).stateOf i = s.stateOf i ∨
      s.stateOf i = some .sleeping ∧ (advanceTick s).stateOf i = some .ready := by
  simp only [Scheduler.stateOf, advanceTick, List.getElem?_map, Option.map_map]
  cases s.tasks[i]? with
  | none => exact Or.inl rfl
  | some t =>
    rcases t.wakeAt_cases (wrap64 (s.tickCount + 1)) with h | ⟨hs, h⟩
    · exact Or.inl (by simp [h])
    · exact Or.inr (by simp [h, hs, Task.wake])

theorem advanceTick_stateOf_of_ne {s : Scheduler} {i : Nat} {st : TaskState}
    (h : s.stateOf i = some st) (hne : st ≠ .sleeping) : (advanceTick s).stateOf i = some st := by
  rcases advanceTick_stateOf s i with he | ⟨hs, _⟩
  · rw [he, h]
  · exact absurd (Option.some.inj (h.symm.trans hs)) hne

/-- What the loop may select once `c` has been put back: a Ready task, or `c` itself if it
was running. -/
def Scheduler.Candidate (s : Scheduler) (c i : Nat) : Prop :=
  s.stateOf i = some .ready ∨ i = c ∧ s.stateOf i = some .running

instance (s : Scheduler) (c i : Nat) : Decidable (s.Candidate c i) :=
  inferInstanceAs (Decidable (_ ∨ _))

structure Resumed (s : Scheduler) (c : Nat) (s' : Scheduler) : Prop where
  nobody : ∀ i, ¬ s.Candidate c i
  current : s'.current = some c
  switches : s'.switches = s.switches
  length : s'.tasks.length = s.tasks.length
  states : ∀ i, s'.stateOf i =
    if i = c then (s.stateOf i).map fun _ => .running else s.stateOf i

structure Selected (s : Scheduler) (c n : Nat) (s' : Scheduler) : Prop where
  first : Ring.FirstAfter (s.Candidate c) s.tasks.length c n
  current : s'.current = some n
  switches : s'.switches = wrap64 (s.switches + 1)
  length : s'.tasks.length = s.tasks.length
  states : ∀ i, s'.stateOf i = if i = n then some .running
    else if i = c then (s.stateOf i).map TaskState.requeue else s.stateOf i

/-- What the loop leaves of the scheduler `s` when it is entered with `c` interrupted. -/
def Turned (s : Scheduler) (c : Nat) (s' : Scheduler) : Prop :=
  Resumed s c s' ∨ ∃ n, Selected s c n s'

section PutBack

variable {s : Scheduler} {c : Nat} {f : Task → Task}
  (hf : ∀ t, (f t).state = t.state.requeue)

include hf

theorem putBack_stateOf (i : Nat) : (s.putBack c f).stateOf i =
    if i = c then (s.stateOf i).map TaskState.requeue else s.stateOf i :=
  stateOf_modify s c f _ hf i

theorem putBack_ready (i : Nat) :
    (s.putBack c f).stateOf i = some .ready ↔ s.Candidate c i := by
  rw [putBack_stateOf hf, Scheduler.Candidate]
  by_cases h : i = c
  · rw [if_pos h]
    cases hs : s.stateOf i with
    | none => simp
    | some st => cases st <;> simp [h, TaskState.requeue]
  · simp [h]

theorem nextReady_cases (hc : c < s.tasks.length) :
    (∃ n, nextReady (s.putBack c f).tasks c = some n ∧
      Ring.FirstAfter (s.Candidate c) s.tasks.length c n) ∨
    (nextReady (s.putBack c f).tasks c = none ∧ ∀ i, ¬ s.Candidate c i) := by
  have hlen : (s.putBack c f).tasks.length = s.tasks.length := by simp [Scheduler.putBack]
  have hp : ∀ i, (decide ((s.putBack c f).tasks[i]?.map (·.state) = some .ready)) = true ↔
      s.Candidate c i := by
    intro i
    rw [decide_eq_true_iff]
    exact putBack_ready hf i
  have hseek := Ring.seek_cases
    (fun i => decide ((s.putBack c f).tasks[i]?.map (·.state) = some .ready)) hc
  simp only [nextReady, hlen]
  rcases hseek with ⟨n, h1, h2⟩ | ⟨h1, h2⟩
  · exact Or.inl ⟨n, h1, h2.congr fun i _ => hp i⟩
  · refine Or.inr ⟨h1, fun i hi => ?_⟩
    have hlt : i < s.tasks.length := by
      rcases hi with h | ⟨_, h⟩ <;> exact stateOf_lt h
    exact h2 i hlt ((hp i).mpr hi)

theorem putBack_resumed (hn : ∀ i, ¬ s.Candidate c i) (hcur : s.current = some c) :
    Resumed s c ((s.putBack c f).resume c) := by
  refine ⟨hn, hcur, rfl, by simp [Scheduler.resume, Scheduler.putBack], fun i => ?_⟩
  rw [Scheduler.resume, stateOf_modify _ c _ (fun _ => .running) (fun _ => rfl),
    putBack_stateOf hf]
  by_cases h : i = c
  · simp [h, Function.comp_def]
  · simp [h]

theorem putBack_selected {n : Nat} (clock : Clock)
    (hn : Ring.FirstAfter (s.Candidate c) s.tasks.length c n) :
    Selected s c n ((s.putBack c f).dispatch n clock) := by
  refine ⟨hn, rfl, rfl, by simp [Scheduler.dispatch, Scheduler.putBack], fun i => ?_⟩
  have hmod := stateOf_modify (s.putBack c f) n (Task.enter clock) (fun _ => .running)
    (fun _ => rfl) i
  have hd : ((s.putBack c f).dispatch n clock).stateOf i =
      Scheduler.stateOf { (s.putBack c f) with
        tasks := (s.putBack c f).tasks.modify n (Task.enter clock) } i := rfl
  rw [hd, hmod]
  by_cases h : i = n
  · obtain ⟨st, hst⟩ := stateOf_isSome (h ▸ hn.lt : i < s.tasks.length)
    rw [if_pos h, if_pos h, putBack_stateOf hf, hst]
    split <;> rfl
  · rw [if_neg h, if_neg h, putBack_stateOf hf]

end PutBack

@[simp] theorem setKernelStack_sched (m : Machine) (top : Option Nat) :
    (m.setKernelStack top).sched = m.sched := by
  cases top <;> rfl

@[simp] theorem updateKernelStack_sched (m : Machine) (top : Option Nat) :
    (m.updateKernelStack top).sched = m.sched := by
  cases top <;> rfl

@[simp] theorem saveUser_sched (m : Machine) (rsp rflags : Nat) :
    (m.saveUser rsp rflags).sched = m.sched := rfl

@[simp] theorem tickTo_sched (m : Machine) (s : Scheduler) (next ctx : Nat) :
    (tickTo m s next ctx).1.sched = some s := by
  unfold tickTo
  simp only []
  split <;> simp

@[simp] theorem yieldTo_sched (m : Machine) (s : Scheduler) (next ctx : Nat) :
    (yieldTo m s next ctx).1.sched = some s := by
  unfold yieldTo
  simp only []
  split <;> simp

def Scheduler.QuantumEnds (s : Scheduler) : Prop := s.tickCount % s.quantum = 0

instance (s : Scheduler) : Decidable s.QuantumEnds := inferInstanceAs (Decidable (_ = _))

section Handlers

variable {m : Machine} {s : Scheduler} {c : Nat}

theorem softirq_idle (hs : m.sched = some s) (ctx : Nat) (clock : Clock) {free : Bool}
    (h : ¬ (free = true ∧ 1 < s.tasks.length)) :
    softirqHandler m free ctx clock = (m, ctx) := by
  unfold softirqHandler
  cases free with
  | false => rfl
  | true =>
    have hlen : s.tasks.length ≤ 1 := by simpa using h
    cases hcur : s.current <;> simp [hs, hcur, hlen]

theorem softirq_loop (hs : m.sched = some s) (hcur : s.current = some c)
    (hlen : 1 < s.tasks.length) (ctx : Nat) (clock : Clock) :
    softirqHandler m true ctx clock =
      match nextReady (s.putBack c (Task.leave ctx clock)).tasks c with
      | none => ({ m with sched := some ((s.putBack c (Task.leave ctx clock)).resume c) }, ctx)
      | some next =>
        yieldTo m ((s.putBack c (Task.leave ctx clock)).dispatch next clock) next ctx := by
  unfold softirqHandler
  simp only [hs, hcur, if_true]
  exact (if_neg (by omega)).trans rfl

theorem tick_locked (ctx : Nat) (clock : Clock) :
    tickAndSwitch m false ctx clock = ({ m with ticks := wrap64 (m.ticks + 1) }, ctx) := rfl

theorem tick_idle (hs : m.sched = some s) (ctx : Nat) (clock : Clock)
    (h : ¬ ((advanceTick s).QuantumEnds ∧ 1 < s.tasks.length)) :
    tickAndSwitch m true ctx clock =
      ({ m with ticks := wrap64 (m.ticks + 1), sched := some (advanceTick s) }, ctx) := by
  have hcond : (advanceTick s).tickCount % (advanceTick s).quantum ≠ 0 ∨
      (advanceTick s).tasks.length ≤ 1 := by
    rw [advanceTick_length]
    unfold Scheduler.QuantumEnds at h
    by_cases hq : (advanceTick s).tickCount % (advanceTick s).quantum = 0
    · exact Or.inr (by have := fun hl => h ⟨hq, hl⟩; omega)
    · exact Or.inl hq
  unfold tickAndSwitch
  simp only [hs, if_true]
  rw [if_pos hcond]

theorem tick_nobody (hs : m.sched = some s) (hcur : s.current = none)
    (hq : (advanceTick s).QuantumEnds) (hlen : 1 < s.tasks.length) (ctx : Nat) (clock : Clock) :
    tickAndSwitch m true ctx clock =
      ({ m with ticks := wrap64 (m.ticks + 1), sched := some (advanceTick s) }, ctx) := by
  unfold tickAndSwitch
  simp only [hs, if_true, advanceTick_current, hcur]
  rw [if_neg (by rw [advanceTick_length]; unfold Scheduler.QuantumEnds at hq; omega)]

theorem tick_loop (hs : m.sched = some s) (hcur : s.current = some c)
    (hq : (advanceTick s).QuantumEnds) (hlen : 1 < s.tasks.length) (ctx : Nat) (clock : Clock) :
    tickAndSwitch m true ctx clock =
      match nextReady ((advanceTick s).putBack c (Task.leaveTick ctx clock)).tasks c with
      | none =>
        ({ m with
          ticks := wrap64 (m.ticks + 1)
          sched := some (((advanceTick s).putBack c (Task.leaveTick ctx clock)).resume c) }, ctx)
      | some next =>
        tickTo { m with ticks := wrap64 (m.ticks + 1) }
          (((advanceTick s).putBack c (Task.leaveTick ctx clock)).dispatch next clock)
          next ctx := by
  have hback : (((advanceTick s).putBack c (Task.leaveTick ctx clock)).resume c).current =
      some c := hcur
  unfold tickAndSwitch
  simp only [hs, if_true, advanceTick_current, hcur]
  rw [if_neg (by rw [advanceTick_length]; unfold Scheduler.QuantumEnds at hq; omega)]
  cases nextReady ((advanceTick s).putBack c (Task.leaveTick ctx clock)).tasks c with
  | none => simp only [← hback]
  | some next => rfl

end Handlers

/-! ## One event -/

def Leaves (f : Task → Task) : Prop :=
  ∃ ctx clock, f = Task.leave ctx clock ∨ f = Task.leaveTick ctx clock

theorem Leaves.state {f : Task → Task} (h : Leaves f) (t : Task) :
    (f t).state = t.state.requeue := by
  obtain ⟨ctx, clock, rfl | rfl⟩ := h <;> exact Task.leave_state ctx clock t

inductive Api (s : Scheduler) : Event → Scheduler → Prop
  | keep (e : Event) : Api s e s
  | spawn (name : String) (entry : Nat) (priority : Priority) (top : Nat) :
      Api s (.spawn name entry priority (some top))
        (s.push fun id => freshTask id name priority (some entry) top 0)
  | spawnUser (name : String) (top stackTop : Nat) :
      Api s (.spawnUser name top stackTop)
        (s.push fun id => freshTask id name .normal none top stackTop)
  | exit (id : Nat) : Api s (.exit id) (s.updateFirst (·.id = id) Task.exit)
  | sleep (id ticks : Nat) :
      Api s (.sleep id ticks)
        (s.updateFirst (·.id = id) (Task.sleepUntil (wrap64 (s.tickCount + ticks))))
  | wake (id : Nat) :
      Api s (.wake id) (s.updateFirst (fun t => t.id = id ∧ t.state = .sleeping) Task.wake)
  | clock (e : Event) : Api s e (advanceTick s)

/-- The scheduler the loop of a handler works on: a tick moves the clock first. -/
def Event.base (e : Event) (s : Scheduler) : Scheduler :=
  match e with
  | .tick .. => advanceTick s
  | _ => s

/-- The handler gets the lock and comes to the loop. -/
def Event.Enters (e : Event) (s : Scheduler) : Prop :=
  match e with
  | .tick true _ _ => (advanceTick s).QuantumEnds ∧ 1 < s.tasks.length
  | .yield true _ _ => 1 < s.tasks.length
  | _ => False

def Event.finish (e : Event) (m : Machine) (s : Scheduler) (n : Nat) : Machine :=
  match e with
  | .tick _ ctx _ => (tickTo { m with ticks := wrap64 (m.ticks + 1) } s n ctx).1
  | .yield _ ctx _ => (yieldTo m s n ctx).1
  | _ => m

/-- The loop of a handler, entered with `c` interrupted and put back by `f`. -/
def Looped (m : Machine) (e : Event) (s : Scheduler) (c : Nat) (f : Task → Task)
    (clock : Clock) : Prop :=
  (nextReady ((e.base s).putBack c f).tasks c = none ∧
    (step m e).sched = some (((e.base s).putBack c f).resume c) ∧
    (step m e).perCpu = m.perCpu) ∨
  ∃ n, nextReady ((e.base s).putBack c f).tasks c = some n ∧
    step m e = e.finish m (((e.base s).putBack c f).dispatch n clock) n

theorem step_cases {m : Machine} {s : Scheduler} (hs : m.sched = some s) (e : Event) :
    (∃ s', (step m e).sched = some s' ∧ Api s e s' ∧ (step m e).perCpu = m.perCpu ∧
      (e.Enters s → s.current = none)) ∨
    (∃ c f clock, s.current = some c ∧ e.Enters s ∧ Leaves f ∧ Looped m e s c f clock) := by
  cases e with
  | spawn name entry priority top =>
    refine Or.inl ?_
    cases top with
    | none => exact ⟨s, by simp [step, spawn, hs], .keep _, by simp [step, spawn], nofun⟩
    | some top =>
      exact ⟨_, by simp only [step, spawn, hs], .spawn name entry priority top,
        by simp [step, spawn, hs], nofun⟩
  | spawnUser name top stackTop =>
    exact Or.inl ⟨_, by simp only [step, spawnUserProcess, hs],
      .spawnUser name top stackTop, by simp [step, spawnUserProcess, hs], nofun⟩
  | exit id =>
    by_cases h0 : id = 0
    · exact Or.inl ⟨s, by simp [step, exitTask, h0, hs], .keep _,
        by simp [step, exitTask, h0], nofun⟩
    · exact Or.inl ⟨_, by simp only [step, exitTask, if_neg h0, hs, Option.map_some],
        .exit id, by simp [step, exitTask, h0], nofun⟩
  | sleep id ticks =>
    exact Or.inl ⟨_, by simp only [step, sleepTask, hs, Option.map_some],
      .sleep id ticks, rfl, nofun⟩
  | wake id =>
    exact Or.inl ⟨_, by simp only [step, wakeTask, hs, Option.map_some], .wake id, rfl, nofun⟩
  | noteTick free =>
    cases free with
    | false => exact Or.inl ⟨s, by simp [step, noteTick, hs], .keep _, rfl, nofun⟩
    | true =>
      exact Or.inl ⟨advanceTick s, by simp [step, noteTick, hs], .clock _, rfl, nofun⟩
  | tick free ctx clock =>
    cases free with
    | false => exact Or.inl ⟨s, by simp [step, tick_locked, hs], .keep _, rfl, nofun⟩
    | true =>
      by_cases hq : (advanceTick s).QuantumEnds ∧ 1 < s.tasks.length
      · cases hcur : s.current with
        | none =>
          have hr := tick_nobody hs hcur hq.1 hq.2 ctx clock
          exact Or.inl ⟨_, by simp only [step, hr], .clock _, by simp only [step, hr],
            fun _ => rfl⟩
        | some c =>
          refine Or.inr ⟨c, Task.leaveTick ctx clock, clock, rfl, hq,
            ⟨ctx, clock, Or.inr rfl⟩, ?_⟩
          have hl := tick_loop hs hcur hq.1 hq.2 ctx clock
          simp only [Looped, Event.base, Event.finish, step, hl]
          cases nextReady ((advanceTick s).putBack c (Task.leaveTick ctx clock)).tasks c with
          | none => exact Or.inl ⟨rfl, rfl, rfl⟩
          | some n => exact Or.inr ⟨n, rfl, rfl⟩
      · have hr := tick_idle hs ctx clock hq
        exact Or.inl ⟨_, by simp only [step, hr], .clock _, by simp only [step, hr],
          fun he => absurd he hq⟩
  | yield free ctx clock =>
    by_cases hq : free = true ∧ 1 < s.tasks.length
    · obtain ⟨rfl, hlen⟩ := hq
      cases hcur : s.current with
      | none =>
        have hr : softirqHandler m true ctx clock = (m, ctx) := by
          simp [softirqHandler, hs, hcur]
        exact Or.inl ⟨s, by simp only [step, hr, hs], .keep _, by simp only [step, hr],
          fun _ => rfl⟩
      | some c =>
        refine Or.inr ⟨c, Task.leave ctx clock, clock, rfl, hlen, ⟨ctx, clock, Or.inl rfl⟩, ?_⟩
        have hl := softirq_loop hs hcur hlen ctx clock
        simp only [Looped, Event.base, Event.finish, step, hl]
        cases nextReady (s.putBack c (Task.leave ctx clock)).tasks c with
        | none => exact Or.inl ⟨rfl, rfl, rfl⟩
        | some n => exact Or.inr ⟨n, rfl, rfl⟩
    · have hr := softirq_idle hs ctx clock hq
      refine Or.inl ⟨s, by simp only [step, hr, hs], .keep _, by simp only [step, hr],
        fun he => ?_⟩
      cases free with
      | false => exact absurd he id
      | true => exact absurd ⟨rfl, he⟩ hq

@[simp] theorem base_length (e : Event) (s : Scheduler) :
    (e.base s).tasks.length = s.tasks.length := by
  cases e <;> simp [Event.base]

@[simp] theorem base_switches (e : Event) (s : Scheduler) :
    (e.base s).switches = s.switches := by
  cases e <;> rfl

@[simp] theorem base_current (e : Event) (s : Scheduler) : (e.base s).current = s.current := by
  cases e <;> rfl

theorem base_stateOf {e : Event} {s : Scheduler} {i : Nat} {st : TaskState}
    (h : s.stateOf i = some st) (hne : st ≠ .sleeping) : (e.base s).stateOf i = some st := by
  cases e with
  | tick free ctx clock => exact advanceTick_stateOf_of_ne h hne
  | _ => exact h

theorem finish_sched {e : Event} {s0 : Scheduler} (he : e.Enters s0) (m : Machine)
    (s : Scheduler) (n : Nat) : (e.finish m s n).sched = some s := by
  cases e with
  | tick free ctx clock => exact tickTo_sched ..
  | yield free ctx clock => exact yieldTo_sched ..
  | _ => exact absurd he (by simp [Event.Enters])

theorem Looped.turned {m : Machine} {e : Event} {s : Scheduler} {c : Nat} {f : Task → Task}
    {clock : Clock} (h : Looped m e s c f clock) (he : e.Enters s) (hf : Leaves f)
    (hcur : s.current = some c) (hc : c < s.tasks.length) :
    ∃ s', (step m e).sched = some s' ∧ Turned (e.base s) c s' := by
  have hc' : c < (e.base s).tasks.length := by rwa [base_length]
  have hcur' : (e.base s).current = some c := by rw [base_current, hcur]
  rcases nextReady_cases hf.state hc' with ⟨n, hn, hfirst⟩ | ⟨hn, hnone⟩
  · rcases h with ⟨hno, _⟩ | ⟨k, hk, hstep⟩
    · simp [hn] at hno
    · obtain rfl : n = k := Option.some.inj (hn.symm.trans hk)
      exact ⟨_, by rw [hstep]; exact finish_sched he .., Or.inr
        ⟨n, putBack_selected hf.state clock hfirst⟩⟩
  · rcases h with ⟨_, hstep, _⟩ | ⟨k, hk, _⟩
    · exact ⟨_, hstep, Or.inl (putBack_resumed hf.state hnone hcur')⟩
    · simp [hn] at hk

end Vibra.Sched
