import Mathlib.Data.List.Induction
import Vibra.Sched.RoundRobin

/-! # Sleeping tasks

A task put to sleep stays asleep until the clock comes to its deadline, unless `wake_task` or a
later `sleep_task` is applied to it.
-/

namespace Vibra.Sched

open Vibra.Lib

/-- By how much the event moves the clock of the scheduler. -/
def Event.elapse : Event → Nat
  | .tick true _ _ => 1
  | .noteTick true => 1
  | _ => 0

def elapsed (events : List Event) : Nat := (events.map Event.elapse).sum

/-- The event is `sleep_task` or `wake_task`, and it changes the task with the index. -/
def Applies (m : Machine) (i : Nat) : Event → Prop
  | .sleep id _ => ∃ s ∈ m.sched, s.tasks.findIdx? (·.id = id) = some i
  | .wake id =>
    ∃ s ∈ m.sched, s.tasks.findIdx? (fun t => t.id = id ∧ t.state = .sleeping) = some i
  | _ => False

/-- A task put to sleep for `ticks` is neither Ready nor Running before so many ticks have
passed, unless it was woken or put to sleep again. -/
def NoEarlyWakeUp (m : Machine) (events : List Event) : Prop :=
  ∀ pre id ticks mid suf i, events = pre ++ .sleep id ticks :: mid ++ suf → ticks < 2 ^ 64 →
    Applies (run m pre) i (.sleep id ticks) →
    (∀ before e after, mid = before ++ e :: after →
      ¬ Applies (run m (pre ++ .sleep id ticks :: before)) i e) →
    elapsed mid < ticks →
    ∀ s ∈ (run m (pre ++ .sleep id ticks :: mid)).sched,
      s.stateOf i ≠ some .ready ∧ s.stateOf i ≠ some .running

def Task.Owes (t : Task) (now : Nat) : Prop :=
  t.state ≠ .ready ∧ t.state ≠ .running ∧ ∃ time ∈ t.wakeTime, now < time

/-- The deadlines the event sets fit, and a switch that interrupts a task with a deadline
ahead finds another one Ready. -/
def Punctual (m : Machine) (e : Event) : Prop :=
  ∀ s ∈ m.sched,
    (∀ id ticks i, e = .sleep id ticks → Applies m i e → s.tickCount + ticks < 2 ^ 64) ∧
    (e.Enters s → ∀ c ∈ s.current, ∀ t ∈ (e.base s).tasks[c]?, t.Owes (e.base s).tickCount →
      ∃ i, (e.base s).stateOf i = some .ready)

theorem step_tickCount {m : Machine} {s s' : Scheduler} (hs : m.sched = some s)
    (hlt : s.tickCount < 2 ^ 64) (e : Event) (hs' : (step m e).sched = some s') :
    s'.tickCount = wrap64 (s.tickCount + e.elapse) := by
  have hkeep : wrap64 s.tickCount = s.tickCount := Nat.mod_eq_of_lt hlt
  cases e with
  | spawn name entry priority top =>
    cases top <;> simp only [step, spawn, hs, Option.some.injEq] at hs' <;> subst hs' <;>
      exact hkeep.symm
  | spawnUser name top stackTop =>
    simp only [step, spawnUserProcess, hs, Option.some.injEq] at hs'
    subst hs'
    exact hkeep.symm
  | exit id =>
    simp only [step, exitTask] at hs'
    split at hs' <;> simp only [hs, Option.map_some, Option.some.injEq] at hs' <;>
      subst hs' <;> exact hkeep.symm
  | sleep id ticks =>
    simp only [step, sleepTask, hs, Option.map_some, Option.some.injEq] at hs'
    subst hs'
    exact hkeep.symm
  | wake id =>
    simp only [step, wakeTask, hs, Option.map_some, Option.some.injEq] at hs'
    subst hs'
    exact hkeep.symm
  | noteTick free =>
    cases free <;> simp only [step, noteTick, hs, Option.some.injEq, if_true,
      Option.map_some, Bool.false_eq_true, if_false] at hs' <;> subst hs'
    · exact hkeep.symm
    · rfl
  | tick free ctx clock =>
    cases free with
    | false =>
      simp only [step, tick_locked, hs, Option.some.injEq] at hs'
      subst hs'
      exact hkeep.symm
    | true =>
      have hclock : ∀ t, some t = some s' → t.tickCount = wrap64 (s.tickCount + 1) →
          s'.tickCount = wrap64 (s.tickCount + 1) := by
        intro t ht h
        exact Option.some.inj ht ▸ h
      by_cases hq : (advanceTick s).QuantumEnds ∧ 1 < s.tasks.length
      · cases hcur : s.current with
        | none =>
          simp only [step, tick_nobody hs hcur hq.1 hq.2] at hs'
          exact hclock _ hs' rfl
        | some c =>
          simp only [step, tick_loop hs hcur hq.1 hq.2] at hs'
          split at hs'
          · exact hclock _ hs' rfl
          · rw [tickTo_sched] at hs'
            exact hclock _ hs' rfl
      · simp only [step, tick_idle hs ctx clock hq] at hs'
        exact hclock _ hs' rfl
  | yield free ctx clock =>
    have hclock : ∀ t, some t = some s' → t.tickCount = s.tickCount →
        s'.tickCount = wrap64 s.tickCount := by
      intro t ht h
      rw [← Option.some.inj ht, h, hkeep]
    by_cases hq : free = true ∧ 1 < s.tasks.length
    · obtain ⟨rfl, hlen⟩ := hq
      cases hcur : s.current with
      | none =>
        simp only [step, softirqHandler, hs, hcur, if_true] at hs'
        exact hclock _ hs' rfl
      | some c =>
        simp only [step, softirq_loop hs hcur hlen] at hs'
        split at hs'
        · exact hclock _ hs' rfl
        · rw [yieldTo_sched] at hs'
          exact hclock _ hs' rfl
    · simp only [step, softirq_idle hs ctx clock hq, hs] at hs'
      exact hclock _ hs' rfl

/-! ## A sleeping task and one event -/

theorem getElem?_updateFirst (p : Task → Bool) (f : Task → Task) (ts : List Task) (i : Nat) :
    (updateFirst p f ts)[i]? = if ts.findIdx? p = some i then ts[i]?.map f else ts[i]? := by
  induction ts generalizing i with
  | nil => simp [updateFirst]
  | cons t ts ih =>
    by_cases hp : p t = true
    · cases i <;> simp [updateFirst, hp, List.findIdx?_cons]
    · cases i with
      | zero => simp [updateFirst, hp, List.findIdx?_cons]
      | succ i => simp [updateFirst, hp, List.findIdx?_cons, ih]

def Dormant (s : Scheduler) (i time : Nat) : Prop :=
  ∃ t, s.tasks[i]? = some t ∧ t.wakeTime = some time ∧ (t.state = .sleeping ∨ t.state = .zombie)

variable {m : Machine} {s s' : Scheduler} {i time : Nat} {e : Event}

theorem Dormant.stateOf (h : Dormant s i time) :
    s.stateOf i = some .sleeping ∨ s.stateOf i = some .zombie := by
  obtain ⟨t, ht, _, hst | hst⟩ := h
  · exact Or.inl (stateOf_eq_some.mpr ⟨t, ht, hst⟩)
  · exact Or.inr (stateOf_eq_some.mpr ⟨t, ht, hst⟩)

theorem Dormant.not_candidate (h : Dormant s i time) (c : Nat) : ¬ s.Candidate c i := by
  intro hc
  rcases h.stateOf with hst | hst <;> simp [Scheduler.Candidate, hst] at hc

theorem Dormant.congr (h : Dormant s i time) (ht : s'.tasks[i]? = s.tasks[i]?) :
    Dormant s' i time := by
  unfold Dormant
  rwa [ht]

theorem Dormant.updateFirst (h : Dormant s i time) {p : Task → Bool} {f : Task → Task}
    (hf : s.tasks.findIdx? p = some i → ∀ t, (f t).wakeTime = t.wakeTime ∧ (f t).state = .zombie) :
    Dormant (s.updateFirst p f) i time := by
  by_cases hp : s.tasks.findIdx? p = some i
  · obtain ⟨t, ht, htime, _⟩ := h
    refine ⟨f t, ?_, (hf hp t).1.trans htime, Or.inr (hf hp t).2⟩
    rw [Scheduler.updateFirst, getElem?_updateFirst, if_pos hp, ht, Option.map_some]
  · refine h.congr ?_
    rw [Scheduler.updateFirst, getElem?_updateFirst, if_neg hp]

theorem Dormant.advanceTick (h : Dormant s i time) (hbefore : (advanceTick s).tickCount < time) :
    Dormant (advanceTick s) i time := by
  obtain ⟨t, ht, htime, hst⟩ := h
  have hbefore' : wrap64 (s.tickCount + 1) < time := hbefore
  have hsame : t.wakeAt (wrap64 (s.tickCount + 1)) = t := by
    unfold Task.wakeAt
    rcases hst with hst | hst <;> simp [hst, htime, Nat.not_le.mpr hbefore']
  refine ⟨t, ?_, htime, hst⟩
  simp [Sched.advanceTick, ht, hsame]

theorem Api.dormant (h : Api s e s') (hs : m.sched = some s) (hd : Dormant s i time)
    (hother : ¬ Applies m i e) (hbefore : s'.tickCount < time) : Dormant s' i time := by
  cases h with
  | keep e => exact hd
  | spawn name entry priority top =>
    refine hd.congr ?_
    obtain ⟨t, ht, _⟩ := hd
    exact List.getElem?_append_left (List.getElem?_eq_some_iff.mp ht).1
  | spawnUser name top stackTop =>
    refine hd.congr ?_
    obtain ⟨t, ht, _⟩ := hd
    exact List.getElem?_append_left (List.getElem?_eq_some_iff.mp ht).1
  | exit id => exact hd.updateFirst fun _ t => ⟨rfl, rfl⟩
  | sleep id ticks => exact hd.updateFirst fun hp => absurd ⟨s, hs, hp⟩ hother
  | wake id => exact hd.updateFirst fun hp => absurd ⟨s, hs, hp⟩ hother
  | clock e => exact hd.advanceTick hbefore

theorem Dormant.modify (h : Dormant s i time) {k : Nat} {f : Task → Task} (hk : k ≠ i) :
    Dormant { s with tasks := s.tasks.modify k f } i time :=
  h.congr (by simp [hk])

theorem Dormant.putBack (h : Dormant s i time) (c : Nat) {f : Task → Task} (hf : Leaves f) :
    Dormant (s.putBack c f) i time := by
  obtain ⟨t, ht, htime, hst⟩ := h
  by_cases hc : c = i
  · subst hc
    refine ⟨f t, by simp [Scheduler.putBack, ht], ?_, ?_⟩
    · obtain ⟨ctx, clock, rfl | rfl⟩ := hf <;>
        simp only [Task.leaveTick, Task.leave, Task.requeue, Task.charge] <;>
        split <;> split <;> exact htime
    · rw [hf.state]
      rcases hst with hst | hst <;> simp [hst, TaskState.requeue]
  · exact ⟨t, by simp [Scheduler.putBack, hc, ht], htime, hst⟩

theorem Dormant.base (h : Dormant s i time) (he : e.Enters s)
    (hbefore : s.tickCount + e.elapse < time) (htime : time < 2 ^ 64) :
    Dormant (e.base s) i time ∧ (e.base s).tickCount < time := by
  cases e with
  | tick free ctx clock =>
    cases free with
    | false => exact absurd he id
    | true =>
      have hb : s.tickCount + 1 < time := hbefore
      have hlt : (Sched.advanceTick s).tickCount < time := by
        have hw : (Sched.advanceTick s).tickCount = s.tickCount + 1 :=
          Nat.mod_eq_of_lt (by omega)
        rwa [hw]
      exact ⟨h.advanceTick hlt, hlt⟩
  | yield free ctx clock => exact ⟨h, hbefore⟩
  | _ => exact absurd he id

theorem dormant_step (hco : Coherent s) (hs : m.sched = some s) (hp : Punctual m e)
    (hother : ¬ Applies m i e) (hd : Dormant s i time) (hbefore : s.tickCount + e.elapse < time)
    (htime : time < 2 ^ 64) :
    ∃ s', (step m e).sched = some s' ∧ Dormant s' i time ∧
      s'.tickCount = s.tickCount + e.elapse := by
  have hclock : ∀ s', (step m e).sched = some s' → s'.tickCount = s.tickCount + e.elapse := by
    intro s' hs'
    rw [step_tickCount hs (by omega) e hs']
    exact Nat.mod_eq_of_lt (by omega)
  rcases step_cases hs e with ⟨s', hs', hapi, _, _⟩ | ⟨c, f, clock, hcur, he, hf, hl⟩
  · exact ⟨s', hs', hapi.dormant hs hd hother (by rw [hclock s' hs']; exact hbefore),
      hclock s' hs'⟩
  obtain ⟨c', hcur', hc, _⟩ := hco
  obtain rfl : c' = c := Option.some.inj (hcur'.symm.trans hcur)
  obtain ⟨hbase, hlt⟩ := hd.base he hbefore htime
  have hc' : c' < (e.base s).tasks.length := by rwa [base_length]
  have hback := hbase.putBack c' hf
  rcases nextReady_cases hf.state hc' with ⟨n, hn, hfirst⟩ | ⟨hn, hnone⟩
  · rcases hl with ⟨hno, _⟩ | ⟨k, hk, hstep⟩
    · simp [hn] at hno
    · obtain rfl : n = k := Option.some.inj (hn.symm.trans hk)
      have hs' : (step m e).sched = some (((e.base s).putBack c' f).dispatch n clock) := by
        rw [hstep]
        exact finish_sched he ..
      have hni : n ≠ i := fun h => hbase.not_candidate c' (h ▸ hfirst.holds)
      exact ⟨_, hs', hback.modify hni, hclock _ hs'⟩
  · rcases hl with ⟨_, hs', _⟩ | ⟨k, hk, _⟩
    · -- nobody is Ready, so the task that runs on has no deadline ahead
      have hci : c' ≠ i := by
        rintro rfl
        obtain ⟨t, ht, hwake, hst⟩ := hbase
        have howes : t.Owes (e.base s).tickCount := by
          refine ⟨?_, ?_, time, hwake, hlt⟩ <;> rcases hst with h | h <;> simp [h]
        obtain ⟨j, hj⟩ := (hp s hs).2 he c' hcur t ht howes
        exact hnone j (Or.inl hj)
      exact ⟨_, hs', hback.modify hci, hclock _ hs'⟩
    · simp [hn] at hk

theorem dormant_run (hco : ∀ s ∈ m.sched, Coherent s) {events : List Event}
    (hs : m.sched = some s) (hd : Dormant s i time)
    (hp : ∀ before e after, events = before ++ e :: after → Punctual (run m before) e)
    (hother : ∀ before e after, events = before ++ e :: after → ¬ Applies (run m before) i e)
    (hbefore : s.tickCount + elapsed events < time) (htime : time < 2 ^ 64) :
    ∃ s', (run m events).sched = some s' ∧ Dormant s' i time := by
  induction events generalizing m s with
  | nil => exact ⟨s, hs, hd⟩
  | cons e events ih =>
    have hsum : elapsed (e :: events) = e.elapse + elapsed events := rfl
    obtain ⟨s1, hs1, hd1, hclock⟩ := dormant_step (hco s hs) hs (hp [] e events rfl)
      (hother [] e events rfl) hd (by omega) htime
    have hco1 : ∀ t ∈ (step m e).sched, Coherent t := coherent_run hco [e]
    exact ih hco1 hs1 hd1
      (fun before d after h => hp (e :: before) d after (by rw [h]; rfl))
      (fun before d after h => hother (e :: before) d after (by rw [h]; rfl))
      (by omega)

theorem dormant_sleep {id ticks : Nat} (hs : m.sched = some s)
    (ha : Applies m i (.sleep id ticks)) (hfits : s.tickCount + ticks < 2 ^ 64) :
    ∃ s', (step m (.sleep id ticks)).sched = some s' ∧ Dormant s' i (s.tickCount + ticks) ∧
      s'.tickCount = s.tickCount := by
  obtain ⟨s0, hs0, hi⟩ := ha
  obtain rfl : s = s0 := Option.some.inj (hs.symm.trans hs0)
  have hstep : (step m (.sleep id ticks)).sched = some (s.updateFirst (·.id = id)
      (Task.sleepUntil (wrap64 (s.tickCount + ticks)))) := by
    simp [step, sleepTask, hs]
  have hlt := (List.findIdx?_eq_some_iff_getElem.mp hi).1
  refine ⟨_, hstep, ⟨Task.sleepUntil (wrap64 (s.tickCount + ticks)) s.tasks[i], ?_, ?_,
    Or.inl rfl⟩, rfl⟩
  · rw [Scheduler.updateFirst, getElem?_updateFirst, if_pos hi, List.getElem?_eq_getElem hlt,
      Option.map_some]
  · exact congrArg some (Nat.mod_eq_of_lt hfits)

/-- In a run from `init` whose deadlines fit in 64 bits, and in which no switch falls back on
a task with a deadline ahead, no sleeping task is woken early. -/
theorem no_early_wake_up (top0 top1 : Option Nat) (idleEntry rsp0 ticks : Nat)
    (perCpu : PerCpu) (events : List Event)
    (hp : ∀ pre e suf, events = pre ++ e :: suf →
      Punctual (run (initMachine top0 top1 idleEntry rsp0 perCpu ticks) pre) e) :
    NoEarlyWakeUp (initMachine top0 top1 idleEntry rsp0 perCpu ticks) events := by
  intro pre id time mid suf i hsplit _ ha hother hbefore s hs
  have hco : ∀ pre, ∀ s ∈ (run (initMachine top0 top1 idleEntry rsp0 perCpu ticks) pre).sched,
      Coherent s := coherent_run (fun s hs => coherent_init hs)
  have hpre := hp pre (.sleep id time) (mid ++ suf) (by simp [hsplit])
  obtain ⟨s0, hs0, hi⟩ := ha
  have hfits := (hpre s0 hs0).1 id time i rfl ⟨s0, hs0, hi⟩
  obtain ⟨s1, hs1, hd, hclock⟩ := dormant_sleep hs0 ⟨s0, hs0, hi⟩ hfits
  have hrun : ∀ xs, run (initMachine top0 top1 idleEntry rsp0 perCpu ticks)
      (pre ++ .sleep id time :: xs) = run (step (run (initMachine top0 top1 idleEntry rsp0
        perCpu ticks) pre) (.sleep id time)) xs := by
    intro xs
    rw [run_append, run_cons]
  have hco1 : ∀ s ∈ (step (run (initMachine top0 top1 idleEntry rsp0 perCpu ticks) pre)
      (.sleep id time)).sched, Coherent s := coherent_run (hco pre) [.sleep id time]
  have hmid : ∀ before e after, mid = before ++ e :: after →
      Punctual (run (step (run (initMachine top0 top1 idleEntry rsp0 perCpu ticks) pre)
        (.sleep id time)) before) e := by
    intro before e after h
    rw [← hrun before]
    exact hp (pre ++ .sleep id time :: before) e (after ++ suf) (by simp [hsplit, h])
  have hother1 : ∀ before e after, mid = before ++ e :: after →
      ¬ Applies (run (step (run (initMachine top0 top1 idleEntry rsp0 perCpu ticks) pre)
        (.sleep id time)) before) i e := by
    intro before e after h
    rw [← hrun before]
    exact hother before e after h
  obtain ⟨s', hs', hd'⟩ := dormant_run hco1 hs1 hd hmid hother1 (by omega) hfits
  rw [← hrun mid, hs] at hs'
  obtain rfl := Option.some.inj hs'
  rcases hd'.stateOf with h | h <;> simp [h]

/-- The shell sleeps and yields to the idle task; the tick of its deadline wakes it. -/
def sleepSoundly : List Event :=
  [.sleep 0 2, .yield true 0x1000 ⟨1, 0⟩, .noteTick true, .noteTick true]

theorem no_early_wake_up_soundly : NoEarlyWakeUp
    (initMachine (some 0x9000) (some 0xB000) 0x400000 0 ⟨0, 0x9000, 0x200⟩ 0) sleepSoundly := by
  apply no_early_wake_up
  intro pre e suf h s hs
  match pre, h with
  | [], h =>
    cases h
    cases hs
    exact ⟨fun id ticks i h _ => by cases h; decide, fun he => absurd he id⟩
  | [_], h =>
    cases h
    cases hs
    refine ⟨fun id ticks i h => (by cases h), fun _ c hc t ht _ => ⟨1, by decide⟩⟩
  | [_, _], h =>
    cases h
    cases hs
    exact ⟨fun id ticks i h => (by cases h), fun he => absurd he id⟩
  | [_, _, _], h =>
    cases h
    cases hs
    exact ⟨fun id ticks i h => (by cases h), fun he => absurd he id⟩
  | _ :: _ :: _ :: _ :: _, h => simp [sleepSoundly] at h

def sleepAlone : List Event := [.exit 1, .sleep 0 100, .yield true 0x1000 ⟨1, 0⟩]

/-- At tick 1 a sleep of `2 ^ 64 - 1` ticks has the deadline 0. -/
def sleepLong : List Event := [.noteTick true, .sleep 0 (2 ^ 64 - 1), .noteTick true]

/-- The shell that sleeps alone runs on, and the long sleep ends at the next tick. -/
theorem woken_early :
    ¬ NoEarlyWakeUp (initMachine (some 0x9000) (some 0xB000) 0x400000 0 ⟨0, 0x9000, 0x200⟩ 0)
      sleepAlone ∧
    ¬ NoEarlyWakeUp (initMachine (some 0x9000) (some 0xB000) 0x400000 0 ⟨0, 0x9000, 0x200⟩ 0)
      sleepLong := by
  constructor
  · intro h
    have h0 := h [.exit 1] 0 100 [.yield true 0x1000 ⟨1, 0⟩] [] 0 rfl (by decide)
      ⟨_, rfl, by decide⟩ (fun before e after hmid => by
        match before, hmid with
        | [], hmid => cases hmid; exact id
        | _ :: _ :: _, hmid => simp at hmid) (by decide) _ rfl
    exact h0.2 (by decide)
  · intro h
    have h0 := h [.noteTick true] 0 (2 ^ 64 - 1) [.noteTick true] [] 0 rfl (by decide)
      ⟨_, rfl, by decide⟩ (fun before e after hmid => by
        match before, hmid with
        | [], hmid => cases hmid; exact id
        | _ :: _ :: _, hmid => simp at hmid) (by decide) _ rfl
    exact h0.1 (by decide)

end Vibra.Sched
