import Vibra.Sched.Turns

/-! # One running task, and turns in a ring

The current index names a task, and no other task is Running. A switch goes to the first candidate
after the current task.
-/

namespace Vibra.Sched

open Vibra.Lib

theorem updateFirst_cases (p : Task → Bool) (f : Task → Task) (ts : List Task) :
    (ts.find? p = none ∧ updateFirst p f ts = ts) ∨
      ∃ k t, ts[k]? = some t ∧ ts.find? p = some t ∧ updateFirst p f ts = ts.set k (f t) := by
  induction ts with
  | nil => exact Or.inl ⟨rfl, rfl⟩
  | cons t ts ih =>
    by_cases hp : p t = true
    · exact Or.inr ⟨0, t, rfl, by simp [hp], by simp [updateFirst, hp]⟩
    · rcases ih with ⟨h1, h2⟩ | ⟨k, u, h1, h2, h3⟩
      · exact Or.inl ⟨by simpa [hp] using h1, by simp [updateFirst, hp, h2]⟩
      · exact Or.inr ⟨k + 1, u, h1, by simpa [hp] using h2, by simp [updateFirst, hp, h3]⟩

/-- An event outside the loop: the current task stays, no task starts running. -/
structure Quiet (s s' : Scheduler) : Prop where
  current : s'.current = s.current
  switches : s'.switches = s.switches
  length : s.tasks.length ≤ s'.tasks.length
  running : ∀ i, s'.stateOf i = some .running → s.stateOf i = some .running

theorem Quiet.refl (s : Scheduler) : Quiet s s := ⟨rfl, rfl, le_rfl, fun _ h => h⟩

theorem quiet_advanceTick (s : Scheduler) : Quiet s (advanceTick s) := by
  refine ⟨rfl, rfl, by simp, fun i h => ?_⟩
  rcases advanceTick_stateOf s i with he | ⟨_, hr⟩
  · rwa [he] at h
  · simp [hr] at h

theorem quiet_push (s : Scheduler) (task : Nat → Task) (h : (task s.nextId).state ≠ .running) :
    Quiet s (s.push task) := by
  refine ⟨rfl, rfl, by simp [Scheduler.push], fun i hi => ?_⟩
  obtain ⟨t, ht, hst⟩ := stateOf_eq_some.mp hi
  refine stateOf_eq_some.mpr ⟨t, ?_, hst⟩
  simp only [Scheduler.push, List.getElem?_append] at ht
  split at ht
  · exact ht
  · rw [List.getElem?_singleton] at ht
    split at ht
    · cases ht
      exact absurd hst h
    · simp at ht

theorem quiet_updateFirst (s : Scheduler) (p : Task → Bool) (f : Task → Task)
    (h : ∀ t, (f t).state ≠ .running) : Quiet s (s.updateFirst p f) := by
  rcases updateFirst_cases p f s.tasks with ⟨_, he⟩ | ⟨k, t, hk, _, he⟩
  · rw [show s.updateFirst p f = s from by simp [Scheduler.updateFirst, he]]
    exact Quiet.refl s
  · refine ⟨rfl, rfl, by simp [Scheduler.updateFirst, he], fun i hi => ?_⟩
    obtain ⟨u, hu, hst⟩ := stateOf_eq_some.mp hi
    simp only [Scheduler.updateFirst, he, List.getElem?_set] at hu
    split at hu
    · split at hu
      · cases hu
        exact absurd hst (h t)
      · simp at hu
    · exact stateOf_eq_some.mpr ⟨u, hu, hst⟩

theorem Api.quiet {s s' : Scheduler} {e : Event} (h : Api s e s') : Quiet s s' := by
  cases h with
  | keep e => exact Quiet.refl s
  | spawn name entry priority top => exact quiet_push s _ (by simp [freshTask])
  | spawnUser name top stackTop => exact quiet_push s _ (by simp [freshTask])
  | exit id => exact quiet_updateFirst s _ _ (by simp [Task.exit])
  | sleep id ticks => exact quiet_updateFirst s _ _ (by simp [Task.sleepUntil])
  | wake id => exact quiet_updateFirst s _ _ (by simp [Task.wake])
  | clock e => exact quiet_advanceTick s

theorem quiet_or_turned {m : Machine} {s : Scheduler} {c : Nat} (hs : m.sched = some s)
    (hcur : s.current = some c) (hc : c < s.tasks.length) (e : Event) :
    ∃ s', (step m e).sched = some s' ∧ (Quiet s s' ∨ Turned (e.base s) c s') := by
  rcases step_cases hs e with ⟨s', hs', hapi, _, _⟩ | ⟨d, f, clock, hd, he, hf, hl⟩
  · exact ⟨s', hs', Or.inl hapi.quiet⟩
  · obtain rfl : c = d := Option.some.inj (hcur.symm.trans hd)
    obtain ⟨s', hs', ht⟩ := hl.turned he hf hcur hc
    exact ⟨s', hs', Or.inr ht⟩

/-- `current` indexes a task, and a Running task is the current one. -/
def Coherent (s : Scheduler) : Prop :=
  ∃ c, s.current = some c ∧ c < s.tasks.length ∧ ∀ i, s.stateOf i = some .running → i = c

theorem base_running {e : Event} {s : Scheduler} {i : Nat}
    (h : (e.base s).stateOf i = some .running) : s.stateOf i = some .running := by
  cases e with
  | tick free ctx clock => exact (quiet_advanceTick s).running i h
  | _ => exact h

theorem coherent_init {top0 top1 : Option Nat} {idleEntry : Nat} {s : Scheduler}
    (h : initScheduler top0 top1 idleEntry = some s) : Coherent s := by
  cases top0 <;> cases top1 <;> simp only [initScheduler] at h <;> try contradiction
  cases h
  refine ⟨0, rfl, by simp, fun i hi => ?_⟩
  match i with
  | 0 => rfl
  | 1 => simp [Scheduler.stateOf, freshTask] at hi
  | i + 2 => simp [Scheduler.stateOf] at hi

theorem coherent_step {m : Machine} {s : Scheduler} (hs : m.sched = some s) (h : Coherent s)
    (e : Event) : ∃ s', (step m e).sched = some s' ∧ Coherent s' := by
  obtain ⟨c, hcur, hc, hrun⟩ := h
  obtain ⟨s', hs', hquiet | hresumed | ⟨n, hsel⟩⟩ := quiet_or_turned hs hcur hc e
  · exact ⟨s', hs', c, hquiet.current.trans hcur, by have := hquiet.length; omega,
      fun i hi => hrun i (hquiet.running i hi)⟩
  · refine ⟨s', hs', c, hresumed.current, by simpa [hresumed.length] using hc, fun i hi => ?_⟩
    by_contra hne
    rw [hresumed.states, if_neg hne] at hi
    exact hne (hrun i (base_running hi))
  · refine ⟨s', hs', n, hsel.current, ?_, fun i hi => ?_⟩
    · have hlt := hsel.first.lt
      rwa [← hsel.length] at hlt
    · by_contra hne
      rw [hsel.states, if_neg hne] at hi
      split at hi
      · cases hst : (e.base s).stateOf i with
        | none => simp [hst] at hi
        | some st => cases st <;> simp [hst, TaskState.requeue] at hi
      · rename_i hic
        exact hic (hrun i (base_running hi))

theorem run_append (m : Machine) (xs ys : List Event) : run m (xs ++ ys) = run (run m xs) ys :=
  List.foldl_append

theorem run_cons (m : Machine) (e : Event) (es : List Event) : run m (e :: es) = run (step m e) es :=
  rfl

theorem step_none {m : Machine} (h : m.sched = none) (e : Event) : (step m e).sched = none := by
  cases e with
  | spawn name entry priority top => cases top <;> simp [step, spawn, h]
  | spawnUser name top stackTop => simp [step, spawnUserProcess, h]
  | exit id =>
    simp only [step, exitTask]
    split <;> simp [h]
  | sleep id ticks => simp [step, sleepTask, h]
  | wake id => simp [step, wakeTask, h]
  | noteTick free => cases free <;> simp [step, noteTick, h]
  | tick free ctx clock => cases free <;> simp [step, tickAndSwitch, h]
  | yield free ctx clock => cases free <;> simp [step, softirqHandler, h]

theorem coherent_run {m : Machine} (h : ∀ s ∈ m.sched, Coherent s) (events : List Event) :
    ∀ s ∈ (run m events).sched, Coherent s := by
  induction events generalizing m with
  | nil => exact h
  | cons e es ih =>
    refine ih fun s hs => ?_
    cases hm : m.sched with
    | none => simp [step_none hm] at hs
    | some s0 =>
      obtain ⟨s', h1, h2⟩ := coherent_step hm (h s0 hm) e
      rw [h1] at hs
      exact Option.some.inj hs ▸ h2

/-! ## Turns -/

theorem wrap64_succ_ne (n : Nat) : wrap64 (n + 1) ≠ n := by
  unfold wrap64
  omega

theorem Selects.selected {m : Machine} {e : Event} {n : Nat} (h : Selects m e n) {s : Scheduler}
    {c : Nat} (hs : m.sched = some s) (hcur : s.current = some c) (hc : c < s.tasks.length) :
    ∃ s', (step m e).sched = some s' ∧ Selected (e.base s) c n s' := by
  obtain ⟨s0, hs0, s1, hs1, hsw, hn⟩ := h
  obtain rfl : s = s0 := Option.some.inj (hs.symm.trans hs0)
  obtain ⟨s', hs', hcases⟩ := quiet_or_turned hs hcur hc e
  obtain rfl : s' = s1 := Option.some.inj (hs'.symm.trans hs1)
  rcases hcases with hquiet | hresumed | ⟨k, hsel⟩
  · exact absurd hquiet.switches hsw
  · exact absurd (hresumed.switches.trans (base_switches e s)) hsw
  · obtain rfl : k = n := Option.some.inj (hsel.current.symm.trans hn)
    exact ⟨s', hs', hsel⟩

theorem Selected.selects {m : Machine} {e : Event} {s s' : Scheduler} {c n : Nat}
    (hs : m.sched = some s) (hs' : (step m e).sched = some s') (h : Selected (e.base s) c n s') :
    Selects m e n := by
  refine ⟨s, hs, s', hs', ?_, h.current⟩
  rw [h.switches, base_switches]
  exact wrap64_succ_ne s.switches

def Runnable (m : Machine) (j : Nat) : Prop :=
  ∃ s ∈ m.sched, s.stateOf j = some .ready ∨ s.stateOf j = some .running

/-- Since the turn of `i`, the ring has not come to `j`, which waits. -/
def Waits (m : Machine) (i j : Nat) : Prop :=
  ∃ s ∈ m.sched, Coherent s ∧ s.stateOf j = some .ready ∧ ∃ c ∈ s.current, Ring.Ahead i c j

theorem waits_step {m : Machine} {i j : Nat} (h : Waits m i j) (e : Event) :
    Selects m e j ∨ (¬ Selects m e i ∧ (Runnable (step m e) j → Waits (step m e) i j)) := by
  obtain ⟨s, hs, hco, hready, c, hcur, hahead⟩ := h
  obtain ⟨c', hcur', hc, hrun⟩ := hco
  obtain rfl : c' = c := Option.some.inj (hcur'.symm.trans hcur)
  have hjlt : j < (e.base s).tasks.length := by
    rw [base_length]
    exact stateOf_lt hready
  have hcand : (e.base s).Candidate c' j := Or.inl (base_stateOf hready (by simp))
  have hc' : c' < (e.base s).tasks.length := by rwa [base_length]
  have hlater : ∀ s', (step m e).sched = some s' → ∀ k, s'.current = some k →
      Ring.Ahead i k j → Runnable (step m e) j → Waits (step m e) i j := by
    intro s' hs' k hk hak hrj
    obtain ⟨s1, hs1, hco1⟩ := coherent_step hs ⟨c', hcur', hc, hrun⟩ e
    obtain rfl : s1 = s' := Option.some.inj (hs1.symm.trans hs')
    obtain ⟨s2, hs2, hst⟩ := hrj
    obtain rfl : s1 = s2 := Option.some.inj (hs1.symm.trans hs2)
    refine ⟨s1, hs1, hco1, ?_, k, hk, hak⟩
    rcases hst with hst | hst
    · exact hst
    · -- a Running task is the current one, and the ring has not come to `j`
      obtain ⟨d, hd, _, honly⟩ := hco1
      obtain rfl : d = k := Option.some.inj (hd.symm.trans hk)
      obtain rfl := honly j hst
      unfold Ring.Ahead at hak
      omega
  obtain ⟨s', hs', hquiet | hresumed | ⟨n, hsel⟩⟩ := quiet_or_turned hs hcur' hc e
  · refine Or.inr ⟨fun hi => ?_, hlater s' hs' c' (hquiet.current.trans hcur') hahead⟩
    obtain ⟨s1, hs1, hsel⟩ := hi.selected hs hcur' hc
    obtain rfl : s' = s1 := Option.some.inj (hs'.symm.trans hs1)
    have hsw := hsel.switches.symm.trans hquiet.switches
    rw [base_switches] at hsw
    exact wrap64_succ_ne _ hsw
  · exact absurd hcand (hresumed.nobody j)
  · by_cases hnj : n = j
    · exact Or.inl (hnj ▸ Selected.selects hs hs' hsel)
    obtain ⟨ha, hne⟩ := hahead.turn (hsel.first.sooner hc' hjlt hcand (Ne.symm hnj))
    refine Or.inr ⟨fun hi => ?_, hlater s' hs' n hsel.current ha⟩
    obtain ⟨s1, hs1, hsel1⟩ := hi.selected hs hcur' hc
    obtain rfl : s' = s1 := Option.some.inj (hs'.symm.trans hs1)
    exact hne (Option.some.inj (hsel.current.symm.trans hsel1.current))

theorem waits_run {m : Machine} {i j : Nat} (h : Waits m i j) (mid : List Event) (e : Event)
    (hstay : ∀ pre suf, mid = pre ++ suf → Runnable (run m pre) j)
    (hback : Selects (run m mid) e i) :
    ∃ pre d suf, mid = pre ++ d :: suf ∧ Selects (run m pre) d j := by
  induction mid generalizing m with
  | nil =>
    rcases waits_step h e with hj | ⟨hno, _⟩
    · obtain ⟨s1, _, t1, ht1, _, hi⟩ := hback
      obtain ⟨s2, _, t2, ht2, _, hj⟩ := hj
      obtain rfl : t1 = t2 := Option.some.inj (ht1.symm.trans ht2)
      obtain rfl : i = j := Option.some.inj (hi.symm.trans hj)
      obtain ⟨s, _, _, _, c, _, ha⟩ := h
      unfold Ring.Ahead at ha
      omega
    · exact absurd hback hno
  | cons d mid ih =>
    rcases waits_step h d with hj | ⟨_, hkeep⟩
    · exact ⟨[], d, mid, rfl, hj⟩
    · have hd : Runnable (step m d) j := hstay [d] mid rfl
      obtain ⟨pre, d', suf, hsplit, hsel⟩ := ih (hkeep hd)
        (fun pre suf hs => hstay (d :: pre) suf (by rw [hs]; rfl)) hback
      exact ⟨d :: pre, d', suf, by rw [hsplit]; rfl, hsel⟩

theorem waits_of_selects {m : Machine} (hco : ∀ s ∈ m.sched, Coherent s) {e : Event} {i j : Nat}
    (h : Selects m e i) (hne : j ≠ i) (hj : Runnable (step m e) j) : Waits (step m e) i j := by
  obtain ⟨s, hs, s', hs', _, hi⟩ := h
  obtain ⟨s1, hs1, hco1⟩ := coherent_step hs (hco s hs) e
  obtain rfl : s1 = s' := Option.some.inj (hs1.symm.trans hs')
  obtain ⟨s2, hs2, hst⟩ := hj
  obtain rfl : s1 = s2 := Option.some.inj (hs1.symm.trans hs2)
  refine ⟨s1, hs1, hco1, ?_, i, hi, Ring.ahead_self hne⟩
  rcases hst with hst | hst
  · exact hst
  · obtain ⟨c, hc, _, honly⟩ := hco1
    obtain rfl : c = i := Option.some.inj (hc.symm.trans hi)
    exact absurd (honly j hst) hne

/-- In every run from `init`: the current index names a task and only that task is Running;
a switch selects the first Ready task after the current one in cyclic order; and between two
dispatches of a task every other task that stays Ready is dispatched. -/
theorem round_robin (top0 top1 : Option Nat) (idleEntry rsp0 ticks : Nat) (perCpu : PerCpu)
    (events : List Event) :
    (∀ s ∈ (run (initMachine top0 top1 idleEntry rsp0 perCpu ticks) events).sched,
      Coherent s ∧
      ∀ e n, Selects (run (initMachine top0 top1 idleEntry rsp0 perCpu ticks) events) e n →
        ∃ c ∈ s.current,
          Ring.FirstAfter ((e.base s).Candidate c) s.tasks.length c n) ∧
    ∀ e mid e' i j, Selects (run (initMachine top0 top1 idleEntry rsp0 perCpu ticks) events) e i →
      Selects (run (initMachine top0 top1 idleEntry rsp0 perCpu ticks)
        (events ++ e :: mid)) e' i →
      j ≠ i →
      (∀ pre suf, mid = pre ++ suf → Runnable (run (initMachine top0 top1 idleEntry rsp0 perCpu
        ticks) (events ++ e :: pre)) j) →
      ∃ pre d suf, mid = pre ++ d :: suf ∧
        Selects (run (initMachine top0 top1 idleEntry rsp0 perCpu ticks)
          (events ++ e :: pre)) d j := by
  have hco := coherent_run (m := initMachine top0 top1 idleEntry rsp0 perCpu ticks)
    (fun s hs => coherent_init hs) events
  constructor
  · intro s hs
    refine ⟨hco s hs, fun e n hsel => ?_⟩
    obtain ⟨c, hcur, hc, _⟩ := hco s hs
    obtain ⟨s', _, h⟩ := hsel.selected hs hcur hc
    exact ⟨c, hcur, by simpa using h.first⟩
  · intro e mid e' i j hi hi' hne hstay
    simp only [run_append, run_cons] at hi' hstay ⊢
    have hstart : Runnable (step (run (initMachine top0 top1 idleEntry rsp0 perCpu ticks)
      events) e) j := hstay [] mid rfl
    exact waits_run (waits_of_selects hco hi hne hstart) mid e' hstay hi'

end Vibra.Sched
