import Mathlib.Data.List.Induction
import Vibra.Sched.RoundRobin

/-! # Finished tasks

A finished task is brought back in two ways. The fallback of the loop makes the interrupted task
Running whatever it was, and `sleep_task` puts a task of any state to sleep.
-/

namespace Vibra.Sched

open Vibra.Lib

def Zombie (m : Machine) (i : Nat) : Prop := ∃ s ∈ m.sched, s.stateOf i = some .zombie

/-- Once finished, a task is finished in every later state, and no switch selects it. -/
def FinishedStays (m : Machine) (events : List Event) : Prop :=
  ∀ pre mid suf i, events = pre ++ mid ++ suf → Zombie (run m pre) i →
    Zombie (run m (pre ++ mid)) i ∧
      ∀ e rest, suf = e :: rest → ¬ Selects (run m (pre ++ mid)) e i

def Scheduler.Stranded (s : Scheduler) : Prop :=
  ∃ c ∈ s.current, s.stateOf c = some .zombie ∧ ∀ i, s.stateOf i ≠ some .ready

/-- The event meets no finished task: a switch with a finished task current finds a Ready
one, and no finished task is put to sleep. -/
def Spares (m : Machine) (e : Event) : Prop :=
  ∀ s ∈ m.sched, (e.Enters s → ¬ (e.base s).Stranded) ∧
    ∀ id ticks t, e = .sleep id ticks → s.tasks.find? (·.id = id) = some t → t.state ≠ .zombie

variable {m : Machine} {s : Scheduler} {i : Nat}

theorem stateOf_updateFirst {p : Task → Bool} {f : Task → Task} {st : TaskState}
    (h : s.stateOf i = some st)
    (hf : ∀ t, s.tasks.find? p = some t → t.state = st → (f t).state = st) :
    (s.updateFirst p f).stateOf i = some st := by
  rcases updateFirst_cases p f s.tasks with ⟨_, he⟩ | ⟨k, t, hk, hfind, he⟩
  · rwa [show s.updateFirst p f = s from by simp [Scheduler.updateFirst, he]]
  · obtain ⟨u, hu, hst⟩ := stateOf_eq_some.mp h
    simp only [Scheduler.stateOf, Scheduler.updateFirst, he, List.getElem?_set]
    by_cases hki : k = i
    · subst hki
      obtain rfl : t = u := Option.some.inj (hk.symm.trans hu)
      simp [(List.getElem?_eq_some_iff.mp hk).1, hf t hfind hst]
    · simp [hki, hu, hst]

theorem stateOf_push {st : TaskState} (task : Nat → Task) (h : s.stateOf i = some st) :
    (s.push task).stateOf i = some st := by
  obtain ⟨t, ht, hst⟩ := stateOf_eq_some.mp h
  refine stateOf_eq_some.mpr ⟨t, ?_, hst⟩
  simp only [Scheduler.push]
  rw [List.getElem?_append_left (stateOf_lt h), ht]

theorem Api.zombie {s' : Scheduler} {e : Event} (h : Api s e s')
    (hok : ∀ id ticks t, e = .sleep id ticks → s.tasks.find? (·.id = id) = some t →
      t.state ≠ .zombie) (hz : s.stateOf i = some .zombie) : s'.stateOf i = some .zombie := by
  cases h with
  | keep e => exact hz
  | spawn name entry priority top => exact stateOf_push _ hz
  | spawnUser name top stackTop => exact stateOf_push _ hz
  | exit id => exact stateOf_updateFirst hz fun _ _ _ => rfl
  | sleep id ticks =>
    exact stateOf_updateFirst hz fun t ht hst => absurd hst (hok id ticks t rfl ht)
  | wake id =>
    refine stateOf_updateFirst hz fun t ht hst => ?_
    have hp := List.find?_some ht
    simp [hst] at hp
  | clock e => exact advanceTick_stateOf_of_ne hz (by simp)

theorem turned_zombie {s' : Scheduler} {c : Nat} (ht : Turned s c s') (hcur : s.current = some c)
    (hok : ¬ s.Stranded) (h : s.stateOf i = some .zombie) : s'.stateOf i = some .zombie := by
  rcases ht with hres | ⟨n, hsel⟩
  · have hic : i ≠ c := by
      intro hic
      exact hok ⟨c, hcur, hic ▸ h, fun j hj => hres.nobody j (Or.inl hj)⟩
    rw [hres.states, if_neg hic, h]
  · have hin : i ≠ n := by
      intro hin
      have hcand := hin ▸ hsel.first.holds
      simp [Scheduler.Candidate, h] at hcand
    rw [hsel.states, if_neg hin]
    split <;> simp [h, TaskState.requeue]

theorem zombie_step (hco : ∀ s ∈ m.sched, Coherent s) {e : Event} (hok : Spares m e)
    (h : Zombie m i) : Zombie (step m e) i := by
  obtain ⟨s, hs, hz⟩ := h
  obtain ⟨c, hcur, hc, _⟩ := hco s hs
  obtain ⟨hloop, hsleep⟩ := hok s hs
  rcases step_cases hs e with ⟨s', hs', hapi, _, _⟩ | ⟨d, f, clock, hd, he, hf, hl⟩
  · exact ⟨s', hs', hapi.zombie hsleep hz⟩
  · obtain rfl : c = d := Option.some.inj (hcur.symm.trans hd)
    obtain ⟨s', hs', ht⟩ := hl.turned he hf hcur hc
    exact ⟨s', hs', turned_zombie ht (by rw [base_current, hcur]) (hloop he)
      (base_stateOf hz (by simp))⟩

theorem zombie_not_selected (hco : ∀ s ∈ m.sched, Coherent s) {e : Event} (h : Zombie m i) :
    ¬ Selects m e i := by
  intro hsel
  obtain ⟨s, hs, hz⟩ := h
  obtain ⟨c, hcur, hc, _⟩ := hco s hs
  obtain ⟨s', _, hsel⟩ := hsel.selected hs hcur hc
  have hcand := hsel.first.holds
  simp [Scheduler.Candidate, base_stateOf hz (by simp)] at hcand

theorem turned_stranded {s' : Scheduler} {c : Nat} (ht : Turned s c s') (hcur : s.current = some c)
    (h : s.Stranded) : s.stateOf c = some .zombie ∧ s'.stateOf c = some .running := by
  obtain ⟨c', hc', hz, hnone⟩ := h
  obtain rfl : c = c' := Option.some.inj (hcur.symm.trans hc')
  refine ⟨hz, ?_⟩
  rcases ht with hres | ⟨n, hsel⟩
  · rw [hres.states, if_pos rfl, hz]
    rfl
  · rcases hsel.first.holds with hr | ⟨rfl, hr⟩
    · exact absurd hr (hnone n)
    · simp [hz] at hr

theorem sleep_zombie {id ticks : Nat} {t : Task} (hs : m.sched = some s)
    (ht : s.tasks.find? (·.id = id) = some t) (hz : t.state = .zombie) :
    ∃ i, Zombie m i ∧ ¬ Zombie (step m (.sleep id ticks)) i := by
  let f := Task.sleepUntil (wrap64 (s.tickCount + ticks))
  rcases updateFirst_cases (·.id = id) f s.tasks with ⟨hnone, _⟩ | ⟨k, u, hk, hu, he⟩
  · simp [hnone] at ht
  obtain rfl : t = u := Option.some.inj (ht.symm.trans hu)
  refine ⟨k, ⟨s, hs, stateOf_eq_some.mpr ⟨t, hk, hz⟩⟩, fun ⟨s1, hs1, hz1⟩ => ?_⟩
  have hs1' : s.updateFirst (·.id = id) f = s1 := by
    simpa [step, sleepTask, hs] using hs1
  have hlt := (List.getElem?_eq_some_iff.mp hk).1
  rw [← hs1'] at hz1
  simp [Scheduler.stateOf, Scheduler.updateFirst, he, hlt, f, Task.sleepUntil] at hz1

theorem zombie_of_base {e : Event} (h : (e.base s).stateOf i = some .zombie) :
    s.stateOf i = some .zombie := by
  cases e with
  | tick free ctx clock =>
    rcases advanceTick_stateOf s i with he | ⟨_, he⟩
    · exact he ▸ h
    · simp only [Event.base, he] at h
      contradiction
  | _ => exact h

theorem zombie_lost (hco : ∀ s ∈ m.sched, Coherent s) {e : Event} (h : ¬ Spares m e) :
    ∃ i, Zombie m i ∧ ¬ Zombie (step m e) i := by
  unfold Spares at h
  push Not at h
  obtain ⟨s, hs, h⟩ := h
  replace hs : m.sched = some s := hs
  obtain ⟨c, hcur, hc, _⟩ := hco s hs
  by_cases hloop : e.Enters s → ¬ (e.base s).Stranded
  · obtain ⟨id, ticks, t, rfl, ht, hz⟩ := h hloop
    exact sleep_zombie hs ht hz
  · push Not at hloop
    obtain ⟨he, hst⟩ := hloop
    rcases step_cases hs e with ⟨_, _, _, _, hno⟩ | ⟨d, f, clock, hd, _, hf, hl⟩
    · simp [hno he] at hcur
    obtain rfl : c = d := Option.some.inj (hcur.symm.trans hd)
    obtain ⟨s', hs', ht⟩ := hl.turned he hf hcur hc
    obtain ⟨hz, hr⟩ := turned_stranded ht (by rw [base_current, hcur]) hst
    refine ⟨c, ⟨s, hs, zombie_of_base hz⟩, fun ⟨s1, hs1, hz1⟩ => ?_⟩
    · obtain rfl : s' = s1 := Option.some.inj (hs'.symm.trans hs1)
      simp [hr] at hz1

/-- In a run from `init` a finished task never runs again exactly when every event spares the
finished tasks. -/
theorem finished_stays_iff (top0 top1 : Option Nat) (idleEntry rsp0 ticks : Nat)
    (perCpu : PerCpu) (events : List Event) :
    FinishedStays (initMachine top0 top1 idleEntry rsp0 perCpu ticks) events ↔
      ∀ pre e suf, events = pre ++ e :: suf →
        Spares (run (initMachine top0 top1 idleEntry rsp0 perCpu ticks) pre) e := by
  have hco : ∀ pre, ∀ s ∈ (run (initMachine top0 top1 idleEntry rsp0 perCpu ticks) pre).sched,
      Coherent s := coherent_run (fun s hs => coherent_init hs)
  constructor
  · intro h pre e suf hsplit
    by_contra hbad
    obtain ⟨i, hz, hlost⟩ := zombie_lost (hco pre) hbad
    have hstay := (h pre [e] suf i (by simp [hsplit]) hz).1
    rw [run_append] at hstay
    exact hlost hstay
  · intro h pre mid suf i hsplit hz
    have hkeep : Zombie (run (initMachine top0 top1 idleEntry rsp0 perCpu ticks)
        (pre ++ mid)) i := by
      induction mid using List.reverseRecOn generalizing suf with
      | nil => simpa using hz
      | append_singleton mid e ih =>
        have hmid := ih (e :: suf) (by simp [hsplit])
        rw [← List.append_assoc, run_append]
        exact zombie_step (hco (pre ++ mid)) (h (pre ++ mid) e suf (by simp [hsplit])) hmid
    exact ⟨hkeep, fun e rest _ => zombie_not_selected (hco (pre ++ mid)) hkeep⟩

/-- The shell yields to the idle task, which is ended while the shell sleeps. -/
def strandedRun : List Event :=
  [.yield true 0x1000 ⟨1, 0⟩, .exit 1, .sleep 0 100, .yield true 0x2000 ⟨2, 0⟩]

/-- The next yield finds no task Ready and makes the finished task Running. -/
theorem finished_runs_again : ¬ FinishedStays
    (initMachine (some 0x9000) (some 0xB000) 0x400000 0 ⟨0, 0x9000, 0x200⟩ 0) strandedRun := by
  intro h
  obtain ⟨⟨s, hs, hz⟩, _⟩ := h (strandedRun.take 3) (strandedRun.drop 3) [] 1 rfl
    ⟨_, rfl, by decide⟩
  cases hs
  revert hz
  decide

end Vibra.Sched
