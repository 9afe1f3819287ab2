import Mathlib.Algebra.Order.BigOperators.Group.List
import Mathlib.Algebra.Order.Group.Nat
import Mathlib.Data.List.Nodup
import Vibra.Sched.RoundRobin

/-! # CPU time

A switch charges the interrupted task for the time since it was entered, less the time spent idle,
and restarts the measurement for the task it selects.
-/

namespace Vibra.Sched

open Vibra.Lib

def Event.reading : Event → Option Clock
  | .tick _ _ clock | .yield _ _ clock => some clock
  | _ => none

def readings (events : List Event) : List Clock := events.filterMap Event.reading

/-- Uptime and idle time grow, and idle time by no more than the time that passed. -/
structure Clock.Le (a b : Clock) : Prop where
  now : a.now ≤ b.now
  idle : a.idle ≤ b.idle
  busy : b.idle - a.idle ≤ b.now - a.now

instance (a b : Clock) : Decidable (a.Le b) :=
  decidable_of_iff (a.now ≤ b.now ∧ a.idle ≤ b.idle ∧ b.idle - a.idle ≤ b.now - a.now)
    ⟨fun ⟨h1, h2, h3⟩ => ⟨h1, h2, h3⟩, fun ⟨h1, h2, h3⟩ => ⟨h1, h2, h3⟩⟩

def Clock.span (a b : Clock) : Nat := (b.now - a.now) - (b.idle - a.idle)

/-- The `cpu_ns` of all tasks. -/
def Scheduler.cpuTotal (s : Scheduler) : Nat := (s.tasks.map (·.cpuNs)).sum

/-- What `list_tasks_detail` adds to the `cpu_ns` of the current task. -/
def Task.unsettled (clock : Clock) (t : Task) : Nat :=
  if t.lastStartNs ≠ 0 then (clock.now - t.lastStartNs) - (clock.idle - t.lastIdleNs) else 0

/-- `list_tasks_detail`: id, name, state, CPU time and slices of each task. -/
def listTasksDetail (m : Machine) (clock : Clock) :
    List (Nat × String × TaskState × Nat × Nat) :=
  match m.sched with
  | none => []
  | some s => s.tasks.map fun t =>
    let cpu :=
      if currentTaskId m = some t.id ∧ t.lastStartNs ≠ 0 then
        min (t.cpuNs + t.unsettled clock) (2 ^ 64 - 1)
      else t.cpuNs
    (t.id, t.name, t.state, cpu, t.timeSlices)

def reported (m : Machine) (clock : Clock) : Nat :=
  ((listTasksDetail m clock).map fun row => row.2.2.2.1).sum

instance (e : Event) (s : Scheduler) : Decidable (e.Enters s) :=
  match e with
  | .tick true _ _ => inferInstanceAs (Decidable (_ ∧ _))
  | .yield true _ _ => inferInstanceAs (Decidable (_ < _))
  | .tick false _ _ | .yield false _ _ | .noteTick _ | .spawn .. | .spawnUser .. | .exit _
  | .sleep .. | .wake _ => .isFalse id

/-- An interval of time added to the `cpu_ns` of a task. -/
structure Charge where
  task : Nat
  start : Nat
  stop : Nat

/-- What the event charges: the task it interrupts, from its entry to now. -/
def charged (m : Machine) (e : Event) : Option Charge := do
  let s ← m.sched
  let c ← s.current
  let t ← s.tasks[c]?
  let clock ← e.reading
  if e.Enters s ∧ t.lastStartNs ≠ 0 then some ⟨c, t.lastStartNs, clock.now⟩ else none

def ledger (m : Machine) : List Event → List Charge
  | [] => []
  | e :: es => (charged m e).toList ++ ledger (step m e) es

def Dispatches (m : Machine) (e : Event) : Prop :=
  (step m e).sched.map (·.switches) ≠ m.sched.map (·.switches)

instance (m : Machine) (e : Event) : Decidable (Dispatches m e) :=
  inferInstanceAs (Decidable (_ ≠ _))

def firstDispatch (m : Machine) : List Event → Option Clock
  | [] => none
  | e :: es => if Dispatches m e then e.reading else firstDispatch (step m e) es

/-- The time since the first switch that was not idle; nothing before it. -/
def available (m : Machine) (events : List Event) (clock : Clock) : Nat :=
  match firstDispatch m events with
  | none => 0
  | some first => first.span clock

/-- The `cpu_ns` of the task with the index. -/
def Machine.cpuNs (m : Machine) (i : Nat) : Nat :=
  ((m.sched.bind (·.tasks[i]?)).map (·.cpuNs)).getD 0

def gain (i : Nat) : Option Charge → Nat
  | some charge => if charge.task = i then charge.stop - charge.start else 0
  | none => 0

/-- At every moment the CPU time of all tasks is covered by the time available, in the list
shown too where the ids are distinct. What a task gains is charged to it, and of the intervals
charged to any two tasks, or to one, the later begins where the earlier ended or after it. -/
structure CountedOnce (m : Machine) (events : List Event) : Prop where
  covered : ∀ pre suf clock, events = pre ++ suf →
    (readings pre ++ [clock]).Pairwise Clock.Le → ∀ s ∈ (run m pre).sched,
      s.cpuTotal ≤ available m pre clock ∧
      ((s.tasks.map (·.id)).Nodup → reported (run m pre) clock ≤ available m pre clock)
  gained : ∀ pre e suf i, events = pre ++ e :: suf →
    (run m (pre ++ [e])).cpuNs i ≤ (run m pre).cpuNs i + gain i (charged (run m pre) e)
  apart : (readings events).Pairwise Clock.Le →
    (ledger m events).Pairwise fun a b => a.stop ≤ b.start

/-- A handler that interrupts a task it measures finds a task to switch to. -/
def Restarts (m : Machine) (e : Event) : Prop :=
  ∀ s ∈ m.sched, e.Enters s → ∀ c ∈ s.current, ∀ t ∈ s.tasks[c]?, t.lastStartNs ≠ 0 →
    ∃ i, (e.base s).Candidate c i

/-! ## The meters of the tasks -/

def Task.meter (t : Task) : Nat × Clock := (t.cpuNs, ⟨t.lastStartNs, t.lastIdleNs⟩)

def Scheduler.meters (s : Scheduler) : List (Nat × Clock) := s.tasks.map Task.meter

theorem cpuTotal_eq (s : Scheduler) : s.cpuTotal = (s.meters.map Prod.fst).sum := by
  rw [Scheduler.cpuTotal, Scheduler.meters, List.map_map]
  rfl

@[simp] theorem Task.wakeAt_meter (now : Nat) (t : Task) : (t.wakeAt now).meter = t.meter := by
  rcases t.wakeAt_cases now with h | ⟨_, h⟩ <;> rw [h]
  rfl

@[simp] theorem advanceTick_meters (s : Scheduler) : (advanceTick s).meters = s.meters := by
  simp [Scheduler.meters, advanceTick, Function.comp_def]

@[simp] theorem base_meters (e : Event) (s : Scheduler) : (e.base s).meters = s.meters := by
  cases e with
  | tick free ctx clock => exact advanceTick_meters s
  | _ => rfl

theorem updateFirst_meters (s : Scheduler) (p : Task → Bool) {f : Task → Task}
    (hf : ∀ t, (f t).meter = t.meter) : (s.updateFirst p f).meters = s.meters := by
  simp only [Scheduler.meters, Scheduler.updateFirst]
  induction s.tasks with
  | nil => rfl
  | cons t ts ih =>
    rw [updateFirst]
    split <;> simp [hf, ih]

theorem Api.meters {s s' : Scheduler} {e : Event} (h : Api s e s') :
    s'.meters = s.meters ∨ s'.meters = s.meters ++ [(0, ⟨0, 0⟩)] := by
  cases h with
  | keep e => exact Or.inl rfl
  | spawn name entry priority top => exact Or.inr (by simp [Scheduler.meters, Scheduler.push]; rfl)
  | spawnUser name top stackTop => exact Or.inr (by simp [Scheduler.meters, Scheduler.push]; rfl)
  | exit id => exact Or.inl (updateFirst_meters s _ fun _ => rfl)
  | sleep id ticks => exact Or.inl (updateFirst_meters s _ fun _ => rfl)
  | wake id => exact Or.inl (updateFirst_meters s _ fun _ => rfl)
  | clock e => exact Or.inl (advanceTick_meters s)

def settle (clock : Clock) (x : Nat × Clock) : Nat × Clock :=
  if x.2.now ≠ 0 then (min (x.1 + x.2.span clock) (2 ^ 64 - 1), x.2) else x

theorem Task.charge_meter (clock : Clock) (t : Task) :
    (t.charge clock).meter = settle clock t.meter := by
  unfold Task.charge settle Task.meter Clock.span
  split <;> rfl

theorem Task.leave_meter (ctx : Nat) (clock : Clock) (t : Task) :
    (t.leave ctx clock).meter = settle clock t.meter := by
  have h := Task.charge_meter clock { t with savedRsp := ctx }
  unfold Task.leave Task.requeue
  split
  · exact h
  · exact h

theorem modify_meters (ts : List Task) (k : Nat) {f : Task → Task} {g : Nat × Clock → Nat × Clock}
    (hf : ∀ t, (f t).meter = g t.meter) :
    (ts.modify k f).map Task.meter = (ts.map Task.meter).modify k g := by
  apply List.ext_getElem?
  intro i
  simp only [List.getElem?_map, List.getElem?_modify]
  cases ts[i]? with
  | none => rfl
  | some t =>
    simp only [Option.map_some]
    split <;> simp [hf]

theorem enters_meters {m : Machine} {s : Scheduler} {c : Nat} {e : Event}
    (hs : m.sched = some s) (hcur : s.current = some c) (hc : c < s.tasks.length)
    (he : e.Enters s) :
    ∃ clock s', e.reading = some clock ∧ (step m e).sched = some s' ∧
      ((∀ i, ¬ (e.base s).Candidate c i) ∧ s'.current = some c ∧ s'.switches = s.switches ∧
          s'.meters = s.meters.modify c (settle clock) ∨
        ∃ n, s'.current = some n ∧ n < s.tasks.length ∧ s'.switches = wrap64 (s.switches + 1) ∧
          s'.meters = (s.meters.modify c (settle clock)).modify n fun x => (x.1, clock)) := by
  have hloop : ∃ f clock, e.reading = some clock ∧ Leaves f ∧
      (∀ t, (f t).meter = settle clock t.meter) ∧ Looped m e s c f clock := by
    cases e with
    | tick free ctx clock =>
      cases free with
      | false => exact absurd he id
      | true =>
        refine ⟨Task.leaveTick ctx clock, clock, rfl, ⟨ctx, clock, Or.inr rfl⟩,
          Task.leave_meter ctx clock, ?_⟩
        simp only [Looped, Event.base, Event.finish, step,
          tick_loop hs hcur he.1 he.2 ctx clock]
        cases nextReady ((advanceTick s).putBack c (Task.leaveTick ctx clock)).tasks c with
        | none => exact Or.inl ⟨rfl, rfl, rfl⟩
        | some n => exact Or.inr ⟨n, rfl, rfl⟩
    | yield free ctx clock =>
      cases free with
      | false => exact absurd he id
      | true =>
        refine ⟨Task.leave ctx clock, clock, rfl, ⟨ctx, clock, Or.inl rfl⟩,
          Task.leave_meter ctx clock, ?_⟩
        simp only [Looped, Event.base, Event.finish, step, softirq_loop hs hcur he ctx clock]
        cases nextReady (s.putBack c (Task.leave ctx clock)).tasks c with
        | none => exact Or.inl ⟨rfl, rfl, rfl⟩
        | some n => exact Or.inr ⟨n, rfl, rfl⟩
    | _ => exact absurd he id
  obtain ⟨f, clock, hread, hf, hmeter, hl⟩ := hloop
  have hc' : c < (e.base s).tasks.length := by rwa [base_length]
  have hput : ((e.base s).putBack c f).meters = s.meters.modify c (settle clock) := by
    rw [← base_meters e s]
    exact modify_meters _ c hmeter
  rcases nextReady_cases hf.state hc' with ⟨n, hn, hfirst⟩ | ⟨hn, hnone⟩
  · rcases hl with ⟨hno, _⟩ | ⟨k, hk, hstep⟩
    · simp [hn] at hno
    · obtain rfl : n = k := Option.some.inj (hn.symm.trans hk)
      have hs' : (step m e).sched = some (((e.base s).putBack c f).dispatch n clock) := by
        rw [hstep]
        exact finish_sched he ..
      refine ⟨clock, _, hread, hs', Or.inr ⟨n, rfl, by simpa using hfirst.lt, ?_, ?_⟩⟩
      · rw [← base_switches e s]
        rfl
      · rw [← hput]
        exact modify_meters _ n fun t => rfl
  · rcases hl with ⟨_, hs', _⟩ | ⟨k, hk, _⟩
    · refine ⟨clock, _, hread, hs', Or.inl ⟨hnone, ?_, base_switches e s, ?_⟩⟩
      · exact (base_current e s).trans hcur
      · rw [← hput]
        have hkeep := modify_meters ((e.base s).putBack c f).tasks c
          (f := fun t => { t with state := .running }) (g := id) fun t => rfl
        rwa [List.modify_id] at hkeep
    · simp [hn] at hk

theorem Clock.Le.refl (a : Clock) : a.Le a := ⟨le_rfl, le_rfl, by omega⟩

theorem Clock.Le.trans {a b c : Clock} (h : a.Le b) (h' : b.Le c) : a.Le c := by
  obtain ⟨h1, h2, h3⟩ := h
  obtain ⟨h4, h5, h6⟩ := h'
  exact ⟨by omega, by omega, by omega⟩

theorem Clock.span_add {a b c : Clock} (h : a.Le b) (h' : b.Le c) :
    a.span b + b.span c = a.span c := by
  obtain ⟨h1, h2, h3⟩ := h
  obtain ⟨h4, h5, h6⟩ := h'
  unfold Clock.span
  omega

theorem sum_settle_le (xs : List (Nat × Clock)) (c : Nat) (clock : Clock) {last : Clock}
    (h : xs[c]?.map Prod.snd = some last) :
    ((xs.modify c (settle clock)).map Prod.fst).sum ≤ (xs.map Prod.fst).sum + last.span clock := by
  induction xs generalizing c with
  | nil => simp at h
  | cons x xs ih =>
    cases c with
    | zero =>
      simp only [List.getElem?_cons_zero, Option.map_some, Option.some.injEq] at h
      subst h
      have hx : (settle clock x).1 ≤ x.1 + x.2.span clock := by
        unfold settle
        split
        · exact Nat.min_le_left _ _
        · omega
      simp only [List.modify_zero_cons, List.map_cons, List.sum_cons]
      omega
    | succ c =>
      have htail := ih c (by simpa using h)
      simp only [List.modify_succ_cons, List.map_cons, List.sum_cons]
      omega

theorem modify_settle_zero (xs : List (Nat × Clock)) (c : Nat) (clock : Clock)
    (h : ∀ x ∈ xs[c]?, x.2.now = 0) : xs.modify c (settle clock) = xs := by
  apply List.ext_getElem?
  intro i
  rw [List.getElem?_modify]
  by_cases hi : c = i
  · subst hi
    cases hx : xs[c]? with
    | none => rfl
    | some x => simp [settle, h x hx]
  · simp [hi]

theorem sum_enter (xs : List (Nat × Clock)) (n : Nat) (clock : Clock) :
    ((xs.modify n fun x => (x.1, clock)).map Prod.fst).sum = (xs.map Prod.fst).sum := by
  congr 1
  apply List.ext_getElem?
  intro i
  simp only [List.getElem?_map, List.getElem?_modify]
  cases xs[i]? with
  | none => rfl
  | some x =>
    simp only [Option.map_some]
    split <;> rfl

theorem entered (xs : List (Nat × Clock)) {n : Nat} (clock : Clock) (h : n < xs.length) :
    (xs.modify n fun x => (x.1, clock))[n]?.map Prod.snd = some clock := by
  simp [List.getElem?_eq_getElem h]

/-! ## The account of a run -/

/-- Since the switch at `last` the current task is measured, and what all tasks have used is
covered by the time from `first` on. -/
structure Metered (first last : Clock) (s : Scheduler) : Prop where
  order : first.Le last
  current : ∃ c, s.current = some c ∧ s.meters[c]?.map Prod.snd = some last
  total : s.cpuTotal ≤ first.span last

def Unmetered (s : Scheduler) : Prop := ∀ x ∈ s.meters, x = (0, ⟨0, 0⟩)

variable {m : Machine} {s s' : Scheduler} {e : Event} {first last : Clock}

theorem Api.cpuTotal (h : Api s e s') : s'.cpuTotal = s.cpuTotal := by
  rw [cpuTotal_eq, cpuTotal_eq]
  rcases h.meters with h | h <;> rw [h]
  simp

theorem Metered.api (h : Metered first last s) (ha : Api s e s') : Metered first last s' := by
  obtain ⟨c, hcur, hc⟩ := h.current
  refine ⟨h.order, ⟨c, ha.quiet.current.trans hcur, ?_⟩, ha.cpuTotal ▸ h.total⟩
  rcases ha.meters with hm | hm <;> rw [hm]
  · exact hc
  · have hlt : c < s.meters.length := by
      by_contra hge
      simp [List.getElem?_eq_none (Nat.not_lt.mp hge)] at hc
    rw [List.getElem?_append_left hlt, hc]

theorem Unmetered.api (h : Unmetered s) (ha : Api s e s') : Unmetered s' := by
  intro x hx
  rcases ha.meters with hm | hm <;> rw [hm] at hx
  · exact h x hx
  · rcases List.mem_append.mp hx with hx | hx
    · exact h x hx
    · exact List.mem_singleton.mp hx

theorem Unmetered.cpuTotal (h : Unmetered s) : s.cpuTotal = 0 := by
  rw [cpuTotal_eq]
  apply List.sum_eq_zero
  intro x hx
  obtain ⟨y, hy, rfl⟩ := List.mem_map.mp hx
  rw [h y hy]

theorem dispatches_iff (hs : m.sched = some s) (hs' : (step m e).sched = some s') :
    Dispatches m e ↔ s'.switches ≠ s.switches := by
  unfold Dispatches
  rw [hs, hs']
  simp

theorem api_charged (hs : m.sched = some s) (hs' : (step m e).sched = some s') (ha : Api s e s')
    (he : ¬ e.Enters s) : ¬ Dispatches m e ∧ charged m e = none := by
  refine ⟨fun hd => (dispatches_iff hs hs').mp hd ha.quiet.switches, ?_⟩
  simp [charged, hs, he]

theorem loop_charged (hs : m.sched = some s) (he : e.Enters s) {c : Nat} {t : Task}
    {clock : Clock} (hcur : s.current = some c) (ht : s.tasks[c]? = some t)
    (hread : e.reading = some clock) :
    charged m e = if t.lastStartNs ≠ 0 then some ⟨c, t.lastStartNs, clock.now⟩ else none := by
  unfold charged
  rw [hs]
  simp [hcur, ht, hread, he]

theorem meters_getElem? (s : Scheduler) (i : Nat) : s.meters[i]? = s.tasks[i]?.map Task.meter :=
  List.getElem?_map

theorem metered_step (hco : Coherent s) (hs : m.sched = some s) (hm : Metered first last s)
    (hr : Restarts m e) (hle : ∀ clock ∈ e.reading, last.Le clock) :
    ∃ s', (step m e).sched = some s' ∧
      (Metered first last s' ∧ charged m e = none ∨
        ∃ clock ∈ e.reading, Metered first clock s' ∧
          ∀ charge ∈ charged m e, charge.start = last.now ∧ charge.stop = clock.now) := by
  obtain ⟨c, hcur, hc, _⟩ := hco
  by_cases he : e.Enters s
  · obtain ⟨clock, s', hread, hs', hl⟩ := enters_meters hs hcur hc he
    refine ⟨s', hs', ?_⟩
    obtain ⟨d, hd, hlast⟩ := hm.current
    obtain rfl : c = d := Option.some.inj (hcur.symm.trans hd)
    have ht := List.getElem?_eq_getElem hc
    have hmeter : s.tasks[c].lastStartNs = last.now := by
      rw [meters_getElem?, ht] at hlast
      exact congrArg Clock.now (Option.some.inj hlast)
    have hcharged := loop_charged hs he hcur ht hread
    rw [hmeter] at hcharged
    rcases hl with ⟨hnone, hcur', _, hmeters⟩ | ⟨n, hcur', hn, _, hmeters⟩
    · -- the fallback: only a task that is not measured takes it
      have hzero : last.now = 0 := by
        by_contra hne
        obtain ⟨i, hi⟩ := hr s hs he c hcur _ ht (by rwa [hmeter])
        exact hnone i hi
      have hsame : s'.meters = s.meters := by
        rw [hmeters]
        apply modify_settle_zero
        intro x hx
        rw [hx] at hlast
        rw [Option.some.inj hlast]
        exact hzero
      refine Or.inl ⟨⟨hm.order, ⟨c, hcur', hsame ▸ hlast⟩, ?_⟩, by simp [hcharged, hzero]⟩
      rw [cpuTotal_eq, hsame, ← cpuTotal_eq]
      exact hm.total
    · refine Or.inr ⟨clock, hread, ⟨hm.order.trans (hle clock hread), ⟨n, hcur', ?_⟩, ?_⟩, ?_⟩
      · rw [hmeters]
        exact entered _ clock (by simpa [Scheduler.meters] using hn)
      · have hsum := sum_settle_le s.meters c clock hlast
        have hadd := Clock.span_add hm.order (hle clock hread)
        have htotal := hm.total
        rw [cpuTotal_eq] at htotal ⊢
        rw [hmeters, sum_enter]
        omega
      · intro charge hcharge
        rw [hcharged] at hcharge
        split at hcharge
        · cases hcharge
          exact ⟨rfl, rfl⟩
        · cases hcharge
  · rcases step_cases hs e with ⟨s', hs', hapi, _, _⟩ | ⟨d, f, clock, _, he', _, _⟩
    · exact ⟨s', hs', Or.inl ⟨hm.api hapi, (api_charged hs hs' hapi he).2⟩⟩
    · exact absurd he' he

theorem unmetered_step (hco : Coherent s) (hs : m.sched = some s) (hu : Unmetered s) :
    charged m e = none ∧ ∃ s', (step m e).sched = some s' ∧
      (¬ Dispatches m e ∧ Unmetered s' ∨
        Dispatches m e ∧ ∃ clock, e.reading = some clock ∧ Metered clock clock s') := by
  obtain ⟨c, hcur, hc, _⟩ := hco
  by_cases he : e.Enters s
  · obtain ⟨clock, s', hread, hs', hl⟩ := enters_meters hs hcur hc he
    have ht := List.getElem?_eq_getElem hc
    have hzero : s.tasks[c].meter = (0, ⟨0, 0⟩) :=
      hu _ (List.mem_map_of_mem (List.getElem_mem hc))
    have hstart : s.tasks[c].lastStartNs = 0 := congrArg (fun x => x.2.now) hzero
    have hcharged := loop_charged hs he hcur ht hread
    have hsame : s.meters.modify c (settle clock) = s.meters := by
      apply modify_settle_zero
      intro x hx
      rw [meters_getElem?, ht] at hx
      rw [← Option.some.inj hx]
      exact hstart
    refine ⟨by simp [hcharged, hstart], s', hs', ?_⟩
    rcases hl with ⟨_, _, hsw, hmeters⟩ | ⟨n, hcur', hn, hsw, hmeters⟩
    · refine Or.inl ⟨fun hd => (dispatches_iff hs hs').mp hd hsw, ?_⟩
      unfold Unmetered
      rwa [hmeters, hsame]
    · refine Or.inr ⟨?_, clock, hread, Clock.Le.refl clock, ⟨n, hcur', ?_⟩, ?_⟩
      · rw [dispatches_iff hs hs', hsw]
        exact wrap64_succ_ne _
      · rw [hmeters]
        exact entered _ clock (by simpa [Scheduler.meters] using hn)
      · rw [cpuTotal_eq, hmeters, sum_enter, hsame, ← cpuTotal_eq, hu.cpuTotal]
        exact Nat.zero_le _
  · rcases step_cases hs e with ⟨s', hs', hapi, _, _⟩ | ⟨d, f, clock, _, he', _, _⟩
    · obtain ⟨hd, hcharged⟩ := api_charged hs hs' hapi he
      exact ⟨hcharged, s', hs', Or.inl ⟨hd, hu.api hapi⟩⟩
    · exact absurd he' he

theorem metered_run (hco : ∀ s ∈ m.sched, Coherent s) {events : List Event}
    (hs : m.sched = some s) (hm : Metered first last s)
    (hr : ∀ pre e suf, events = pre ++ e :: suf → Restarts (run m pre) e)
    (hle : (last :: readings events).Pairwise Clock.Le) :
    (∃ s' last', (run m events).sched = some s' ∧ Metered first last' s' ∧
      last' ∈ last :: readings events) ∧
    (∀ charge ∈ ledger m events, last.now ≤ charge.start) ∧
    (ledger m events).Pairwise fun a b => a.stop ≤ b.start := by
  induction events generalizing m s last with
  | nil => exact ⟨⟨s, last, hs, hm, List.mem_cons_self⟩, by simp [ledger], by simp [ledger]⟩
  | cons e events ih =>
    have hco1 : ∀ t ∈ (step m e).sched, Coherent t := coherent_run hco [e]
    have hr1 : ∀ pre d suf, events = pre ++ d :: suf → Restarts (run (step m e) pre) d :=
      fun pre d suf h => hr (e :: pre) d suf (by rw [h]; rfl)
    have hread : readings (e :: events) = e.reading.toList ++ readings events := by
      cases h : e.reading <;> simp [readings, h]
    rw [hread] at hle
    have hfirst : ∀ clock ∈ e.reading, last.Le clock := by
      intro clock hclock
      exact List.rel_of_pairwise_cons hle (by simp [Option.mem_def.mp hclock])
    obtain ⟨s1, hs1, ⟨hm1, hnone⟩ | ⟨clock, hclock, hm1, hcharge⟩⟩ :=
      metered_step (hco s hs) hs hm (hr [] e events rfl) hfirst
    · have hle1 : (last :: readings events).Pairwise Clock.Le :=
        hle.sublist ((List.sublist_append_right _ _).cons_cons last)
      obtain ⟨⟨s', last', hs', hm', hmem⟩, hstart, hapart⟩ := ih hco1 hs1 hm1 hr1 hle1
      have hledger : ledger m (e :: events) = ledger (step m e) events := by
        simp [ledger, hnone]
      rw [hread, hledger]
      refine ⟨⟨s', last', hs', hm', ?_⟩, hstart, hapart⟩
      rcases List.mem_cons.mp hmem with h | h
      · exact h ▸ List.mem_cons_self
      · exact List.mem_cons_of_mem _ (List.mem_append_right _ h)
    · have hsome : e.reading.toList = [clock] := by simp [Option.mem_def.mp hclock]
      rw [hsome] at hle hread
      have hle1 : (clock :: readings events).Pairwise Clock.Le := (List.pairwise_cons.mp hle).2
      obtain ⟨⟨s', last', hs', hm', hmem⟩, hstart, hapart⟩ := ih hco1 hs1 hm1 hr1 hle1
      have hnow := (hfirst clock hclock).now
      rw [hread]
      refine ⟨⟨s', last', hs', hm', List.mem_cons_of_mem last hmem⟩, ?_, ?_⟩
      · intro charge hmem
        rcases List.mem_append.mp hmem with h | h
        · exact (hcharge charge (by simpa using h)).1.ge
        · exact hnow.trans (hstart charge h)
      · rw [ledger, List.pairwise_append]
        refine ⟨by cases charged m e <;> simp, hapart, fun a ha b hb => ?_⟩
        rw [(hcharge a (by simpa using ha)).2]
        exact hstart b hb

theorem unmetered_run (hco : ∀ s ∈ m.sched, Coherent s) {events : List Event}
    (hs : m.sched = some s) (hu : Unmetered s)
    (hr : ∀ pre e suf, events = pre ++ e :: suf → Restarts (run m pre) e)
    (hle : (readings events).Pairwise Clock.Le) :
    (∃ s', (run m events).sched = some s' ∧
      (firstDispatch m events = none ∧ Unmetered s' ∨
        ∃ first last', firstDispatch m events = some first ∧ Metered first last' s' ∧
          last' ∈ readings events)) ∧
    (ledger m events).Pairwise fun a b => a.stop ≤ b.start := by
  induction events generalizing m s with
  | nil => exact ⟨⟨s, hs, Or.inl ⟨rfl, hu⟩⟩, by simp [ledger]⟩
  | cons e events ih =>
    have hco1 : ∀ t ∈ (step m e).sched, Coherent t := coherent_run hco [e]
    have hr1 : ∀ pre d suf, events = pre ++ d :: suf → Restarts (run (step m e) pre) d :=
      fun pre d suf h => hr (e :: pre) d suf (by rw [h]; rfl)
    obtain ⟨hnone, s1, hs1, hcases⟩ := unmetered_step (e := e) (hco s hs) hs hu
    have hledger : ledger m (e :: events) = ledger (step m e) events := by
      simp [ledger, hnone]
    rw [hledger]
    rcases hcases with ⟨hd, hu1⟩ | ⟨hd, clock, hclock, hm1⟩
    · have hle1 : (readings events).Pairwise Clock.Le :=
        hle.sublist ((List.sublist_cons_self e events).filterMap _)
      obtain ⟨⟨s', hs', hout⟩, hapart⟩ := ih hco1 hs1 hu1 hr1 hle1
      refine ⟨⟨s', hs', ?_⟩, hapart⟩
      rw [firstDispatch, if_neg hd]
      rcases hout with h | ⟨first, last', h1, h2, h3⟩
      · exact Or.inl h
      · refine Or.inr ⟨first, last', h1, h2, ?_⟩
        exact ((List.sublist_cons_self e events).filterMap Event.reading).subset h3
    · have hread : readings (e :: events) = clock :: readings events := by
        simp [readings, hclock]
      rw [hread] at hle ⊢
      obtain ⟨⟨s', last', hs', hm', hmem⟩, _, hapart⟩ := metered_run hco1 hs1 hm1 hr1 hle
      refine ⟨⟨s', hs', Or.inr ⟨clock, last', ?_, hm', hmem⟩⟩, hapart⟩
      rw [firstDispatch, if_pos hd, hclock]

theorem cpuNs_eq (hs : m.sched = some s) (i : Nat) :
    m.cpuNs i = (s.meters[i]?.map Prod.fst).getD 0 := by
  rw [Machine.cpuNs, hs, meters_getElem?, Option.map_map]
  rfl

theorem settle_gain (xs : List (Nat × Clock)) (c i : Nat) (clock : Clock) {last : Clock}
    (h : xs[c]?.map Prod.snd = some last) :
    ((xs.modify c (settle clock))[i]?.map Prod.fst).getD 0 ≤ (xs[i]?.map Prod.fst).getD 0 +
      gain i (if last.now ≠ 0 then some ⟨c, last.now, clock.now⟩ else none) := by
  rw [List.getElem?_modify]
  by_cases hi : c = i
  · subst hi
    cases hx : xs[c]? with
    | none => simp [hx] at h
    | some x =>
      rw [hx] at h
      obtain rfl : x.2 = last := Option.some.inj h
      by_cases hz : x.2.now = 0
      · simp [settle, hz]
      · have hspan : x.2.span clock ≤ clock.now - x.2.now := Nat.sub_le _ _
        have hmin := Nat.min_le_left (x.1 + x.2.span clock) (2 ^ 64 - 1)
        simp only [settle, gain, hz, ne_eq, not_false_eq_true, if_true, Option.map_some,
          Option.map_eq_map, Option.getD_some]
        omega
  · simp [hi]

theorem step_gain (hco : ∀ s ∈ m.sched, Coherent s) (e : Event) (i : Nat) :
    (step m e).cpuNs i ≤ m.cpuNs i + gain i (charged m e) := by
  cases hs : m.sched with
  | none => simp [Machine.cpuNs, step_none hs]
  | some s =>
    obtain ⟨c, hcur, hc, _⟩ := hco s hs
    rw [cpuNs_eq hs]
    by_cases he : e.Enters s
    · obtain ⟨clock, s', hread, hs', hl⟩ := enters_meters hs hcur hc he
      have ht := List.getElem?_eq_getElem hc
      have hlast : s.meters[c]?.map Prod.snd = some s.tasks[c].meter.2 := by
        rw [meters_getElem?, ht]
        rfl
      have hgain := settle_gain s.meters c i clock hlast
      rw [cpuNs_eq hs', loop_charged hs he hcur ht hread]
      rcases hl with ⟨_, _, _, hmeters⟩ | ⟨n, _, _, _, hmeters⟩
      · rw [hmeters]
        exact hgain
      · rw [hmeters, List.getElem?_modify, Option.map_eq_map, Option.map_map]
        refine le_of_eq_of_le ?_ hgain
        congr 1
        apply Option.map_congr
        intro x _
        simp only [Function.comp_apply]
        split <;> rfl
    · rcases step_cases hs e with ⟨s', hs', hapi, _, _⟩ | ⟨d, f, clock, _, he', _, _⟩
      · rw [cpuNs_eq hs', (api_charged hs hs' hapi he).2]
        rcases hapi.meters with hm | hm <;> rw [hm]
        · exact Nat.le_add_right _ _
        · rw [List.getElem?_append]
          split
          · exact Nat.le_add_right _ _
          · cases i - s.meters.length <;> simp
      · exact absurd he' he

theorem sum_of_id (ts : List Task) {c : Nat} {u : Task} (g : Task → Nat)
    (hids : (ts.map (·.id)).Nodup) (hu : ts[c]? = some u) :
    (ts.map fun t => if t.id = u.id then g t else 0).sum = g u := by
  induction ts generalizing c with
  | nil => simp at hu
  | cons t ts ih =>
    rw [List.map_cons, List.nodup_cons] at hids
    cases c with
    | zero =>
      obtain rfl : t = u := by simpa using hu
      have hrest : (ts.map fun v => if v.id = t.id then g v else 0).sum = 0 := by
        apply List.sum_eq_zero
        intro x hx
        obtain ⟨v, hv, rfl⟩ := List.mem_map.mp hx
        exact if_neg fun h : v.id = t.id => hids.1 (h ▸ List.mem_map_of_mem hv)
      simp [hrest]
    | succ c =>
      have hmem : u ∈ ts := List.mem_of_getElem? (by simpa using hu)
      have hne : t.id ≠ u.id := fun h => hids.1 (h ▸ List.mem_map_of_mem hmem)
      simp [hne, ih hids.2 (by simpa using hu)]

theorem reported_le (hs : m.sched = some s) {c : Nat} {u : Task} (hcur : s.current = some c)
    (hu : s.tasks[c]? = some u) (hids : (s.tasks.map (·.id)).Nodup) (clock : Clock) :
    reported m clock ≤ s.cpuTotal + u.unsettled clock := by
  have hid : currentTaskId m = some u.id := by simp [currentTaskId, hs, hcur, hu]
  rw [← sum_of_id s.tasks (Task.unsettled clock) hids hu, Scheduler.cpuTotal, ← List.sum_map_add]
  simp only [reported, listTasksDetail, hs, List.map_map]
  apply List.sum_le_sum
  intro t _
  simp only [Function.comp_apply, hid, Option.some.injEq]
  by_cases ht : t.id = u.id
  · rw [if_pos ht]
    split
    · exact Nat.min_le_left _ _
    · exact Nat.le_add_right _ _
  · rw [if_neg fun h => ht h.1.symm]
    exact Nat.le_add_right _ _

theorem Clock.span_le {a b c : Clock} (h : a.Le b) (h' : b.Le c) : a.span b ≤ a.span c :=
  (Nat.le_add_right _ _).trans (Clock.span_add h h').le

theorem unmetered_init {top0 top1 : Option Nat} {idleEntry : Nat}
    (h : initScheduler top0 top1 idleEntry = some s) : Unmetered s := by
  cases top0 <;> cases top1 <;> simp only [initScheduler] at h <;> try contradiction
  cases h
  simp [Unmetered, Scheduler.meters, Task.meter, freshTask]

theorem covered_at (hco : Coherent s) (hs : m.sched = some s) {events : List Event}
    {m0 : Machine} {clock : Clock} (hle : (readings events ++ [clock]).Pairwise Clock.Le)
    (h : firstDispatch m0 events = none ∧ Unmetered s ∨
      ∃ first last, firstDispatch m0 events = some first ∧ Metered first last s ∧
        last ∈ readings events) :
    s.cpuTotal ≤ available m0 events clock ∧
      ((s.tasks.map (·.id)).Nodup → reported m clock ≤ available m0 events clock) := by
  obtain ⟨c, hcur, hc, _⟩ := hco
  have hu := List.getElem?_eq_getElem hc
  rcases h with ⟨hnone, hun⟩ | ⟨first, last, hsome, hm, hmem⟩
  · have hzero : s.tasks[c].meter = (0, ⟨0, 0⟩) :=
      hun _ (List.mem_map_of_mem (List.getElem_mem hc))
    have hstart : s.tasks[c].lastStartNs = 0 := congrArg (fun x => x.2.now) hzero
    refine ⟨hun.cpuTotal.le.trans (Nat.zero_le _), fun hids => ?_⟩
    have hrep := reported_le hs hcur hu hids clock
    rw [hun.cpuTotal, Task.unsettled, if_neg (by simp [hstart])] at hrep
    exact hrep.trans (Nat.zero_le _)
  · have hlast : last.Le clock :=
      (List.pairwise_append.mp hle).2.2 last hmem clock (List.mem_singleton_self clock)
    have hav : available m0 events clock = first.span clock := by rw [available, hsome]
    rw [hav]
    refine ⟨hm.total.trans (Clock.span_le hm.order hlast), fun hids => ?_⟩
    have hrep := reported_le hs hcur hu hids clock
    have hspan : s.tasks[c].unsettled clock ≤ last.span clock := by
      obtain ⟨d, hd, hl⟩ := hm.current
      obtain rfl : c = d := Option.some.inj (hcur.symm.trans hd)
      rw [meters_getElem?, hu] at hl
      have hmeter : s.tasks[c].meter.2 = last := Option.some.inj hl
      unfold Task.unsettled
      split
      · rw [← hmeter]
        exact le_rfl
      · exact Nat.zero_le _
    have hadd := Clock.span_add hm.order hlast
    have htotal := hm.total
    omega

/-- In a run from `init` in which no measured task falls back, CPU time is counted once. -/
theorem cpu_time_counted_once (top0 top1 : Option Nat) (idleEntry rsp0 ticks : Nat)
    (perCpu : PerCpu) (events : List Event)
    (hr : ∀ pre e suf, events = pre ++ e :: suf →
      Restarts (run (initMachine top0 top1 idleEntry rsp0 perCpu ticks) pre) e) :
    CountedOnce (initMachine top0 top1 idleEntry rsp0 perCpu ticks) events := by
  have hco : ∀ pre, ∀ s ∈ (run (initMachine top0 top1 idleEntry rsp0 perCpu ticks) pre).sched,
      Coherent s := coherent_run (fun s hs => coherent_init hs)
  cases hinit : (initMachine top0 top1 idleEntry rsp0 perCpu ticks).sched with
  | none =>
    have hnone : ∀ pre, (run (initMachine top0 top1 idleEntry rsp0 perCpu ticks)
        pre).sched = none := by
      intro pre
      generalize initMachine top0 top1 idleEntry rsp0 perCpu ticks = m at hinit
      induction pre generalizing m with
      | nil => exact hinit
      | cons e es ih => exact ih (step m e) (step_none hinit e)
    have hledger : ∀ (m : Machine) (es : List Event), m.sched = none → ledger m es = [] := by
      intro m es
      induction es generalizing m with
      | nil => intro _; rfl
      | cons e es ih => intro h; simp [ledger, charged, h, ih _ (step_none h e)]
    refine ⟨fun pre suf clock _ _ s hs => ?_, fun pre e suf i _ => ?_, fun _ => ?_⟩
    · simp [hnone pre] at hs
    · simp [Machine.cpuNs, hnone]
    · simp [hledger _ events hinit]
  | some s0 =>
    have hun : Unmetered s0 := unmetered_init hinit
    refine ⟨fun pre suf clock hsplit hle s hs => ?_, fun pre e suf i _ => ?_, fun hle => ?_⟩
    · have hr' : ∀ a e b, pre = a ++ e :: b →
          Restarts (run (initMachine top0 top1 idleEntry rsp0 perCpu ticks) a) e := by
        intro a e b h
        exact hr a e (b ++ suf) (by simp [hsplit, h])
      obtain ⟨⟨s', hs', hcases⟩, _⟩ := unmetered_run (hco []) hinit hun hr'
        (List.pairwise_append.mp hle).1
      obtain rfl : s = s' := Option.some.inj (hs.symm.trans hs')
      exact covered_at (hco pre s hs) hs hle hcases
    · rw [run_append]
      exact step_gain (hco pre) e i
    · exact (unmetered_run (hco []) hinit hun hr hle).2

def measuredRun : List Event :=
  [.yield true 0x1000 ⟨10, 0⟩, .noteTick true, .noteTick true, .noteTick true,
    .tick true 0x2000 ⟨30, 15⟩]

theorem cpu_time_measured : CountedOnce
    (initMachine (some 0x9000) (some 0xB000) 0x400000 0 ⟨0, 0x9000, 0x200⟩ 0) measuredRun := by
  apply cpu_time_counted_once
  intro pre e suf h s hs he c hc t ht _
  match pre, h with
  | [], h =>
    cases h
    cases hs
    exact ⟨1, Or.inl (by decide)⟩
  | [_], h | [_, _], h | [_, _, _], h =>
    cases h
    exact absurd he id
  | [_, _, _, _], h =>
    cases h
    cases hs
    exact ⟨0, Or.inl (by decide)⟩
  | _ :: _ :: _ :: _ :: _ :: _, h => simp [measuredRun] at h

/-- The shell is back from the idle task, which is then ended; it sleeps and yields twice. -/
def chargedTwiceRun : List Event :=
  [.yield true 0x1000 ⟨10, 0⟩, .yield true 0x2000 ⟨20, 10⟩, .exit 1, .sleep 0 100,
    .yield true 0x1000 ⟨30, 10⟩, .sleep 0 100, .yield true 0x1000 ⟨40, 10⟩]

/-- The time from 20 to 30 is charged to the shell by both yields. -/
theorem charged_twice : ¬ CountedOnce
    (initMachine (some 0x9000) (some 0xB000) 0x400000 0 ⟨0, 0x9000, 0x200⟩ 0)
    chargedTwiceRun := by
  intro h
  have hapart := h.apart (by decide)
  revert hapart
  decide

end Vibra.Sched
