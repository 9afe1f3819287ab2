import Vibra.Sched.Finished
import Vibra.Sched.SystemCall

/-! # What user code can do to the machine

An exception in ring 3 ends its task when its handler is one that kills, the task's id is its own,
and the yield that follows finds another task.
-/

namespace Vibra.Sched

open Vibra.Lib

attribute [local irreducible] Words.store

variable {b : Build} {σ σ' : Cpu} {m : Machine} {s s' : Scheduler} {c : Nat} {t : Made}

/-- The first task with the current task's id is the current task, and it is not the shell. -/
def OwnId (m : Machine) : Prop :=
  ∀ i t, m.currentTask = some (i, t) → t.id ≠ 0 ∧
    ∀ s ∈ m.sched, ∀ j < i, ∀ u, s.madeOf j = some u → u.id ≠ t.id

/-- What a step must find for user code to end its own task only. -/
structure Contained (b : Build) (σ : Cpu) (e : CpuEvent) : Prop where
  ownStack : OwnStack σ e
  raise : ∀ vector clock, e = .raise vector clock →
    (idt vector).map Handler.fromUser = some .kill ∧ OwnId σ.kernel
  dispatch : ∀ readable free clock, e = .dispatch readable free clock →
    (σ.regs.rdi = sysWrite → writeRefused (σ.mem (σ.regs.rsi + 8)) (σ.mem (σ.regs.rsi + 16)) ∨
      ¬ writeFaults readable (σ.mem (σ.regs.rsi + 8)) (σ.mem (σ.regs.rsi + 16))) ∧
    (σ.regs.rdi = sysExit → OwnId σ.kernel)
  spares : ∀ pre d suf, e.requests b σ = pre ++ d :: suf → Spares (Sched.run σ.kernel pre) d

def CpuEvent.ofUser : CpuEvent → Bool
  | .user _ | .sysCall | .dispatch .. | .unwind | .sysRet | .raise .. | .killReturn => true
  | _ => false

theorem updateFirst_eq_modify {p : Task → Bool} {f : Task → Task} {ts : List Task} {i : Nat}
    {t : Task} (ht : ts[i]? = some t) (hp : p t = true)
    (hfirst : ∀ j < i, ∀ u, ts[j]? = some u → p u = false) :
    updateFirst p f ts = ts.modify i f := by
  induction ts generalizing i with
  | nil => simp at ht
  | cons u ts ih =>
    cases i with
    | zero =>
      obtain rfl : u = t := by simpa using ht
      simp [updateFirst, hp]
    | succ i =>
      have hu : p u = false := hfirst 0 (by omega) u rfl
      have htail := ih (by simpa using ht) fun j hj v hv =>
        hfirst (j + 1) (by omega) v (by simpa using hv)
      simp [updateFirst, hu, htail]

theorem currentTaskId_eq (hs : m.sched = some s) (hcur : s.current = some c)
    (ht : s.madeOf c = some t) : currentTaskId m = some t.id := by
  obtain ⟨u, hu, rfl⟩ := madeOf_eq_some.mp ht
  simp [currentTaskId, hs, hcur, hu, Task.made]

theorem exit_current (hs : m.sched = some s) (hcur : s.current = some c)
    (ht : s.madeOf c = some t) (hid : OwnId m) :
    ∃ s1, (step m (.exit ((currentTaskId m).getD 0))).sched = some s1 ∧
      s1.current = some c ∧ s1.tasks.length = s.tasks.length ∧
      s1.stateOf c = some .zombie ∧ ∀ j, j ≠ c → s1.stateOf j = s.stateOf j := by
  obtain ⟨hne, hfirst⟩ := hid c t ((currentTask_eq hs).mpr ⟨hcur, ht⟩)
  obtain ⟨u, hu, rfl⟩ := madeOf_eq_some.mp ht
  have hupd : updateFirst (·.id = u.id) Task.exit s.tasks = s.tasks.modify c Task.exit := by
    refine updateFirst_eq_modify hu (by simp) fun j hj v hv => ?_
    have hv' := hfirst s hs j hj v.made (by simp [Scheduler.madeOf, hv])
    simpa [Task.made] using hv'
  have hstate := stateOf_modify s c Task.exit (fun _ => .zombie) (fun _ => rfl)
  refine ⟨{ s with tasks := s.tasks.modify c Task.exit }, ?_, hcur, by simp, ?_, ?_⟩
  · rw [currentTaskId_eq hs hcur ht]
    have hne' : ¬ u.id = 0 := hne
    show (exitTask m u.id).sched = _
    rw [exitTask, if_neg hne', hs, Option.map_some, Scheduler.updateFirst, hupd]
  · rw [hstate, if_pos rfl, Scheduler.stateOf, hu]
    rfl
  · intro j hj
    rw [hstate, if_neg hj]

theorem yield_turned (hs : m.sched = some s) (hcur : s.current = some c)
    (hc : c < s.tasks.length) (hlen : 1 < s.tasks.length) (ctx : Nat) (clock : Clock) :
    ∃ s', (step m (.yield true ctx clock)).sched = some s' ∧ Turned s c s' := by
  rcases step_cases hs (.yield true ctx clock) with ⟨_, _, _, _, hno⟩ | ⟨d, f, k, hd, he, hf, hl⟩
  · simp [hno hlen] at hcur
  · obtain rfl : c = d := Option.some.inj (hcur.symm.trans hd)
    exact hl.turned he hf hcur hc

theorem yield_finished (hs : m.sched = some s) (hcur : s.current = some c)
    (hlen : 1 < s.tasks.length) (hz : s.stateOf c = some .zombie) {ctx : Nat} {clock : Clock}
    (hok : Spares m (.yield true ctx clock)) :
    ∃ s' n, (step m (.yield true ctx clock)).sched = some s' ∧ s'.current = some n ∧ n ≠ c ∧
      s'.stateOf c = some .zombie ∧ ∀ j, j ≠ n → s'.stateOf j = s.stateOf j := by
  have hready := (hok s hs).1 hlen
  obtain ⟨s', hs', hres | ⟨n, hsel⟩⟩ := yield_turned hs hcur (stateOf_lt hz) hlen ctx clock
  · exact absurd ⟨c, hcur, hz, fun i hi => hres.nobody i (Or.inl hi)⟩ hready
  · have hnc : n ≠ c := by
      rintro rfl
      have hcand := hsel.first.holds
      simp [Scheduler.Candidate, hz] at hcand
    have hstate : ∀ j, j ≠ n → s'.stateOf j = s.stateOf j := by
      intro j hj
      rw [hsel.states, if_neg hj]
      split
      · next hjc => simp [hjc, hz, TaskState.requeue]
      · rfl
    exact ⟨s', n, hs', hsel.current, hnc, (hstate c (Ne.symm hnc)).trans hz, hstate⟩

/-- The current task has ended: it is finished, and another task is current. -/
def Gone (m : Machine) (c : Nat) : Prop := Zombie m c ∧ ∀ s ∈ m.sched, s.current ≠ some c

def OthersKept (m m' : Machine) (c : Nat) : Prop :=
  ∀ s ∈ m.sched, ∃ s' ∈ m'.sched, ∀ j, j ≠ c →
    s'.stateOf j = s.stateOf j ∨ s'.current = some j

theorem OthersKept.refl (m : Machine) (c : Nat) : OthersKept m m c :=
  fun s hs => ⟨s, hs, fun _ _ => Or.inl rfl⟩

theorem kill_current (hs : m.sched = some s) (hcur : s.current = some c)
    (ht : s.madeOf c = some t) (hlen : 1 < s.tasks.length) (hid : OwnId m) {ctx : Nat}
    {clock : Clock}
    (hok : Spares (step m (.exit ((currentTaskId m).getD 0))) (.yield true ctx clock)) :
    Gone (Sched.run m [.exit ((currentTaskId m).getD 0), .yield true ctx clock]) c ∧
      OthersKept m (Sched.run m [.exit ((currentTaskId m).getD 0), .yield true ctx clock]) c := by
  obtain ⟨s1, hs1, hcur1, hlen1, hz, hsame⟩ := exit_current hs hcur ht hid
  obtain ⟨s', n, hs', hn, hnc, hz', hstate⟩ :=
    yield_finished hs1 hcur1 (by omega) hz hok
  refine ⟨⟨⟨s', hs', hz'⟩, fun s2 hs2 => ?_⟩, fun s0 hs0 => ⟨s', hs', fun j hj => ?_⟩⟩
  · obtain rfl : s' = s2 := Option.some.inj (hs'.symm.trans hs2)
    rw [hn]
    exact fun he => hnc (Option.some.inj he)
  · obtain rfl : s = s0 := Option.some.inj (hs.symm.trans hs0)
    by_cases hjn : j = n
    · exact Or.inr (hjn ▸ hn)
    · exact Or.inl ((hstate j hjn).trans (hsame j hj))

theorem yield_others (hs : m.sched = some s) (hcur : s.current = some c)
    (hc : c < s.tasks.length) (free : Bool) (ctx : Nat) (clock : Clock) :
    OthersKept m (step m (.yield free ctx clock)) c := by
  intro s0 hs0
  obtain rfl : s = s0 := Option.some.inj (hs.symm.trans hs0)
  by_cases hgo : free = true ∧ 1 < s.tasks.length
  · obtain ⟨rfl, hlen⟩ := hgo
    obtain ⟨s', hs', hres | ⟨n, hsel⟩⟩ := yield_turned hs hcur hc hlen ctx clock
    · refine ⟨s', hs', fun j hj => Or.inl ?_⟩
      rw [hres.states, if_neg hj]
    · refine ⟨s', hs', fun j hj => ?_⟩
      by_cases hjn : j = n
      · exact Or.inr (hjn ▸ hsel.current)
      · rw [hsel.states, if_neg hjn, if_neg hj]
        exact Or.inl rfl
  · refine ⟨s, ?_, fun j _ => Or.inl rfl⟩
    simp only [step, softirq_idle hs ctx clock hgo]
    exact hs

/-! ## One step -/

theorem one_lt_of_user (hu : t.isUser c = true) (hc : c < s.tasks.length) :
    1 < s.tasks.length := by
  have h0 : c ≠ 0 := by
    rintro rfl
    simp [Made.isUser] at hu
  omega

theorem Contained.stopped {e : CpuEvent} (h : Contained b σ e) (hs : Sound b σ s)
    (hstep : Step b σ e σ') : σ'.stopped = false := by
  obtain ⟨hrunning, c, t, hct, hstep⟩ := hstep
  obtain ⟨hcur, ht⟩ := (currentTask_eq hs.sched).mp hct
  cases hstep with
  | dispatch readable free clock hat =>
    have hwrite := (h.dispatch readable free clock rfl).1
    simp only [syscallDispatch]
    split
    · next hw =>
        split
        · exact hrunning
        · next hr =>
            rw [if_neg ((hwrite hw).resolve_left hr)]
            exact hrunning
    · split
      · exact hrunning
      · split <;> exact hrunning
  | unwind hat =>
    simp only [Sched.unwind]
    rw [if_pos (hs.unwind_intact hcur ht hat).2]
    exact hrunning
  | raise vector clock hu =>
    rw [exception_kill (h.raise vector clock rfl).1]
    exact hrunning
  | _ => exact hrunning

theorem Contained.others {e : CpuEvent} (h : Contained b σ e) (hs : Sound b σ s)
    (hstep : Step b σ e σ') (hct : σ.kernel.currentTask = some (c, t)) (he : e.ofUser = true) :
    OthersKept σ.kernel σ'.kernel c := by
  obtain ⟨_, i, u, hiu, hcpu⟩ := hstep
  obtain ⟨rfl, rfl⟩ := Prod.mk.inj (Option.some.inj (hiu.symm.trans hct))
  obtain ⟨hcur, ht⟩ := (currentTask_eq hs.sched).mp hct
  rw [hs.requests hcur ht hcpu]
  cases e with
  | user regs => exact OthersKept.refl _ _
  | sysCall => exact OthersKept.refl _ _
  | unwind => exact OthersKept.refl _ _
  | sysRet => exact OthersKept.refl _ _
  | killReturn => exact OthersKept.refl _ _
  | dispatch readable free clock =>
    simp only [CpuEvent.requests]
    by_cases hexit : σ.regs.rdi = sysExit
    · rw [if_pos hexit]
      obtain ⟨s1, hs1, _, _, _, hsame⟩ :=
        exit_current hs.sched hcur ht ((h.dispatch readable free clock rfl).2 hexit)
      intro s0 hs0
      obtain rfl : s = s0 := Option.some.inj (hs.sched.symm.trans hs0)
      exact ⟨s1, hs1, fun j hj => Or.inl (hsame j hj)⟩
    rw [if_neg hexit]
    by_cases hy : σ.regs.rdi = sysYield
    · rw [if_pos hy]
      exact yield_others hs.sched hcur (lt_of_made ht) free _ clock
    · rw [if_neg hy]
      exact OthersKept.refl _ _
  | raise vector clock =>
    obtain ⟨hk, hid⟩ := h.raise vector clock rfl
    have hsp := h.spares [.exit ((currentTaskId σ.kernel).getD 0)] _ [] (by
      simp only [CpuEvent.requests, if_pos hk]
      rfl)
    cases hcpu with
    | raise _ _ hu =>
      have huser := (hs.inUser hcur ht hu).1
      simp only [CpuEvent.requests, if_pos hk]
      exact (kill_current hs.sched hcur ht (one_lt_of_user huser (lt_of_made ht)) hid hsp).2
  | _ => simp [CpuEvent.ofUser] at he

theorem Contained.gone {vector : Nat} {clock : Clock} (h : Contained b σ (.raise vector clock))
    (hs : Sound b σ s) (hstep : Step b σ (.raise vector clock) σ')
    (hct : σ.kernel.currentTask = some (c, t)) : Gone σ'.kernel c := by
  obtain ⟨_, i, u, hiu, hcpu⟩ := hstep
  obtain ⟨rfl, rfl⟩ := Prod.mk.inj (Option.some.inj (hiu.symm.trans hct))
  obtain ⟨hcur, ht⟩ := (currentTask_eq hs.sched).mp hct
  obtain ⟨hk, hid⟩ := h.raise vector clock rfl
  have hsp := h.spares [.exit ((currentTaskId σ.kernel).getD 0)] _ [] (by
    simp only [CpuEvent.requests, if_pos hk]
    rfl)
  rw [hs.requests hcur ht hcpu]
  cases hcpu with
  | raise _ _ hu =>
    have huser := (hs.inUser hcur ht hu).1
    simp only [CpuEvent.requests, if_pos hk]
    exact (kill_current hs.sched hcur ht (one_lt_of_user huser (lt_of_made ht)) hid hsp).1

/-- A task in a system call goes on: the dispatcher returns a value, or yields; after the
yield it returns 0; and SYSRET goes back to the task. -/
def CallGoesOn (b : Build) (σ : Cpu) : Prop :=
  (σ.regs.rip = b.dispatch ∧ ∀ readable free clock,
    Contained b σ (.dispatch readable free clock) →
    ∃ σ', Step b σ (.dispatch readable free clock) σ' ∧ σ'.stopped = false ∧
      (σ'.regs.rip = b.done ∨ σ.regs.rdi = sysYield)) ∨
  (σ.regs.rip = b.resumed ∧ ∃ σ', Step b σ .unwind σ' ∧ σ'.stopped = false ∧
    σ'.regs.rip = b.done ∧ σ'.regs.rax = 0) ∨
  (σ.regs.rip = b.done ∧ ∃ σ', Step b σ .sysRet σ' ∧ σ'.stopped = false ∧
    σ'.regs.isUser = true)

theorem dispatch_returns {readable : Nat → Bool} {free : Bool} {clock : Clock}
    (h : Contained b σ (.dispatch readable free clock)) :
    (syscallDispatch b σ readable free clock).regs.rip = b.done ∨ σ.regs.rdi = sysYield := by
  have hwrite := (h.dispatch readable free clock rfl).1
  simp only [syscallDispatch]
  split
  · next hw =>
      refine Or.inl ?_
      split
      · rfl
      · next hr =>
          rw [if_neg ((hwrite hw).resolve_left hr)]
          rfl
  · split
    · exact Or.inl rfl
    · split
      · next hy => exact Or.inr hy
      · exact Or.inl rfl

theorem Sound.callGoesOn (h : Sound b σ s) (hrunning : σ.stopped = false)
    (hct : σ.kernel.currentTask = some (c, t)) (hu : t.isUser c = true) {r : Regs}
    (hr : σ.called c = some r) : CallGoesOn b σ := by
  obtain ⟨hcur, ht⟩ := (currentTask_eq h.sched).mp hct
  have hp := h.active c t hcur ht
  unfold Poised at hp
  rw [if_pos hu] at hp
  cases hp with
  | user _ hnone => simp [hr] at hnone
  | killed _ _ _ _ hnone => simp [hr] at hnone
  | dispatch hk hrip =>
    refine Or.inl ⟨hrip, fun readable free clock hok => ?_⟩
    have hstep : Step b σ (.dispatch readable free clock)
        (syscallDispatch b σ readable free clock) :=
      ⟨hrunning, c, t, hct, .dispatch readable free clock ⟨hu, hk, hrip⟩⟩
    exact ⟨_, hstep, hok.stopped h hstep, dispatch_returns hok⟩
  | done hk hrip =>
    refine Or.inr (Or.inr ⟨hrip, syscallExit σ c, ?_, hrunning, ?_⟩)
    · exact ⟨hrunning, c, t, hct, .sysRet ⟨hu, hk, hrip⟩⟩
    · simp [syscallExit, Regs.isUser, userCs]
  | resumed hk hrip =>
    have hat : σ.At c t b.resumed := ⟨hu, hk, hrip⟩
    refine Or.inr (Or.inl ⟨hrip, Sched.unwind b σ,
      ⟨hrunning, c, t, hct, .unwind hat⟩, ?_⟩)
    unfold Sched.unwind
    simp only []
    rw [if_pos (h.unwind_intact hcur ht hat).2]
    exact ⟨hrunning, rfl, rfl⟩

theorem Run.trans {ok : Cpu → CpuEvent → Prop} {σ0 : Cpu} {es es' : List Event}
    (h : Run b ok σ0 es σ) (h' : Run b ok σ es' σ') : Run b ok σ0 (es ++ es') σ' := by
  induction h' with
  | refl => simpa using h
  | tail _ hok hstep ih =>
    rw [← List.append_assoc]
    exact .tail ih hok hstep

theorem gone_step (hco : ∀ s ∈ m.sched, Coherent s) {e : Event} (hok : Spares m e)
    (h : Gone m c) : Gone (step m e) c := by
  refine ⟨zombie_step hco hok h.1, fun s' hs' hc' => ?_⟩
  obtain ⟨s, hs, _⟩ := h.1
  obtain ⟨d, hd, hlt, _⟩ := hco s hs
  have hdc : d ≠ c := fun hdc => h.2 s hs (hdc ▸ hd)
  obtain ⟨s1, hs1, hquiet | hres | ⟨n, hsel⟩⟩ := quiet_or_turned hs hd hlt e
  all_goals obtain rfl : s1 = s' := Option.some.inj (hs1.symm.trans hs')
  · exact hdc (Option.some.inj (hd.symm.trans (hquiet.current.symm.trans hc')))
  · exact hdc (Option.some.inj (hres.current.symm.trans hc'))
  · obtain rfl : n = c := Option.some.inj (hsel.current.symm.trans hc')
    exact zombie_not_selected hco h.1 (Selected.selects hs hs1 hsel)

theorem gone_events (hco : ∀ s ∈ m.sched, Coherent s) {es : List Event}
    (hok : ∀ pre e suf, es = pre ++ e :: suf → Spares (Sched.run m pre) e) (h : Gone m c) :
    Gone (Sched.run m es) c := by
  induction es generalizing m with
  | nil => exact h
  | cons e es ih =>
    refine ih (coherent_run hco [e]) (fun pre d suf hsplit => ?_)
      (gone_step hco (hok [] e es rfl) h)
    exact hok (e :: pre) d suf (by rw [hsplit]; rfl)

theorem gone_run {σ0 : Cpu} (hb : Booted b σ0) {es es' : List Event}
    (h : Run b (Contained b) σ0 es σ) (hgone : Gone σ.kernel c)
    (h' : Run b (Contained b) σ es' σ') : Gone σ'.kernel c := by
  induction h' with
  | refl => exact hgone
  | tail hrun hok hstep ih =>
    obtain ⟨⟨s, hs⟩, _⟩ := run_sound (fun _ _ => Contained.ownStack) hb (h.trans hrun)
    obtain ⟨_, d, u, hdu, hcpu⟩ := hstep
    obtain ⟨hcur, hu⟩ := (currentTask_eq hs.sched).mp hdu
    rw [hs.requests hcur hu hcpu]
    refine gone_events (fun s1 hs1 => ?_) hok.spares ih
    obtain rfl : s = s1 := Option.some.inj (hs.sched.symm.trans hs1)
    exact hs.coherent

/-- Between two dispatches of a task every other task that stays runnable is dispatched. -/
def TakesTurns (m : Machine) (es : List Event) : Prop :=
  ∀ pre e mid e' post i j, es = pre ++ e :: mid ++ e' :: post →
    Selects (Sched.run m pre) e i → Selects (Sched.run m (pre ++ e :: mid)) e' i → j ≠ i →
    (∀ p q, mid = p ++ q → Runnable (Sched.run m (pre ++ e :: p)) j) →
    ∃ p d q, mid = p ++ d :: q ∧ Selects (Sched.run m (pre ++ e :: p)) d j

theorem takesTurns (hco : ∀ s ∈ m.sched, Coherent s) (es : List Event) : TakesTurns m es := by
  intro pre e mid e' post i j _ hi hi' hne hstay
  simp only [run_append, run_cons] at hi' hstay ⊢
  have hstart : Runnable (step (Sched.run m pre) e) j := hstay [] mid rfl
  exact waits_run (waits_of_selects (coherent_run hco pre) hi hne hstart) mid e' hstay hi'

theorem Booted.coherent {σ0 : Cpu} (hb : Booted b σ0) : ∀ s ∈ σ0.kernel.sched, Coherent s := by
  obtain ⟨s, hs⟩ := sound_boot hb
  intro s1 hs1
  obtain rfl : s = s1 := Option.some.inj (hs.sched.symm.trans hs1)
  exact hs.coherent

theorem run_stopped {σ0 : Cpu} (hb : Booted b σ0) {es : List Event}
    (h : Run b (Contained b) σ0 es σ) : σ.stopped = false := by
  cases h with
  | refl => exact hb.stopped
  | tail hrun hok hstep =>
    obtain ⟨⟨s, hs⟩, _⟩ := run_sound (fun _ _ => Contained.ownStack) hb hrun
    exact hok.stopped hs hstep

/-- In every run whose steps meet the conditions user code never stops the machine: the tasks
take turns; user code changes the state of its own task and of the one that is dispatched; an
exception ends its task for good; and a system call goes on until it returns. -/
theorem user_code_contained {σ0 : Cpu} (hb : Booted b σ0) {es : List Event}
    (hrun : Run b (Contained b) σ0 es σ) :
    σ.stopped = false ∧ σ.kernel = Sched.run σ0.kernel es ∧ TakesTurns σ0.kernel es ∧
    (∀ e σ' c t, Contained b σ e → Step b σ e σ' → e.ofUser = true →
      σ.kernel.currentTask = some (c, t) → OthersKept σ.kernel σ'.kernel c) ∧
    (∀ vector clock σ' c t, Contained b σ (.raise vector clock) →
      Step b σ (.raise vector clock) σ' → σ.kernel.currentTask = some (c, t) →
      ∀ es' σ'', Run b (Contained b) σ' es' σ'' → Gone σ''.kernel c) ∧
    ∀ c t r, σ.kernel.currentTask = some (c, t) → t.isUser c = true → σ.called c = some r →
      CallGoesOn b σ := by
  obtain ⟨⟨s, hs⟩, hk⟩ := run_sound (fun _ _ => Contained.ownStack) hb hrun
  have hrunning := run_stopped hb hrun
  refine ⟨hrunning, hk, takesTurns hb.coherent es, ?_, ?_, ?_⟩
  · intro e σ' c t hok hstep he hct
    exact hok.others hs hstep hct he
  · intro vector clock σ' c t hok hstep hct es' σ'' hrun'
    exact gone_run hb (.tail hrun hok hstep) (hok.gone hs hstep hct) hrun'
  · intro c t r hct hu hr
    exact hs.callGoesOn hrunning hct hu hr

theorem spares_of_alive {e : Event} (h : ∀ s ∈ m.sched, ∀ c ∈ s.current, s.stateOf c ≠ some .zombie)
    (he : ∀ id ticks, e ≠ .sleep id ticks) : Spares m e := by
  refine fun s hs => ⟨fun _ hst => ?_, fun id ticks _ hsleep => absurd hsleep (he id ticks)⟩
  obtain ⟨c, hc, hz, _⟩ := hst
  exact h s hs c ((base_current e s).symm.trans hc) (zombie_of_base hz)

theorem contained_of_alive {e : CpuEvent} {d : Event} (hd : e.requests b σ = [d])
    (he : e.ofUser = false) (hsleep : ∀ id ticks, d ≠ .sleep id ticks)
    (h : ∀ s ∈ σ.kernel.sched, ∀ c ∈ s.current, s.stateOf c ≠ some .zombie) :
    Contained b σ e := by
  refine ⟨?_, ?_, ?_, fun pre d' suf hs => ?_⟩
  · rintro rfl
    simp [CpuEvent.ofUser] at he
  · rintro vector clock rfl
    simp [CpuEvent.ofUser] at he
  · rintro readable free clock rfl
    simp [CpuEvent.ofUser] at he
  · rw [hd] at hs
    cases pre with
    | nil =>
      obtain rfl : d = d' := by simpa using And.left (List.cons.inj hs)
      exact spares_of_alive h hsleep
    | cons x pre => simp at hs

theorem sampleUser_contained :
    ∃ es, Run sampleBuild (Contained sampleBuild) sampleBoot es sampleUser := by
  have halive : ∀ k < 8, ((Cpu.kernelTick^[k] sampleSpawn).kernel.sched.all fun s =>
      s.current.all fun c => s.stateOf c ≠ some .zombie) = true := by decide
  refine sampleUser_run ?_ fun k hk => ?_
  · refine contained_of_alive rfl rfl (by simp) fun s hs c hc => ?_
    cases hs
    cases hc
    decide
  · refine contained_of_alive rfl rfl (by simp) fun s hs c hc => ?_
    have hk' := halive k hk
    simp only [Option.all_eq_true] at hk'
    simpa using hk' s hs c hc

theorem sampleUser_ownId : OwnId sampleUser.kernel := by
  have hids : (sampleUser.kernel.sched.all fun s =>
      (List.range 2).all fun j => (s.madeOf j).all fun u => u.id ≠ 2) = true := by decide
  intro i t hct
  obtain ⟨rfl, rfl⟩ := Prod.mk.inj (Option.some.inj (sampleUser_task.symm.trans hct))
  refine ⟨by simp, fun s hs j hj u hu => ?_⟩
  simp only [Option.all_eq_true, List.all_eq_true, List.mem_range] at hids
  simpa using hids s hs j hj u hu

theorem sampleUser_fault : Contained sampleBuild sampleUser (.raise 13 ⟨0, 0⟩) := by
  have hkill : (idt 13).map Handler.fromUser = some .kill := by decide
  refine ⟨fun he => (by cases he), fun vector clock he => ?_, fun _ _ _ he => (by cases he),
    fun pre d suf hs => ?_⟩
  · obtain ⟨rfl, rfl⟩ := CpuEvent.raise.inj he
    exact ⟨hkill, sampleUser_ownId⟩
  · simp only [CpuEvent.requests, if_pos hkill] at hs
    rcases pre with _ | ⟨x, _ | ⟨y, pre⟩⟩
    · obtain rfl := (List.cons.inj hs).1
      exact fun s _ => ⟨fun he => (by cases he), fun _ _ _ he => by cases he⟩
    · obtain ⟨hx, hs⟩ := List.cons.inj hs
      obtain rfl := (List.cons.inj hs).1
      rw [← hx]
      have hready : ((Sched.run sampleUser.kernel
          [.exit ((currentTaskId sampleUser.kernel).getD 0)]).sched.all fun s =>
            s.stateOf 0 = some .ready) = true := by decide
      simp only [Option.all_eq_true, decide_eq_true_iff] at hready
      refine fun s hs => ⟨?_, fun _ _ _ he => by cases he⟩
      rintro _ ⟨_, _, _, hnone⟩
      exact hnone 0 (hready s hs)
    · simp at hs

/-- The general protection fault of a user task ends it. -/
theorem generalProtection_ends :
    Gone (exception sampleBuild sampleUser 13 ⟨0, 0⟩).kernel 2 := by
  obtain ⟨es, hrun⟩ := sampleUser_contained
  have hstep : Step sampleBuild sampleUser (.raise 13 ⟨0, 0⟩)
      (exception sampleBuild sampleUser 13 ⟨0, 0⟩) :=
    ⟨rfl, 2, _, sampleUser_task, .raise 13 ⟨0, 0⟩ sampleUser_state.2.2⟩
  obtain ⟨_, _, _, _, hgone, _⟩ := user_code_contained sampleBoot_booted hrun
  exact hgone 13 ⟨0, 0⟩ _ 2 _ sampleUser_fault hstep sampleUser_task [] _ .refl

/-- The divide error of a user task stops the machine. -/
theorem divideByZero_stops : ∃ es, Booted sampleBuild sampleBoot ∧
    Run sampleBuild (Contained sampleBuild) sampleBoot es sampleUser ∧
    Step sampleBuild sampleUser (.raise 0 ⟨0, 0⟩) (exception sampleBuild sampleUser 0 ⟨0, 0⟩) ∧
    (exception sampleBuild sampleUser 0 ⟨0, 0⟩).stopped = true := by
  obtain ⟨es, hrun⟩ := sampleUser_contained
  exact ⟨es, sampleBoot_booted, hrun,
    ⟨rfl, 2, _, sampleUser_task, .raise 0 ⟨0, 0⟩ sampleUser_state.2.2⟩, rfl⟩

end Vibra.Sched
