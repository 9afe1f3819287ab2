import Vibra.Sched.Stacks

/-! # Every step keeps the stacks

One lemma for each kind of step; a SYSCALL has to find its own task's kernel stack in the
per-CPU block.
-/

namespace Vibra.Sched

open Vibra.Lib

-- Memory is compared by name, not address by address.
attribute [local irreducible] Words.store

variable {b : Build} {σ : Cpu} {s : Scheduler} {c : Nat} {t : Made}

theorem savedOf_updateFirst (s : Scheduler) (p : Task → Bool) (f : Task → Task)
    (hf : ∀ t, (f t).savedRsp = t.savedRsp) (i : Nat) :
    (s.updateFirst p f).savedOf i = s.savedOf i := by
  rcases updateFirst_cases p f s.tasks with ⟨_, he⟩ | ⟨k, t, hk, _, he⟩
  · rw [show s.updateFirst p f = s from by simp [Scheduler.updateFirst, he]]
  · simp only [Scheduler.savedOf, Scheduler.updateFirst, he, List.getElem?_set]
    by_cases hki : k = i
    · subst hki
      rw [if_pos rfl, if_pos (List.getElem?_eq_some_iff.mp hk).1, hk, Option.map_some,
        Option.map_some, hf t]
    · simp [hki]

theorem length_updateFirst (s : Scheduler) (p : Task → Bool) (f : Task → Task) :
    (s.updateFirst p f).tasks.length = s.tasks.length := by
  rcases updateFirst_cases p f s.tasks with ⟨_, he⟩ | ⟨k, t, _, _, he⟩ <;>
    simp [Scheduler.updateFirst, he]

theorem same_updateFirst (s : Scheduler) (p : Task → Bool) (f : Task → Task)
    (hmade : ∀ t, (f t).made = t.made) (hsaved : ∀ t, (f t).savedRsp = t.savedRsp) :
    Same s (s.updateFirst p f) :=
  ⟨rfl, length_updateFirst s p f, madeOf_updateFirst s p f hmade,
    fun i _ => savedOf_updateFirst s p f hsaved i⟩

theorem same_advanceTick (s : Scheduler) : Same s (advanceTick s) :=
  ⟨rfl, advanceTick_length s, madeOf_advanceTick s, fun i _ => savedOf_advanceTick s i⟩

/-- A call of the scheduler that adds no task and does not switch. -/
structure Calls (m m' : Machine) (s s' : Scheduler) : Prop where
  sched : m'.sched = some s'
  same : Same s s'
  rsp0 : m'.rsp0 = m.rsp0
  perCpu : m'.perCpu = m.perCpu

theorem calls_exit {m : Machine} (hs : m.sched = some s) (id : Nat) :
    ∃ s', Calls m (exitTask m id) s s' := by
  by_cases h0 : id = 0
  · exact ⟨s, by simp [exitTask, h0, hs], Same.refl s, by simp [exitTask, h0],
      by simp [exitTask, h0]⟩
  · exact ⟨s.updateFirst (·.id = id) Task.exit, by simp [exitTask, h0, hs],
      same_updateFirst s _ Task.exit (fun _ => rfl) (fun _ => rfl), by simp [exitTask, h0],
      by simp [exitTask, h0]⟩

theorem calls_sleep {m : Machine} (hs : m.sched = some s) (id ticks : Nat) :
    ∃ s', Calls m (sleepTask m id ticks) s s' :=
  ⟨s.updateFirst (·.id = id) (Task.sleepUntil (wrap64 (s.tickCount + ticks))),
    by simp [sleepTask, hs], same_updateFirst s _ (Task.sleepUntil _) (fun _ => rfl)
      (fun _ => rfl), rfl, rfl⟩

theorem calls_wake {m : Machine} (hs : m.sched = some s) (id : Nat) :
    ∃ s', Calls m (wakeTask m id) s s' :=
  ⟨s.updateFirst (fun t => t.id = id ∧ t.state = .sleeping) Task.wake, by simp [wakeTask, hs],
    same_updateFirst s _ Task.wake (fun _ => rfl) (fun _ => rfl), rfl, rfl⟩

theorem calls_noteTick {m : Machine} (hs : m.sched = some s) (free : Bool) :
    ∃ s', Calls m (noteTick m free) s s' := by
  cases free with
  | false => exact ⟨s, by simp [noteTick, hs], Same.refl s, rfl, rfl⟩
  | true => exact ⟨advanceTick s, by simp [noteTick, hs], same_advanceTick s, rfl, rfl⟩

theorem Sound.coherent_of {m' : Machine} {s' : Scheduler} (h : Sound b σ s) (e : Event)
    (hm : m' = step σ.kernel e) (hs' : m'.sched = some s') : Coherent s' := by
  obtain ⟨s1, h1, h2⟩ := coherent_step h.sched h.coherent e
  rw [← hm, hs'] at h1
  exact Option.some.inj h1 ▸ h2

theorem Sound.calls {kernel' : Machine} {s' : Scheduler} (h : Sound b σ s) (e : Event)
    (hm : kernel' = step σ.kernel e) (hc : Calls σ.kernel kernel' s s') :
    Sound b { σ with kernel := kernel' } s' := by
  obtain ⟨c, hcur, hlt, _⟩ := h.coherent
  obtain ⟨t, ht⟩ := made_of_lt hlt
  exact h.stay hcur ht hc.sched hc.same
    (h.coherent_of e hm hc.sched) hc.rsp0 (Words.AgreeOff.refl _ _ _) (fun _ _ => rfl)
    (h.active c t hcur ht)

theorem Sound.inUser (h : Sound b σ s) (hcur : s.current = some c) (ht : s.madeOf c = some t)
    (hu : σ.regs.isUser = true) : t.isUser c = true ∧ σ.called c = none := by
  have hp := h.active c t hcur ht
  unfold Poised at hp
  by_cases huser : t.isUser c = true
  · rw [if_pos huser] at hp
    refine ⟨huser, ?_⟩
    cases hp with
    | user _ h2 => exact h2
    | dispatch h1 => simp [hu] at h1
    | done h1 => simp [hu] at h1
    | resumed h1 => simp [hu] at h1
    | killed h1 => simp [hu] at h1
  · rw [if_neg huser] at hp
    simp [hu] at hp

theorem poised_user {mem : Words} {called : Option Regs} {r : Regs} (hu : t.isUser c = true)
    (h : Stands b mem t.top called r) : Poised b mem c t called r := by
  unfold Poised
  rwa [if_pos hu]

theorem Sound.inside {mem' : Words} {regs' : Regs} {stopped' : Bool}
    {called' : Nat → Option Regs} (h : Sound b σ s) (hcur : s.current = some c)
    (ht : s.madeOf c = some t)
    (hmem : Words.AgreeOff (b.stack c t).1 (b.stack c t).2 σ.mem mem')
    (hcalled : ∀ i, i ≠ c → called' i = σ.called i) (hp : Poised b mem' c t (called' c) regs') :
    Sound b ⟨σ.kernel, mem', regs', stopped', called'⟩ s :=
  h.stay hcur ht h.sched (Same.refl s)
    h.coherent rfl hmem hcalled hp

theorem Sound.userStack (h : Sound b σ s) (hcur : s.current = some c) (ht : s.madeOf c = some t)
    (hu : t.isUser c = true) : σ.kernel.rsp0 = t.top ∧ t.top % 16 = 0 ∧ kernelStackSize ≤ t.top ∧
      contextBase σ.kernel.rsp0 = t.top - contextSize ∧
      b.stack c t = (t.top - kernelStackSize, t.top) := by
  obtain ⟨htop, hal, hge, _⟩ := h.kstacks.top_eq ht
  have hr : σ.kernel.rsp0 = t.top :=
    Option.some.inj ((h.rsp0 c t hcur ht hu).symm.trans htop)
  refine ⟨hr, hal, hge, ?_, stack_user hu⟩
  rw [hr, contextBase, Nat.div_mul_cancel (Nat.dvd_of_mod_eq_zero hal)]

theorem Sound.user (h : Sound b σ s) (hcur : s.current = some c) (ht : s.madeOf c = some t)
    (hu : σ.regs.isUser = true) {regs : Regs} (hr : regs.isUser = true) :
    Sound b { σ with regs := regs } s := by
  obtain ⟨huser, hnone⟩ := h.inUser hcur ht hu
  exact h.inside hcur ht (Words.AgreeOff.refl _ _ _) (fun _ _ => rfl)
    (poised_user huser (.user hr hnone))

theorem Sound.sysCall (h : Sound b σ s) (hcur : s.current = some c) (ht : s.madeOf c = some t)
    (hu : σ.regs.isUser = true) (hown : t.kstackTop = some σ.kernel.perCpu.kernelRsp) :
    Sound b (syscallEntry b σ c) s := by
  obtain ⟨huser, _⟩ := h.inUser hcur ht hu
  obtain ⟨_, _, hge, _, hstack⟩ := h.userStack hcur ht huser
  have htop : σ.kernel.perCpu.kernelRsp = t.top := by simp [Made.top, hown]
  unfold kernelStackSize at hge
  have h48 : t.top - 40 - 8 = t.top - 48 := by omega
  unfold syscallEntry
  simp only [htop, h48]
  refine h.inside hcur ht ?_ (fun i hi => Function.update_of_ne hi _ _) ?_
  · rw [hstack]
    refine Words.store_agreeOff σ.mem _ ?_ ?_ <;>
      simp only [kernelStackSize, List.length_cons, List.length_nil] <;> omega
  · rw [Function.update_self]
    refine poised_user huser (.dispatch (by simp [Regs.isUser, kernelCs]) rfl rfl rfl
      ⟨σ.regs, rfl, ?_, ?_, ?_⟩)
    · exact Words.store_at σ.mem (t.top - 48) _ (k := 0) (by simp)
    · have hat := Words.store_at σ.mem (t.top - 48)
        [b.done, σ.regs.rdi, σ.regs.rsi, σ.regs.rdx, σ.regs.rip, σ.regs.rflags] (k := 4) (by simp)
      rwa [show t.top - 48 + 8 * 4 = t.top - 16 from by omega] at hat
    · have hat := Words.store_at σ.mem (t.top - 48)
        [b.done, σ.regs.rdi, σ.regs.rsi, σ.regs.rdx, σ.regs.rip, σ.regs.rflags] (k := 5) (by simp)
      rwa [show t.top - 48 + 8 * 5 = t.top - 8 from by omega] at hat

/-! ## In a system call -/

theorem stands_of_at {i : Nat} {place : Nat} (h : Sound b σ s) (hcur : s.current = some i)
    (ht : s.madeOf i = some t) (hat : σ.At i t place) :
    t.isUser i = true ∧ Stands b σ.mem t.top (σ.called i) σ.regs := by
  have hp := h.active i t hcur ht
  unfold Poised at hp
  rw [if_pos hat.1] at hp
  exact ⟨hat.1, hp⟩

theorem build_distinct (b : Build) : b.dispatch ≠ b.done ∧ b.dispatch ≠ b.resumed ∧
    b.dispatch ≠ b.killed ∧ b.done ≠ b.resumed ∧ b.done ≠ b.killed ∧ b.resumed ≠ b.killed := by
  have h := b.distinct
  simp only [List.nodup_cons, List.mem_cons, List.not_mem_nil, or_false, not_or] at h
  exact ⟨h.1.1, h.1.2.1, h.1.2.2, h.2.1.1, h.2.1.2, h.2.2.1⟩

theorem Sound.atDispatch (h : Sound b σ s) (hcur : s.current = some c)
    (ht : s.madeOf c = some t) (hat : σ.At c t b.dispatch) :
    σ.regs.rsp = t.top - 48 ∧ σ.regs.rsi = t.top - 40 ∧ InCall b σ.mem t.top (σ.called c) := by
  obtain ⟨_, hst⟩ := stands_of_at h hcur ht hat
  obtain ⟨_, hk, hr⟩ := hat
  obtain ⟨h1, h2, h3, _⟩ := build_distinct b
  cases hst with
  | user hu => simp [hk] at hu
  | dispatch _ _ h6 h7 h8 => exact ⟨h6, h7, h8⟩
  | done _ h5 => exact absurd (hr.symm.trans h5) h1
  | resumed _ h5 => exact absurd (hr.symm.trans h5) h2
  | killed _ h5 => exact absurd (hr.symm.trans h5) h3

theorem Sound.atDone (h : Sound b σ s) (hcur : s.current = some c)
    (ht : s.madeOf c = some t) (hat : σ.At c t b.done) :
    σ.regs.rsp = t.top - 40 ∧ InCall b σ.mem t.top (σ.called c) := by
  obtain ⟨_, hst⟩ := stands_of_at h hcur ht hat
  obtain ⟨_, hk, hr⟩ := hat
  obtain ⟨h1, _, _, h2, h3, _⟩ := build_distinct b
  cases hst with
  | user hu => simp [hk] at hu
  | dispatch _ h5 => exact absurd (h5.symm.trans hr) h1
  | done _ _ h6 h7 => exact ⟨h6, h7⟩
  | resumed _ h5 => exact absurd (hr.symm.trans h5) h2
  | killed _ h5 => exact absurd (hr.symm.trans h5) h3

theorem Sound.atResumed (h : Sound b σ s) (hcur : s.current = some c)
    (ht : s.madeOf c = some t) (hat : σ.At c t b.resumed) :
    σ.regs.rsp = t.top - 40 - b.yieldDepth ∧ InCall b σ.mem t.top (σ.called c) := by
  obtain ⟨_, hst⟩ := stands_of_at h hcur ht hat
  obtain ⟨_, hk, hr⟩ := hat
  obtain ⟨_, h1, _, h2, _, h3⟩ := build_distinct b
  cases hst with
  | user hu => simp [hk] at hu
  | dispatch _ h5 => exact absurd (h5.symm.trans hr) h1
  | done _ h5 => exact absurd (h5.symm.trans hr) h2
  | resumed _ _ h6 h7 => exact ⟨h6, h7⟩
  | killed _ h5 => exact absurd (hr.symm.trans h5) h3

theorem Sound.atKilled (h : Sound b σ s) (hcur : s.current = some c)
    (ht : s.madeOf c = some t) (hat : σ.At c t b.killed) :
    σ.regs.rsp = t.top - contextSize - b.killDepth ∧
      (Regs.load σ.mem (t.top - contextSize)).isUser = true ∧ σ.called c = none := by
  obtain ⟨_, hst⟩ := stands_of_at h hcur ht hat
  obtain ⟨_, hk, hr⟩ := hat
  obtain ⟨_, _, h1, _, h2, h3⟩ := build_distinct b
  cases hst with
  | user hu => simp [hk] at hu
  | dispatch _ h5 => exact absurd (h5.symm.trans hr) h1
  | done _ h5 => exact absurd (h5.symm.trans hr) h2
  | resumed _ h5 => exact absurd (h5.symm.trans hr) h3
  | killed _ _ h6 h7 h8 => exact ⟨h6, h7, h8⟩

theorem Sound.ret (h : Sound b σ s) (hcur : s.current = some c) (ht : s.madeOf c = some t)
    (hat : σ.At c t b.dispatch) (value : Nat) : Sound b (σ.ret b value) s := by
  obtain ⟨hrsp, _, hcall⟩ := h.atDispatch hcur ht hat
  obtain ⟨_, _, hge, _, _⟩ := h.userStack hcur ht hat.1
  unfold kernelStackSize at hge
  refine h.inside hcur ht (Words.AgreeOff.refl _ _ _) (fun _ _ => rfl)
    (poised_user hat.1 (.done hat.2.1 rfl ?_ hcall))
  show σ.regs.rsp + 8 = t.top - 40
  omega

theorem Sound.dispatchYield (h : Sound b σ s) (hcur : s.current = some c) (ht : s.madeOf c = some t)
    (hat : σ.At c t b.dispatch) (free : Bool) (clock : Clock) :
    ∃ s', Sound b (σ.interrupt (contextBase (σ.regs.rsi - b.yieldDepth))
      { σ.regs with rip := b.resumed, rsp := σ.regs.rsi - b.yieldDepth }
      (softirqHandler · free · clock)) s' := by
  obtain ⟨_, hrsi, hcall⟩ := h.atDispatch hcur ht hat
  obtain ⟨_, _, hge, _, hstack⟩ := h.userStack hcur ht hat.1
  have h8 := b.yieldDepth_ge
  have hle := b.yieldDepth_le
  unfold kernelStackSize at hge hle
  have hbase : contextBase (t.top - 40 - b.yieldDepth) + contextSize ≤ t.top - 48 ∧
      t.top - kernelStackSize ≤ contextBase (t.top - 40 - b.yieldDepth) := by
    unfold contextBase contextSize kernelStackSize
    omega
  obtain ⟨s', n, hh⟩ := yield_handled h.sched hcur (lt_of_made ht) h.kstacks free
    (contextBase (σ.regs.rsi - b.yieldDepth)) clock
  refine ⟨s', h.interrupt hcur ht ?_ ?_ ?_ hh (h.coherent_of (.yield free _ clock) rfl hh.sched)⟩
  · rw [hstack, hrsi]
    exact hbase.2
  · rw [hstack, hrsi]
    have := hbase.1
    simp only []
    omega
  · refine poised_user hat.1 (.resumed hat.2.1 rfl (by rw [hrsi]) ?_)
    refine hcall.congr hge fun a h1 _ => Words.store_outside σ.mem _ _ (Or.inr ?_)
    rw [hrsi, Regs.words_length]
    have := hbase.1
    unfold contextSize at this
    omega

theorem Sound.stop (h : Sound b σ s) : Sound b { σ with stopped := true } s := by
  obtain ⟨c, hcur, hlt, _⟩ := h.coherent
  obtain ⟨t, ht⟩ := made_of_lt hlt
  exact h.inside hcur ht (Words.AgreeOff.refl _ _ _) (fun _ _ => rfl) (h.active c t hcur ht)

theorem Sound.dispatch (h : Sound b σ s) (hcur : s.current = some c) (ht : s.madeOf c = some t)
    (hat : σ.At c t b.dispatch) (readable : Nat → Bool) (free : Bool) (clock : Clock) :
    ∃ s', Sound b (syscallDispatch b σ readable free clock) s' := by
  unfold syscallDispatch
  simp only []
  by_cases hw : σ.regs.rdi = sysWrite
  · rw [if_pos hw]
    by_cases hr : writeRefused (σ.mem (σ.regs.rsi + 8)) (σ.mem (σ.regs.rsi + 16))
    · rw [if_pos hr]
      exact ⟨s, h.ret hcur ht hat _⟩
    rw [if_neg hr]
    by_cases hf : writeFaults readable (σ.mem (σ.regs.rsi + 8)) (σ.mem (σ.regs.rsi + 16))
    · rw [if_pos hf]
      exact ⟨s, h.stop⟩
    · rw [if_neg hf]
      exact ⟨s, h.ret hcur ht hat _⟩
  rw [if_neg hw]
  by_cases he : σ.regs.rdi = sysExit
  · rw [if_pos he]
    obtain ⟨s', hc⟩ := calls_exit h.sched ((currentTaskId σ.kernel).getD 0)
    have h' := h.calls (.exit ((currentTaskId σ.kernel).getD 0)) rfl hc
    exact ⟨s', h'.ret (hc.same.current.trans hcur) ((hc.same.made c).trans ht) hat 0⟩
  rw [if_neg he]
  by_cases hy : σ.regs.rdi = Sched.sysYield
  · rw [if_pos hy]
    exact h.dispatchYield hcur ht hat free clock
  · rw [if_neg hy]
    exact ⟨s, h.ret hcur ht hat _⟩

theorem Sound.unwind_intact (h : Sound b σ s) (hcur : s.current = some c)
    (ht : s.madeOf c = some t) (hat : σ.At c t b.resumed) :
    σ.regs.rsp + b.yieldDepth = t.top - 40 ∧
      σ.mem (σ.regs.rsp + b.yieldDepth - 8) = b.done := by
  obtain ⟨hrsp, r, _, hdone, _⟩ := h.atResumed hcur ht hat
  obtain ⟨_, _, hge, _, _⟩ := h.userStack hcur ht hat.1
  have hle := b.yieldDepth_le
  unfold kernelStackSize at hge hle
  have hframe : σ.regs.rsp + b.yieldDepth = t.top - 40 := by omega
  refine ⟨hframe, ?_⟩
  rw [hframe, show t.top - 40 - 8 = t.top - 48 from by omega, hdone]

theorem Sound.unwind (h : Sound b σ s) (hcur : s.current = some c) (ht : s.madeOf c = some t)
    (hat : σ.At c t b.resumed) : Sound b (unwind b σ) s := by
  obtain ⟨hframe, hdone⟩ := h.unwind_intact hcur ht hat
  obtain ⟨_, hcall⟩ := h.atResumed hcur ht hat
  unfold Sched.unwind
  simp only []
  rw [if_pos hdone]
  exact h.inside hcur ht (Words.AgreeOff.refl _ _ _) (fun _ _ => rfl)
    (poised_user hat.1 (.done hat.2.1 rfl hframe hcall))

theorem Sound.sysRet (h : Sound b σ s) (hcur : s.current = some c) (ht : s.madeOf c = some t)
    (hat : σ.At c t b.done) : Sound b (syscallExit σ c) s := by
  unfold syscallExit
  refine h.inside hcur ht (Words.AgreeOff.refl _ _ _) (fun i hi => Function.update_of_ne hi _ _) ?_
  exact poised_user hat.1 (.user (by simp [Regs.isUser, userCs]) (Function.update_self _ _ _))

theorem Sound.saveUser (h : Sound b σ s) (hcur : s.current = some c) (ht : s.madeOf c = some t)
    (hu : σ.regs.isUser = true) :
    Sound b { σ with mem := σ.mem.store (contextBase σ.kernel.rsp0) σ.regs.words } s := by
  obtain ⟨huser, hnone⟩ := h.inUser hcur ht hu
  obtain ⟨_, _, hge, hbase, hstack⟩ := h.userStack hcur ht huser
  refine h.inside hcur ht ?_ (fun _ _ => rfl) (poised_user huser (.user hu hnone))
  rw [hbase, hstack]
  refine Words.store_agreeOff σ.mem _ ?_ ?_ <;>
    simp only [kernelStackSize, contextSize, Regs.words_length] at hge ⊢ <;> omega

theorem Sound.kill (h : Sound b σ s) (hcur : s.current = some c) (ht : s.madeOf c = some t)
    (hu : σ.regs.isUser = true)
    (hsaved : Regs.load σ.mem (contextBase σ.kernel.rsp0) = σ.regs) (clock : Clock) :
    ∃ s', Sound b (killCurrentAndYield b σ (contextBase σ.kernel.rsp0) clock) s' := by
  obtain ⟨huser, hnone⟩ := h.inUser hcur ht hu
  obtain ⟨_, _, hge, hbase, hstack⟩ := h.userStack hcur ht huser
  have hle := b.killDepth_le
  unfold kernelStackSize at hge hle
  obtain ⟨s1, hcalls⟩ := calls_exit h.sched ((currentTaskId σ.kernel).getD 0)
  have h1 := h.calls (.exit ((currentTaskId σ.kernel).getD 0)) rfl hcalls
  have hcur1 : s1.current = some c := hcalls.same.current.trans hcur
  have ht1 : s1.madeOf c = some t := (hcalls.same.made c).trans ht
  have hroom : contextBase (t.top - contextSize - b.killDepth) + contextSize ≤
      t.top - contextSize ∧
      t.top - kernelStackSize ≤ contextBase (t.top - contextSize - b.killDepth) := by
    unfold contextBase contextSize kernelStackSize
    omega
  unfold killCurrentAndYield
  simp only [hbase]
  obtain ⟨s', n, hh⟩ := yield_handled h1.sched hcur1 (lt_of_made ht1) h1.kstacks true
    (contextBase (t.top - contextSize - b.killDepth)) clock
  refine ⟨s', h1.interrupt hcur1 ht1 ?_ ?_ ?_ hh
    (h1.coherent_of (.yield true _ clock) rfl hh.sched)⟩
  · rw [hstack]
    exact hroom.2
  · rw [hstack]
    have := hroom.1
    simp only []
    omega
  · refine poised_user huser (.killed (by simp [Regs.isUser, kernelCs]) rfl rfl ?_ hnone)
    rw [Regs.load_congr fun a h2 _ => Words.store_outside σ.mem _ _ (Or.inr ?_), ← hbase, hsaved]
    · exact hu
    · rw [Regs.words_length]
      have := hroom.1
      unfold contextSize at this h2 ⊢
      omega

theorem exception_kill {vector : Nat} (h : (idt vector).map Handler.fromUser = some .kill)
    (clock : Clock) : exception b σ vector clock = killCurrentAndYield b
      { σ with mem := σ.mem.store (contextBase σ.kernel.rsp0) σ.regs.words }
      (contextBase σ.kernel.rsp0) clock := by
  simp only [exception, h]

theorem exception_resume {vector : Nat} (h : (idt vector).map Handler.fromUser = some .resume)
    (clock : Clock) : exception b σ vector clock =
      { σ with mem := σ.mem.store (contextBase σ.kernel.rsp0) σ.regs.words } := by
  simp only [exception, h]

theorem exception_halt {vector : Nat} (h : (idt vector).map Handler.fromUser ≠ some .kill)
    (h' : (idt vector).map Handler.fromUser ≠ some .resume) (clock : Clock) :
    exception b σ vector clock =
      { σ with mem := σ.mem.store (contextBase σ.kernel.rsp0) σ.regs.words, stopped := true } := by
  unfold exception
  split
  · next he => exact absurd he h
  · next he => exact absurd he h'
  · rfl

theorem Sound.raise (h : Sound b σ s) (hcur : s.current = some c) (ht : s.madeOf c = some t)
    (hu : σ.regs.isUser = true) (vector : Nat) (clock : Clock) :
    ∃ s', Sound b (exception b σ vector clock) s' := by
  have hsaved := h.saveUser hcur ht hu
  have hload := Regs.load_store σ.mem (contextBase σ.kernel.rsp0) σ.regs
  by_cases hk : (idt vector).map Handler.fromUser = some .kill
  · rw [exception_kill hk]
    exact hsaved.kill hcur ht hu hload clock
  by_cases hr : (idt vector).map Handler.fromUser = some .resume
  · rw [exception_resume hr]
    exact ⟨s, hsaved⟩
  · rw [exception_halt hk hr]
    exact ⟨s, hsaved.stop⟩

theorem Sound.killReturn (h : Sound b σ s) (hcur : s.current = some c) (ht : s.madeOf c = some t)
    (hat : σ.At c t b.killed) : Sound b (killReturn b σ) s := by
  obtain ⟨hrsp, hload, hnone⟩ := h.atKilled hcur ht hat
  obtain ⟨_, _, hge, _, _⟩ := h.userStack hcur ht hat.1
  have hle := b.killDepth_le
  have hframe : σ.regs.rsp + b.killDepth = t.top - contextSize := by
    unfold kernelStackSize at hge hle
    unfold contextSize at hrsp ⊢
    omega
  unfold Sched.killReturn
  rw [hframe]
  exact h.inside hcur ht (Words.AgreeOff.refl _ _ _) (fun _ _ => rfl)
    (poised_user hat.1 (.user hload hnone))

theorem Sound.tickUser (h : Sound b σ s) (hcur : s.current = some c) (ht : s.madeOf c = some t)
    (hu : σ.regs.isUser = true) (free : Bool) (clock : Clock) :
    ∃ s', Sound b (σ.interrupt (contextBase σ.kernel.rsp0) σ.regs
      (tickAndSwitch · free · clock)) s' := by
  obtain ⟨huser, hnone⟩ := h.inUser hcur ht hu
  obtain ⟨_, _, hge, hbase, hstack⟩ := h.userStack hcur ht huser
  obtain ⟨s', n, hh⟩ := tick_handled h.sched hcur (lt_of_made ht) h.kstacks free
    (contextBase σ.kernel.rsp0) clock
  refine ⟨s', h.interrupt hcur ht ?_ ?_ (poised_user huser (.user hu hnone)) hh
    (h.coherent_of (.tick free _ clock) rfl hh.sched)⟩ <;>
  · rw [hbase, hstack]
    unfold kernelStackSize at hge ⊢
    unfold contextSize
    simp only []
    omega

theorem Sound.inKernel (h : Sound b σ s) (hcur : s.current = some c) (ht : s.madeOf c = some t)
    (hk : t.isUser c = false) : σ.regs.isUser = false ∧ (b.stack c t).1 ≤ σ.regs.rsp ∧
      σ.regs.rsp ≤ (b.stack c t).2 := by
  have hp := h.active c t hcur ht
  unfold Poised at hp
  rwa [if_neg (by simp [hk])] at hp

theorem poised_kernel {mem : Words} {called : Option Regs} {r : Regs} (hk : t.isUser c = false)
    (h : r.isUser = false ∧ (b.stack c t).1 ≤ r.rsp ∧ r.rsp ≤ (b.stack c t).2) :
    Poised b mem c t called r := by
  unfold Poised
  rwa [if_neg (by simp [hk])]

theorem Sound.kernelInterrupt (h : Sound b σ s) (hcur : s.current = some c)
    (ht : s.madeOf c = some t) (hk : t.isUser c = false) (hroom : σ.Room b c t)
    {handler : Machine → Nat → Machine × Nat} {s' : Scheduler} {n : Nat}
    (hh : Handled σ.kernel s c (contextBase σ.regs.rsp)
      (handler σ.kernel (contextBase σ.regs.rsp)) s' n) (hco : Coherent s') :
    Sound b (σ.interrupt (contextBase σ.regs.rsp) σ.regs handler) s' := by
  obtain ⟨hr, hlo, hhi⟩ := h.inKernel hcur ht hk
  unfold Cpu.Room at hroom
  refine h.interrupt hcur ht ?_ ?_ (poised_kernel hk ⟨hr, hlo, hhi⟩) hh hco <;>
  · unfold contextBase
    unfold contextSize at hroom ⊢
    omega

theorem Sound.kernel (h : Sound b σ s) (hcur : s.current = some c) (ht : s.madeOf c = some t)
    (hk : t.isUser c = false) {regs : Regs} {mem : Words} (hr : regs.isUser = false)
    (hlo : (b.stack c t).1 ≤ regs.rsp) (hhi : regs.rsp ≤ (b.stack c t).2)
    (hmem : Words.AgreeOff (b.stack c t).1 (b.stack c t).2 σ.mem mem) :
    Sound b { σ with regs := regs, mem := mem } s :=
  h.inside hcur ht hmem (fun _ _ => rfl) (poised_kernel hk ⟨hr, hlo, hhi⟩)

/-! ## New tasks -/

theorem madeOf_push_self (s : Scheduler) (task : Nat → Task) :
    (s.push task).madeOf s.tasks.length = some (task s.nextId).made := by
  simp [Scheduler.madeOf, Scheduler.push]

theorem madeOf_push_cases {task : Nat → Task} {i : Nat}
    (h : (s.push task).madeOf i = some t) :
    i < s.tasks.length ∧ s.madeOf i = some t ∨
      i = s.tasks.length ∧ t = (task s.nextId).made := by
  have hlt := lt_of_made h
  have hlen : (s.push task).tasks.length = s.tasks.length + 1 := by simp [Scheduler.push]
  by_cases hi : i < s.tasks.length
  · exact Or.inl ⟨hi, (madeOf_push s task hi).symm.trans h⟩
  · have he : i = s.tasks.length := by omega
    rw [he, madeOf_push_self] at h
    exact Or.inr ⟨he, (Option.some.inj h).symm⟩

theorem savedOf_push (task : Nat → Task) {i : Nat} (h : i < s.tasks.length) :
    (s.push task).savedOf i = s.savedOf i := by
  simp only [Scheduler.savedOf, Scheduler.push]
  rw [List.getElem?_append_left h]

theorem savedOf_push_self (s : Scheduler) (task : Nat → Task) :
    (s.push task).savedOf s.tasks.length = some (task s.nextId).savedRsp := by
  simp [Scheduler.savedOf, Scheduler.push]

theorem FreshStack.apart {m : Machine} {top : Nat} (h : FreshStack b m top)
    (hs : m.sched = some s) {i : Nat} (hk : Stacks b s) (ht : s.madeOf i = some t) :
    top + kernelStackSize ≤ t.top ∨ t.top + kernelStackSize ≤ top := by
  obtain ⟨_, _, _, hap⟩ := h
  obtain ⟨u, hu, rfl⟩ := madeOf_eq_some.mp ht
  exact hap s hs u (List.mem_of_getElem? hu) _ (hk.top_eq ht).1

theorem FreshStack.disjoint {m : Machine} {top : Nat} (h : FreshStack b m top)
    (hs : m.sched = some s) {i : Nat} (hk : Stacks b s) (ht : s.madeOf i = some t) :
    top ≤ (b.stack i t).1 ∨ (b.stack i t).2 ≤ top - kernelStackSize := by
  have hap := h.apart hs hk ht
  obtain ⟨_, hge, hboot, _⟩ := h
  have hge' := (hk.top_eq ht).2.2.1
  unfold Build.stack
  by_cases hi : i = 0
  · simp only [if_pos hi]
    omega
  · simp only [if_neg hi]
    omega

theorem Stacks.push {m : Machine} (hk : Stacks b s) (hs : m.sched = some s) {top : Nat}
    (hfresh : FreshStack b m top) {task : Nat → Task}
    (htop : (task s.nextId).kstackTop = some top) : Stacks b (s.push task) := by
  have hnew : ((task s.nextId).made).top = top := by
    show (task s.nextId).kstackTop.getD 0 = top
    rw [htop]
    rfl
  constructor
  · intro i t ht
    rcases madeOf_push_cases ht with ⟨_, ht⟩ | ⟨_, rfl⟩
    · exact hk.top i t ht
    · exact ⟨top, htop, hfresh.1, hfresh.2.1, hfresh.2.2.1⟩
  · intro i j t u ht hu hne
    rcases madeOf_push_cases ht with ⟨_, ht⟩ | ⟨hi, rfl⟩
    · rcases madeOf_push_cases hu with ⟨_, hu⟩ | ⟨_, rfl⟩
      · exact hk.apart i j t u ht hu hne
      · rw [hnew]
        exact (hfresh.apart hs hk ht).symm
    · rcases madeOf_push_cases hu with ⟨_, hu⟩ | ⟨hj, _⟩
      · rw [hnew]
        exact hfresh.apart hs hk hu
      · exact absurd (hi.trans hj.symm) hne

theorem Sound.push (h : Sound b σ s) {top : Nat} (hfresh : FreshStack b σ.kernel top)
    {task : Nat → Task} {r : Regs} (htop : (task s.nextId).kstackTop = some top)
    (hsaved : (task s.nextId).savedRsp = top - contextSize)
    (hpoised : ∀ mem, Poised b mem s.tasks.length (task s.nextId).made none r)
    {kernel' : Machine} (hsched : kernel'.sched = some (s.push task))
    (hrsp0 : kernel'.rsp0 = σ.kernel.rsp0) (hco : Coherent (s.push task)) :
    Sound b { σ with kernel := kernel', mem := σ.mem.store (top - contextSize) r.words }
      (s.push task) := by
  obtain ⟨c, hcur, hc, _⟩ := h.coherent
  have hge := hfresh.2.1
  have hmem : ∀ i u, s.madeOf i = some u → ∀ a, (b.stack i u).1 ≤ a → a < (b.stack i u).2 →
      σ.mem.store (top - contextSize) r.words a = σ.mem a := by
    intro i u hu a h1 h2
    have hd := hfresh.disjoint h.sched h.kstacks hu
    refine Words.store_outside σ.mem _ _ ?_
    rw [Regs.words_length]
    unfold kernelStackSize at hge hd
    unfold contextSize
    omega
  have hold : ∀ i u, i < s.tasks.length → (s.push task).madeOf i = some u →
      s.madeOf i = some u := fun i u hi hu => (madeOf_push s task hi).symm.trans hu
  refine ⟨hsched, hco, h.kstacks.push h.sched hfresh htop, ?_, ?_, ?_, ?_⟩
  · intro d u hd hu huser
    obtain rfl : c = d := Option.some.inj (hcur.symm.trans hd)
    show u.kstackTop = some kernel'.rsp0
    rw [hrsp0]
    exact h.rsp0 c u hcur (hold c u hc hu) huser
  · intro d u hd hu
    obtain rfl : c = d := Option.some.inj (hcur.symm.trans hd)
    have hu' := hold c u hc hu
    exact (h.active c u hcur hu').congr (h.kstacks.top_eq hu').2.2.1 (hmem c u hu')
  · intro i u base hu hi hbase
    rcases madeOf_push_cases hu with ⟨hlt, hu'⟩ | ⟨rfl, rfl⟩
    · rw [savedOf_push task hlt] at hbase
      exact (h.parked i u base hu' hi hbase).congr (h.kstacks.top_eq hu').2.2.1 (hmem i u hu')
    · rw [savedOf_push_self, hsaved] at hbase
      obtain rfl := Option.some.inj hbase
      have hstack : b.stack s.tasks.length (task s.nextId).made = (top - kernelStackSize, top) := by
        have h0 : s.tasks.length ≠ 0 := by omega
        have hnew : ((task s.nextId).made).top = top := by
          show (task s.nextId).kstackTop.getD 0 = top
          rw [htop]
          rfl
        rw [Build.stack, if_neg h0, hnew]
      unfold kernelStackSize at hge
      refine ⟨?_, ?_, ?_⟩
      · rw [hstack]
        unfold contextSize kernelStackSize
        simp only []
        omega
      · rw [hstack]
        unfold contextSize
        simp only []
        omega
      · show Poised b _ _ _ (σ.called s.tasks.length) (Regs.load (σ.mem.store _ r.words) _)
        rw [h.uncalled _ le_rfl, Regs.load_store]
        exact hpoised _
  · intro i hi
    refine h.uncalled i ?_
    have hlen : (s.push task).tasks.length = s.tasks.length + 1 := by simp [Scheduler.push]
    omega

theorem Sound.spawn (h : Sound b σ s) {top : Nat} (hfresh : FreshStack b σ.kernel top)
    (name : String) (entry : Nat) (priority : Priority) :
    ∃ s', Sound b { σ with
      kernel := Sched.spawn σ.kernel name entry priority (some top)
      mem := σ.mem.store (top - contextSize) (kernelContext top entry).words } s' := by
  have hsched : (Sched.spawn σ.kernel name entry priority (some top)).sched =
      some (s.push fun id => freshTask id name priority (some entry) top 0) := by
    simp [Sched.spawn, h.sched]
  refine ⟨_, h.push hfresh (by rfl) (by rfl) (fun mem => ?_) hsched (by simp [Sched.spawn, h.sched])
    (h.coherent_of (.spawn name entry priority (some top)) rfl hsched)⟩
  obtain ⟨c, _, hc, _⟩ := h.coherent
  have h0 : s.tasks.length ≠ 0 := by omega
  refine poised_kernel (by simp [Made.isUser, Task.made, freshTask])
    ⟨by simp [Regs.isUser, kernelContext, kernelCs], ?_, ?_⟩
  all_goals
    rw [Build.stack, if_neg h0]
    simp [kernelContext, Made.top, Task.made, freshTask]

theorem Sound.spawnUser (h : Sound b σ s) {top : Nat} (hfresh : FreshStack b σ.kernel top)
    (name : String) (stackTop code : Nat) :
    ∃ s', Sound b { σ with
      kernel := spawnUserProcess σ.kernel name top stackTop
      mem := σ.mem.store (top - contextSize) (userContext code stackTop).words } s' := by
  have hsched : (spawnUserProcess σ.kernel name top stackTop).sched =
      some (s.push fun id => freshTask id name .normal none top stackTop) := by
    simp [spawnUserProcess, h.sched]
  refine ⟨_, h.push hfresh (by rfl) (by rfl) (fun mem => ?_) hsched (by simp [spawnUserProcess, h.sched])
    (h.coherent_of (.spawnUser name top stackTop) rfl hsched)⟩
  obtain ⟨c, _, hc, _⟩ := h.coherent
  have h0 : s.tasks.length ≠ 0 := by omega
  exact poised_user (by simp [Made.isUser, Task.made, freshTask, h0])
    (.user (by simp [Regs.isUser, userContext, userCs]) rfl)

theorem currentTask_eq {m : Machine} (hs : m.sched = some s) {i : Nat} :
    m.currentTask = some (i, t) ↔ s.current = some i ∧ s.madeOf i = some t := by
  unfold Machine.currentTask Scheduler.madeOf
  rw [hs]
  cases hc : s.current with
  | none => simp [hc]
  | some d =>
    cases hd : s.tasks[d]? with
    | none =>
      simp only [Option.bind_eq_bind, Option.bind_some, hc, hd, Option.bind_none]
      constructor
      · simp
      · rintro ⟨h1, h2⟩
        obtain rfl := Option.some.inj h1
        simp [hd] at h2
    | some u =>
      simp only [Option.bind_eq_bind, Option.bind_some, hc, hd]
      constructor
      · intro h
        cases h
        simp [hd]
      · rintro ⟨h1, h2⟩
        obtain rfl := Option.some.inj h1
        simp only [hd, Option.map_some, Option.some.injEq] at h2
        subst h2
        rfl

def OwnStack (σ : Cpu) (e : CpuEvent) : Prop :=
  e = .sysCall → ∀ i t, σ.kernel.currentTask = some (i, t) →
    t.kstackTop = some σ.kernel.perCpu.kernelRsp

theorem Sound.step {σ' : Cpu} (h : Sound b σ s) {e : CpuEvent} (hstep : Step b σ e σ')
    (hown : OwnStack σ e) : ∃ s', Sound b σ' s' := by
  obtain ⟨_, c, t, hct, hstep⟩ := hstep
  obtain ⟨hcur, ht⟩ := (currentTask_eq h.sched).mp hct
  cases hstep with
  | user regs hu hr => exact ⟨s, h.user hcur ht hu hr⟩
  | sysCall hu => exact ⟨s, h.sysCall hcur ht hu (hown rfl c t hct)⟩
  | dispatch readable free clock hat => exact h.dispatch hcur ht hat readable free clock
  | unwind hat => exact ⟨s, h.unwind hcur ht hat⟩
  | sysRet hat => exact ⟨s, h.sysRet hcur ht hat⟩
  | raise vector clock hu => exact h.raise hcur ht hu vector clock
  | killReturn hat => exact ⟨s, h.killReturn hcur ht hat⟩
  | tickUser free clock hu => exact h.tickUser hcur ht hu free clock
  | tickKernel free clock hk hroom =>
    obtain ⟨s', n, hh⟩ := tick_handled h.sched hcur (lt_of_made ht) h.kstacks free
      (contextBase σ.regs.rsp) clock
    exact ⟨s', h.kernelInterrupt hcur ht hk hroom hh
      (h.coherent_of (.tick free _ clock) rfl hh.sched)⟩
  | kernel regs mem hk hr hlo hhi hmem => exact ⟨s, h.kernel hcur ht hk hr hlo hhi hmem⟩
  | yield free clock hk hroom =>
    obtain ⟨s', n, hh⟩ := yield_handled h.sched hcur (lt_of_made ht) h.kstacks free
      (contextBase σ.regs.rsp) clock
    exact ⟨s', h.kernelInterrupt hcur ht hk hroom hh
      (h.coherent_of (.yield free _ clock) rfl hh.sched)⟩
  | spawn name entry priority top hfresh => exact h.spawn hfresh name entry priority
  | spawnUser name top stackTop code hfresh => exact h.spawnUser hfresh name stackTop code
  | exit id =>
    obtain ⟨s', hc⟩ := calls_exit h.sched id
    exact ⟨s', h.calls (.exit id) rfl hc⟩
  | sleep id ticks =>
    obtain ⟨s', hc⟩ := calls_sleep h.sched id ticks
    exact ⟨s', h.calls (.sleep id ticks) rfl hc⟩
  | wake id =>
    obtain ⟨s', hc⟩ := calls_wake h.sched id
    exact ⟨s', h.calls (.wake id) rfl hc⟩
  | noteTick free =>
    obtain ⟨s', hc⟩ := calls_noteTick h.sched free
    exact ⟨s', h.calls (.noteTick free) rfl hc⟩

theorem madeOf_boot {top0 top1 entry : Nat} {i : Nat}
    (h : initScheduler (some top0) (some top1) entry = some s) (ht : s.madeOf i = some t) :
    i = 0 ∧ t.kstackTop = some top0 ∨
      i = 1 ∧ t.kstackTop = some top1 ∧ t.entry = some entry ∧
        s.savedOf i = some (top1 - contextSize) := by
  cases h
  match i with
  | 0 =>
    cases ht
    exact Or.inl ⟨rfl, rfl⟩
  | 1 =>
    cases ht
    exact Or.inr ⟨rfl, rfl, rfl, rfl⟩
  | i + 2 => simp [Scheduler.madeOf] at ht

theorem sound_boot (h : Booted b σ) : ∃ s, Sound b σ s := by
  obtain ⟨top0, top1, entry, rsp0, ticks, perCpu, hk, htops, hap, hidle⟩ := h.kernel
  obtain ⟨hr, hlo, hhi⟩ := h.regs
  have h0 := htops top0 (by simp)
  have h1 := htops top1 (by simp)
  obtain ⟨s, hs⟩ : ∃ s, initScheduler (some top0) (some top1) entry = some s := ⟨_, rfl⟩
  have hcur : s.current = some 0 := by
    cases hs
    rfl
  have htop : ∀ i t, s.madeOf i = some t →
      i = 0 ∧ t.top = top0 ∨ i = 1 ∧ t.top = top1 := by
    intro i t ht
    rcases madeOf_boot hs ht with ⟨hi, hk⟩ | ⟨hi, hk, _⟩
    · exact Or.inl ⟨hi, by simp [Made.top, hk]⟩
    · exact Or.inr ⟨hi, by simp [Made.top, hk]⟩
  have hstacks : Stacks b s := by
    constructor
    · intro i t ht
      rcases madeOf_boot hs ht with ⟨_, hk⟩ | ⟨_, hk, _⟩
      · exact ⟨top0, hk, h0⟩
      · exact ⟨top1, hk, h1⟩
    · intro i j t u ht hu hne
      have hti := htop i t ht
      have huj := htop j u hu
      clear hlo hhi h0 h1
      omega
  refine ⟨s, ?_, coherent_init hs, hstacks, ?_, ?_, ?_, fun i _ => h.called i⟩
  · rw [hk]
    exact hs
  · intro c t hc _ hu
    obtain rfl := Option.some.inj (hcur.symm.trans hc)
    simp [Made.isUser] at hu
  · intro c t hc _
    obtain rfl := Option.some.inj (hcur.symm.trans hc)
    exact poised_kernel (by simp [Made.isUser]) ⟨hr, hlo, hhi⟩
  · intro i t base ht hi hbase
    rcases madeOf_boot hs ht with ⟨rfl, _⟩ | ⟨rfl, hkt, hentry, hsaved⟩
    · exact absurd hcur hi
    · obtain rfl := Option.some.inj (hsaved.symm.trans hbase)
      have hstack : b.stack 1 t = (top1 - kernelStackSize, top1) := by
        simp [Build.stack, Made.top, hkt]
      have hge := h1.2.1
      unfold kernelStackSize at hge
      refine ⟨?_, ?_, poised_kernel (by simp [Made.isUser, hentry]) ?_⟩
      · rw [hstack]
        unfold contextSize kernelStackSize
        simp only []
        omega
      · rw [hstack]
        unfold contextSize
        simp only []
        omega
      · rw [hidle, hstack]
        exact ⟨by simp [Regs.isUser, kernelContext, kernelCs],
          by simp [kernelContext], by simp [kernelContext]⟩

end Vibra.Sched
