import Vibra.Sched.Processor

/-! # What lies on the kernel stacks

Every task stands somewhere: in user code, at one of the few places of the system call and exception
code, or in kernel code of its own.
-/

namespace Vibra.Sched

open Vibra.Lib

theorem Regs.words_length (r : Regs) : r.words.length = 20 := rfl

theorem Regs.load_store (mem : Words) (base : Nat) (r : Regs) :
    Regs.load (mem.store base r.words) base = r := by
  have h : ∀ k (hk : k < r.words.length), mem.store base r.words (base + 8 * k) = r.words[k] :=
    fun k hk => Words.store_at mem base r.words hk
  have hlen := r.words_length
  simp only [Regs.load, h _ (show 0 < _ by omega), h _ (show 1 < _ by omega),
    h _ (show 2 < _ by omega), h _ (show 3 < _ by omega), h _ (show 4 < _ by omega),
    h _ (show 5 < _ by omega), h _ (show 6 < _ by omega), h _ (show 7 < _ by omega),
    h _ (show 8 < _ by omega), h _ (show 9 < _ by omega), h _ (show 10 < _ by omega),
    h _ (show 11 < _ by omega), h _ (show 12 < _ by omega), h _ (show 13 < _ by omega),
    h _ (show 14 < _ by omega), h _ (show 15 < _ by omega), h _ (show 16 < _ by omega),
    h _ (show 17 < _ by omega), h _ (show 18 < _ by omega), h _ (show 19 < _ by omega)]
  rfl

theorem Regs.load_congr {mem mem' : Words} {base : Nat}
    (h : ∀ a, base ≤ a → a < base + contextSize → mem' a = mem a) :
    Regs.load mem' base = Regs.load mem base := by
  unfold contextSize at h
  have hk : ∀ k, k < 20 → mem' (base + 8 * k) = mem (base + 8 * k) :=
    fun k hk => h _ (by omega) (by omega)
  simp only [Regs.load, hk _ (show 0 < 20 by omega), hk _ (show 1 < 20 by omega),
    hk _ (show 2 < 20 by omega), hk _ (show 3 < 20 by omega), hk _ (show 4 < 20 by omega),
    hk _ (show 5 < 20 by omega), hk _ (show 6 < 20 by omega), hk _ (show 7 < 20 by omega),
    hk _ (show 8 < 20 by omega), hk _ (show 9 < 20 by omega), hk _ (show 10 < 20 by omega),
    hk _ (show 11 < 20 by omega), hk _ (show 12 < 20 by omega), hk _ (show 13 < 20 by omega),
    hk _ (show 14 < 20 by omega), hk _ (show 15 < 20 by omega), hk _ (show 16 < 20 by omega),
    hk _ (show 17 < 20 by omega), hk _ (show 18 < 20 by omega), hk _ (show 19 < 20 by omega)]

/-! ## Where a task stands -/

/-- The frame of the system call a task is in, at the top of its kernel stack. -/
def InCall (b : Build) (mem : Words) (top : Nat) (called : Option Regs) : Prop :=
  ∃ r ∈ called, mem (top - 48) = b.done ∧ mem (top - 16) = r.rip ∧ mem (top - 8) = r.rflags

inductive Stands (b : Build) (mem : Words) (top : Nat) (called : Option Regs) (r : Regs) : Prop
  | user : r.isUser = true → called = none → Stands b mem top called r
  | dispatch : r.isUser = false → r.rip = b.dispatch → r.rsp = top - 48 → r.rsi = top - 40 →
      InCall b mem top called → Stands b mem top called r
  | done : r.isUser = false → r.rip = b.done → r.rsp = top - 40 → InCall b mem top called →
      Stands b mem top called r
  | resumed : r.isUser = false → r.rip = b.resumed → r.rsp = top - 40 - b.yieldDepth →
      InCall b mem top called → Stands b mem top called r
  | killed : r.isUser = false → r.rip = b.killed → r.rsp = top - contextSize - b.killDepth →
      (Regs.load mem (top - contextSize)).isUser = true → called = none →
      Stands b mem top called r

/-- The registers let the task go on: a user task stands somewhere, a kernel task computes on
its stack. -/
def Poised (b : Build) (mem : Words) (i : Nat) (t : Made) (called : Option Regs)
    (r : Regs) : Prop :=
  if t.isUser i = true then Stands b mem t.top called r
  else r.isUser = false ∧ (b.stack i t).1 ≤ r.rsp ∧ r.rsp ≤ (b.stack i t).2

def Scheduler.savedOf (s : Scheduler) (i : Nat) : Option Nat := s.tasks[i]?.map (·.savedRsp)

/-- The context saved at `base` is on the task's stack and lets it go on. -/
structure Parked (b : Build) (mem : Words) (i : Nat) (t : Made) (called : Option Regs)
    (base : Nat) : Prop where
  lo : (b.stack i t).1 ≤ base
  hi : base + contextSize ≤ (b.stack i t).2
  poised : Poised b mem i t called (Regs.load mem base)

/-- Kernel stacks are aligned, and apart from each other and from the boot stack. -/
structure Stacks (b : Build) (s : Scheduler) : Prop where
  top : ∀ i t, s.madeOf i = some t → ∃ top, t.kstackTop = some top ∧ top % 16 = 0 ∧
    kernelStackSize ≤ top ∧ (top ≤ b.bootLo ∨ b.bootHi ≤ top - kernelStackSize)
  apart : ∀ i j t u, s.madeOf i = some t → s.madeOf j = some u → i ≠ j →
    t.top + kernelStackSize ≤ u.top ∨ u.top + kernelStackSize ≤ t.top

structure Sound (b : Build) (σ : Cpu) (s : Scheduler) : Prop where
  sched : σ.kernel.sched = some s
  coherent : Coherent s
  kstacks : Stacks b s
  rsp0 : ∀ c t, s.current = some c → s.madeOf c = some t → t.isUser c = true →
    t.kstackTop = some σ.kernel.rsp0
  active : ∀ c t, s.current = some c → s.madeOf c = some t →
    Poised b σ.mem c t (σ.called c) σ.regs
  parked : ∀ i t base, s.madeOf i = some t → s.current ≠ some i → s.savedOf i = some base →
    Parked b σ.mem i t (σ.called i) base
  uncalled : ∀ i, s.tasks.length ≤ i → σ.called i = none

section Frames

variable {b : Build} {mem mem' : Words} {i : Nat} {t : Made} {called : Option Regs} {r : Regs}

theorem stack_user (h : t.isUser i = true) : b.stack i t = (t.top - kernelStackSize, t.top) := by
  have hi : i ≠ 0 := by
    intro hi
    simp [Made.isUser, hi] at h
  simp [Build.stack, hi]

theorem InCall.congr {top : Nat} (htop : kernelStackSize ≤ top)
    (h : ∀ a, top - 48 ≤ a → a < top → mem' a = mem a) (hc : InCall b mem top called) :
    InCall b mem' top called := by
  unfold kernelStackSize at htop
  obtain ⟨r, hr, h1, h2, h3⟩ := hc
  exact ⟨r, hr, by rw [h _ (by omega) (by omega), h1], by rw [h _ (by omega) (by omega), h2],
    by rw [h _ (by omega) (by omega), h3]⟩

theorem Poised.congr (htop : kernelStackSize ≤ t.top)
    (h : ∀ a, (b.stack i t).1 ≤ a → a < (b.stack i t).2 → mem' a = mem a)
    (hp : Poised b mem i t called r) : Poised b mem' i t called r := by
  unfold Poised at hp ⊢
  by_cases hu : t.isUser i = true
  · rw [if_pos hu] at hp ⊢
    rw [stack_user hu] at h
    unfold kernelStackSize at h htop
    have hcall : InCall b mem t.top called → InCall b mem' t.top called :=
      InCall.congr htop fun a h1 h2 => h a (by simp only []; omega) h2
    cases hp with
    | user h1 h2 => exact .user h1 h2
    | dispatch h1 h2 h3 h4 h5 => exact .dispatch h1 h2 h3 h4 (hcall h5)
    | done h1 h2 h3 h4 => exact .done h1 h2 h3 (hcall h4)
    | resumed h1 h2 h3 h4 => exact .resumed h1 h2 h3 (hcall h4)
    | killed h1 h2 h3 h4 h5 =>
      refine .killed h1 h2 h3 ?_ h5
      rw [Regs.load_congr fun a h6 h7 => h a ?_ ?_, h4]
      all_goals
        unfold contextSize at h6 h7
        simp only []
        omega
  · rwa [if_neg hu] at hp ⊢

theorem Parked.congr {base : Nat} (htop : kernelStackSize ≤ t.top)
    (h : ∀ a, (b.stack i t).1 ≤ a → a < (b.stack i t).2 → mem' a = mem a)
    (hp : Parked b mem i t called base) : Parked b mem' i t called base := by
  refine ⟨hp.lo, hp.hi, ?_⟩
  have hlo := hp.lo
  have hhi := hp.hi
  rw [Regs.load_congr fun a h1 h2 => h a (by omega) (by omega)]
  exact hp.poised.congr htop h

end Frames

theorem Stacks.top_eq {b : Build} {s : Scheduler} (h : Stacks b s) {i : Nat} {t : Made}
    (ht : s.madeOf i = some t) : t.kstackTop = some t.top ∧ t.top % 16 = 0 ∧
      kernelStackSize ≤ t.top ∧ (t.top ≤ b.bootLo ∨ b.bootHi ≤ t.top - kernelStackSize) := by
  obtain ⟨top, h1, h2⟩ := h.top i t ht
  rw [Made.top, h1]
  exact ⟨rfl, h2⟩

theorem Stacks.disjoint {b : Build} {s : Scheduler} (h : Stacks b s) {i j : Nat} {t u : Made}
    (ht : s.madeOf i = some t) (hu : s.madeOf j = some u) (hne : i ≠ j) :
    (b.stack i t).2 ≤ (b.stack j u).1 ∨ (b.stack j u).2 ≤ (b.stack i t).1 := by
  obtain ⟨_, _, ht8, htb⟩ := h.top_eq ht
  obtain ⟨_, _, hu8, hub⟩ := h.top_eq hu
  have hap := h.apart i j t u ht hu hne
  unfold Build.stack
  by_cases hi : i = 0
  · have hj : j ≠ 0 := by omega
    simp only [if_pos hi, if_neg hj]
    omega
  · simp only [if_neg hi]
    by_cases hj : j = 0
    · simp only [if_pos hj]
      omega
    · simp only [if_neg hj]
      omega

theorem made_of_lt {s : Scheduler} {i : Nat} (h : i < s.tasks.length) :
    ∃ t, s.madeOf i = some t := by
  simp [Scheduler.madeOf, h]

theorem lt_of_made {s : Scheduler} {i : Nat} {t : Made} (h : s.madeOf i = some t) :
    i < s.tasks.length := by
  obtain ⟨u, hu, _⟩ := madeOf_eq_some.mp h
  exact (List.getElem?_eq_some_iff.mp hu).1

/-- The scheduler after a step that switches to nobody: the tasks there keep what they were
made with, their saved contexts and the turn. -/
structure Same (s s' : Scheduler) : Prop where
  current : s'.current = s.current
  length : s'.tasks.length = s.tasks.length
  made : ∀ i, s'.madeOf i = s.madeOf i
  saved : ∀ i, s.current ≠ some i → s'.savedOf i = s.savedOf i

theorem Same.refl (s : Scheduler) : Same s s := ⟨rfl, rfl, fun _ => rfl, fun _ _ => rfl⟩

theorem Stacks.congr {b : Build} {s s' : Scheduler} (h : Stacks b s)
    (hm : ∀ i, s'.madeOf i = s.madeOf i) : Stacks b s' :=
  ⟨fun i t ht => h.top i t (hm i ▸ ht),
    fun i j t u ht hu => h.apart i j t u (hm i ▸ ht) (hm j ▸ hu)⟩

theorem Sound.others {b : Build} {σ : Cpu} {s : Scheduler} (h : Sound b σ s) {c : Nat} {t : Made}
    (hcur : s.current = some c) (ht : s.madeOf c = some t) {mem' : Words}
    {called' : Nat → Option Regs}
    (hmem : Words.AgreeOff (b.stack c t).1 (b.stack c t).2 σ.mem mem')
    (hcalled : ∀ i, i ≠ c → called' i = σ.called i) {i : Nat} {u : Made} {base : Nat}
    (hu : s.madeOf i = some u) (hi : i ≠ c) (hbase : s.savedOf i = some base) :
    Parked b mem' i u (called' i) base := by
  have hcur' : s.current ≠ some i := by
    rw [hcur]
    exact fun he => hi (Option.some.inj he).symm
  rw [hcalled i hi]
  refine (h.parked i u base hu hcur' hbase).congr (h.kstacks.top_eq hu).2.2.1 fun a h1 h2 => ?_
  refine hmem a ?_
  have hd := h.kstacks.disjoint ht hu (Ne.symm hi)
  omega

theorem Sound.stay {b : Build} {σ σ' : Cpu} {s s' : Scheduler} (h : Sound b σ s) {c : Nat}
    {t : Made} (hcur : s.current = some c) (ht : s.madeOf c = some t)
    (hsched : σ'.kernel.sched = some s') (hsame : Same s s') (hco : Coherent s')
    (hrsp0 : σ'.kernel.rsp0 = σ.kernel.rsp0)
    (hmem : Words.AgreeOff (b.stack c t).1 (b.stack c t).2 σ.mem σ'.mem)
    (hcalled : ∀ i, i ≠ c → σ'.called i = σ.called i)
    (hact : Poised b σ'.mem c t (σ'.called c) σ'.regs) : Sound b σ' s' := by
  have hc := lt_of_made ht
  refine ⟨hsched, hco, h.kstacks.congr hsame.made, ?_, ?_, ?_, ?_⟩
  · intro d u hd hu huser
    rw [hsame.current] at hd
    rw [hsame.made] at hu
    rw [hrsp0]
    exact h.rsp0 d u hd hu huser
  · intro d u hd hu
    rw [hsame.current, hcur] at hd
    obtain rfl : c = d := Option.some.inj hd
    rw [hsame.made, ht] at hu
    obtain rfl : t = u := Option.some.inj hu
    exact hact
  · intro i u base hu hi hbase
    rw [hsame.current, hcur] at hi
    have hic : i ≠ c := fun he => hi (he ▸ rfl)
    rw [hsame.made] at hu
    rw [hsame.saved i (by rw [hcur]; exact hi)] at hbase
    exact h.others hcur ht hmem hcalled hu hic hbase
  · intro i hi
    rw [hsame.length] at hi
    rw [hcalled i (by omega)]
    exact h.uncalled i hi

/-! ## The handlers -/

/-- What a handler returns that was entered with the context of `c` saved at `ctx`: the
scheduler `s'`, with `n` current, and the context to load. -/
structure Handled (m : Machine) (s : Scheduler) (c ctx : Nat) (r : Machine × Nat)
    (s' : Scheduler) (n : Nat) : Prop where
  sched : r.1.sched = some s'
  current : s'.current = some n
  length : s'.tasks.length = s.tasks.length
  made : ∀ i, s'.madeOf i = s.madeOf i
  saved : ∀ i, i ≠ c → s'.savedOf i = s.savedOf i
  back : n = c → r.2 = ctx
  away : n ≠ c → s'.savedOf c = some ctx ∧ s.savedOf n = some r.2
  rsp0 : (n = c ∧ r.1.rsp0 = m.rsp0) ∨ ∃ t, s.madeOf n = some t ∧ t.kstackTop = some r.1.rsp0

theorem Handled.keep {m m' : Machine} {s s' : Scheduler} {c : Nat} (ctx : Nat)
    (hs : m'.sched = some s') (hcur : s'.current = some c)
    (hlen : s'.tasks.length = s.tasks.length) (hmade : ∀ i, s'.madeOf i = s.madeOf i)
    (hsaved : ∀ i, i ≠ c → s'.savedOf i = s.savedOf i) (hrsp0 : m'.rsp0 = m.rsp0) :
    Handled m s c ctx (m', ctx) s' c :=
  ⟨hs, hcur, hlen, hmade, hsaved, fun _ => rfl, fun h => absurd rfl h, Or.inl ⟨rfl, hrsp0⟩⟩

theorem savedOf_putBack {s : Scheduler} {c : Nat} {f : Task → Task} {i : Nat} (h : i ≠ c) :
    (s.putBack c f).savedOf i = s.savedOf i := by
  simp [Scheduler.savedOf, Scheduler.putBack, Ne.symm h]

theorem savedOf_putBack_self {s : Scheduler} {c ctx : Nat} {f : Task → Task}
    (hc : c < s.tasks.length) (hf : ∀ t, (f t).savedRsp = ctx) :
    (s.putBack c f).savedOf c = some ctx := by
  simp [Scheduler.savedOf, Scheduler.putBack, hc, hf]

theorem savedOf_resume (s : Scheduler) (c i : Nat) : (s.resume c).savedOf i = s.savedOf i :=
  getElem?_modify_map (f := fun t => { t with state := .running }) (g := (·.savedRsp)) s.tasks c
    (fun _ => rfl) i

theorem savedOf_dispatch (s : Scheduler) (n i : Nat) (clock : Clock) :
    (s.dispatch n clock).savedOf i = s.savedOf i :=
  getElem?_modify_map (f := Task.enter clock) (g := (·.savedRsp)) s.tasks n (fun _ => rfl) i

@[simp] theorem savedOf_advanceTick (s : Scheduler) (i : Nat) :
    (advanceTick s).savedOf i = s.savedOf i := by
  simp only [Scheduler.savedOf, advanceTick, List.getElem?_map, Option.map_map]
  cases s.tasks[i]? with
  | none => rfl
  | some t =>
    rcases t.wakeAt_cases (wrap64 (s.tickCount + 1)) with h | ⟨_, h⟩ <;> simp [h, Task.wake]

@[simp] theorem Task.leave_savedRsp (ctx : Nat) (clock : Clock) (t : Task) :
    (t.leave ctx clock).savedRsp = ctx := by
  unfold Task.leave Task.requeue Task.charge
  split <;> split <;> rfl

theorem yieldTo_saved {m : Machine} {s : Scheduler} {n base : Nat} (h : s.savedOf n = some base)
    (ctx : Nat) : (yieldTo m s n ctx).2 = base := by
  unfold yieldTo
  cases hget : s.tasks[n]? with
  | none => simp [Scheduler.savedOf, hget] at h
  | some u => simpa [Scheduler.savedOf, hget] using h

theorem tickTo_saved {m : Machine} {s : Scheduler} {n base : Nat} (h : s.savedOf n = some base)
    (ctx : Nat) : (tickTo m s n ctx).2 = base := by
  unfold tickTo
  cases hget : s.tasks[n]? with
  | none => simp [Scheduler.savedOf, hget] at h
  | some u => simpa [Scheduler.savedOf, hget] using h

theorem handled_loop {m : Machine} {s s0 : Scheduler} {c ctx : Nat} {f : Task → Task}
    {clock : Clock} (hc : c < s.tasks.length) (hlen : s0.tasks.length = s.tasks.length)
    (hmade : ∀ i, s0.madeOf i = s.madeOf i) (hsaved : ∀ i, s0.savedOf i = s.savedOf i)
    (hfmade : ∀ t, (f t).made = t.made) (hfsaved : ∀ t, (f t).savedRsp = ctx) {n : Nat}
    (hn : n < s.tasks.length) {r : Machine × Nat}
    (hr1 : r.1.sched = some ((s0.putBack c f).dispatch n clock))
    (hr2 : ∀ base, ((s0.putBack c f).dispatch n clock).savedOf n = some base → r.2 = base)
    (hrsp0 : ∀ t, s.madeOf n = some t → t.kstackTop = some r.1.rsp0) :
    Handled m s c ctx r ((s0.putBack c f).dispatch n clock) n := by
  have hc0 : c < s0.tasks.length := by rwa [hlen]
  have hself : ((s0.putBack c f).dispatch n clock).savedOf c = some ctx := by
    rw [savedOf_dispatch]
    exact savedOf_putBack_self hc0 hfsaved
  have hother : ∀ i, i ≠ c → ((s0.putBack c f).dispatch n clock).savedOf i = s.savedOf i := by
    intro i hi
    rw [savedOf_dispatch, savedOf_putBack hi, hsaved]
  obtain ⟨t, ht⟩ := made_of_lt hn
  refine ⟨hr1, rfl, ?_, ?_, hother, ?_, ?_, Or.inr ⟨t, ht, hrsp0 t ht⟩⟩
  · simp [Scheduler.dispatch, Scheduler.putBack, hlen]
  · exact fun i => (madeOf_dispatch s0 c n f clock hfmade i).trans (hmade i)
  · intro hnc
    exact hr2 ctx (hnc ▸ hself)
  · intro hnc
    refine ⟨hself, ?_⟩
    obtain ⟨u, hu, _⟩ := madeOf_eq_some.mp ht
    have hsome : s.savedOf n = some u.savedRsp := by simp [Scheduler.savedOf, hu]
    rw [hsome, hr2 u.savedRsp (by rw [hother n hnc, hsome])]

theorem nextReady_lt {ts : List Task} {c n : Nat} (hc : c < ts.length)
    (h : nextReady ts c = some n) : n < ts.length := by
  have hcases := Vibra.Lib.Ring.seek_cases
    (fun i => decide (ts[i]?.map (·.state) = some TaskState.ready)) hc
  rcases hcases with ⟨i, h1, h2⟩ | ⟨h1, _⟩
  · obtain rfl : i = n := Option.some.inj (h1.symm.trans h)
    exact h2.lt
  · exact absurd (h1.symm.trans h) (by simp)

section Handlers

variable {b : Build} {m : Machine} {s : Scheduler} {c : Nat}

theorem yield_handled (hs : m.sched = some s) (hcur : s.current = some c)
    (hc : c < s.tasks.length) (hk : Stacks b s) (free : Bool) (ctx : Nat) (clock : Clock) :
    ∃ s' n, Handled m s c ctx (softirqHandler m free ctx clock) s' n := by
  by_cases hgo : free = true ∧ 1 < s.tasks.length
  · obtain ⟨rfl, hlen⟩ := hgo
    have hfmade := Task.leave_made ctx clock
    have hfsaved := Task.leave_savedRsp ctx clock
    rw [softirq_loop hs hcur hlen]
    cases hn : nextReady (s.putBack c (Task.leave ctx clock)).tasks c with
    | none =>
      refine ⟨_, c, Handled.keep ctx rfl hcur ?_ ?_ ?_ rfl⟩
      · simp [Scheduler.resume, Scheduler.putBack]
      · exact madeOf_resume s c _ hfmade
      · intro i hi
        rw [savedOf_resume, savedOf_putBack hi]
    | some n =>
      have hnlt : n < s.tasks.length := by
        have hlt := nextReady_lt (by simpa [Scheduler.putBack] using hc) hn
        simpa [Scheduler.putBack] using hlt
      refine ⟨_, n, handled_loop hc rfl (fun _ => rfl) (fun _ => rfl) hfmade hfsaved hnlt
        (yieldTo_sched ..) (fun base hb => yieldTo_saved hb ctx) fun t ht => ?_⟩
      obtain ⟨u, hu, rfl⟩ := madeOf_eq_some.mp ht
      have hd : ((s.putBack c (Task.leave ctx clock)).dispatch n clock).madeOf n = some u.made := by
        rw [madeOf_dispatch s c n _ clock hfmade n, ht]
      obtain ⟨top, htop, _⟩ := hk.top n _ ht
      rw [yieldTo_rsp0 hd, show u.kstackTop = some top from htop]
      exact htop
  · rw [softirq_idle hs ctx clock hgo]
    exact ⟨s, c, Handled.keep ctx hs hcur rfl (fun _ => rfl) (fun _ _ => rfl) rfl⟩

theorem tick_handled (hs : m.sched = some s) (hcur : s.current = some c)
    (hc : c < s.tasks.length) (hk : Stacks b s) (free : Bool) (ctx : Nat) (clock : Clock) :
    ∃ s' n, Handled m s c ctx (tickAndSwitch m free ctx clock) s' n := by
  cases free with
  | false =>
    exact ⟨s, c, Handled.keep ctx hs hcur rfl (fun _ => rfl) (fun _ _ => rfl) rfl⟩
  | true =>
    by_cases hgo : (advanceTick s).QuantumEnds ∧ 1 < s.tasks.length
    · have hfmade := Task.leaveTick_made ctx clock
      have hfsaved : ∀ t : Task, (t.leaveTick ctx clock).savedRsp = ctx :=
        Task.leave_savedRsp ctx clock
      rw [tick_loop hs hcur hgo.1 hgo.2]
      cases hn : nextReady ((advanceTick s).putBack c (Task.leaveTick ctx clock)).tasks c with
      | none =>
        refine ⟨_, c, Handled.keep ctx rfl hcur ?_ ?_ ?_ rfl⟩
        · simp [Scheduler.resume, Scheduler.putBack]
        · exact fun i => (madeOf_resume _ c _ hfmade i).trans (madeOf_advanceTick s i)
        · intro i hi
          rw [savedOf_resume, savedOf_putBack hi, savedOf_advanceTick]
      | some n =>
        have hnlt : n < s.tasks.length := by
          have hlt := nextReady_lt (by simpa [Scheduler.putBack] using hc) hn
          simpa [Scheduler.putBack] using hlt
        refine ⟨_, n, handled_loop hc (by simp) (madeOf_advanceTick s)
          (savedOf_advanceTick s) hfmade hfsaved hnlt (tickTo_sched ..)
          (fun base hb => tickTo_saved hb ctx) fun t ht => ?_⟩
        obtain ⟨u, hu, rfl⟩ := madeOf_eq_some.mp ht
        have hd : (((advanceTick s).putBack c (Task.leaveTick ctx clock)).dispatch n
            clock).madeOf n = some u.made := by
          rw [madeOf_dispatch _ c n _ clock hfmade n, madeOf_advanceTick, ht]
        obtain ⟨top, htop, _⟩ := hk.top n _ ht
        have hserves := (tickTo_serves (m := { m with ticks := wrap64 (m.ticks + 1) })
          hd ctx).mpr (by rw [show u.kstackTop = some top from htop]; rfl)
        exact hserves.1
    · rw [tick_idle hs ctx clock hgo]
      exact ⟨advanceTick s, c, Handled.keep ctx rfl hcur (by simp) (madeOf_advanceTick s)
        (fun i _ => savedOf_advanceTick s i) rfl⟩

end Handlers

theorem Sound.interrupt {b : Build} {σ : Cpu} {s : Scheduler} (h : Sound b σ s) {c : Nat}
    {t : Made} (hcur : s.current = some c) (ht : s.madeOf c = some t) {base : Nat} {saved : Regs}
    (hlo : (b.stack c t).1 ≤ base) (hhi : base + contextSize ≤ (b.stack c t).2)
    (hpoised : Poised b (σ.mem.store base saved.words) c t (σ.called c) saved)
    {handler : Machine → Nat → Machine × Nat} {s' : Scheduler} {n : Nat}
    (hh : Handled σ.kernel s c base (handler σ.kernel base) s' n) (hco : Coherent s') :
    Sound b (σ.interrupt base saved handler) s' := by
  have hmem : Words.AgreeOff (b.stack c t).1 (b.stack c t).2 σ.mem
      (σ.mem.store base saved.words) :=
    Words.store_agreeOff σ.mem saved.words hlo (by rw [saved.words_length]; exact hhi)
  have hload : Regs.load (σ.mem.store base saved.words) base = saved :=
    Regs.load_store σ.mem base saved
  have hn : ∃ u, s.madeOf n = some u := by
    obtain ⟨d, hd, hlt, _⟩ := hco
    obtain rfl : n = d := Option.some.inj (hh.current.symm.trans hd)
    exact made_of_lt (hh.length ▸ hlt)
  refine ⟨hh.sched, hco, h.kstacks.congr hh.made, ?_, ?_, ?_, ?_⟩
  · intro d u hd hu huser
    obtain rfl : n = d := Option.some.inj (hh.current.symm.trans hd)
    rw [hh.made] at hu
    rcases hh.rsp0 with ⟨rfl, he⟩ | ⟨v, hv, hk⟩
    · rw [show (σ.interrupt base saved handler).kernel.rsp0 = σ.kernel.rsp0 from he]
      exact h.rsp0 n u hcur hu huser
    · obtain rfl : u = v := Option.some.inj (hu.symm.trans hv)
      exact hk
  · intro d u hd hu
    obtain rfl : n = d := Option.some.inj (hh.current.symm.trans hd)
    rw [hh.made] at hu
    by_cases hnc : n = c
    · subst hnc
      obtain rfl : t = u := Option.some.inj (ht.symm.trans hu)
      show Poised b _ n t (σ.called n) (Regs.load (σ.mem.store base saved.words)
        (handler σ.kernel base).2)
      rw [hh.back rfl, hload]
      exact hpoised
    · have hp := h.others hcur ht hmem (fun i _ => rfl) hu hnc (hh.away hnc).2
      exact hp.poised
  · intro i u sp hu hi hsp
    rw [hh.made] at hu
    have hin : i ≠ n := by
      rintro rfl
      exact hi hh.current
    by_cases hic : i = c
    · subst hic
      obtain rfl : t = u := Option.some.inj (ht.symm.trans hu)
      obtain rfl : base = sp := Option.some.inj ((hh.away (Ne.symm hin)).1.symm.trans hsp)
      refine ⟨hlo, hhi, ?_⟩
      show Poised b (σ.mem.store base saved.words) i t (σ.called i)
        (Regs.load (σ.mem.store base saved.words) base)
      rw [hload]
      exact hpoised
    · rw [hh.saved i hic] at hsp
      exact h.others hcur ht hmem (fun i _ => rfl) hu hic hsp
  · intro i hi
    rw [hh.length] at hi
    exact h.uncalled i hi

end Vibra.Sched
