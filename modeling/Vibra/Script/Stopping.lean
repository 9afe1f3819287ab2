import Vibra.Script.Overflow

/-! # Exit and cancellation

The execution of a script as a machine with frames for what is pending, which ends as the recursive
executor does.
-/

namespace Vibra.Script

open Lib (Outcome Checked)
open Relation (ReflTransGen TransGen)

/-- The rest of a body, or a loop with the turns that it has left. -/
inductive Frame where
  | seq (ss : List Stmt)
  | loop (cond : Expr) (body : List Stmt) (turns : Nat)

/-- The frames inside each other, and the statements that `run` has left. -/
structure Config where
  frames : List Frame
  rest : Program
  state : State

/-- What `run` prints about a cancellation. -/
def runCancelText : Text := cancelText ++ [' ', '(', 'C', 't', 'r', 'l', '+', 'Z', ')']

namespace State

def ask (st : State) : State := { st with asked := st.asked + 1 }

def tell (st : State) (t : Text) : State := { st with console := st.console ++ (t ++ ['\n']) }

end State

/-- A loop goes on, if it has a turn left. -/
def again (cond : Expr) (body : List Stmt) (frames : List Frame) (rest : Program) (st : State) :
    (turns : Nat) → Outcome ScriptError Config
  | 0 => .err .iterationLimit
  | turns + 1 => .ok ⟨.seq body :: .loop cond body turns :: frames, rest, st⟩

def turn (w : World) : Config → Outcome ScriptError Config
  | ⟨[], [], st⟩ => .ok ⟨[], [], st⟩
  | ⟨[], s :: rest, st⟩ =>
    if w.cancelled st.asked then .ok ⟨[], [], st.ask.tell runCancelText⟩
    else .ok ⟨[.seq [s]], rest, st.ask⟩
  | ⟨.seq [] :: frames, rest, st⟩ => .ok ⟨frames, rest, st⟩
  | ⟨.seq (.if cond thenBody elseBody :: ss) :: frames, rest, st⟩ => do
      let (v, st) ← (eval cond : Machine Value) st
      return ⟨.seq (if v.toNum ≠ 0 then thenBody else elseBody) :: .seq ss :: frames, rest, st⟩
  | ⟨.seq (.while cond body :: ss) :: frames, rest, st⟩ =>
    .ok ⟨.loop cond body maxIterations :: .seq ss :: frames, rest, st⟩
  | ⟨.seq (s :: ss) :: frames, rest, st⟩ => do
      let (_, st) ← (exec w s : Machine Unit) st
      return ⟨.seq ss :: frames, rest, st⟩
  | ⟨.loop cond body turns :: frames, rest, st⟩ => do
      let (v, st) ← (eval cond : Machine Value) st
      if v.toNum = 0 then return ⟨frames, rest, st⟩
      else if w.cancelled st.asked then return ⟨frames, rest, st.ask.tell cancelText⟩
      else again cond body frames rest st.ask turns

/-- How the machine ends. -/
inductive Ends (w : World) : Config → Outcome ScriptError State → Prop
  | done (st : State) : Ends w ⟨[], [], st⟩ (.ok st)
  | turn {c c' : Config} {r : Outcome ScriptError State} (h : turn w c = .ok c')
      (h' : Ends w c' r) : Ends w c r
  | err {c : Config} {e : ScriptError} (h : turn w c = .err e) : Ends w c (.err e)
  | panic {c : Config} (h : turn w c = .panic) : Ends w c .panic
  | diverge {c : Config} (h : turn w c = .diverge) : Ends w c .diverge

variable {w : World} {frames : List Frame} {rest : Program} {st : State}

/-! ## The machine and the executor -/

section Adequacy

variable {α β : Type}

theorem bind_apply (x : Machine α) (f : α → Machine β) (st : State) :
    (x >>= f) st = x st >>= fun p => f p.1 p.2 := by
  show Checked.bind x f st = _
  rw [Checked.bind]
  cases x st <;> rfl

theorem bind_assoc (x : Outcome ScriptError α) (f : α → Outcome ScriptError β)
    {γ : Type} (g : β → Outcome ScriptError γ) : (x >>= f) >>= g = x >>= fun a => f a >>= g := by
  cases x <;> rfl

theorem ends_of_bind {c : Config} {x : Outcome ScriptError α} {f : α → Outcome ScriptError Config}
    {k : α → Outcome ScriptError State} (h : turn w c = x >>= f)
    (hk : ∀ a, turn w c = f a → Ends w c (k a)) : Ends w c (x >>= k) := by
  cases x with
  | ok a => exact hk a h
  | err e => exact .err h
  | panic => exact .panic h
  | diverge => exact .diverge h

def EndsAsBody (w : World) (body : List Stmt) : Prop :=
  ∀ {frames : List Frame} {rest : Program} {st : State} {k : State → Outcome ScriptError State},
    (∀ st', Ends w ⟨frames, rest, st'⟩ (k st')) →
      Ends w ⟨.seq body :: frames, rest, st⟩ ((execAll w body : Machine Unit) st >>= fun p => k p.2)

theorem ask_apply (answers : Nat → α) (st : State) :
    (ask answers : Machine α) st = .ok (answers st.asked, st.ask) := rfl

theorem ends_loopTurn {cond : Expr} {body : List Stmt} {turns : Nat} {v : Value} {st st' : State}
    {next : Machine Unit} {k : State → Outcome ScriptError State}
    (hk : ∀ st', Ends w ⟨frames, rest, st'⟩ (k st'))
    (hturn : turn w ⟨.loop cond body turns :: frames, rest, st⟩ =
      if v.toNum = 0 then .ok ⟨frames, rest, st'⟩
      else if w.cancelled st'.asked then .ok ⟨frames, rest, st'.ask.tell cancelText⟩
      else again cond body frames rest st'.ask turns)
    (hnext : turn w ⟨.loop cond body turns :: frames, rest, st⟩ =
        again cond body frames rest st'.ask turns →
      Ends w ⟨.loop cond body turns :: frames, rest, st⟩ (next st'.ask >>= fun p => k p.2)) :
    Ends w ⟨.loop cond body turns :: frames, rest, st⟩
      ((if v.toNum = 0 then pure ()
        else do if ← ask w.cancelled then println cancelText else next : Machine Unit) st' >>=
          fun p => k p.2) := by
  by_cases hzero : v.toNum = 0
  · rw [if_pos hzero] at hturn ⊢
    exact .turn hturn (hk st')
  · rw [if_neg hzero] at hturn ⊢
    rw [bind_apply, ask_apply, Outcome.ok_bind]
    dsimp only
    cases hcancel : w.cancelled st'.asked with
    | true =>
      rw [hcancel] at hturn
      exact .turn hturn (hk _)
    | false =>
      rw [hcancel] at hturn
      exact hnext hturn

theorem ends_whileLoop {body : List Stmt} (hbody : EndsAsBody w body) (cond : Expr) (turns : Nat)
    {k : State → Outcome ScriptError State} (hk : ∀ st', Ends w ⟨frames, rest, st'⟩ (k st'))
    {st : State} :
    Ends w ⟨.loop cond body turns :: frames, rest, st⟩
      ((whileLoop w (eval cond) (execAll w body) turns : Machine Unit) st >>= fun p => k p.2) := by
  induction turns generalizing st with
  | zero =>
    rw [whileLoop, bind_apply, bind_assoc]
    refine ends_of_bind rfl fun p hturn => ?_
    exact ends_loopTurn hk hturn fun h => .err h
  | succ turns ih =>
    rw [whileLoop, bind_apply, bind_assoc]
    refine ends_of_bind rfl fun p hturn => ?_
    refine ends_loopTurn hk hturn fun h => .turn h ?_
    rw [bind_apply, bind_assoc]
    exact hbody fun st' => ih

mutual

theorem ends_exec (w : World) : ∀ (s : Stmt) {ss : List Stmt} {frames : List Frame} {rest : Program}
    {st : State} {k : State → Outcome ScriptError State},
    (∀ st', Ends w ⟨.seq ss :: frames, rest, st'⟩ (k st')) →
      Ends w ⟨.seq (s :: ss) :: frames, rest, st⟩ ((exec w s : Machine Unit) st >>= fun p => k p.2)
  | .varDecl _ _, _, _, _, _, _, hk => ends_of_bind rfl fun p h => .turn h (hk p.2)
  | .assign _ _, _, _, _, _, _, hk => ends_of_bind rfl fun p h => .turn h (hk p.2)
  | .print _, _, _, _, _, _, hk => ends_of_bind rfl fun p h => .turn h (hk p.2)
  | .beep _, _, _, _, _, _, hk => ends_of_bind rfl fun p h => .turn h (hk p.2)
  | .sleep _, _, _, _, _, _, hk => ends_of_bind rfl fun p h => .turn h (hk p.2)
  | .exit, _, _, _, _, _, hk => ends_of_bind rfl fun p h => .turn h (hk p.2)
  | .expr _, _, _, _, _, _, hk => ends_of_bind rfl fun p h => .turn h (hk p.2)
  | .if cond thenBody elseBody, _, _, _, _, _, hk => by
      rw [exec, bind_apply, bind_assoc]
      refine ends_of_bind rfl fun p h => .turn h ?_
      by_cases hv : p.1.toNum ≠ 0
      · rw [if_pos hv, if_pos hv]
        exact ends_execAll w thenBody hk
      · rw [if_neg hv, if_neg hv]
        exact ends_execAll w elseBody hk
  | .while cond body, _, _, _, _, _, hk => by
      rw [exec]
      exact .turn rfl (ends_whileLoop (ends_execAll w body) cond maxIterations hk)

theorem ends_execAll (w : World) : ∀ ss : List Stmt, EndsAsBody w ss
  | [], _, _, _, _, hk => .turn rfl (hk _)
  | s :: ss, _, _, _, _, hk => by
      rw [execAll, bind_apply, bind_assoc]
      exact ends_exec w s fun st' => ends_execAll w ss hk

end

end Adequacy

theorem ends_run (program : Program) (st : State) :
    Ends w ⟨[], program, st⟩ ((run w program : Machine Unit) st >>= fun p => .ok p.2) := by
  induction program generalizing st with
  | nil => exact .done st
  | cons s program ih =>
    rw [run, bind_apply, ask_apply, Outcome.ok_bind]
    dsimp only
    cases hcancel : w.cancelled st.asked with
    | true =>
      have hturn : turn w ⟨[], s :: program, st⟩ = .ok ⟨[], [], st.ask.tell runCancelText⟩ :=
        if_pos hcancel
      exact .turn hturn (.done _)
    | false =>
      have hturn : turn w ⟨[], s :: program, st⟩ = .ok ⟨[.seq [s]], program, st.ask⟩ :=
        if_neg (by rw [hcancel]; exact nofun)
      refine .turn hturn ?_
      rw [if_neg (by exact nofun), bind_apply, bind_assoc]
      exact ends_exec w s fun st' => .turn rfl (ih st')

def Executes (c : Config) : Prop := ∃ s ss frames, c.frames = .seq (s :: ss) :: frames

def ExecutesExit (c : Config) : Prop := ∃ ss frames, c.frames = .seq (.exit :: ss) :: frames

/-- `run` or a loop sees a cancellation. -/
def SeesCancel (w : World) : Config → Prop
  | ⟨[], _ :: _, st⟩ => w.cancelled st.asked = true
  | ⟨.loop cond _ _ :: _, _, st⟩ => ∃ v st',
      (eval cond : Machine Value) st = .ok (v, st') ∧ v.toNum ≠ 0 ∧ w.cancelled st'.asked = true
  | _ => False

def Stops (w : World) (c : Config) : Prop := ExecutesExit c ∨ SeesCancel w c

/-- The script prints: a statement does or the condition of a loop. The lines about cancellations
are not the script's. -/
def Prints (w : World) : Config → Prop
  | ⟨[], _, _⟩ => False
  | ⟨.seq ss :: frames, rest, st⟩ => ∃ c', turn w ⟨.seq ss :: frames, rest, st⟩ = .ok c' ∧
      c'.state.console ≠ st.console
  | ⟨.loop cond _ _ :: _, _, st⟩ => ∃ v st', (eval cond : Machine Value) st = .ok (v, st') ∧
      st'.console ≠ st.console

def Turn (w : World) (c c' : Config) : Prop := turn w c = .ok c'

/-- Nothing is executed or printed behind an `exit` or a cancellation. -/
def EndsAtStop (w : World) (program : Program) (st : State) : Prop :=
  ∀ c, ReflTransGen (Turn w) ⟨[], program, st⟩ c → Stops w c →
    ∀ c', TransGen (Turn w) c c' → ¬ Executes c' ∧ ¬ Prints w c'

/-! ## What is pending -/

/-- The condition prints nothing. `done` is asked behind the loop, if the condition is false or a
cancellation is seen, and `more` in front of the next turn. -/
def QuietTurn (w : World) (cond : Expr) (done more : State → Prop) (st : State) : Prop :=
  ∀ v st', (eval cond : Machine Value) st = .ok (v, st') → st'.console = st.console ∧
    if v.toNum = 0 then done st'
    else if w.cancelled st'.asked then done (st'.ask.tell cancelText)
    else more st'.ask

def QuietLoop (w : World) (cond : Expr) (body : List Stmt) (done : State → Prop) :
    (turns : Nat) → State → Prop
  | 0 => QuietTurn w cond done fun _ => True
  | turns + 1 => QuietTurn w cond done fun st => body = [] ∧ QuietLoop w cond body done turns st

/-- No statement is left in the bodies, the loops end or have nothing in them, and `run` has no
statement left or sees a cancellation. -/
def Quiet (w : World) (rest : Program) : List Frame → State → Prop
  | [], st => rest = [] ∨ w.cancelled st.asked = true
  | .seq ss :: frames, st => ss = [] ∧ Quiet w rest frames st
  | .loop cond body turns :: frames, st => QuietLoop w cond body (Quiet w rest frames) turns st

variable {cond : Expr} {body : List Stmt} {turns : Nat} {c c' : Config}

theorem quietLoop_iff : QuietLoop w cond body (Quiet w rest frames) turns st ↔
    QuietTurn w cond (Quiet w rest frames) (fun st => ∀ c',
      again cond body frames rest st turns = .ok c' → Quiet w c'.rest c'.frames c'.state) st := by
  cases turns with
  | zero =>
    have hnone : (fun st => ∀ c', again cond body frames rest st 0 = .ok c' →
        Quiet w c'.rest c'.frames c'.state) = fun _ => True :=
      funext fun _ => eq_true fun _ => nofun
    rw [QuietLoop, hnone]
  | succ turns =>
    have hone : (fun st => ∀ c', again cond body frames rest st (turns + 1) = .ok c' →
        Quiet w c'.rest c'.frames c'.state) =
          fun st => body = [] ∧ QuietLoop w cond body (Quiet w rest frames) turns st := by
      funext st
      refine propext ⟨fun h => h _ rfl, fun h c' hc => ?_⟩
      rw [← Outcome.ok.inj hc]
      exact h
    rw [QuietLoop, hone]

theorem turn_loop {v : Value} {st' : State} (h : (eval cond : Machine Value) st = .ok (v, st')) :
    turn w ⟨.loop cond body turns :: frames, rest, st⟩ =
      if v.toNum = 0 then .ok ⟨frames, rest, st'⟩
      else if w.cancelled st'.asked then .ok ⟨frames, rest, st'.ask.tell cancelText⟩
      else again cond body frames rest st'.ask turns := by
  rw [turn, h]
  rfl

theorem turn_loop_fails (h : ∀ p, (eval cond : Machine Value) st ≠ .ok p) (c' : Config) :
    turn w ⟨.loop cond body turns :: frames, rest, st⟩ ≠ .ok c' := by
  rw [turn]
  cases heval : (eval cond : Machine Value) st with
  | ok p => exact absurd heval (h p)
  | err e => exact nofun
  | panic => exact nofun
  | diverge => exact nofun

theorem turn_loop_cases (h : turn w ⟨.loop cond body turns :: frames, rest, st⟩ = .ok c') :
    (∃ st', c' = ⟨frames, rest, st'⟩) ∨
      ∃ n st', turns = n + 1 ∧ c' = ⟨.seq body :: .loop cond body n :: frames, rest, st'⟩ := by
  by_cases hok : ∃ p, (eval cond : Machine Value) st = .ok p
  · obtain ⟨⟨v, st'⟩, heval⟩ := hok
    rw [turn_loop heval] at h
    split at h
    · exact Or.inl ⟨_, (Outcome.ok.inj h).symm⟩
    · split at h
      · exact Or.inl ⟨_, (Outcome.ok.inj h).symm⟩
      · cases turns with
        | zero => cases h
        | succ turns => exact Or.inr ⟨turns, _, rfl, (Outcome.ok.inj h).symm⟩
  · exact absurd h (turn_loop_fails (fun p hp => hok ⟨p, hp⟩) c')

theorem quietLoop_iff_turn : QuietLoop w cond body (Quiet w rest frames) turns st ↔
    ¬ Prints w ⟨.loop cond body turns :: frames, rest, st⟩ ∧
      ∀ c', turn w ⟨.loop cond body turns :: frames, rest, st⟩ = .ok c' →
        Quiet w c'.rest c'.frames c'.state := by
  rw [quietLoop_iff, QuietTurn, Prints]
  by_cases hok : ∃ p, (eval cond : Machine Value) st = .ok p
  · obtain ⟨⟨v, st'⟩, heval⟩ := hok
    rw [turn_loop heval, heval]
    have hprints : ¬ (∃ v' st'', (Outcome.ok (v, st') : Outcome ScriptError _) = .ok (v', st'') ∧
        st''.console ≠ st.console) ↔ st'.console = st.console := by
      constructor
      · intro h
        exact not_not.mp fun hne => h ⟨v, st', rfl, hne⟩
      · rintro h ⟨v', st'', heq, hne⟩
        cases heq
        exact hne h
    rw [hprints]
    constructor
    · intro h
      obtain ⟨hconsole, hnext⟩ := h v st' rfl
      refine ⟨hconsole, fun c' hc' => ?_⟩
      split at hnext
      case isTrue hzero =>
          rw [if_pos hzero] at hc'
          rw [← Outcome.ok.inj hc']
          exact hnext
      case isFalse hzero =>
          rw [if_neg hzero] at hc'
          split at hnext
          case isTrue hcancel =>
              rw [if_pos hcancel] at hc'
              rw [← Outcome.ok.inj hc']
              exact hnext
          case isFalse hcancel =>
              rw [if_neg hcancel] at hc'
              exact hnext c' hc'
    · rintro ⟨hconsole, hnext⟩ v' st'' heq
      cases heq
      refine ⟨hconsole, ?_⟩
      split
      case isTrue hzero => exact hnext _ (if_pos hzero)
      case isFalse hzero =>
          rw [if_neg hzero] at hnext
          split
          case isTrue hcancel => exact hnext _ (if_pos hcancel)
          case isFalse hcancel =>
              rw [if_neg hcancel] at hnext
              exact hnext
  · have hfails (p : Value × State) : (eval cond : Machine Value) st ≠ .ok p :=
      fun h => hok ⟨p, h⟩
    refine iff_of_true (fun v st' h => absurd h (hfails _)) ⟨?_, fun c' h => ?_⟩
    · rintro ⟨v, st', h, _⟩
      exact hfails _ h
    · exact absurd h (turn_loop_fails hfails c')

theorem quiet_iff (c : Config) : Quiet w c.rest c.frames c.state ↔
    ¬ Executes c ∧ ¬ Prints w c ∧ ∀ c', Turn w c c' → Quiet w c'.rest c'.frames c'.state := by
  obtain ⟨frames, rest, st⟩ := c
  cases frames with
  | nil =>
    have hexecutes : ¬ Executes ⟨[], rest, st⟩ := fun ⟨_, _, _, h⟩ => nomatch h
    have hprints : ¬ Prints w ⟨[], rest, st⟩ := id
    rw [and_iff_right hexecutes, and_iff_right hprints]
    cases rest with
    | nil =>
      refine iff_of_true (Or.inl rfl) fun c' h => ?_
      rw [← Outcome.ok.inj h]
      exact Or.inl rfl
    | cons s rest =>
      cases hcancel : w.cancelled st.asked with
      | true =>
        refine iff_of_true (Or.inr hcancel) fun c' h => ?_
        have hturn : turn w ⟨[], s :: rest, st⟩ = .ok ⟨[], [], st.ask.tell runCancelText⟩ :=
          if_pos hcancel
        rw [← Outcome.ok.inj (hturn.symm.trans h)]
        exact Or.inl rfl
      | false =>
        have hturn : turn w ⟨[], s :: rest, st⟩ = .ok ⟨[.seq [s]], rest, st.ask⟩ :=
          if_neg (by rw [hcancel]; exact nofun)
        refine iff_of_false (fun h => ?_) fun h => nomatch (h _ hturn).1
        rcases h with h | h
        · cases h
        · exact Bool.noConfusion (hcancel.symm.trans h)
  | cons frame frames =>
    cases frame with
    | seq ss =>
      cases ss with
      | nil =>
        have hexecutes : ¬ Executes ⟨.seq [] :: frames, rest, st⟩ :=
          fun ⟨_, _, _, h⟩ => nomatch h
        have hprints : ¬ Prints w ⟨.seq [] :: frames, rest, st⟩ := by
          rintro ⟨c', h, hne⟩
          rw [← Outcome.ok.inj h] at hne
          exact hne rfl
        rw [and_iff_right hexecutes, and_iff_right hprints]
        constructor
        · rintro ⟨-, h⟩ c' hc'
          rw [← Outcome.ok.inj hc']
          exact h
        · exact fun h => ⟨rfl, h _ rfl⟩
      | cons s ss =>
        exact iff_of_false (fun h => nomatch h.1) fun h => h.1 ⟨s, ss, frames, rfl⟩
    | loop cond body turns =>
      have hexecutes : ¬ Executes ⟨.loop cond body turns :: frames, rest, st⟩ :=
        fun ⟨_, _, _, h⟩ => nomatch h
      rw [and_iff_right hexecutes]
      exact quietLoop_iff_turn

def Silent (w : World) (c : Config) : Prop :=
  ∀ c', ReflTransGen (Turn w) c c' → ¬ Executes c' ∧ ¬ Prints w c'

theorem Silent.turn (h : Silent w c) (hturn : Turn w c c') : Silent w c' :=
  fun c'' hreach => h c'' (hreach.head hturn)

theorem silent_of_quiet (h : Quiet w c.rest c.frames c.state) : Silent w c := by
  intro c' hreach
  have hquiet : Quiet w c'.rest c'.frames c'.state := by
    induction hreach with
    | refl => exact h
    | tail _ hturn ih => exact ((quiet_iff _).mp ih).2.2 _ hturn
  obtain ⟨hexecutes, hprints, -⟩ := (quiet_iff c').mp hquiet
  exact ⟨hexecutes, hprints⟩

theorem quiet_of_silent (h : Silent w ⟨frames, rest, st⟩) : Quiet w rest frames st := by
  induction frames generalizing st with
  | nil =>
    cases rest with
    | nil => exact Or.inl rfl
    | cons s rest =>
      cases hcancel : w.cancelled st.asked with
      | true => exact Or.inr hcancel
      | false =>
        have hturn : Turn w ⟨[], s :: rest, st⟩ ⟨[.seq [s]], rest, st.ask⟩ :=
          if_neg (by rw [hcancel]; exact nofun)
        exact absurd ⟨s, [], [], rfl⟩ (h.turn hturn _ .refl).1
  | cons frame frames ih =>
    cases frame with
    | seq ss =>
      cases ss with
      | nil => exact ⟨rfl, ih (h.turn rfl)⟩
      | cons s ss => exact absurd ⟨s, ss, frames, rfl⟩ (h _ .refl).1
    | loop cond body turns =>
      induction turns generalizing st with
      | zero =>
        refine (quiet_iff ⟨.loop cond body 0 :: frames, rest, st⟩).mpr
          ⟨(h _ .refl).1, (h _ .refl).2, fun c' hturn => ?_⟩
        rcases turn_loop_cases hturn with ⟨st', rfl⟩ | ⟨n, st', hn, rfl⟩
        · exact ih (h.turn hturn)
        · cases hn
      | succ turns ihturns =>
        refine (quiet_iff ⟨.loop cond body (turns + 1) :: frames, rest, st⟩).mpr
          ⟨(h _ .refl).1, (h _ .refl).2, fun c' hturn => ?_⟩
        rcases turn_loop_cases hturn with ⟨st', rfl⟩ | ⟨n, st', hn, rfl⟩
        · exact ih (h.turn hturn)
        · cases hn
          have hbody := h.turn hturn
          cases body with
          | nil => exact ⟨rfl, ihturns (hbody.turn rfl)⟩
          | cons s ss => exact absurd ⟨s, ss, _, rfl⟩ (hbody _ .refl).1

/-- The machine ends as `run` does; and behind an `exit` or a cancellation nothing is executed or
printed exactly when what is pending there is always quiet. -/
theorem endsAtStop_iff (w : World) (program : Program) (st : State) :
    Ends w ⟨[], program, st⟩ ((run w program : Machine Unit) st >>= fun p => .ok p.2) ∧
    (EndsAtStop w program st ↔
      ∀ c, ReflTransGen (Turn w) ⟨[], program, st⟩ c → Stops w c →
        ∀ c', Turn w c c' → Quiet w c'.rest c'.frames c'.state) := by
  refine ⟨ends_run program st, ?_, ?_⟩
  · intro h c hreach hstops c' hturn
    exact quiet_of_silent fun c'' hreach' => h c hreach hstops c'' (.head' hturn hreach')
  · intro h c hreach hstops c'' hafter
    obtain ⟨c', hturn, hreach'⟩ := TransGen.head'_iff.mp hafter
    exact silent_of_quiet (h c hreach hstops c' hturn) c'' hreach'

/-- The statement behind an `exit` is executed. -/
theorem exit_goes_on :
    ¬ ∀ (w : World) (program : Program) (st : State), EndsAtStop w program st := by
  intro h
  let w : World := ⟨fun _ => false, fun _ => none⟩
  let st : State := ⟨fun _ => none, [], none, 0⟩
  let c : Config := ⟨[.seq [.exit]], [.exit], st.ask⟩
  have hexit : ReflTransGen (Turn w) ⟨[], [.exit, .exit], st⟩ c := .single rfl
  have hdone : Turn w c ⟨[.seq []], [.exit], st.ask⟩ := rfl
  have hpop : Turn w ⟨[.seq []], [.exit], st.ask⟩ ⟨[], [.exit], st.ask⟩ := rfl
  have hnext : Turn w ⟨[], [.exit], st.ask⟩ ⟨[.seq [.exit]], [], st.ask.ask⟩ := rfl
  have hafter : TransGen (Turn w) c ⟨[.seq [.exit]], [], st.ask.ask⟩ :=
    ((TransGen.single hdone).tail hpop).tail hnext
  exact (h w [.exit, .exit] st c hexit (Or.inl ⟨[], [], rfl⟩) _ hafter).1 ⟨.exit, [], [], rfl⟩

end Vibra.Script
