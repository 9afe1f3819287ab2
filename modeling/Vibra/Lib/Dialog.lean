/-! # Dialogs with an environment

A dialog asks for `q` and goes on as the answer `r` says.
-/

namespace Vibra.Lib

inductive Dialog (Q R α : Type) where
  | done (a : α)
  | ask (q : Q) (next : R → Dialog Q R α)

namespace Dialog

variable {Q R α β : Type}

def bind : Dialog Q R α → (α → Dialog Q R β) → Dialog Q R β
  | .done a, f => f a
  | .ask q next, f => .ask q fun r => (next r).bind f

instance : Monad (Dialog Q R) where
  pure := .done
  bind := .bind

def question (q : Q) : Dialog Q R R := .ask q .done

@[simp] theorem done_bind (a : α) (f : α → Dialog Q R β) :
    (pure a : Dialog Q R α) >>= f = f a := rfl

/-- However the dialog is answered after `log`, its result meets `P` with the whole
transcript. -/
def After (P : α → List (Q × R) → Prop) : Dialog Q R α → List (Q × R) → Prop
  | .done a, log => P a log
  | .ask q next, log => ∀ r, After P (next r) (log ++ [(q, r)])

variable {P P' : α → List (Q × R) → Prop} {log : List (Q × R)}

@[simp] theorem after_pure (a : α) : After P (pure a : Dialog Q R α) log ↔ P a log := Iff.rfl

@[simp] theorem after_bind (p : Dialog Q R α) (f : α → Dialog Q R β)
    {P : β → List (Q × R) → Prop} :
    After P (p >>= f) log ↔ After (fun a log => After P (f a) log) p log := by
  change After P (p.bind f) log ↔ _
  induction p generalizing log with
  | done a => exact Iff.rfl
  | ask q next ih => exact forall_congr' fun r => ih r

theorem after_bind_pure {p : Dialog Q R α} : After P (p >>= pure) log ↔ After P p log :=
  after_bind p pure

@[simp] theorem after_question (q : Q) {P : R → List (Q × R) → Prop} :
    After P (question q : Dialog Q R R) log ↔ ∀ r, P r (log ++ [(q, r)]) := Iff.rfl

theorem After.mono {p : Dialog Q R α} (h : After P p log) (hP : ∀ a log, P a log → P' a log) :
    After P' p log := by
  induction p generalizing log with
  | done a => exact hP a log h
  | ask q next ih => exact fun r => ih r (h r)

theorem After.and {p : Dialog Q R α} (h : After P p log) (h' : After P' p log) :
    After (fun a log => P a log ∧ P' a log) p log := by
  induction p generalizing log with
  | done a => exact ⟨h, h'⟩
  | ask q next ih => exact fun r => ih r (h r) (h' r)

theorem After.exists [Inhabited R] {p : Dialog Q R α} (h : After P p log) :
    ∃ a log', P a log' ∧ log <+: log' := by
  induction p generalizing log with
  | done a => exact ⟨a, log, h, List.prefix_refl log⟩
  | ask q next ih =>
    rcases ih default (h _) with ⟨a, log', ha, hlog⟩
    exact ⟨a, log', ha, (List.prefix_append log _).trans hlog⟩

theorem after_extends (p : Dialog Q R α) (log : List (Q × R)) :
    After (fun _ log' => log <+: log') p log := by
  induction p generalizing log with
  | done a => exact List.prefix_refl log
  | ask q next ih =>
    exact fun r => (ih r _).mono fun _ log' h => (List.prefix_append log _).trans h

/-- The dialog ends with `a` when it goes as `log` says. -/
def Transcript : Dialog Q R α → List (Q × R) → α → Prop
  | .done b, [], a => b = a
  | .ask q next, (q', r) :: log, a => q = q' ∧ Transcript (next r) log a
  | .done _, _ :: _, _ => False
  | .ask _ _, [], _ => False

theorem After.of_transcript {p : Dialog Q R α} {before : List (Q × R)} {a : α}
    (h : After P p before) (ht : p.Transcript log a) : P a (before ++ log) := by
  induction p generalizing before log with
  | done b =>
    cases log with
    | nil =>
      rw [List.append_nil]
      exact (show b = a from ht) ▸ h
    | cons => exact ht.elim
  | ask q next ih =>
    cases log with
    | nil => exact ht.elim
    | cons x log =>
      obtain ⟨rfl, ht⟩ := ht
      simpa using ih x.2 (h x.2) ht

theorem transcript_pure {a b : α} :
    (pure b : Dialog Q R α).Transcript log a ↔ log = [] ∧ b = a := by
  cases log with
  | nil => exact ⟨fun h => ⟨rfl, h⟩, And.right⟩
  | cons x log => exact ⟨False.elim, fun h => absurd h.1 (List.cons_ne_nil x log)⟩

theorem transcript_question {q q' : Q} {r : R} {f : R → Dialog Q R α} {a : α} :
    (question q >>= f).Transcript ((q', r) :: log) a ↔ q = q' ∧ (f r).Transcript log a := Iff.rfl

theorem after_iff_transcript {p : Dialog Q R α} {before : List (Q × R)} :
    After P p before ↔ ∀ log a, p.Transcript log a → P a (before ++ log) := by
  constructor
  · exact fun h log a ht => h.of_transcript ht
  · intro h
    induction p generalizing before with
    | done a =>
      have ha := h [] a rfl
      rw [List.append_nil] at ha
      exact ha
    | ask q next ih =>
      intro r
      apply ih r
      intro log a ht
      rw [List.append_assoc]
      exact h ((q, r) :: log) a ⟨rfl, ht⟩

theorem Transcript.bind {p : Dialog Q R α} {f : α → Dialog Q R β} {log' : List (Q × R)} {a : α}
    {b : β} (hp : p.Transcript log a) (hf : (f a).Transcript log' b) :
    (p >>= f).Transcript (log ++ log') b := by
  change (p.bind f).Transcript (log ++ log') b
  induction p generalizing log with
  | done c =>
    cases log with
    | nil =>
      cases (show c = a from hp)
      exact hf
    | cons x log => exact hp.elim
  | ask q next ih =>
    cases log with
    | nil => exact hp.elim
    | cons x log => exact ⟨hp.1, ih x.2 hp.2⟩

section Via

variable {Q' R' : Type} (f : Q → Q') (g : R' → R)

def via : Dialog Q R α → Dialog Q' R' α
  | .done a => .done a
  | .ask q next => .ask (f q) fun r => via (next (g r))

@[simp] theorem via_pure (a : α) : (pure a : Dialog Q R α).via f g = pure a := rfl

@[simp] theorem via_question (q : Q) :
    (question q : Dialog Q R R).via f g = .ask (f q) fun r => .done (g r) := rfl

@[simp] theorem via_bind (p : Dialog Q R α) (k : α → Dialog Q R β) :
    (p >>= k).via f g = p.via f g >>= fun a => (k a).via f g := by
  change (p.bind k).via f g = (p.via f g).bind fun a => (k a).via f g
  induction p with
  | done a => rfl
  | ask q next ih => exact congrArg (Dialog.ask (f q)) (funext fun r => ih (g r))

end Via

def through {Q' R' : Type} (f : Q → Dialog Q' R' R) : Dialog Q R α → Dialog Q' R' α
  | .done a => .done a
  | .ask q next => (f q).bind fun r => through f (next r)

theorem after_through_ask {Q' R' : Type} {f : Q → Dialog Q' R' R} {q : Q} {next : R → Dialog Q R α}
    {P : α → List (Q' × R') → Prop} {log : List (Q' × R')}
    (h : After P ((ask q next).through f) log) :
    After (fun r log => After P ((next r).through f) log) (f q) log :=
  (after_bind (f q) fun r => (next r).through f).mp h

/-- Whatever it is answered, the dialog asks only for what meets `φ`. -/
def Asks (φ : Q → Prop) : Dialog Q R α → Prop
  | .done _ => True
  | .ask q next => φ q ∧ ∀ r, Asks φ (next r)

variable {φ : Q → Prop}

theorem asks_pure (a : α) : Asks φ (pure a : Dialog Q R α) := trivial

theorem asks_question {q : Q} (h : φ q) : Asks φ (question q : Dialog Q R R) :=
  ⟨h, fun _ => trivial⟩

theorem Asks.bind {p : Dialog Q R α} {f : α → Dialog Q R β} (hp : Asks φ p)
    (hf : ∀ a, Asks φ (f a)) : Asks φ (p >>= f) := by
  change Asks φ (p.bind f)
  induction p with
  | done a => exact hf a
  | ask q next ih => exact ⟨hp.1, fun r => ih r (hp.2 r)⟩

theorem Asks.through {Q' R' : Type} {φ : Q' → Prop} {f : Q → Dialog Q' R' R}
    (hf : ∀ q, Asks φ (f q)) (p : Dialog Q R α) : Asks φ (p.through f) := by
  induction p with
  | done a => trivial
  | ask q next ih => exact (hf q).bind ih

theorem Asks.after {p : Dialog Q R α} (h : Asks φ p) (hlog : ∀ x ∈ log, φ x.1) :
    After (fun _ log' => ∀ x ∈ log', φ x.1) p log := by
  induction p generalizing log with
  | done a => exact hlog
  | ask q next ih =>
    intro r
    refine ih r (h.2 r) fun x hx => ?_
    rcases List.mem_append.mp hx with hold | hnew
    · exact hlog x hold
    · rw [List.mem_singleton.mp hnew]
      exact h.1

/-- With a price for every question, the dialog never spends more than `n`. -/
def Costs (price : Q → Nat) : Dialog Q R α → Nat → Prop
  | .done _, _ => True
  | .ask q next, n => price q ≤ n ∧ ∀ r, Costs price (next r) (n - price q)

variable {price : Q → Nat} {n n' : Nat}

theorem Costs.mono {p : Dialog Q R α} (h : Costs price p n) (hn : n ≤ n') :
    Costs price p n' := by
  induction p generalizing n n' with
  | done a => trivial
  | ask q next ih =>
    exact ⟨Nat.le_trans h.1 hn, fun r => ih r (h.2 r) (Nat.sub_le_sub_right hn _)⟩

theorem costs_question (q : Q) : Costs price (question q : Dialog Q R R) (price q) :=
  ⟨Nat.le_refl _, fun _ => trivial⟩

theorem Costs.bind {p : Dialog Q R α} {f : α → Dialog Q R β} (hp : Costs price p n)
    (hf : ∀ a, Costs price (f a) n') : Costs price (p >>= f) (n + n') := by
  change Costs price (p.bind f) (n + n')
  induction p generalizing n with
  | done a => exact (hf a).mono (Nat.le_add_left _ _)
  | ask q next ih =>
    refine ⟨Nat.le_add_right_of_le hp.1, fun r => (ih r (hp.2 r)).mono ?_⟩
    have := hp.1
    omega

theorem Costs.bind_free {p : Dialog Q R α} {f : α → Dialog Q R β} (hp : Costs price p n)
    (hf : ∀ a, Costs price (f a) 0) : Costs price (p >>= f) n :=
  hp.bind hf

end Dialog

end Vibra.Lib
