/-! # Programs over a block device

A program reads and writes whole blocks, and it may fail.
-/

namespace Vibra.Lib

/-- Programs over blocks `β` with writes tagged by `τ`, errors `ε` and results `α`. -/
inductive Prog (β τ ε α : Type) where
  | pure (a : α)
  | fail (e : ε)
  | read (sector : Nat) (next : Option β → Prog β τ ε α)
  | write (sector : Nat) (block : β) (tag : τ) (next : Bool → Prog β τ ε α)

/-- A write request. -/
structure Write (β τ : Type) where
  sector : Nat
  block : β
  tag : τ

/-- How a medium `μ` stores blocks. -/
structure Device (μ β : Type) where
  read : μ → Nat → β
  write : μ → Nat → β → μ

namespace Prog

variable {β τ ε ε' α α' μ : Type}

def bind : Prog β τ ε α → (α → Prog β τ ε α') → Prog β τ ε α'
  | .pure a, f => f a
  | .fail e, _ => .fail e
  | .read s next, f => .read s fun b => (next b).bind f
  | .write s b t next, f => .write s b t fun ok => (next ok).bind f

instance : Monad (Prog β τ ε) where
  pure := .pure
  bind := .bind

/-- Run a program and keep its error as a value. -/
def attempt : Prog β τ ε α → Prog β τ ε' (Except ε α)
  | .pure a => .pure (.ok a)
  | .fail e => .pure (.error e)
  | .read s next => .read s fun b => (next b).attempt
  | .write s b t next => .write s b t fun ok => (next ok).attempt

/-- The result and the medium after a run in which every request succeeds. -/
def run (dev : Device μ β) : Prog β τ ε α → μ → Except ε α × μ
  | .pure a, m => (.ok a, m)
  | .fail e, m => (.error e, m)
  | .read s next, m => run dev (next (some (dev.read m s))) m
  | .write s b _ next, m => run dev (next true) (dev.write m s b)

/-- The writes of that run, in order. -/
def trace (dev : Device μ β) : Prog β τ ε α → μ → List (Write β τ)
  | .pure _, _ => []
  | .fail _, _ => []
  | .read s next, m => trace dev (next (some (dev.read m s))) m
  | .write s b t next, m => ⟨s, b, t⟩ :: trace dev (next true) (dev.write m s b)

def replay (dev : Device μ β) (ws : List (Write β τ)) (m : μ) : μ :=
  ws.foldl (fun m w => dev.write m w.sector w.block) m

@[simp] theorem replay_nil (dev : Device μ β) (m : μ) :
    replay dev ([] : List (Write β τ)) m = m := rfl

@[simp] theorem replay_cons (dev : Device μ β) (w : Write β τ) (ws : List (Write β τ)) (m : μ) :
    replay dev (w :: ws) m = replay dev ws (dev.write m w.sector w.block) := rfl

theorem replay_append (dev : Device μ β) (ws vs : List (Write β τ)) (m : μ) :
    replay dev (ws ++ vs) m = replay dev vs (replay dev ws m) := List.foldl_append

theorem run_eq_replay (dev : Device μ β) (p : Prog β τ ε α) (m : μ) :
    (p.run dev m).2 = replay dev (p.trace dev m) m := by
  induction p generalizing m with
  | pure a => rfl
  | fail e => rfl
  | read s next ih => exact ih _ m
  | write s b t next ih => exact ih true _

/-- Every write meets `G` on the medium it finds, and the program ends in `Q`
with a result or in `E` with an error. -/
def wp (dev : Device μ β) (G : μ → Write β τ → Prop) (Q : α → μ → Prop) (E : ε → μ → Prop) :
    Prog β τ ε α → μ → Prop
  | .pure a, m => Q a m
  | .fail e, m => E e m
  | .read s next, m => wp dev G Q E (next (some (dev.read m s))) m
  | .write s b t next, m => G m ⟨s, b, t⟩ ∧ wp dev G Q E (next true) (dev.write m s b)

variable {dev : Device μ β} {G G' : μ → Write β τ → Prop} {Q Q' : α → μ → Prop}
  {E E' : ε → μ → Prop}

@[simp] theorem wp_pure (a : α) (m : μ) :
    wp dev G Q E (Pure.pure a : Prog β τ ε α) m ↔ Q a m := Iff.rfl

@[simp] theorem wp_fail (e : ε) (m : μ) :
    wp dev G Q E (.fail e : Prog β τ ε α) m ↔ E e m := Iff.rfl

@[simp] theorem wp_bind (p : Prog β τ ε α) (f : α → Prog β τ ε α') {Q : α' → μ → Prop} (m : μ) :
    wp dev G Q E (p >>= f) m ↔ wp dev G (fun a m => wp dev G Q E (f a) m) E p m := by
  change wp dev G Q E (p.bind f) m ↔ _
  induction p generalizing m with
  | pure a => exact Iff.rfl
  | fail e => exact Iff.rfl
  | read s next ih => exact ih _ m
  | write s b t next ih => exact and_congr Iff.rfl (ih true _)

@[simp] theorem wp_attempt (p : Prog β τ ε α) {Q : Except ε α → μ → Prop} {E : ε' → μ → Prop}
    (m : μ) : wp dev G Q E (p.attempt : Prog β τ ε' (Except ε α)) m ↔
      wp dev G (fun a m => Q (.ok a) m) (fun e m => Q (.error e) m) p m := by
  induction p generalizing m with
  | pure a => exact Iff.rfl
  | fail e => exact Iff.rfl
  | read s next ih => exact ih _ m
  | write s b t next ih => exact and_congr Iff.rfl (ih true _)

theorem wp_mono {p : Prog β τ ε α} {m : μ} (h : wp dev G Q E p m)
    (hG : ∀ m w, G m w → G' m w) (hQ : ∀ a m, Q a m → Q' a m) (hE : ∀ e m, E e m → E' e m) :
    wp dev G' Q' E' p m := by
  induction p generalizing m with
  | pure a => exact hQ a m h
  | fail e => exact hE e m h
  | read s next ih => exact ih _ h
  | write s b t next ih => exact ⟨hG _ _ h.1, ih true h.2⟩

theorem wp_post {p : Prog β τ ε α} {m : μ} (h : wp dev G Q E p m)
    (hQ : ∀ a m, Q a m → Q' a m) (hE : ∀ e m, E e m → E' e m) : wp dev G Q' E' p m :=
  wp_mono h (fun _ _ hw => hw) hQ hE

theorem wp_of_forall {p : Prog β τ ε α} {m : μ} (hQ : ∀ a m, Q a m) (hE : ∀ e m, E e m) :
    wp dev (fun _ _ => True) Q E p m := by
  induction p generalizing m with
  | pure a => exact hQ a m
  | fail e => exact hE e m
  | read s next ih => exact ih _
  | write s b t next ih => exact ⟨trivial, ih true⟩

theorem wp_run {p : Prog β τ ε α} {m : μ} (h : wp dev G Q E p m) :
    match p.run dev m with
    | (.ok a, m') => Q a m'
    | (.error e, m') => E e m' := by
  induction p generalizing m with
  | pure a => exact h
  | fail e => exact h
  | read s next ih => exact ih _ h
  | write s b t next ih => exact ih true h.2

theorem wp_trace {p : Prog β τ ε α} {m : μ} (h : wp dev G Q E p m)
    {before after : List (Write β τ)} {w : Write β τ} (hw : p.trace dev m = before ++ w :: after) :
    G (replay dev before m) w := by
  induction p generalizing m before with
  | pure a => simp [trace] at hw
  | fail e => simp [trace] at hw
  | read s next ih => exact ih _ h hw
  | write s b t next ih =>
    cases before with
    | nil =>
      obtain ⟨rfl, -⟩ : (⟨s, b, t⟩ : Write β τ) = w ∧ _ := by simpa [trace] using hw
      exact h.1
    | cons v before =>
      obtain ⟨rfl, hrest⟩ : (⟨s, b, t⟩ : Write β τ) = v ∧ _ := by simpa [trace] using hw
      exact ih true h.2 hrest

theorem wp_crash {I : μ → Prop} {p : Prog β τ ε α} {m : μ}
    (h : wp dev (fun m _ => I m) (fun _ m => I m) (fun _ m => I m) p m) (n : Nat) :
    I (replay dev ((p.trace dev m).take n) m) := by
  induction p generalizing m n with
  | pure a =>
    rw [trace, List.take_nil]
    exact h
  | fail e =>
    rw [trace, List.take_nil]
    exact h
  | read s next ih => exact ih _ h n
  | write s b t next ih =>
    cases n with
    | zero => exact h.1
    | succ n => exact ih true h.2 n

def writeAll (e : ε) : List (Write β τ) → Prog β τ ε Unit
  | [] => .pure ()
  | w :: ws => .write w.sector w.block w.tag fun ok => if ok then writeAll e ws else .fail e

theorem wp_writeAll {e : ε} {ws : List (Write β τ)} {Q : Unit → μ → Prop} {m : μ} :
    wp dev G Q E (writeAll e ws) m ↔
      (∀ before w after, ws = before ++ w :: after → G (replay dev before m) w) ∧
        Q () (replay dev ws m) := by
  induction ws generalizing m with
  | nil => simp [writeAll, wp]
  | cons w ws ih =>
    simp only [writeAll, wp, if_true, ih, replay_cons]
    constructor
    · rintro ⟨hw, hws, hQ⟩
      refine ⟨?_, hQ⟩
      intro before v after h
      cases before with
      | nil =>
        obtain ⟨rfl, -⟩ : w = v ∧ _ := by simpa using h
        exact hw
      | cons u before =>
        obtain ⟨rfl, hrest⟩ : w = u ∧ _ := by simpa using h
        exact hws before v after hrest
    · rintro ⟨hall, hQ⟩
      exact ⟨hall [] w ws rfl, fun before v after h => hall (w :: before) v after (by simp [h]), hQ⟩

/-- The program issues no write, whatever the device answers. -/
def ReadOnly : Prog β τ ε α → Prop
  | .pure _ => True
  | .fail _ => True
  | .read _ next => ∀ b, ReadOnly (next b)
  | .write _ _ _ _ => False

theorem readOnly_pure (a : α) : ReadOnly (Pure.pure a : Prog β τ ε α) := trivial

theorem readOnly_fail (e : ε) : ReadOnly (.fail e : Prog β τ ε α) := trivial

theorem ReadOnly.bind {p : Prog β τ ε α} {f : α → Prog β τ ε α'} (hp : ReadOnly p)
    (hf : ∀ a, ReadOnly (f a)) : ReadOnly (p >>= f) := by
  change ReadOnly (p.bind f)
  induction p with
  | pure a => exact hf a
  | fail e => trivial
  | read s next ih => exact fun b => ih b (hp b)
  | write s b t next ih => exact hp.elim

theorem ReadOnly.attempt {p : Prog β τ ε α} (hp : ReadOnly p) :
    ReadOnly (p.attempt : Prog β τ ε' (Except ε α)) := by
  induction p with
  | pure a => trivial
  | fail e => trivial
  | read s next ih => exact fun b => ih b (hp b)
  | write s b t next ih => exact hp.elim

theorem ReadOnly.trace {p : Prog β τ ε α} (hp : ReadOnly p) (dev : Device μ β) (m : μ) :
    p.trace dev m = [] := by
  induction p with
  | pure a => rfl
  | fail e => rfl
  | read s next ih => exact ih _ (hp _)
  | write s b t next ih => exact hp.elim

theorem ReadOnly.run {p : Prog β τ ε α} (hp : ReadOnly p) (dev : Device μ β) (m : μ) :
    (p.run dev m).2 = m := by
  rw [run_eq_replay, hp.trace, replay_nil]

theorem ReadOnly.wp {p : Prog β τ ε α} (hp : ReadOnly p) {m : μ}
    (hQ : ∀ a, p.run dev m = (.ok a, m) → Q a m) (hE : ∀ e, p.run dev m = (.error e, m) → E e m) :
    wp dev G Q E p m := by
  induction p with
  | pure a => exact hQ a rfl
  | fail e => exact hE e rfl
  | read s next ih => exact ih _ (hp _) hQ hE
  | write s b t next ih => exact hp.elim

/-- A device with answers of its own, which may refuse a request and change with each. -/
structure Responder (μ β : Type) where
  read : μ → Nat → Option β × μ
  write : μ → Nat → β → Bool × μ

/-- The result and the device after a run. -/
def answer (dev : Responder μ β) : Prog β τ ε α → μ → Except ε α × μ
  | .pure a, m => (.ok a, m)
  | .fail e, m => (.error e, m)
  | .read s next, m => answer dev (next (dev.read m s).1) (dev.read m s).2
  | .write s b _ next, m => answer dev (next (dev.write m s b).1) (dev.write m s b).2

def Yields (P : α → Prop) : Prog β τ ε α → Prop
  | .pure a => P a
  | .fail _ => True
  | .read _ next => ∀ b, Yields P (next b)
  | .write _ _ _ next => ∀ ok, Yields P (next ok)

theorem yields_pure {P : α → Prop} {a : α} (h : P a) :
    Yields P (Pure.pure a : Prog β τ ε α) := h

theorem Yields.mono {P P' : α → Prop} {p : Prog β τ ε α} (hp : Yields P p)
    (h : ∀ a, P a → P' a) : Yields P' p := by
  induction p with
  | pure a => exact h a hp
  | fail e => trivial
  | read s next ih => exact fun b => ih b (hp b)
  | write s b t next ih => exact fun ok => ih ok (hp ok)

theorem yields_true (p : Prog β τ ε α) : Yields (fun _ => True) p := by
  induction p with
  | pure a => trivial
  | fail e => trivial
  | read s next ih => exact ih
  | write s b t next ih => exact ih

theorem Yields.bind {P : α → Prop} {P' : α' → Prop} {p : Prog β τ ε α}
    {f : α → Prog β τ ε α'} (hp : Yields P p) (hf : ∀ a, P a → Yields P' (f a)) :
    Yields P' (p >>= f) := by
  change Yields P' (p.bind f)
  induction p with
  | pure a => exact hf a hp
  | fail e => trivial
  | read s next ih => exact fun b => ih b (hp b)
  | write s b t next ih => exact fun ok => ih ok (hp ok)

theorem Yields.attempt {P : α → Prop} {p : Prog β τ ε α} (hp : Yields P p) :
    Yields (fun r : Except ε α => ∀ a, r = .ok a → P a)
      (p.attempt : Prog β τ ε' (Except ε α)) := by
  induction p with
  | pure a =>
    intro b hb
    cases hb
    exact hp
  | fail e =>
    intro b hb
    cases hb
  | read s next ih => exact fun b => ih b (hp b)
  | write s b t next ih => exact fun ok => ih ok (hp ok)

theorem Yields.answer {P : α → Prop} {p : Prog β τ ε α} (hp : Yields P p)
    (dev : Responder μ β) {m : μ} {a : α} (h : (p.answer dev m).1 = .ok a) : P a := by
  induction p generalizing m with
  | pure b =>
    cases h
    exact hp
  | fail e => cases h
  | read s next ih => exact ih _ (hp _) h
  | write s b t next ih => exact ih _ (hp _) h

end Prog

/-- Programs whose only requests are reads. -/
inductive ReadProg (β α : Type) where
  | pure (a : α)
  | read (sector : Nat) (next : Option β → ReadProg β α)

namespace ReadProg

variable {β τ ε α α' : Type}

def map (f : α → α') : ReadProg β α → ReadProg β α'
  | .pure a => .pure (f a)
  | .read s next => .read s fun b => (next b).map f

def lift : ReadProg β α → Prog β τ ε α
  | .pure a => .pure a
  | .read s next => .read s fun b => (next b).lift

theorem readOnly_lift (p : ReadProg β α) : (p.lift : Prog β τ ε α).ReadOnly := by
  induction p with
  | pure a => trivial
  | read s next ih => exact fun b => ih b

theorem yields_map (p : ReadProg β α) {f : α → α'} {P : α' → Prop} (h : ∀ a, P (f a)) :
    (((p.map f).lift : Prog β τ ε α')).Yields P := by
  induction p with
  | pure a => exact h a
  | read s next ih => exact fun b => ih b

end ReadProg

end Vibra.Lib
