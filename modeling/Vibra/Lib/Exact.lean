import Vibra.Lib.Checked

/-! # Machine operations and exact ones

A program does operations that a machine may not be able to carry out. It is written once, over a
`Carrier`:
-/

namespace Vibra.Lib

/-- The operations `ω` with values in `ν`: `run` is what the machine does, `none` a panic. -/
class Operation (ω : Type) (ν : outParam Type) where
  value : ω → ν
  Fits : ω → Prop
  run : ω → Option ν
  run_of_fits : ∀ op, Fits op → run op = some (value op)
  run_of_not : ∀ op, ¬ Fits op → run op = none

/-- A program over a state, with errors and operations. -/
class Carrier (m : Type → Type) (σ ε ω ν : outParam Type) extends Monad m where
  op : ω → m ν
  get : m σ
  set : σ → m Unit
  lift : {α : Type} → Outcome ε α → m α

variable {σ ε ω ν α β : Type}

def Checked (σ ε _ω α : Type) : Type := σ → Outcome ε (α × σ)

def Traced (σ ε ω α : Type) : Type := σ → Outcome ε (α × σ) × List ω

namespace Checked

protected def pure (a : α) : Checked σ ε ω α := fun s => .ok (a, s)

protected def bind (x : Checked σ ε ω α) (f : α → Checked σ ε ω β) : Checked σ ε ω β := fun s =>
  match x s with
  | .ok (a, s) => f a s
  | .err e => .err e
  | .panic => .panic
  | .diverge => .diverge

instance [Operation ω ν] : Carrier (Checked σ ε ω) σ ε ω ν where
  pure := .pure
  bind := .bind
  op o := fun s =>
    match Operation.run o with
    | some v => .ok (v, s)
    | none => .panic
  get := fun s => .ok (s, s)
  set s := fun _ => .ok ((), s)
  lift x := fun s => Outcome.bind x fun a => .ok (a, s)

end Checked

namespace Traced

protected def pure (a : α) : Traced σ ε ω α := fun s => (.ok (a, s), [])

protected def bind (x : Traced σ ε ω α) (f : α → Traced σ ε ω β) : Traced σ ε ω β := fun s =>
  match x s with
  | (.ok (a, s), ops) => ((f a s).1, ops ++ (f a s).2)
  | (.err e, ops) => (.err e, ops)
  | (.panic, ops) => (.panic, ops)
  | (.diverge, ops) => (.diverge, ops)

instance [Operation ω ν] : Carrier (Traced σ ε ω) σ ε ω ν where
  pure := .pure
  bind := .bind
  op o := fun s => (.ok (Operation.value o, s), [o])
  get := fun s => (.ok (s, s), [])
  set s := fun _ => (.ok ((), s), [])
  lift x := fun s => (Outcome.bind x fun a => .ok (a, s), [])

end Traced

variable [Operation ω ν]

/-- The exact run returns; the machine does the same when all its operations fit, and panics
when one does not. -/
def AgreesAt (r : Outcome ε α) (t : Outcome ε α × List ω) : Prop :=
  t.1.Safe ∧ ((∀ op ∈ t.2, Operation.Fits op) → r = t.1) ∧
    (¬ (∀ op ∈ t.2, Operation.Fits op) → r = .panic)

def Agrees (x : Checked σ ε ω α) (t : Traced σ ε ω α) : Prop := ∀ s, AgreesAt (x s) (t s)

theorem agreesAt_nil {r : Outcome ε α} (h : r.Safe) :
    AgreesAt r (r, ([] : List ω)) :=
  ⟨h, fun _ => rfl, fun h => absurd (fun _ hop => nomatch hop) h⟩

namespace Agrees

theorem pure (a : α) :
    Agrees (Pure.pure a : Checked σ ε ω α) (Pure.pure a : Traced σ ε ω α) := fun _ =>
  agreesAt_nil trivial

theorem bind {x : Checked σ ε ω α} {t : Traced σ ε ω α} {f : α → Checked σ ε ω β}
    {g : α → Traced σ ε ω β} (hx : Agrees x t) (hf : ∀ a, Agrees (f a) (g a)) :
    Agrees (x >>= f) (t >>= g) := by
  intro s
  show AgreesAt (Checked.bind x f s) (Traced.bind t g s)
  obtain ⟨hsafe, hfit, hnot⟩ := hx s
  rw [Traced.bind, Checked.bind]
  cases ht : t s with
  | mk r ops =>
  rw [ht] at hsafe hfit hnot
  cases r with
  | panic => exact absurd hsafe id
  | diverge => exact absurd hsafe id
  | err e =>
    refine ⟨trivial, fun h => ?_, fun h => ?_⟩
    · rw [hfit h]
    · rw [hnot h]
  | ok p =>
    obtain ⟨a, s'⟩ := p
    obtain ⟨hsafe', hfit', hnot'⟩ := hf a s'
    refine ⟨hsafe', fun h => ?_, fun h => ?_⟩
    · rw [hfit fun op hop => h op (List.mem_append_left _ hop)]
      exact hfit' fun op hop => h op (List.mem_append_right _ hop)
    · by_cases hall : ∀ op ∈ ops, Operation.Fits op
      · rw [hfit hall]
        refine hnot' fun hall' => h fun op hop => ?_
        rcases List.mem_append.mp hop with hop | hop
        · exact hall op hop
        · exact hall' op hop
      · rw [hnot hall]

theorem op (o : ω) :
    Agrees (Carrier.op o : Checked σ ε ω ν) (Carrier.op o : Traced σ ε ω ν) := by
  intro s
  refine ⟨trivial, fun h => ?_, fun h => ?_⟩
  · show (match Operation.run o with | some v => Outcome.ok (v, s) | none => .panic) = _
    rw [Operation.run_of_fits o (h o List.mem_cons_self)]
    rfl
  · show (match Operation.run o with | some v => Outcome.ok (v, s) | none => .panic) = _
    rw [Operation.run_of_not o fun ho => h fun op hop => by rwa [List.mem_singleton.mp hop]]

theorem get : Agrees (Carrier.get : Checked σ ε ω σ) (Carrier.get : Traced σ ε ω σ) := fun _ =>
  agreesAt_nil trivial

theorem set (s : σ) :
    Agrees (Carrier.set s : Checked σ ε ω Unit) (Carrier.set s : Traced σ ε ω Unit) := fun _ =>
  agreesAt_nil trivial

theorem lift {x : Outcome ε α} (h : x.Safe) :
    Agrees (Carrier.lift x : Checked σ ε ω α) (Carrier.lift x : Traced σ ε ω α) := fun s =>
  agreesAt_nil (by cases x <;> trivial)

theorem safe_iff {x : Checked σ ε ω α} {t : Traced σ ε ω α} (h : Agrees x t) (s : σ) :
    (x s).Safe ↔ ∀ op ∈ (t s).2, Operation.Fits op := by
  obtain ⟨hsafe, hfit, hnot⟩ := h s
  refine ⟨fun hx => Classical.byContradiction fun hall => ?_, fun hall => ?_⟩
  · rw [hnot hall] at hx
    exact hx
  · rw [hfit hall]
    exact hsafe

end Agrees

end Vibra.Lib
