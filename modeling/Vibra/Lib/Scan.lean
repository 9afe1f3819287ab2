import Mathlib.Data.List.Basic

/-! # Scanning

A scanner takes one symbol after the other and keeps a state; some symbols complete an item.
-/

namespace Vibra.Lib

variable {σ β κ : Type} (step : σ → β → Option κ × σ)

/-- All the items in the symbols, and the state behind them. -/
def scanAll : List β → σ → List κ × σ
  | [], st => ([], st)
  | b :: rest, st =>
    ((step st b).1.toList ++ (scanAll rest (step st b).2).1, (scanAll rest (step st b).2).2)

/-- The first item, and the symbols and the state behind it. -/
def scanFirst : List β → σ → Option κ × List β × σ
  | [], st => (none, [], st)
  | b :: rest, st =>
    match step st b with
    | (some item, st) => (some item, rest, st)
    | (none, st) => scanFirst rest st

variable {step} {bs : List β} {st : σ}

@[simp] theorem scanAll_nil : scanAll step [] st = ([], st) := rfl

theorem scanAll_append (bs more : List β) (st : σ) :
    scanAll step (bs ++ more) st =
      ((scanAll step bs st).1 ++ (scanAll step more (scanAll step bs st).2).1,
        (scanAll step more (scanAll step bs st).2).2) := by
  induction bs generalizing st with
  | nil => rfl
  | cons b bs ih => simp only [List.cons_append, scanAll, ih, List.append_assoc]

theorem scanAll_singleton (b : β) (st : σ) :
    scanAll step [b] st = ((step st b).1.toList, (step st b).2) := by
  rw [scanAll, scanAll, List.append_nil]

theorem scanAll_first (bs : List β) (st : σ) :
    scanAll step bs st =
      ((scanFirst step bs st).1.toList ++
          (scanAll step (scanFirst step bs st).2.1 (scanFirst step bs st).2.2).1,
        (scanAll step (scanFirst step bs st).2.1 (scanFirst step bs st).2.2).2) := by
  induction bs generalizing st with
  | nil => rfl
  | cons b bs ih =>
    rw [scanAll, scanFirst]
    cases hitem : step st b with
    | mk item st' =>
      cases item with
      | some item => rfl
      | none =>
        show ([] ++ (scanAll step bs st').1, _) = _
        rw [List.nil_append]
        exact ih st'

theorem scanFirst_none (h : (scanFirst step bs st).1 = none) :
    (scanFirst step bs st).2.1 = [] := by
  induction bs generalizing st with
  | nil => rfl
  | cons b bs ih =>
    rw [scanFirst] at h ⊢
    cases hitem : step st b with
    | mk item st' =>
      rw [hitem] at h
      cases item with
      | some item => contradiction
      | none => exact ih h

theorem scanFirst_head (bs : List β) (st : σ) :
    (scanFirst step bs st).1 = (scanAll step bs st).1.head? := by
  rw [scanAll_first]
  cases hitem : (scanFirst step bs st).1 with
  | some item => rfl
  | none =>
    rw [scanFirst_none hitem]
    rfl

theorem scanFirst_length (bs : List β) (st : σ) :
    (scanFirst step bs st).2.1.length + (scanFirst step bs st).1.toList.length ≤ bs.length := by
  induction bs generalizing st with
  | nil => exact Nat.le_refl _
  | cons b bs ih =>
    rw [scanFirst]
    cases hitem : step st b with
    | mk item st' =>
      cases item with
      | some item => exact Nat.le_refl _
      | none => exact Nat.le_succ_of_le (ih st')

end Vibra.Lib
