import Mathlib.Data.Char
import Mathlib.Data.List.Chain

/-! # UTF-16

The text of a list of 16-bit units. A pair of surrogates is one character; what is no
character reads as a question mark.
-/

namespace Vibra.Lib.Utf16

def charOf (u : Nat) : Char := if u.isValidChar then Char.ofNat u else '?'

def IsHigh (u : Nat) : Prop := 0xD800 ≤ u ∧ u < 0xDC00

def IsLow (u : Nat) : Prop := 0xDC00 ≤ u ∧ u < 0xE000

instance (u : Nat) : Decidable (IsHigh u) := inferInstanceAs (Decidable (_ ∧ _))

instance (u : Nat) : Decidable (IsLow u) := inferInstanceAs (Decidable (_ ∧ _))

def decode : List Nat → List Char
  | [] => []
  | [u] => [charOf u]
  | u :: lo :: rest =>
    if IsHigh u ∧ IsLow lo then
      charOf (0x10000 + (u - 0xD800) * 1024 + (lo - 0xDC00)) :: decode rest
    else charOf u :: decode (lo :: rest)

theorem decode_eq_nil {units : List Nat} : decode units = [] ↔ units = [] := by
  constructor
  · intro h
    match units with
    | [] => rfl
    | [u] => contradiction
    | u :: lo :: rest =>
      rw [decode] at h
      split at h <;> contradiction
  · rintro rfl
    rfl

def PairFree (units : List Nat) : Prop := units.IsChain fun u lo => ¬ (IsHigh u ∧ IsLow lo)

instance (units : List Nat) : Decidable (PairFree units) :=
  inferInstanceAs (Decidable (List.IsChain _ _))

theorem length_decode_le (units : List Nat) : (decode units).length ≤ units.length := by
  fun_induction decode units with
  | case1 => exact Nat.le_refl 0
  | case2 u => exact Nat.le_refl 1
  | case3 u lo rest hpair ih =>
    simp only [List.length_cons]
    omega
  | case4 u lo rest hpair ih =>
    simp only [List.length_cons] at ih ⊢
    omega

theorem map_charOf_iff (units : List Nat) : units.map charOf = decode units ↔ PairFree units := by
  fun_induction decode units with
  | case1 => simp [PairFree]
  | case2 u => simp [PairFree]
  | case3 u lo rest hpair ih =>
    constructor
    · intro h
      have hlen := congrArg List.length h
      have hle := length_decode_le rest
      simp only [List.length_map, List.length_cons] at hlen
      omega
    · intro h
      exact absurd hpair (List.isChain_cons_cons.mp h).1
  | case4 u lo rest hpair ih =>
    rw [PairFree, List.isChain_cons_cons, List.map_cons, List.cons.injEq]
    simp only [true_and, hpair, not_false_eq_true]
    exact ih

end Vibra.Lib.Utf16
