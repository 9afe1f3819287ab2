import Mathlib.Data.UInt

/-! # Sums in one's complement

16-bit words are added with the carry out of the high bit added back at the low one.
-/

namespace Vibra.Lib.OnesComplement

def add (a b : Nat) : Nat := (a + b) % 2 ^ 16 + (a + b) / 2 ^ 16

def sum (words : List Nat) : Nat := words.foldl add 0

/-- The big-endian words of a message; an odd last byte is the high half of a word. -/
def words : List UInt8 → List Nat
  | [] => []
  | [a] => [256 * a.toNat]
  | a :: b :: rest => (256 * a.toNat + b.toNat) :: words rest

def fold (n : Nat) : Nat := if n = 0 then 0 else (n - 1) % 65535 + 1

theorem fold_le (n : Nat) : fold n ≤ 65535 := by
  unfold fold
  split <;> omega

theorem fold_of_lt {n : Nat} (h : n < 2 ^ 16) : fold n = n := by
  unfold fold
  split <;> omega

theorem fold_turn {n : Nat} (h : 2 ^ 16 ≤ n) : fold (n % 2 ^ 16 + n / 2 ^ 16) = fold n := by
  unfold fold
  rw [if_neg (by omega), if_neg (by omega)]
  omega

theorem add_fold (n : Nat) {w : Nat} (h : w < 2 ^ 16) : add (fold n) w = fold (n + w) := by
  have hle := fold_le n
  unfold add
  by_cases hn : n = 0
  · subst hn
    have hzero : fold 0 = 0 := rfl
    rw [hzero, Nat.zero_add, fold_of_lt h]
    omega
  · unfold fold at hle ⊢
    rw [if_neg hn] at hle ⊢
    rw [if_neg (by omega)]
    omega

theorem words_lt (data : List UInt8) : ∀ w ∈ words data, w < 2 ^ 16 := by
  induction data using words.induct with
  | case1 => nofun
  | case2 a =>
    intro w hw
    have ha := a.toNat_lt
    rw [words, List.mem_singleton] at hw
    omega
  | case3 a b rest ih =>
    intro w hw
    have ha := a.toNat_lt
    have hb := b.toNat_lt
    rw [words, List.mem_cons] at hw
    rcases hw with rfl | hw
    · omega
    · exact ih w hw

theorem foldl_add {ws : List Nat} (h : ∀ w ∈ ws, w < 2 ^ 16) (n : Nat) :
    ws.foldl add (fold n) = fold (n + ws.sum) := by
  induction ws generalizing n with
  | nil => rfl
  | cons w ws ih =>
    rw [List.foldl_cons, add_fold n (h w List.mem_cons_self),
      ih fun x hx => h x (List.mem_cons_of_mem w hx), List.sum_cons, Nat.add_assoc]

theorem sum_eq {ws : List Nat} (h : ∀ w ∈ ws, w < 2 ^ 16) : sum ws = fold ws.sum := by
  have hzero := foldl_add h 0
  rwa [Nat.zero_add] at hzero

theorem fold_complement (n : Nat) : fold (n + (65535 - fold n)) = 65535 := by
  unfold fold
  by_cases hn : n = 0
  · subst hn
    rfl
  · rw [if_neg hn, if_neg (by omega)]
    omega

end Vibra.Lib.OnesComplement
