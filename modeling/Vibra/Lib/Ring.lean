import Mathlib.Data.List.Basic
import Mathlib.Data.Nat.ModEq

/-! # Turns around a ring

The places of a ring of `n` are `0` to `n - 1`. Whose turn comes next is found by a walk from the
place after the current one.
-/

namespace Vibra.Lib.Ring

/-- The walk: the first place where `p` holds, `none` once it is back at `start`. -/
def seek (p : Nat → Bool) (n start : Nat) : Nat → Nat → Option Nat
  | 0, _ => none
  | fuel + 1, next =>
    if p next then some next
    else if (next + 1) % n = start then none
    else seek p n start fuel ((next + 1) % n)

/-- The first place after `c` where `p` holds; `c` itself comes last. -/
def FirstAfter (p : Nat → Prop) (n c i : Nat) : Prop :=
  ∃ k, 1 ≤ k ∧ k ≤ n ∧ (c + k) % n = i ∧ p i ∧ ∀ m, 1 ≤ m → m < k → ¬ p ((c + m) % n)

/-- Going round from `c`, the place `i` comes before `j`; `c` itself comes last. -/
def Sooner (c i j : Nat) : Prop := (c < i ∧ (i < j ∨ j ≤ c)) ∨ (i < j ∧ j ≤ c)

/-- Going round from `i`, the place `c` has been reached and `j` has not. -/
def Ahead (i c j : Nat) : Prop := (i ≤ c ∧ (c < j ∨ j < i)) ∨ (c < j ∧ j < i)

variable {n c i j : Nat}

theorem offset (hc : c < n) (hi : i < n) : ∃ m, 1 ≤ m ∧ m ≤ n ∧ (c + m) % n = i := by
  by_cases h : c < i
  · exact ⟨i - c, by omega, by omega, by rw [Nat.add_sub_cancel' h.le, Nat.mod_eq_of_lt hi]⟩
  · refine ⟨i + n - c, by omega, by omega, ?_⟩
    rw [show c + (i + n - c) = i + n from by omega, Nat.add_mod_right, Nat.mod_eq_of_lt hi]

theorem place (hc : c < n) {k : Nat} (hk : k ≤ n) :
    (c + k) % n = if c + k < n then c + k else c + k - n := by
  by_cases h : c + k < n
  · rw [if_pos h, Nat.mod_eq_of_lt h]
  · rw [if_neg h, Nat.mod_eq_sub_mod (by omega), Nat.mod_eq_of_lt (by omega)]

theorem seek_from (p : Nat → Bool) (hc : c < n) (fuel k : Nat) (hk : 1 ≤ k)
    (hf : fuel + k = n + 1) :
    (∃ q, k ≤ q ∧ q ≤ n ∧ seek p n ((c + 1) % n) fuel ((c + k) % n) = some ((c + q) % n) ∧
      p ((c + q) % n) ∧ ∀ m, k ≤ m → m < q → ¬ p ((c + m) % n)) ∨
    (seek p n ((c + 1) % n) fuel ((c + k) % n) = none ∧
      ∀ m, k ≤ m → m ≤ n → ¬ p ((c + m) % n)) := by
  induction fuel generalizing k with
  | zero => exact Or.inr ⟨rfl, fun m h1 h2 => by omega⟩
  | succ fuel ih =>
    by_cases hp : p ((c + k) % n)
    · exact Or.inl ⟨k, le_rfl, by omega, by simp [seek, hp], hp, fun m h1 h2 => by omega⟩
    have hnext : ((c + k) % n + 1) % n = (c + (k + 1)) % n := by
      rw [Nat.mod_add_mod, Nat.add_assoc]
    by_cases hback : (c + (k + 1)) % n = (c + 1) % n
    · have hlast : k = n := by
        rw [place hc (show 1 ≤ n from by omega)] at hback
        by_cases hkn : k + 1 ≤ n
        · rw [place hc hkn] at hback
          split at hback <;> split at hback <;> omega
        · omega
      refine Or.inr ⟨by simp [seek, hp, hnext, hback], fun m h1 h2 => ?_⟩
      rwa [show m = k from by omega]
    · have hs : seek p n ((c + 1) % n) (fuel + 1) ((c + k) % n) =
          seek p n ((c + 1) % n) fuel ((c + (k + 1)) % n) := by
        simp [seek, hp, hnext, hback]
      rw [hs]
      have hmore : ∀ m, k ≤ m → m ≠ k → k + 1 ≤ m := fun m h1 h2 => by omega
      rcases ih (k + 1) (by omega) (by omega) with ⟨q, h1, h2, h3, h4, h5⟩ | ⟨h1, h2⟩
      · refine Or.inl ⟨q, by omega, h2, h3, h4, fun m hm hq => ?_⟩
        by_cases e : m = k
        · rwa [e]
        · exact h5 m (hmore m hm e) hq
      · refine Or.inr ⟨h1, fun m hm hq => ?_⟩
        by_cases e : m = k
        · rwa [e]
        · exact h2 m (hmore m hm e) hq

theorem seek_cases (p : Nat → Bool) (hc : c < n) :
    (∃ i, seek p n ((c + 1) % n) n ((c + 1) % n) = some i ∧ FirstAfter (p · = true) n c i) ∨
    (seek p n ((c + 1) % n) n ((c + 1) % n) = none ∧ ∀ i < n, ¬ p i) := by
  rcases seek_from p hc n 1 le_rfl rfl with ⟨q, h1, h2, h3, h4, h5⟩ | ⟨h1, h2⟩
  · exact Or.inl ⟨_, h3, q, h1, h2, rfl, h4, h5⟩
  · refine Or.inr ⟨h1, fun i hi => ?_⟩
    obtain ⟨m, hm1, hm2, rfl⟩ := offset hc hi
    exact h2 m hm1 hm2

theorem FirstAfter.holds {p : Nat → Prop} (h : FirstAfter p n c i) : p i :=
  h.choose_spec.2.2.2.1

theorem FirstAfter.lt {p : Nat → Prop} (h : FirstAfter p n c i) : i < n := by
  obtain ⟨k, _, _, rfl, _⟩ := h
  exact Nat.mod_lt _ (by omega)

theorem FirstAfter.congr {p q : Nat → Prop} (hpq : ∀ i < n, p i ↔ q i)
    (h : FirstAfter p n c i) : FirstAfter q n c i := by
  have hlt := h.lt
  obtain ⟨k, h1, h2, h3, h4, h5⟩ := h
  refine ⟨k, h1, h2, h3, (hpq i hlt).mp h4, fun m hm hk hq => h5 m hm hk ?_⟩
  exact (hpq _ (Nat.mod_lt _ (by omega))).mpr hq

theorem FirstAfter.sooner {p : Nat → Prop} (hc : c < n) (h : FirstAfter p n c i) (hj : j < n)
    (hp : p j) (hne : j ≠ i) : Sooner c i j := by
  obtain ⟨k, h1, h2, h3, _, h5⟩ := h
  obtain ⟨m, hm1, hm2, hm3⟩ := offset hc hj
  have hkm : k < m := by
    by_contra hle
    rcases Nat.lt_or_eq_of_le (Nat.le_of_not_lt hle) with hlt | he
    · exact h5 m hm1 hlt (hm3 ▸ hp)
    · exact hne (by rw [← hm3, ← h3, he])
  rw [place hc h2] at h3
  rw [place hc hm2] at hm3
  unfold Sooner
  split at h3 <;> split at hm3 <;> omega

theorem ahead_self (h : j ≠ i) : Ahead i i j := by
  unfold Ahead
  omega

theorem Ahead.turn {s : Nat} (h : Ahead i c j) (hs : Sooner c s j) : Ahead i s j ∧ s ≠ i := by
  unfold Ahead Sooner at *
  omega

end Vibra.Lib.Ring

/-! ## A ring that overwrites

A ring of `n` cells holds the last `n` items of a stream. A reader keeps a cursor into the
stream; what it has not read is overwritten in time.
-/

namespace Vibra.Lib

/-- The cells, and how many items have been put in all. -/
structure RecentRing (α : Type) where
  cells : Nat → α
  total : Nat

namespace RecentRing

variable {α : Type} {n : Nat} {r : RecentRing α} {stream : List α}

def put (n : Nat) (r : RecentRing α) (a : α) : RecentRing α where
  cells := Function.update r.cells (r.total % n) a
  total := r.total + 1

def first (n : Nat) (r : RecentRing α) : Nat := r.total - n

/-- Up to `room` items from the cursor on, as far as the edge of the ring, and the cursor
behind them. -/
def chunk (n : Nat) (r : RecentRing α) (cursor room : Nat) : List α × Nat :=
  let start := max cursor (r.first n)
  if r.total ≤ start ∨ room = 0 then ([], r.total)
  else
    let index := start % n
    let count := min (min (n - index) (r.total - start)) room
    ((List.range count).map fun k => r.cells (index + k), start + count)

/-- The ring holds the end of the stream. -/
structure Holds (n : Nat) (r : RecentRing α) (stream : List α) : Prop where
  total : stream.length = r.total
  cells : ∀ i a, r.first n ≤ i → stream[i]? = some a → r.cells (i % n) = a

theorem Holds.put (h : Holds n r stream) (a : α) :
    Holds n (r.put n a) (stream ++ [a]) where
  total := by
    rw [List.length_append, h.total]
    rfl
  cells i b hi hb := by
    by_cases hlt : i < stream.length
    · rw [List.getElem?_append_left hlt] at hb
      have htotal := h.total
      have hfirst : r.total + 1 - n ≤ i := hi
      have hne : i % n ≠ r.total % n := by
        intro heq
        have hle : i ≤ r.total := by omega
        have hdvd : n ∣ r.total - i := (Nat.modEq_iff_dvd' hle).mp heq
        have := Nat.le_of_dvd (by omega) hdvd
        omega
      show Function.update r.cells (r.total % n) a (i % n) = b
      rw [Function.update_of_ne hne]
      exact h.cells i b (by rw [first]; omega) hb
    · have heq : i = stream.length := by
        have := (List.getElem?_eq_some_iff.mp hb).1
        rw [List.length_append, List.length_singleton] at this
        omega
      rw [heq, List.getElem?_concat_length] at hb
      show Function.update r.cells (r.total % n) a (i % n) = b
      rw [heq, h.total, Function.update_self]
      exact Option.some.inj hb

theorem Holds.chunk (h : Holds n r stream) (hn : 0 < n) {cursor room : Nat}
    (hfirst : r.first n ≤ cursor) (hle : cursor ≤ r.total) (hroom : 0 < room) :
    (r.chunk n cursor room).2 = cursor + (r.chunk n cursor room).1.length ∧
      (r.chunk n cursor room).2 ≤ r.total ∧
      ((r.chunk n cursor room).1 = [] ↔ cursor = r.total) ∧
      ∃ before after, stream = before ++ (r.chunk n cursor room).1 ++ after ∧
        before.length = cursor := by
  rw [RecentRing.chunk, Nat.max_eq_left hfirst]
  dsimp only
  by_cases hend : r.total ≤ cursor
  · have heq : cursor = r.total := by omega
    rw [if_pos (.inl hend)]
    refine ⟨by rw [heq, List.length_nil, Nat.add_zero], le_rfl, ⟨fun _ => heq, fun _ => rfl⟩,
      stream, [], ?_, by rw [h.total, heq]⟩
    rw [List.append_nil, List.append_nil]
  · rw [if_neg (by omega)]
    have hmod := Nat.mod_lt cursor hn
    generalize hcount : min (min (n - cursor % n) (r.total - cursor)) room = count
    have hbound : count ≤ n - cursor % n ∧ count ≤ r.total - cursor ∧ 0 < count := by omega
    have hlen := h.total
    have hitems : (List.range count).map (fun k => r.cells (cursor % n + k)) =
        (stream.drop cursor).take count := by
      refine List.ext_getElem (by simp; omega) fun k hk hk' => ?_
      have hlt : k < count := by simpa using hk
      have hget : cursor + k < stream.length := by omega
      rw [List.getElem_map, List.getElem_range, List.getElem_take, List.getElem_drop]
      have hcell := h.cells (cursor + k) _ (by omega) (List.getElem?_eq_getElem hget)
      rw [← hcell, Nat.add_mod cursor k n, Nat.mod_eq_of_lt (show k < n by omega),
        Nat.mod_eq_of_lt (show cursor % n + k < n by omega)]
    refine ⟨?_, by show cursor + count ≤ r.total; omega, ?_, ?_⟩
    · rw [List.length_map, List.length_range]
    · rw [List.map_eq_nil_iff, List.range_eq_nil]
      omega
    · refine ⟨stream.take cursor, (stream.drop cursor).drop count, ?_, ?_⟩
      · rw [hitems, List.append_assoc, List.take_append_drop, List.take_append_drop]
      · rw [List.length_take]
        omega

end RecentRing

end Vibra.Lib
