import Mathlib.Data.Nat.ModEq

/-! # Rings with done flags

A producer writes an item into the slot at its place and marks the slot done. A consumer takes the
item at its own place once that is done, and takes the mark off.
-/

namespace Vibra.Lib

structure DoneRing (α : Type) where
  done : Nat → Bool
  item : Nat → α
  head : Nat
  tail : Nat

namespace DoneRing

variable {α : Type} {n : Nat} {r r' : DoneRing α} {queue : List α}

def put (n : Nat) (r : DoneRing α) (a : α) : DoneRing α :=
  { r with
    done := Function.update r.done r.tail true
    item := Function.update r.item r.tail a
    tail := (r.tail + 1) % n }

def pass (n : Nat) (r : DoneRing α) : DoneRing α :=
  { r with done := Function.update r.done r.head false, head := (r.head + 1) % n }

def drain (n : Nat) : Nat → DoneRing α → List α
  | 0, _ => []
  | k + 1, r => if r.done r.head then r.item r.head :: drain n k (r.pass n) else []

/-- The slots from the consumer's on hold the queue, and no others are done. -/
structure Holds (n : Nat) (r : DoneRing α) (queue : List α) : Prop where
  head : r.head < n
  room : queue.length ≤ n
  waiting : ∀ i (h : i < queue.length),
    r.done ((r.head + i) % n) = true ∧ r.item ((r.head + i) % n) = queue[i]
  free : ∀ i, queue.length ≤ i → i < n → r.done ((r.head + i) % n) = false

structure Alike (r r' : DoneRing α) : Prop where
  done : r.done = r'.done
  head : r.head = r'.head
  item : ∀ i, r.done i = true → r.item i = r'.item i

theorem Alike.symm (h : Alike r r') : Alike r' r :=
  ⟨h.done.symm, h.head.symm, fun i hi => (h.item i (h.done ▸ hi)).symm⟩

theorem Alike.pass (h : Alike r r') (n : Nat) : Alike (r.pass n) (r'.pass n) where
  done := by simp only [DoneRing.pass, h.done, h.head]
  head := by simp only [DoneRing.pass, h.head]
  item i hi := by
    refine h.item i ?_
    by_cases hhead : i = r.head
    · simp only [DoneRing.pass, hhead, Function.update_self] at hi
      contradiction
    · simpa only [DoneRing.pass, Function.update_of_ne hhead] using hi

theorem Alike.drain (h : Alike r r') (n k : Nat) : drain n k r = drain n k r' := by
  induction k generalizing r r' with
  | zero => rfl
  | succ k ih =>
    simp only [DoneRing.drain, ← h.done, ← h.head]
    split
    next hdone => rw [h.item r.head hdone, ih (h.pass n)]
    next => rfl

theorem Alike.holds (h : Alike r r') (hr : Holds n r queue) : Holds n r' queue where
  head := h.head ▸ hr.head
  room := hr.room
  waiting i hi := by
    obtain ⟨hdone, hitem⟩ := hr.waiting i hi
    rw [← h.head, ← h.done, ← h.item _ hdone]
    exact ⟨hdone, hitem⟩
  free i hle hi := by
    rw [← h.head, ← h.done]
    exact hr.free i hle hi

theorem place_inj {c i j : Nat} (hi : i < n) (hj : j < n) (h : (c + i) % n = (c + j) % n) :
    i = j := by
  have hmod : i ≡ j [MOD n] := Nat.ModEq.add_left_cancel' c h
  rwa [Nat.ModEq, Nat.mod_eq_of_lt hi, Nat.mod_eq_of_lt hj] at hmod

theorem Holds.done_head (h : Holds n r queue) : r.done r.head = true ↔ queue ≠ [] := by
  have hplace : (r.head + 0) % n = r.head := Nat.mod_eq_of_lt h.head
  constructor
  · rintro hdone rfl
    have hfree := h.free 0 (Nat.le_refl 0) (Nat.zero_lt_of_lt h.head)
    rw [hplace, hdone] at hfree
    contradiction
  · intro hne
    have hwait := (h.waiting 0 (List.length_pos_iff.mpr hne)).1
    rwa [hplace] at hwait

theorem Holds.item_head {a : α} (h : Holds n r (a :: queue)) : r.item r.head = a := by
  have hwait := (h.waiting 0 (Nat.zero_lt_succ _)).2
  rwa [Nat.add_zero, Nat.mod_eq_of_lt h.head] at hwait

theorem Holds.room_of_free (h : Holds n r queue) (htail : r.tail = (r.head + queue.length) % n)
    (hfree : r.done r.tail = false) : queue.length < n := by
  refine lt_of_le_of_ne h.room fun hfull => ?_
  have hwait := (h.waiting 0 (by have := h.head; omega)).1
  rw [htail, hfull, Nat.add_mod_right] at hfree
  rw [Nat.add_zero, hfree] at hwait
  contradiction

theorem Holds.put (h : Holds n r queue) (htail : r.tail = (r.head + queue.length) % n)
    (hroom : queue.length < n) (a : α) : Holds n (r.put n a) (queue ++ [a]) where
  head := h.head
  room := by
    rw [List.length_append]
    exact hroom
  waiting i hi := by
    rw [List.length_append, List.length_singleton] at hi
    by_cases hlast : i = queue.length
    · subst hlast
      simp [DoneRing.put, htail]
    · have hlt : i < queue.length := by omega
      have hne : (r.head + i) % n ≠ r.tail := fun heq =>
        hlast (place_inj (by omega) hroom (heq.trans htail))
      simp only [DoneRing.put, Function.update_of_ne hne, List.getElem_append_left hlt]
      exact h.waiting i hlt
  free i hle hi := by
    rw [List.length_append, List.length_singleton] at hle
    have hne : (r.head + i) % n ≠ r.tail := fun heq => by
      have := place_inj hi hroom (heq.trans htail)
      omega
    simp only [DoneRing.put, Function.update_of_ne hne]
    exact h.free i (by omega) hi

theorem Holds.pass {a : α} (h : Holds n r (a :: queue)) : Holds n (r.pass n) queue where
  head := Nat.mod_lt _ (Nat.zero_lt_of_lt h.head)
  room := (Nat.le_succ _).trans h.room
  waiting i hi := by
    have hroom := h.room
    rw [List.length_cons] at hroom
    have hne : (r.head + (i + 1)) % n ≠ r.head := fun heq => by
      have hzero : (r.head + (i + 1)) % n = (r.head + 0) % n := by
        rw [heq, Nat.add_zero, Nat.mod_eq_of_lt h.head]
      have := place_inj (by omega) (Nat.zero_lt_of_lt h.head) hzero
      omega
    have hwait := h.waiting (i + 1) (Nat.succ_lt_succ hi)
    rw [List.getElem_cons_succ] at hwait
    simp only [DoneRing.pass, Nat.mod_add_mod, Nat.add_assoc, Nat.add_comm 1 i]
    rwa [Function.update_of_ne hne]
  free i hle hi := by
    simp only [DoneRing.pass, Nat.mod_add_mod, Nat.add_assoc, Nat.add_comm 1 i]
    by_cases hback : (r.head + (i + 1)) % n = r.head
    · rw [hback, Function.update_self]
    · rw [Function.update_of_ne hback]
      have hlt : i + 1 < n := by
        refine lt_of_le_of_ne hi fun heq => hback ?_
        rw [heq, Nat.add_mod_right, Nat.mod_eq_of_lt h.head]
      exact h.free (i + 1) (Nat.succ_le_succ hle) hlt

theorem Holds.drain (h : Holds n r queue) {k : Nat} (hk : queue.length ≤ k) :
    drain n k r = queue := by
  induction queue generalizing r k with
  | nil =>
    have hhead : r.done r.head = false := by
      rw [← Bool.not_eq_true]
      exact fun hdone => h.done_head.mp hdone rfl
    cases k with
    | zero => rfl
    | succ k => rw [DoneRing.drain, hhead, if_neg Bool.false_ne_true]
  | cons a queue ih =>
    obtain ⟨k, rfl⟩ : ∃ j, k = j + 1 := ⟨k - 1, by simp only [List.length_cons] at hk; omega⟩
    have hdone := h.done_head.mpr (List.cons_ne_nil a queue)
    rw [DoneRing.drain, if_pos hdone, h.item_head, ih h.pass (Nat.le_of_succ_le_succ hk)]

theorem length_drain_congr (hdone : r.done = r'.done) (hhead : r.head = r'.head) (k : Nat) :
    (drain n k r).length = (drain n k r').length := by
  induction k generalizing r r' with
  | zero => rfl
  | succ k ih =>
    have hdone' : (r.pass n).done = (r'.pass n).done := by simp only [pass, hdone, hhead]
    have hhead' : (r.pass n).head = (r'.pass n).head := by simp only [pass, hhead]
    have hpass := ih hdone' hhead'
    simp only [drain, hdone, hhead]
    split
    · rw [List.length_cons, List.length_cons, hpass]
    · rfl

end DoneRing

end Vibra.Lib
