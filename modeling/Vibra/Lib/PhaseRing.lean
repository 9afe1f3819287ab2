import Mathlib.Data.Nat.ModEq

/-! # Rings with a phase bit

A producer writes entries around a ring of `n` slots and marks each with a phase that turns over at
every lap.
-/

namespace Vibra.Lib

/-- The slots, and the place and phase of either end. -/
structure PhaseRing (α : Type) where
  slots : Nat → α × Bool
  head : Nat
  headPhase : Bool
  tail : Nat
  tailPhase : Bool

namespace PhaseRing

variable {α : Type} {n : Nat}

def empty (a : α) : PhaseRing α := ⟨fun _ => (a, false), 0, true, 0, true⟩

/-- The producer writes one entry. -/
def post (n : Nat) (r : PhaseRing α) (a : α) : PhaseRing α :=
  { r with
    slots := Function.update r.slots r.tail (a, r.tailPhase)
    tail := (r.tail + 1) % n
    tailPhase := if (r.tail + 1) % n = 0 then !r.tailPhase else r.tailPhase }

/-- The consumer takes the entry at its place, if its phase is the expected one. -/
def take (n : Nat) (r : PhaseRing α) : Option (α × PhaseRing α) :=
  if (r.slots r.head).2 = r.headPhase then
    some ((r.slots r.head).1,
      { r with
        head := (r.head + 1) % n
        headPhase := if (r.head + 1) % n = 0 then !r.headPhase else r.headPhase })
  else none

def full (n : Nat) (r : PhaseRing α) : Prop := (r.tail + 1) % n = r.head

instance (n : Nat) (r : PhaseRing α) : Decidable (r.full n) :=
  inferInstanceAs (Decidable ((r.tail + 1) % n = r.head))

def phase (n k : Nat) : Bool := k / n % 2 = 0

/-- The entries that wait, the oldest first, after `taken` have been taken. -/
structure Holds (n : Nat) (r : PhaseRing α) (taken : Nat) (queue : List α) : Prop where
  room : queue.length ≤ n
  head : r.head = taken % n
  headPhase : r.headPhase = phase n taken
  tail : r.tail = (taken + queue.length) % n
  tailPhase : r.tailPhase = phase n (taken + queue.length)
  waiting : ∀ i (h : i < queue.length),
    r.slots ((taken + i) % n) = (queue[i], phase n (taken + i))
  old : ∀ i, queue.length ≤ i → i < n → (r.slots ((taken + i) % n)).2 = !phase n (taken + i)

theorem phase_succ (k : Nat) :
    phase n (k + 1) = if (k % n + 1) % n = 0 then !phase n k else phase n k := by
  have hmod : (k % n + 1) % n = (k + 1) % n := Nat.mod_add_mod k n 1
  rw [hmod, phase, phase, Nat.succ_div]
  by_cases h : n ∣ k + 1
  · rw [if_pos h, if_pos (Nat.mod_eq_zero_of_dvd h)]
    rcases Nat.mod_two_eq_zero_or_one (k / n) with h2 | h2 <;> simp [Nat.add_mod, h2]
  · rw [if_neg h, if_neg (mt Nat.dvd_of_mod_eq_zero h), Nat.add_zero]

theorem phase_add_self (hn : 0 < n) (k : Nat) : phase n (k + n) = !phase n k := by
  rw [phase, phase, Nat.add_div_right k hn]
  rcases Nat.mod_two_eq_zero_or_one (k / n) with h2 | h2 <;> simp [Nat.add_mod, h2]

theorem slot_ne {k i j : Nat} (hi : i < n) (hj : j < n) (hne : i ≠ j) :
    (k + i) % n ≠ (k + j) % n := by
  intro h
  have := Nat.ModEq.add_left_cancel' k h
  rw [Nat.ModEq, Nat.mod_eq_of_lt hi, Nat.mod_eq_of_lt hj] at this
  exact hne this

theorem holds_empty (a : α) : Holds n (empty a) 0 [] where
  room := Nat.zero_le _
  head := (Nat.zero_mod n).symm
  headPhase := by simp [empty, phase]
  tail := (Nat.zero_mod n).symm
  tailPhase := by simp [empty, phase]
  waiting := by simp
  old i _ hi := by simp [empty, phase, Nat.div_eq_of_lt hi]

theorem Holds.post {r : PhaseRing α} {taken : Nat} {queue : List α} (h : Holds n r taken queue)
    (hlt : queue.length < n) (a : α) : Holds n (r.post n a) taken (queue ++ [a]) where
  room := by
    rw [List.length_append]
    exact hlt
  head := h.head
  headPhase := h.headPhase
  tail := by
    rw [PhaseRing.post, h.tail, Nat.mod_add_mod, List.length_append, List.length_singleton,
      Nat.add_assoc]
  tailPhase := by
    rw [PhaseRing.post, h.tail, h.tailPhase, List.length_append, List.length_singleton,
      ← Nat.add_assoc, phase_succ]
  waiting i hi := by
    rw [List.length_append, List.length_singleton] at hi
    rw [PhaseRing.post, h.tail]
    dsimp only
    by_cases heq : i = queue.length
    · subst heq
      rw [Function.update_self, h.tailPhase]
      simp
    · have hi : i < queue.length := by omega
      rw [Function.update_of_ne (slot_ne (by omega) hlt heq), h.waiting i hi,
        List.getElem_append_left hi]
  old i hle hi := by
    rw [List.length_append, List.length_singleton] at hle
    rw [PhaseRing.post, h.tail]
    dsimp only
    rw [Function.update_of_ne (slot_ne hi hlt (by omega))]
    exact h.old i (by omega) hi

theorem Holds.take_nil {r : PhaseRing α} {taken : Nat} (h : Holds n r taken []) (hn : 0 < n) :
    r.take n = none := by
  have hold := h.old 0 (le_refl _) hn
  rw [Nat.add_zero, ← h.head, ← h.headPhase] at hold
  rw [take, if_neg]
  rw [hold]
  cases r.headPhase <;> decide

theorem Holds.take_cons {r : PhaseRing α} {taken : Nat} {a : α} {queue : List α}
    (h : Holds n r taken (a :: queue)) :
    ∃ r', r.take n = some (a, r') ∧ Holds n r' (taken + 1) queue := by
  have hroom : queue.length + 1 ≤ n := h.room
  have hfirst := h.waiting 0 (Nat.succ_pos _)
  rw [Nat.add_zero, ← h.head, ← h.headPhase] at hfirst
  rw [take, if_pos (by rw [hfirst]), hfirst]
  refine ⟨_, rfl, ?_⟩
  constructor
  · omega
  · dsimp only
    rw [h.head, Nat.mod_add_mod]
  · dsimp only
    rw [h.head, h.headPhase, phase_succ]
  · rw [h.tail, List.length_cons]
    congr 1
    omega
  · rw [h.tailPhase, List.length_cons]
    congr 1
    omega
  · intro i hi
    have := h.waiting (i + 1) (by simpa using hi)
    rwa [show taken + (i + 1) = taken + 1 + i by omega, List.getElem_cons_succ] at this
  · intro i hle hi
    by_cases hlast : i + 1 < n
    · have := h.old (i + 1) (by simpa using hle) hlast
      rwa [show taken + (i + 1) = taken + 1 + i by omega] at this
    · -- the slot just taken is the last of the new lap
      have heq : taken + 1 + i = taken + n := by omega
      rw [heq, phase_add_self (by omega), Nat.add_mod_right, ← h.head, hfirst, h.headPhase,
        Bool.not_not]

theorem Holds.lt_of_not_full {r : PhaseRing α} {taken : Nat} {queue : List α}
    (h : Holds n r taken queue) (hlt : queue.length < n) (hfull : ¬r.full n) :
    queue.length + 1 < n := by
  by_contra hle
  have heq : queue.length + 1 = n := by omega
  apply hfull
  rw [full, h.tail, Nat.mod_add_mod, h.head, Nat.add_assoc, heq, Nat.add_mod_right]

theorem Holds.not_full {r : PhaseRing α} {taken : Nat} {queue : List α}
    (h : Holds n r taken queue) (hlt : queue.length + 1 < n) : ¬r.full n := by
  rw [full, h.tail, Nat.mod_add_mod, h.head, Nat.add_assoc]
  have hne := slot_ne (k := taken) hlt (Nat.zero_lt_of_lt hlt) (Nat.succ_ne_zero _)
  rwa [Nat.add_zero] at hne

section Memory

variable {β : Type} {phaseOf : β → Bool} {item : β → α} {m : Nat → β} {r : PhaseRing α}
  {taken : Nat} {queue : List α}

/-- The cells of a memory carry the phases of the ring, and those of the entries that wait
the entries. What else is in the other cells does not matter. -/
structure Shows (n : Nat) (phaseOf : β → Bool) (item : β → α) (m : Nat → β) (r : PhaseRing α)
    (taken : Nat) (queue : List α) : Prop where
  phases : ∀ i < n, phaseOf (m i) = (r.slots i).2
  items : ∀ i (h : i < queue.length), item (m ((taken + i) % n)) = queue[i]

theorem Shows.scribble (hs : Shows n phaseOf item m r taken queue) (h : Holds n r taken queue)
    (hlt : queue.length < n) {b : β} (hb : phaseOf b = phaseOf (m r.tail)) :
    Shows n phaseOf item (Function.update m r.tail b) r taken queue where
  phases i hi := by
    by_cases heq : i = r.tail
    · rw [heq, Function.update_self, hb, ← heq]
      exact hs.phases i hi
    · rw [Function.update_of_ne heq]
      exact hs.phases i hi
  items i hi := by
    rw [h.tail, Function.update_of_ne (slot_ne (by omega) hlt (by omega))]
    exact hs.items i hi

theorem Shows.post (hs : Shows n phaseOf item m r taken queue) (h : Holds n r taken queue)
    (hlt : queue.length < n) {b : β} (hb : phaseOf b = r.tailPhase) :
    Shows n phaseOf item (Function.update m r.tail b) (r.post n (item b)) taken
      (queue ++ [item b]) where
  phases i hi := by
    rw [PhaseRing.post]
    dsimp only
    by_cases heq : i = r.tail
    · rw [heq, Function.update_self, Function.update_self, hb]
    · rw [Function.update_of_ne heq, Function.update_of_ne heq]
      exact hs.phases i hi
  items i hi := by
    rw [List.length_append, List.length_singleton] at hi
    by_cases heq : i = queue.length
    · subst heq
      rw [← h.tail, Function.update_self]
      simp
    · rw [h.tail, Function.update_of_ne (slot_ne (by omega) hlt heq),
        List.getElem_append_left (show i < queue.length by omega)]
      exact hs.items i (by omega)

theorem Shows.congr {m' : Nat → β} (hs : Shows n phaseOf item m r taken queue) (hn : 0 < n)
    (h : ∀ i < n, m' i = m i) : Shows n phaseOf item m' r taken queue where
  phases i hi := by
    rw [h i hi]
    exact hs.phases i hi
  items i hi := by
    rw [h _ (Nat.mod_lt _ hn)]
    exact hs.items i hi

theorem Shows.first {a : α} (hs : Shows n phaseOf item m r taken (a :: queue))
    (h : Holds n r taken (a :: queue)) :
    phaseOf (m r.head) = r.headPhase ∧ item (m r.head) = a := by
  have hroom := h.room
  have hwait := h.waiting 0 (Nat.succ_pos _)
  have hitem := hs.items 0 (Nat.succ_pos _)
  have hn : 0 < n := by
    rw [List.length_cons] at hroom
    omega
  rw [Nat.add_zero, ← h.head] at hwait hitem
  refine ⟨?_, hitem⟩
  rw [hs.phases r.head (h.head ▸ Nat.mod_lt _ hn), hwait, h.headPhase]

theorem Shows.none (hs : Shows n phaseOf item m r taken []) (h : Holds n r taken [])
    (hn : 0 < n) : phaseOf (m r.head) ≠ r.headPhase := by
  have hold := h.old 0 (Nat.le_refl _) hn
  rw [Nat.add_zero, ← h.head, ← h.headPhase] at hold
  rw [hs.phases r.head (h.head ▸ Nat.mod_lt _ hn), hold]
  cases r.headPhase <;> decide

def next (n : Nat) (r : PhaseRing α) : PhaseRing α :=
  { r with
    head := (r.head + 1) % n
    headPhase := if (r.head + 1) % n = 0 then !r.headPhase else r.headPhase }

theorem Holds.next {a : α} (h : Holds n r taken (a :: queue)) :
    Holds n (r.next n) (taken + 1) queue := by
  obtain ⟨r', htake, hholds⟩ := h.take_cons
  rw [take] at htake
  split at htake
  · cases htake
    exact hholds
  · cases htake

theorem Shows.next {a : α} (hs : Shows n phaseOf item m r taken (a :: queue)) :
    Shows n phaseOf item m (r.next n) (taken + 1) queue where
  phases := hs.phases
  items i hi := by
    have hitem := hs.items (i + 1) (by simpa using hi)
    rwa [show taken + (i + 1) = taken + 1 + i by omega, List.getElem_cons_succ] at hitem

end Memory

end PhaseRing

end Vibra.Lib
