import Mathlib.Algebra.Order.Group.Nat
import Mathlib.Data.Finset.Card

/-! # Pools of exclusively held resources

A pool manages a finite set of resources. Each managed resource is either free or held by exactly
one holder; nothing else is free or held.
-/

namespace Vibra.Lib

structure Pool (α κ : Type*) [DecidableEq α] where
  managed : Finset α
  free : Finset α
  holder : α → Option κ
  /-- A managed resource is free or held. -/
  managed_iff : ∀ a, a ∈ managed ↔ a ∈ free ∨ (holder a).isSome
  /-- A free resource is held by nobody. -/
  exclusive : ∀ a, a ∈ free → holder a = none

namespace Pool

variable {α κ : Type*} [DecidableEq α]

def full (κ : Type*) (managed : Finset α) : Pool α κ where
  managed := managed
  free := managed
  holder := fun _ => none
  managed_iff := by simp
  exclusive := by simp

theorem free_subset (p : Pool α κ) : p.free ⊆ p.managed :=
  fun a ha => (p.managed_iff a).mpr (Or.inl ha)

theorem free_card_le (p : Pool α κ) : p.free.card ≤ p.managed.card :=
  Finset.card_le_card p.free_subset

theorem mem_managed_of_holder {p : Pool α κ} {a : α} {k : κ} (h : p.holder a = some k) :
    a ∈ p.managed :=
  (p.managed_iff a).mpr (Or.inr (by simp [h]))

theorem mem_free_of_unheld {p : Pool α κ} {a : α} (hm : a ∈ p.managed)
    (hh : p.holder a = none) : a ∈ p.free := by
  rcases (p.managed_iff a).mp hm with hf | hs
  · exact hf
  · simp [hh] at hs

def grant (p : Pool α κ) (s : Finset α) (k : κ) (hs : s ⊆ p.free) : Pool α κ where
  managed := p.managed
  free := p.free \ s
  holder := fun a => if a ∈ s then some k else p.holder a
  managed_iff := by
    intro a
    by_cases ha : a ∈ s
    · simp [ha, p.free_subset (hs ha)]
    · simp [ha, p.managed_iff a]
  exclusive := by
    intro a ha
    have hd := Finset.mem_sdiff.mp ha
    simp [hd.2, p.exclusive a hd.1]

def release (p : Pool α κ) (s : Finset α) (hs : s ⊆ p.managed) : Pool α κ where
  managed := p.managed
  free := p.free ∪ s
  holder := fun a => if a ∈ s then none else p.holder a
  managed_iff := by
    intro a
    by_cases ha : a ∈ s
    · simp [ha, hs ha]
    · simp [ha, p.managed_iff a]
  exclusive := by
    intro a ha
    by_cases hm : a ∈ s
    · simp [hm]
    · have hf : a ∈ p.free := by simpa [hm] using ha
      simp [hm, p.exclusive a hf]

theorem card_grant (p : Pool α κ) (s : Finset α) (k : κ) (hs : s ⊆ p.free) :
    (p.grant s k hs).free.card = p.free.card - s.card :=
  Finset.card_sdiff_of_subset hs

theorem card_release (p : Pool α κ) (s : Finset α) (hs : s ⊆ p.managed)
    (hd : Disjoint p.free s) :
    (p.release s hs).free.card = p.free.card + s.card :=
  Finset.card_union_of_disjoint hd

end Pool

end Vibra.Lib

/-! ## Bump allocation

A pointer goes through a list of requests, and each request that is granted moves it past what
the request got. Places are as in `place p a = some (start, stop)`.
-/

namespace Vibra.Lib

/-- The least multiple of `size` at or above `p`. -/
def alignUp (size p : Nat) : Nat := (p + size - 1) / size * size

section Align

variable {size p q : Nat}

theorem le_alignUp (h : 0 < size) : p ≤ alignUp size p := by
  have hlt := Nat.lt_div_mul_add h (a := p + size - 1)
  unfold alignUp
  omega

theorem dvd_alignUp (size p : Nat) : size ∣ alignUp size p := Nat.dvd_mul_left _ _

theorem alignUp_mono (h : p ≤ q) : alignUp size p ≤ alignUp size q := by
  exact Nat.mul_le_mul_right _ (Nat.div_le_div_right (by omega))

end Align

namespace Bump

variable {α : Type*} (place : Nat → α → Option (Nat × Nat))

def advance (p : Nat) (a : α) : Nat := ((place p a).map Prod.snd).getD p

/-- The pointer after the first `i` requests. -/
def pointer (p : Nat) (l : List α) (i : Nat) : Nat := (l.take i).foldl (advance place) p

def Grows : Prop := ∀ ⦃p a x⦄, place p a = some x → p ≤ x.1 ∧ x.1 ≤ x.2

variable {place} {p : Nat} {l : List α} {a : α} {x y : Nat × Nat} {i j : Nat}

theorem advance_some (h : place p a = some x) : advance place p a = x.2 := by
  simp [advance, h]

theorem advance_none (h : place p a = none) : advance place p a = p := by
  simp [advance, h]

theorem Grows.le_advance (hg : Grows place) (p : Nat) (a : α) : p ≤ advance place p a := by
  cases h : place p a with
  | none => rw [advance_none h]
  | some x =>
    rw [advance_some h]
    exact (hg h).1.trans (hg h).2

@[simp] theorem pointer_zero : pointer place p l 0 = p := rfl

@[simp] theorem pointer_cons_succ :
    pointer place p (a :: l) (i + 1) = pointer place (advance place p a) l i := rfl

theorem pointer_succ (h : l[i]? = some a) :
    pointer place p l (i + 1) = advance place (pointer place p l i) a := by
  rw [pointer, List.take_add_one, h, List.foldl_append]
  rfl

theorem pointer_of_length_le (h : l.length ≤ i) :
    pointer place p l (i + 1) = pointer place p l i := by
  rw [pointer, pointer, List.take_of_length_le h, List.take_of_length_le (Nat.le_succ_of_le h)]

theorem Grows.pointer_mono (hg : Grows place) (h : i ≤ j) :
    pointer place p l i ≤ pointer place p l j := by
  induction j, h using Nat.le_induction with
  | base => exact le_rfl
  | succ j _ ih =>
    cases hj : l[j]? with
    | some a => exact ih.trans (pointer_succ hj ▸ hg.le_advance _ a)
    | none => rwa [pointer_of_length_le (List.getElem?_eq_none_iff.mp hj)]

theorem Grows.stop_le_start (hg : Grows place) {b : α} (hij : i < j) (hi : l[i]? = some a)
    (hx : place (pointer place p l i) a = some x) (hy : place (pointer place p l j) b = some y) :
    x.2 ≤ y.1 :=
  calc x.2 = pointer place p l (i + 1) := by rw [pointer_succ hi, advance_some hx]
    _ ≤ pointer place p l j := hg.pointer_mono hij
    _ ≤ y.1 := (hg hy).1

theorem pointer_eq_start (h : ∀ k < i, ∀ b, l[k]? = some b → place p b = none) :
    pointer place p l i = p := by
  induction i with
  | zero => rfl
  | succ i ih =>
    have hi := ih fun k hk => h k (Nat.lt_succ_of_lt hk)
    cases hl : l[i]? with
    | some a => rw [pointer_succ hl, hi, advance_none (h i (Nat.lt_succ_self i) a hl)]
    | none => rw [pointer_of_length_le (List.getElem?_eq_none_iff.mp hl), hi]

end Bump

end Vibra.Lib
