import Mathlib.Data.List.Induction
import Mathlib.Data.List.Nodup

/-! # Lists as maps

A list whose elements have different keys is a map from keys to elements. An
element that comes or goes anywhere in the list changes the map at its key only.
-/

namespace Vibra.Lib

namespace KeyedList

variable {α κ : Type} {key : α → κ} {l pre post : List α} {x : α}

def Unique (key : α → κ) (l : List α) : Prop := (l.map key).Nodup

theorem unique_insert :
    Unique key (pre ++ x :: post) ↔ Unique key (pre ++ post) ∧ ∀ a ∈ pre ++ post, key a ≠ key x := by
  have hperm : ((pre ++ x :: post).map key).Perm (key x :: (pre ++ post).map key) :=
    List.perm_middle.map key
  rw [Unique, Unique, hperm.nodup_iff, List.nodup_cons]
  simp only [List.mem_map, not_exists, not_and]
  exact and_comm

theorem Unique.eq_of_subset {l' : List α} (h : Unique key l') (hkeys : l.map key = l'.map key)
    (hsub : ∀ a ∈ l', a ∈ l) : l = l' := by
  induction l' generalizing l with
  | nil => simpa using hkeys
  | cons b l' ih =>
    obtain ⟨a, l, rfl⟩ : ∃ a t, l = a :: t := by
      cases l with
      | nil => contradiction
      | cons a l => exact ⟨a, l, rfl⟩
    rw [List.map_cons, List.map_cons, List.cons.injEq] at hkeys
    obtain ⟨hhead, htail⟩ := hkeys
    rw [Unique, List.map_cons, List.nodup_cons] at h
    have hab : a = b := by
      rcases List.mem_cons.mp (hsub b (by simp)) with hb | hb
      · exact hb.symm
      · exact absurd (htail ▸ List.mem_map_of_mem hb) h.1
    have hrest : l = l' := by
      refine ih h.2 htail fun c hc => ?_
      rcases List.mem_cons.mp (hsub c (by simp [hc])) with rfl | hcl
      · exact absurd (hhead ▸ List.mem_map_of_mem hc) h.1
      · exact hcl
    rw [hab, hrest]

variable [DecidableEq κ]

def lookup (key : α → κ) (l : List α) (k : κ) : Option α := l.find? fun a => key a == k

theorem lookup_eq_none {k : κ} : lookup key l k = none ↔ ∀ a ∈ l, key a ≠ k := by
  simp [lookup, List.find?_eq_none]

theorem lookup_eq_some (h : Unique key l) {k : κ} : lookup key l k = some x ↔ x ∈ l ∧ key x = k := by
  constructor
  · intro hx
    exact ⟨List.mem_of_find?_eq_some hx, by simpa using List.find?_some hx⟩
  · rintro ⟨hx, rfl⟩
    cases hfind : lookup key l (key x) with
    | none => exact absurd rfl (lookup_eq_none.mp hfind x hx)
    | some y =>
      have hy : key y = key x := by simpa using List.find?_some hfind
      exact congrArg some (List.inj_on_of_nodup_map h (List.mem_of_find?_eq_some hfind) hx hy)

theorem lookup_insert (h : ∀ a ∈ pre ++ post, key a ≠ key x) :
    lookup key (pre ++ x :: post) = Function.update (lookup key (pre ++ post)) (key x) (some x) := by
  funext k
  rw [Function.update_apply, lookup, List.find?_append, List.find?_cons]
  by_cases hk : k = key x
  · subst hk
    have hpre : pre.find? (fun a => key a == key x) = none :=
      lookup_eq_none.mpr fun a ha => h a (List.mem_append_left _ ha)
    simp [hpre]
  · rw [if_neg hk, beq_false_of_ne (Ne.symm hk), lookup, List.find?_append]

end KeyedList

end Vibra.Lib

/-! ## Cells that are written over

Of several writes to a cell the last one stands.
-/

namespace Vibra.Lib

variable {α : Type} {writes : List (Nat × α)} {i : Nat}

def writeAll (writes : List (Nat × α)) (cells : Nat → α) : Nat → α :=
  writes.foldl (fun cells w => Function.update cells w.1 w.2) cells

def lastWrite (i : Nat) (writes : List (Nat × α)) : Option α :=
  writes.foldl (fun last w => if w.1 = i then some w.2 else last) none

theorem lastWrite_snoc (w : Nat × α) :
    lastWrite i (writes ++ [w]) = if w.1 = i then some w.2 else lastWrite i writes := by
  rw [lastWrite, List.foldl_append]
  rfl

theorem writeAll_apply (writes : List (Nat × α)) (cells : Nat → α) (i : Nat) :
    writeAll writes cells i = (lastWrite i writes).getD (cells i) := by
  induction writes using List.reverseRecOn with
  | nil => rfl
  | append_singleton writes w ih =>
    rw [lastWrite_snoc, writeAll, List.foldl_append]
    show Function.update (writeAll writes cells) w.1 w.2 i = _
    by_cases h : w.1 = i
    · rw [if_pos h, ← h, Function.update_self]
      rfl
    · rw [if_neg h, Function.update_of_ne (Ne.symm h), ih]

theorem lastWrite_filter {p : Nat × α → Bool} (writes : List (Nat × α))
    (h : ∀ w : Nat × α, w.1 = i → p w = true) :
    lastWrite i (writes.filter p) = lastWrite i writes := by
  induction writes using List.reverseRecOn with
  | nil => rfl
  | append_singleton writes w ih =>
    rw [lastWrite_snoc, List.filter_append]
    by_cases hw : p w = true
    · rw [List.filter_cons_of_pos hw, List.filter_nil, lastWrite_snoc, ih]
    · have hne : w.1 ≠ i := fun heq => hw (h w heq)
      rw [List.filter_cons_of_neg hw, List.filter_nil, List.append_nil, if_neg hne, ih]

end Vibra.Lib
