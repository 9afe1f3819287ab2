import Mathlib.Data.List.Basic
import Mathlib.Data.List.Induction

/-! # Separated paths

A path is a list in which a separator divides parts. Empty parts do not count.
`join` writes a separator before every part, and `parts` reads such a path back.
-/

namespace Vibra.Lib.Path

variable {α : Type*} {sep : α}

def join (sep : α) (ps : List (List α)) : List α := ps.flatMap (sep :: ·)

def Clean (sep : α) (ps : List (List α)) : Prop := ∀ p ∈ ps, p ≠ [] ∧ sep ∉ p

theorem Clean.of_subset {ps qs : List (List α)} (h : Clean sep ps) (hsub : ∀ q ∈ qs, q ∈ ps) :
    Clean sep qs :=
  fun q hq => h q (hsub q hq)

@[simp] theorem join_nil : join sep [] = [] := rfl

theorem join_cons (p : List α) (ps : List (List α)) :
    join sep (p :: ps) = sep :: p ++ join sep ps := rfl

theorem join_append (ps qs : List (List α)) :
    join sep (ps ++ qs) = join sep ps ++ join sep qs := List.flatMap_append

theorem join_concat (ps : List (List α)) (p : List α) :
    join sep (ps ++ [p]) = join sep ps ++ sep :: p := by
  rw [join_append, join_cons, join_nil, List.append_nil]

theorem join_eq_nil {ps : List (List α)} : join sep ps = [] ↔ ps = [] := by
  cases ps with
  | nil => simp
  | cons p ps => simp [join_cons]

variable [DecidableEq α]

def parts (sep : α) (path : List α) : List (List α) := (path.splitOn sep).filter (· ≠ [])

@[simp] theorem parts_nil : parts sep [] = [] := rfl

theorem parts_append (s t : List α) : parts sep (s ++ sep :: t) = parts sep s ++ parts sep t := by
  rw [parts, parts, parts, List.splitOn_append_cons_self, List.filter_append]

theorem parts_cons (t : List α) : parts sep (sep :: t) = parts sep t := parts_append [] t

theorem parts_of_not_mem {p : List α} (hne : p ≠ []) (h : sep ∉ p) : parts sep p = [p] := by
  rw [parts, List.splitOn_eq_singleton h]
  simp [hne]

theorem not_mem_of_mem_splitOn {path p : List α} (h : p ∈ path.splitOn sep) : sep ∉ p := by
  induction path generalizing p with
  | nil =>
    rw [List.splitOn_nil, List.mem_singleton] at h
    simp [h]
  | cons c path ih =>
    rw [List.splitOn_cons_eq_if_modifyHead] at h
    split at h
    · rcases List.mem_cons.mp h with rfl | h
      · simp
      · exact ih h
    next hc =>
      cases hsplit : path.splitOn sep with
      | nil =>
        rw [hsplit] at h
        simp at h
      | cons q rest =>
        rw [hsplit, List.modifyHead_cons] at h
        rcases List.mem_cons.mp h with rfl | h
        · have hq := ih (p := q) (by simp [hsplit])
          simp only [beq_iff_eq] at hc
          simp [hq, Ne.symm hc]
        · exact ih (by simp [hsplit, h])

theorem clean_parts (path : List α) : Clean sep (parts sep path) := by
  intro p hp
  obtain ⟨hp, hne⟩ := List.mem_filter.mp hp
  exact ⟨by simpa using hne, not_mem_of_mem_splitOn hp⟩

theorem parts_join {ps : List (List α)} (h : Clean sep ps) : parts sep (join sep ps) = ps := by
  induction ps using List.reverseRecOn with
  | nil => rfl
  | append_singleton ps p ih =>
    obtain ⟨hne, hsep⟩ := h p (by simp)
    rw [join_concat, parts_append, ih (h.of_subset fun q hq => by simp [hq]),
      parts_of_not_mem hne hsep]

theorem join_injective {ps qs : List (List α)} (hp : Clean sep ps) (hq : Clean sep qs)
    (h : join sep ps = join sep qs) : ps = qs := by
  rw [← parts_join hp, h, parts_join hq]

def rfind (sep : α) (path : List α) : Option Nat :=
  (path.reverse.idxOf? sep).map (path.length - 1 - ·)

theorem idxOf?_append_cons {p : List α} (h : sep ∉ p) (s : List α) :
    (p ++ sep :: s).idxOf? sep = some p.length := by
  induction p with
  | nil => simp [List.idxOf?_cons]
  | cons c p ih =>
    obtain ⟨hc, hp⟩ := not_or.mp (List.mem_cons.not.mp h)
    rw [List.cons_append, List.idxOf?_cons, if_neg (by simpa using Ne.symm hc), ih hp]
    rfl

theorem rfind_append {s p : List α} (h : sep ∉ p) : rfind sep (s ++ sep :: p) = some s.length := by
  have hp : sep ∉ p.reverse := by simpa using h
  have hrev : (s ++ sep :: p).reverse = p.reverse ++ sep :: s.reverse := by simp
  rw [rfind, hrev, idxOf?_append_cons hp, Option.map_some, List.length_append, List.length_cons,
    List.length_reverse]
  congr 1
  omega

end Vibra.Lib.Path
