import Mathlib.Algebra.BigOperators.Fin

/-! # Merges

A merge of several sources has the items of all of them, each once, and those of one source in
their order.
-/

namespace Vibra.Lib

variable {ι α : Type} [DecidableEq ι] {merged : List α} {sources sources' : ι → List α} {a : α}
  {i : ι}

/-- The items can be told their sources so that each source is found again in its order. -/
def IsMerge (merged : List α) (sources : ι → List α) : Prop :=
  ∃ tagged : List (ι × α), tagged.map Prod.snd = merged ∧
    ∀ i, (tagged.filter fun x => x.1 = i).map Prod.snd = sources i

namespace IsMerge

theorem nil : IsMerge [] fun _ : ι => ([] : List α) := ⟨[], rfl, fun _ => rfl⟩

theorem nil_iff : IsMerge [] sources ↔ ∀ i, sources i = [] := by
  constructor
  · rintro ⟨tagged, hmap, hfilter⟩ i
    rw [← hfilter, List.map_eq_nil_iff.mp hmap]
    rfl
  · intro h
    rw [show sources = fun _ => [] from funext h]
    exact nil

theorem congr (h : IsMerge merged sources) (hs : ∀ i, sources i = sources' i) :
    IsMerge merged sources' := by
  rwa [← show sources = sources' from funext hs]

theorem snoc (h : IsMerge merged sources) (i : ι) (a : α) :
    IsMerge (merged ++ [a]) (Function.update sources i (sources i ++ [a])) := by
  obtain ⟨tagged, hmap, hfilter⟩ := h
  refine ⟨tagged ++ [(i, a)], by rw [List.map_append, hmap]; rfl, fun j => ?_⟩
  rw [List.filter_append, List.map_append, hfilter j]
  by_cases hj : j = i
  · subst hj
    rw [Function.update_self]
    simp
  · rw [Function.update_of_ne hj]
    simp [Ne.symm hj]

theorem cons (h : IsMerge merged sources) (i : ι) (a : α) :
    IsMerge (a :: merged) (Function.update sources i (a :: sources i)) := by
  obtain ⟨tagged, hmap, hfilter⟩ := h
  refine ⟨(i, a) :: tagged, by rw [List.map_cons, hmap], fun j => ?_⟩
  by_cases hj : j = i
  · subst hj
    rw [Function.update_self, List.filter_cons_of_pos (by simp), List.map_cons, hfilter j]
  · rw [Function.update_of_ne hj, List.filter_cons_of_neg (by simp [Ne.symm hj]), hfilter j]

theorem single (i : ι) (merged : List α) :
    IsMerge merged (Function.update (fun _ => []) i merged) := by
  induction merged with
  | nil => exact nil_iff.mpr fun j => by rw [Function.update_apply, ite_self]
  | cons a merged ih =>
    refine (ih.cons i a).congr fun j => ?_
    by_cases hj : j = i
    · rw [hj, Function.update_self, Function.update_self, Function.update_self]
    · rw [Function.update_of_ne hj, Function.update_of_ne hj, Function.update_of_ne hj]

theorem uncons (h : IsMerge (a :: merged) sources) :
    ∃ i rest, sources i = a :: rest ∧ IsMerge merged (Function.update sources i rest) := by
  obtain ⟨tagged, hmap, hfilter⟩ := h
  cases tagged with
  | nil => simp at hmap
  | cons x tagged =>
    obtain ⟨i, b⟩ := x
    obtain ⟨rfl, hrest⟩ := List.cons.inj hmap
    have hi := hfilter i
    rw [List.filter_cons_of_pos (by simp), List.map_cons] at hi
    refine ⟨i, _, hi.symm, tagged, hrest, fun j => ?_⟩
    by_cases hj : j = i
    · subst hj
      rw [Function.update_self]
    · rw [Function.update_of_ne hj, ← hfilter j, List.filter_cons_of_neg (by simp [Ne.symm hj])]

theorem filter (h : IsMerge merged sources) (p : α → Bool) :
    IsMerge (merged.filter p) fun i => (sources i).filter p := by
  obtain ⟨tagged, hmap, hfilter⟩ := h
  refine ⟨tagged.filter fun x => p x.2, ?_, fun i => ?_⟩
  · rw [← hmap, List.filter_map]
    rfl
  · show _ = (sources i).filter p
    rw [← hfilter i, List.filter_map, List.filter_filter, List.filter_filter]
    simp only [Bool.and_comm, Function.comp_def]

theorem mem (h : IsMerge merged sources) : a ∈ merged ↔ ∃ i, a ∈ sources i := by
  obtain ⟨tagged, hmap, hfilter⟩ := h
  constructor
  · intro ha
    rw [← hmap, List.mem_map] at ha
    obtain ⟨x, hx, rfl⟩ := ha
    refine ⟨x.1, ?_⟩
    rw [← hfilter, List.mem_map]
    exact ⟨x, List.mem_filter.mpr ⟨hx, by simp⟩, rfl⟩
  · rintro ⟨i, ha⟩
    rw [← hfilter, List.mem_map] at ha
    obtain ⟨x, hx, rfl⟩ := ha
    rw [← hmap]
    exact List.mem_map_of_mem (List.mem_of_mem_filter hx)

theorem length [Fintype ι] (h : IsMerge merged sources) :
    merged.length = ∑ i, (sources i).length := by
  induction merged generalizing sources with
  | nil =>
    rw [Finset.sum_eq_zero fun i _ => by rw [nil_iff.mp h i, List.length_nil]]
    rfl
  | cons a merged ih =>
    obtain ⟨i, rest, hi, hrest⟩ := h.uncons
    have hsum : ∀ j, (sources j).length =
        (Function.update sources i rest j).length + if j = i then 1 else 0 := by
      intro j
      by_cases hj : j = i
      · subst hj
        rw [hi, Function.update_self, if_pos rfl, List.length_cons]
      · rw [Function.update_of_ne hj, if_neg hj, Nat.add_zero]
    rw [List.length_cons, ih hrest, Finset.sum_congr rfl fun j _ => hsum j,
      Finset.sum_add_distrib, Finset.sum_ite_eq' Finset.univ i, if_pos (Finset.mem_univ i)]

end IsMerge

end Vibra.Lib
