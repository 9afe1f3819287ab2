import Mathlib.Data.List.Nodup
import Mathlib.Data.List.Pairwise
import Mathlib.Data.List.Perm.Basic
import Mathlib.Data.Set.Insert

/-! # Tables of links

A link table says of every node whether it is free, the last of its chain, or which node follows. In
a partitioned table the used nodes are the disjoint union of given chains.
-/

namespace Vibra.Lib

inductive Link (α : Type*) where
  | free
  | stop
  | next (a : α)
deriving DecidableEq

abbrev LinkTable (α : Type*) := α → Link α

namespace LinkTable

variable {α : Type*} {t t' : LinkTable α}

/-- Each node of the list links to the following one, and the last one ends the
chain. The empty list is a chain. -/
def IsChain (t : LinkTable α) : List α → Prop
  | [] => True
  | [a] => t a = .stop
  | a :: b :: rest => t a = .next b ∧ IsChain t (b :: rest)

theorem IsChain.congr {l : List α} (h : IsChain t l) (heq : ∀ a ∈ l, t' a = t a) :
    IsChain t' l := by
  induction l with
  | nil => exact h
  | cons a l ih =>
    cases l with
    | nil => exact (heq a (by simp)).trans h
    | cons b l => exact ⟨(heq a (by simp)).trans h.1, ih h.2 fun c hc => heq c (by simp [hc])⟩

theorem IsChain.ne_free {l : List α} (h : IsChain t l) {a : α} (ha : a ∈ l) : t a ≠ .free := by
  induction l with
  | nil => simp at ha
  | cons b l ih =>
    cases l with
    | nil =>
      rw [List.mem_singleton] at ha
      subst ha
      rw [show t a = .stop from h]
      simp
    | cons c l =>
      rcases List.mem_cons.mp ha with rfl | ha
      · rw [h.1]
        simp
      · exact ih h.2 ha

theorem IsChain.unique {a : α} {l l' : List α} (h : IsChain t (a :: l)) (h' : IsChain t (a :: l')) :
    l = l' := by
  induction l generalizing a l' with
  | nil =>
    cases l' with
    | nil => rfl
    | cons b l' =>
      have hstop : t a = .stop := h
      rw [h'.1] at hstop
      simp at hstop
  | cons b l ih =>
    cases l' with
    | nil =>
      have hstop : t a = .stop := h'
      rw [h.1] at hstop
      simp at hstop
    | cons c l' =>
      have hbc : b = c := by
        have := h.1.symm.trans h'.1
        simpa using this
      subst hbc
      rw [ih h.2 h'.2]

theorem IsChain.suffix {l l' : List α} {a : α} (h : IsChain t (l ++ a :: l')) :
    IsChain t (a :: l') := by
  induction l with
  | nil => exact h
  | cons b l ih =>
    cases l with
    | nil => exact h.2
    | cons c l => exact ih h.2

theorem IsChain.next {l l' : List α} {a b : α} (h : IsChain t (l ++ a :: b :: l')) :
    t a = .next b :=
  h.suffix.1

theorem IsChain.stop {l : List α} {a : α} (h : IsChain t (l ++ [a])) : t a = .stop :=
  h.suffix

section Update

variable [DecidableEq α]

theorem IsChain.update {l : List α} (h : IsChain t l) {a : α} (ha : a ∉ l) (v : Link α) :
    IsChain (Function.update t a v) l :=
  h.congr fun _ hb => Function.update_of_ne (ne_of_mem_of_not_mem hb ha) _ _

theorem IsChain.extend {l : List α} {a c : α} (h : IsChain t (l ++ [a])) (hnodup : (l ++ [a]).Nodup)
    (hc : c ∉ l ++ [a]) :
    IsChain (Function.update (Function.update t c .stop) a (.next c)) (l ++ [a, c]) := by
  have hca : c ≠ a := fun h => hc (by simp [h])
  induction l with
  | nil => exact ⟨by simp, by simp [IsChain, hca]⟩
  | cons b l ih =>
    have hab : b ≠ a := by
      rintro rfl
      simp at hnodup
    have hcb : b ≠ c := by
      rintro rfl
      simp at hc
    cases l with
    | nil =>
      exact ⟨by simp [hab, hcb, h.1],
        ih h.2 (List.nodup_cons.mp hnodup).2 (fun hm => hc (by simp at hm ⊢; tauto))⟩
    | cons d l =>
      exact ⟨by simp [hab, hcb, h.1],
        ih h.2 (List.nodup_cons.mp hnodup).2 (fun hm => hc (by simp at hm ⊢; tauto))⟩

end Update

def Leads (t : LinkTable α) : α → α → Prop := Relation.ReflTransGen fun a b => t a = .next b

def Closed (t : LinkTable α) (s : Set α) : Prop := ∀ a ∈ s, ∀ b, t a = .next b → b ∈ s

theorem closed_leads (t : LinkTable α) (a : α) : Closed t {b | Leads t a b} :=
  fun _ hb _ hnext => hb.tail hnext

theorem Closed.mem_of_leads {s : Set α} (h : Closed t s) {a b : α} (ha : a ∈ s)
    (hb : Leads t a b) : b ∈ s := by
  induction hb with
  | refl => exact ha
  | tail _ hnext ih => exact h _ ih _ hnext

theorem Closed.congr {s : Set α} (h : Closed t s) (heq : ∀ a ∈ s, t' a = t a) : Closed t' s :=
  fun a ha b hnext => h a ha b ((heq a ha).symm.trans hnext)

theorem Closed.insert_stop [DecidableEq α] {s : Set α} (h : Closed t s) (c : α) :
    Closed (Function.update t c .stop) (insert c s) := by
  intro a ha b hnext
  by_cases hac : a = c
  · rw [hac, Function.update_self] at hnext
    cases hnext
  · rw [Function.update_of_ne hac] at hnext
    exact Set.mem_insert_of_mem c (h a (ha.resolve_left hac) b hnext)

theorem Closed.link [DecidableEq α] {s : Set α} (h : Closed t s) {c : α} (hc : c ∈ s) (a : α) :
    Closed (Function.update t a (.next c)) s := by
  intro d hd b hnext
  by_cases hda : d = a
  · rw [hda, Function.update_self] at hnext
    cases hnext
    exact hc
  · rw [Function.update_of_ne hda] at hnext
    exact h d hd b hnext

/-- The used nodes of the domain are the disjoint union of the chains. -/
structure Partition (t : LinkTable α) (dom : α → Prop) (chains : List (List α)) : Prop where
  chain : ∀ l ∈ chains, IsChain t l
  nodup : chains.flatten.Nodup
  mem_iff : ∀ a, a ∈ chains.flatten ↔ dom a ∧ t a ≠ .free

namespace Partition

variable {dom : α → Prop} {chains chains' : List (List α)}

theorem perm (h : Partition t dom chains) (hp : chains.Perm chains') : Partition t dom chains' where
  chain l hl := h.chain l (hp.symm.subset hl)
  nodup := hp.flatten.nodup_iff.mp h.nodup
  mem_iff a := hp.flatten.mem_iff.symm.trans (h.mem_iff a)

theorem congr (h : Partition t dom chains) (heq : ∀ a, dom a → t' a = t a) :
    Partition t' dom chains where
  chain l hl := (h.chain l hl).congr fun a ha =>
    heq a ((h.mem_iff a).mp (List.mem_flatten.mpr ⟨l, hl, ha⟩)).1
  nodup := h.nodup
  mem_iff a := by
    rw [h.mem_iff]
    refine and_congr_right fun hd => ?_
    rw [heq a hd]

theorem dom_of_mem (h : Partition t dom chains) {l : List α} (hl : l ∈ chains) {a : α}
    (ha : a ∈ l) : dom a :=
  ((h.mem_iff a).mp (List.mem_flatten.mpr ⟨l, hl, ha⟩)).1

theorem chain_nodup (h : Partition t dom chains) {l : List α} (hl : l ∈ chains) : l.Nodup :=
  (List.nodup_flatten.mp h.nodup).1 l hl

theorem eq_of_mem (h : Partition t dom chains) {l l' : List α} (hl : l ∈ chains)
    (hl' : l' ∈ chains) {a : α} (ha : a ∈ l) (ha' : a ∈ l') : l = l' := by
  by_contra hne
  have hsymm : Std.Symm (List.Disjoint : List α → List α → Prop) := ⟨fun _ _ h _ hb ha => h ha hb⟩
  exact (List.nodup_flatten.mp h.nodup).2.forall hl hl' hne ha ha'

theorem not_mem_of_free (h : Partition t dom chains) {a : α} (ha : t a = .free) :
    a ∉ chains.flatten :=
  fun hm => ((h.mem_iff a).mp hm).2 ha

theorem nil_cons : Partition t dom ([] :: chains) ↔ Partition t dom chains := by
  constructor
  · exact fun h => ⟨fun l hl => h.chain l (by simp [hl]), h.nodup, h.mem_iff⟩
  · intro h
    refine ⟨fun l hl => ?_, h.nodup, h.mem_iff⟩
    rcases List.mem_cons.mp hl with rfl | hl
    · trivial
    · exact h.chain l hl

section Update

variable [DecidableEq α]

theorem alloc (h : Partition t dom chains) {c : α} (hdom : dom c) (hc : t c = .free) :
    Partition (Function.update t c .stop) dom ([c] :: chains) where
  chain l hl := by
    rcases List.mem_cons.mp hl with rfl | hl
    · exact Function.update_self _ _ _
    · exact (h.chain l hl).update
        (fun hm => h.not_mem_of_free hc (List.mem_flatten.mpr ⟨l, hl, hm⟩)) _
  nodup := List.nodup_cons.mpr ⟨h.not_mem_of_free hc, h.nodup⟩
  mem_iff a := by
    by_cases hac : a = c
    · subst hac
      simp [hdom]
    · rw [Function.update_of_ne hac, ← h.mem_iff]
      simp [hac]

theorem extend {l : List α} {a c : α} (h : Partition t dom ((l ++ [a]) :: chains)) (hdom : dom c)
    (hc : t c = .free) :
    Partition (Function.update (Function.update t c .stop) a (.next c)) dom
      ((l ++ [a, c]) :: chains) := by
  have hnot := h.not_mem_of_free hc
  obtain ⟨hl, hrest⟩ : c ∉ l ++ [a] ∧ c ∉ chains.flatten := by
    rw [List.flatten_cons, List.mem_append, not_or] at hnot
    exact hnot
  have ha : a ∉ chains.flatten := by
    intro hm
    have hdisj := (List.nodup_append.mp h.nodup).2.2
    exact hdisj a (by simp) a hm rfl
  have hca : c ≠ a := fun h => hl (by simp [h])
  refine ⟨?_, ?_, ?_⟩
  · intro k hk
    rcases List.mem_cons.mp hk with rfl | hk
    · exact (h.chain _ List.mem_cons_self).extend (h.chain_nodup List.mem_cons_self) hl
    · exact ((h.chain k (List.mem_cons_of_mem _ hk)).update
        (fun hm => hrest (List.mem_flatten.mpr ⟨k, hk, hm⟩)) _).update
        (fun hm => ha (List.mem_flatten.mpr ⟨k, hk, hm⟩)) _
  · have hperm : ((l ++ [a, c]) :: chains).flatten.Perm (c :: ((l ++ [a]) :: chains).flatten) := by
      simp only [List.flatten_cons]
      rw [show l ++ [a, c] = (l ++ [a]) ++ [c] by simp, List.append_assoc]
      exact List.perm_middle
    exact hperm.nodup_iff.mpr (List.nodup_cons.mpr ⟨hnot, h.nodup⟩)
  · intro b
    have hmem := h.mem_iff b
    have hflat : b ∈ ((l ++ [a, c]) :: chains).flatten ↔
        b = c ∨ b ∈ ((l ++ [a]) :: chains).flatten := by
      simp only [List.flatten_cons, List.mem_append, List.mem_cons, List.not_mem_nil, or_false]
      tauto
    rw [hflat]
    by_cases hba : b = a
    · subst hba
      have hb : b ∈ ((l ++ [b]) :: chains).flatten := by simp
      simp [(hmem.mp hb).1]
    · by_cases hbc : b = c
      · subst hbc
        simp [hdom, hba]
      · rw [Function.update_of_ne hba, Function.update_of_ne hbc, ← hmem]
        simp [hbc]

theorem free {l : List α} (h : Partition t dom (l :: chains)) {t' : LinkTable α}
    (hl : ∀ a ∈ l, t' a = .free) (hrest : ∀ a, a ∉ l → t' a = t a) : Partition t' dom chains := by
  obtain ⟨-, hnodup, hdisj⟩ := List.nodup_append.mp h.nodup
  have hout : ∀ {a}, a ∈ chains.flatten → a ∉ l := fun ha hal => hdisj _ hal _ ha rfl
  refine ⟨?_, hnodup, ?_⟩
  · intro k hk
    refine (h.chain k (List.mem_cons_of_mem _ hk)).congr fun a ha => hrest a ?_
    exact hout (List.mem_flatten.mpr ⟨k, hk, ha⟩)
  · intro a
    have hmem := h.mem_iff a
    rw [List.flatten_cons, List.mem_append] at hmem
    by_cases hal : a ∈ l
    · simp only [hl a hal, ne_eq, not_true_eq_false, and_false, iff_false]
      exact fun hm => hout hm hal
    · rw [hrest a hal, ← hmem]
      simp [hal]

end Update

end Partition

end LinkTable

end Vibra.Lib
