import Mathlib.Algebra.Ring.Nat
import Mathlib.Data.List.Pairwise
import Mathlib.Data.List.Perm.Basic
import Mathlib.Data.List.Sort
import Mathlib.Data.Set.Lattice

/-! # Coalesced lists of half-open spans

A list of spans is coalesced when every span is non-empty and ends strictly before the next one
starts, so no two of them overlap or touch.
-/

namespace Vibra.Lib

/-- The half-open range from `start` to `stop`. -/
@[ext] structure Span (α : Type*) where
  start : α
  stop : α
deriving DecidableEq, Repr

namespace Span

variable {α : Type*} [LinearOrder α]

def points (s : Span α) : Set α := {x | s.start ≤ x ∧ x < s.stop}

@[simp] theorem mem_points {s : Span α} {x : α} : x ∈ s.points ↔ s.start ≤ x ∧ x < s.stop :=
  Iff.rfl

def cover (l : List (Span α)) : Set α := {x | ∃ s ∈ l, x ∈ s.points}

@[simp] theorem cover_nil : cover ([] : List (Span α)) = ∅ := by simp [cover]

@[simp] theorem cover_cons (s : Span α) (l : List (Span α)) :
    cover (s :: l) = s.points ∪ cover l := by
  ext x
  simp [cover]

@[simp] theorem cover_append (l m : List (Span α)) : cover (l ++ m) = cover l ∪ cover m := by
  induction l with
  | nil => simp
  | cons s l ih => simp [ih, Set.union_assoc]

theorem cover_perm {l m : List (Span α)} (h : l.Perm m) : cover l = cover m := by
  ext x
  exact ⟨fun ⟨s, hs, hx⟩ => ⟨s, h.subset hs, hx⟩, fun ⟨s, hs, hx⟩ => ⟨s, h.symm.subset hs, hx⟩⟩

def Before (a b : Span α) : Prop := a.stop < b.start

/-- Non-empty spans, each ending strictly before the next one starts. -/
structure Coalesced (l : List (Span α)) : Prop where
  nonempty : ∀ s ∈ l, s.start < s.stop
  sorted : l.Pairwise Before

theorem coalesced_nil : Coalesced ([] : List (Span α)) :=
  ⟨by simp, List.Pairwise.nil⟩

theorem coalesced_cons {s : Span α} {l : List (Span α)} :
    Coalesced (s :: l) ↔ s.start < s.stop ∧ (∀ b ∈ l, s.stop < b.start) ∧ Coalesced l := by
  constructor
  · rintro ⟨hn, hs⟩
    obtain ⟨hhead, htail⟩ := List.pairwise_cons.mp hs
    exact ⟨hn s (by simp), hhead, ⟨fun b hb => hn b (by simp [hb]), htail⟩⟩
  · rintro ⟨hlt, hhead, hn, hs⟩
    refine ⟨?_, List.pairwise_cons.mpr ⟨hhead, hs⟩⟩
    intro b hb
    rcases List.mem_cons.mp hb with rfl | hb
    · exact hlt
    · exact hn b hb

theorem coalesced_append {l m : List (Span α)} :
    Coalesced (l ++ m) ↔ Coalesced l ∧ Coalesced m ∧ ∀ a ∈ l, ∀ b ∈ m, a.stop < b.start := by
  constructor
  · rintro ⟨hn, hs⟩
    obtain ⟨hl, hm, hlm⟩ := List.pairwise_append.mp hs
    exact ⟨⟨fun s h => hn s (by simp [h]), hl⟩, ⟨fun s h => hn s (by simp [h]), hm⟩, hlm⟩
  · rintro ⟨⟨hnl, hl⟩, ⟨hnm, hm⟩, hlm⟩
    refine ⟨?_, List.pairwise_append.mpr ⟨hl, hm, hlm⟩⟩
    intro s hs
    rcases List.mem_append.mp hs with h | h
    · exact hnl s h
    · exact hnm s h

theorem not_mem_cover_of_le {s : Span α} {l : List (Span α)} (h : Coalesced (s :: l)) {x : α}
    (hx : x ≤ s.stop) : x ∉ cover l := by
  rintro ⟨b, hb, hbx, -⟩
  exact absurd (lt_of_lt_of_le ((coalesced_cons.mp h).2.1 b hb) hbx) (not_lt.mpr hx)

theorem coalesced_ext {l m : List (Span α)} (hl : Coalesced l) (hm : Coalesced m)
    (h : cover l = cover m) : l = m := by
  induction l generalizing m with
  | nil =>
    cases m with
    | nil => rfl
    | cons b m =>
      have hb : b.start ∈ cover (b :: m) :=
        ⟨b, by simp, le_refl _, (coalesced_cons.mp hm).1⟩
      rw [← h] at hb
      simp at hb
  | cons a l ih =>
    cases m with
    | nil =>
      have ha : a.start ∈ cover (a :: l) :=
        ⟨a, by simp, le_refl _, (coalesced_cons.mp hl).1⟩
      rw [h] at ha
      simp at ha
    | cons b m =>
      have hab : a = b := head_eq hl hm h
      subst hab
      have htail : cover l = cover m := by
        ext x
        have hx : x ∈ cover (a :: l) ↔ x ∈ cover (a :: m) := by rw [h]
        simp only [cover_cons, Set.mem_union] at hx
        constructor
        · intro hxl
          rcases hx.mp (Or.inr hxl) with hp | hxm
          · exact absurd hxl (not_mem_cover_of_le hl (le_of_lt hp.2))
          · exact hxm
        · intro hxm
          rcases hx.mpr (Or.inr hxm) with hp | hxl
          · exact absurd hxm (not_mem_cover_of_le hm (le_of_lt hp.2))
          · exact hxl
      rw [ih (coalesced_cons.mp hl).2.2 (coalesced_cons.mp hm).2.2 htail]
where
  /-- The first points agree, and then so do the first gaps. -/
  head_eq {a b : Span α} {l m : List (Span α)} (hl : Coalesced (a :: l)) (hm : Coalesced (b :: m))
      (h : cover (a :: l) = cover (b :: m)) : a = b := by
    have hle : ∀ {a b : Span α} {l m : List (Span α)}, Coalesced (a :: l) → Coalesced (b :: m) →
        cover (a :: l) = cover (b :: m) → b.start ≤ a.start := by
      intro a b l m ha hb heq
      have hmem : a.start ∈ cover (b :: m) := by
        rw [← heq]
        exact ⟨a, by simp, le_refl _, (coalesced_cons.mp ha).1⟩
      obtain ⟨c, hc, hca, -⟩ := hmem
      rcases List.mem_cons.mp hc with rfl | hc
      · exact hca
      · obtain ⟨hlt, hgap, -⟩ := coalesced_cons.mp hb
        exact le_of_lt (lt_of_lt_of_le (lt_trans hlt (hgap c hc)) hca)
    have hstart : a.start = b.start := le_antisymm (hle hm hl h.symm) (hle hl hm h)
    have hstop : ∀ {a b : Span α} {l m : List (Span α)}, Coalesced (a :: l) → Coalesced (b :: m) →
        cover (a :: l) = cover (b :: m) → a.start = b.start → b.stop ≤ a.stop := by
      intro a b l m ha hb heq hs
      by_contra hlt
      have hmem : a.stop ∈ cover (a :: l) := by
        rw [heq]
        refine ⟨b, by simp, ?_, not_le.mp hlt⟩
        rw [← hs]
        exact le_of_lt (coalesced_cons.mp ha).1
      rcases (cover_cons a l ▸ hmem : a.stop ∈ a.points ∪ cover l) with hp | hp
      · exact absurd hp.2 (lt_irrefl _)
      · exact not_mem_cover_of_le ha (le_refl _) hp
    exact Span.ext hstart (le_antisymm (hstop hm hl h.symm hstart.symm) (hstop hl hm h hstart))

/-! ## Adding a span -/

/-- Add a span to a coalesced list that does not overlap it, and merge it with
the neighbours it touches. -/
def insert (s : Span α) : List (Span α) → List (Span α)
  | [] => [s]
  | b :: rest =>
    if s.stop < b.start then s :: b :: rest
    else if s.stop = b.start then ⟨s.start, b.stop⟩ :: rest
    else if b.stop = s.start then insert ⟨b.start, s.stop⟩ rest
    else b :: insert s rest

def Clear (s : Span α) (l : List (Span α)) : Prop :=
  ∀ b ∈ l, s.stop ≤ b.start ∨ b.stop ≤ s.start

theorem exists_split {s : Span α} {l : List (Span α)} (hl : Coalesced l) (hc : Clear s l) :
    ∃ pre post, l = pre ++ post ∧ (∀ b ∈ pre, b.stop ≤ s.start) ∧ ∀ b ∈ post, s.stop ≤ b.start := by
  induction l with
  | nil => exact ⟨[], [], rfl, by simp, by simp⟩
  | cons b l ih =>
    obtain ⟨hlt, hgap, hrest⟩ := coalesced_cons.mp hl
    rcases hc b (by simp) with hle | hle
    · refine ⟨[], b :: l, rfl, by simp, ?_⟩
      intro c h
      rcases List.mem_cons.mp h with rfl | h
      · exact hle
      · exact le_trans hle (le_of_lt (lt_trans hlt (hgap c h)))
    · obtain ⟨pre, post, rfl, hpre, hpost⟩ := ih hrest fun c h => hc c (by simp [h])
      refine ⟨b :: pre, post, rfl, ?_, hpost⟩
      intro c h
      rcases List.mem_cons.mp h with rfl | h
      · exact hle
      · exact hpre c h

theorem forall_insert {P : Span α → Prop} (hmerge : ∀ a b : Span α, P a → P b →
      a.stop = b.start → P ⟨a.start, b.stop⟩) {s : Span α} {l : List (Span α)} (hs : P s)
    (hl : ∀ b ∈ l, P b) : ∀ b ∈ insert s l, P b := by
  induction l generalizing s with
  | nil => simpa [insert] using hs
  | cons c l ih =>
    have hc := hl c (by simp)
    have hrest : ∀ b ∈ l, P b := fun b hb => hl b (by simp [hb])
    intro b hb
    simp only [insert] at hb
    split at hb
    · rcases List.mem_cons.mp hb with rfl | hb
      · exact hs
      · exact hl b hb
    · split at hb
      next htouch =>
        rcases List.mem_cons.mp hb with rfl | hb
        · exact hmerge s c hs hc htouch
        · exact hrest b hb
      next =>
        split at hb
        next htouch => exact ih (hmerge c s hc hs htouch) hrest b hb
        next =>
          rcases List.mem_cons.mp hb with rfl | hb
          · exact hc
          · exact ih hs hrest b hb

theorem lt_start_of_mem_insert {s : Span α} {l : List (Span α)} {x : α} (hs : x < s.start)
    (hl : ∀ b ∈ l, x < b.start) : ∀ b ∈ insert s l, x < b.start :=
  forall_insert (P := fun b => x < b.start) (fun _ _ ha _ _ => ha) hs hl

theorem clear_insert {c s : Span α} {l : List (Span α)} (hc : c.start < c.stop)
    (hs : c.stop ≤ s.start ∨ s.stop ≤ c.start) (hl : Clear c l) : Clear c (insert s l) := by
  refine forall_insert (P := fun b => c.stop ≤ b.start ∨ b.stop ≤ c.start) ?_ hs hl
  intro a b ha hb htouch
  rcases ha with ha | ha
  · exact Or.inl ha
  · rcases hb with hb | hb
    · exact absurd (lt_of_lt_of_le hc (le_trans hb (htouch ▸ ha))) (lt_irrefl _)
    · exact Or.inr hb

theorem coalesced_insert {s : Span α} {l : List (Span α)} (hs : s.start < s.stop)
    (hl : Coalesced l) (hc : Clear s l) : Coalesced (insert s l) := by
  induction l generalizing s with
  | nil => exact coalesced_cons.mpr ⟨hs, by simp, coalesced_nil⟩
  | cons b l ih =>
    obtain ⟨hlt, hgap, hrest⟩ := coalesced_cons.mp hl
    have hcl : Clear s l := fun c h => hc c (by simp [h])
    simp only [insert]
    split
    next hbefore =>
      refine coalesced_cons.mpr ⟨hs, ?_, hl⟩
      intro c h
      rcases List.mem_cons.mp h with rfl | h
      · exact hbefore
      · exact lt_trans (lt_trans hbefore hlt) (hgap c h)
    next hnot =>
      split
      next htouch =>
        exact coalesced_cons.mpr ⟨lt_trans (htouch ▸ hs) hlt, hgap, hrest⟩
      next hne =>
        have hafter : b.stop ≤ s.start := by
          rcases hc b (by simp) with h | h
          · exact absurd (lt_of_le_of_ne h hne) hnot
          · exact h
        split
        next htouch =>
          refine ih (s := ⟨b.start, s.stop⟩) (lt_trans hlt (htouch ▸ hs)) hrest ?_
          intro c h
          rcases hcl c h with hle | hle
          · exact Or.inl hle
          · exact absurd (lt_of_lt_of_le (hgap c h) (le_trans (le_of_lt (hrest.nonempty c h)) hle))
              (not_lt.mpr (le_of_eq htouch.symm))
        next hgap' =>
          refine coalesced_cons.mpr ⟨hlt, ?_, ih hs hrest hcl⟩
          exact lt_start_of_mem_insert (lt_of_le_of_ne hafter hgap') hgap

theorem cover_insert {s : Span α} {l : List (Span α)} (hs : s.start < s.stop)
    (hl : Coalesced l) (hc : Clear s l) : cover (insert s l) = s.points ∪ cover l := by
  induction l generalizing s with
  | nil => simp [insert]
  | cons b l ih =>
    obtain ⟨hlt, hgap, hrest⟩ := coalesced_cons.mp hl
    have hcl : Clear s l := fun c h => hc c (by simp [h])
    simp only [insert]
    split
    next => simp
    next hnot =>
      split
      next htouch =>
        rw [cover_cons, cover_cons, ← Set.union_assoc]
        congr 1
        ext x
        simp only [mem_points, Set.mem_union, htouch]
        constructor
        · rintro ⟨h1, h2⟩
          rcases lt_or_ge x b.start with hx | hx
          · exact Or.inl ⟨h1, hx⟩
          · exact Or.inr ⟨hx, h2⟩
        · rintro (⟨h1, h2⟩ | ⟨h1, h2⟩)
          · exact ⟨h1, lt_trans h2 hlt⟩
          · exact ⟨le_of_lt (lt_of_lt_of_le (htouch ▸ hs) h1), h2⟩
      next hne =>
        split
        next htouch =>
          have hclear : Clear ⟨b.start, s.stop⟩ l := by
            intro c h
            rcases hcl c h with hle | hle
            · exact Or.inl hle
            · exact absurd
                (lt_of_lt_of_le (hgap c h) (le_trans (le_of_lt (hrest.nonempty c h)) hle))
                (not_lt.mpr (le_of_eq htouch.symm))
          rw [ih (s := ⟨b.start, s.stop⟩) (lt_trans hlt (htouch ▸ hs)) hrest hclear, cover_cons,
            ← Set.union_assoc]
          congr 1
          ext x
          simp only [mem_points, Set.mem_union, ← htouch]
          constructor
          · rintro ⟨h1, h2⟩
            rcases lt_or_ge x b.stop with hx | hx
            · exact Or.inr ⟨h1, hx⟩
            · exact Or.inl ⟨hx, h2⟩
          · rintro (⟨h1, h2⟩ | ⟨h1, h2⟩)
            · exact ⟨le_trans (le_of_lt hlt) h1, h2⟩
            · exact ⟨h1, lt_trans h2 (htouch ▸ hs)⟩
        next => rw [cover_cons, cover_cons, ih hs hrest hcl, Set.union_left_comm]

def joinRight (s : Span α) : List (Span α) → List (Span α)
  | [] => [s]
  | b :: rest => if s.stop = b.start then ⟨s.start, b.stop⟩ :: rest else s :: b :: rest

theorem insert_eq_joinRight {s : Span α} {post : List (Span α)}
    (h : ∀ b ∈ post, s.stop ≤ b.start) : insert s post = joinRight s post := by
  cases post with
  | nil => rfl
  | cons b rest =>
    simp only [insert, joinRight]
    by_cases htouch : s.stop = b.start
    · rw [if_neg (by simp [htouch]), if_pos htouch, if_pos htouch]
    · rw [if_pos (lt_of_le_of_ne (h b (by simp)) htouch), if_neg htouch]

theorem insert_append {s : Span α} {pre post : List (Span α)} (hs : s.start < s.stop)
    (hne : ∀ b ∈ pre, b.start < b.stop) (hpre : ∀ b ∈ pre, b.stop < s.start) :
    insert s (pre ++ post) = pre ++ insert s post := by
  induction pre with
  | nil => rfl
  | cons b pre ih =>
    have hb := hpre b (by simp)
    have hlt := hne b (by simp)
    have hstart : b.start < s.stop := lt_trans hlt (lt_trans hb hs)
    rw [List.cons_append, List.cons_append, insert, if_neg (not_lt.mpr (le_of_lt hstart)),
      if_neg (ne_of_gt hstart), if_neg (ne_of_lt hb),
      ih (fun c h => hne c (by simp [h])) (fun c h => hpre c (by simp [h]))]

theorem insert_cons {s p : Span α} {post : List (Span α)} (hs : s.start < s.stop)
    (hp : p.start < p.stop) (hle : p.stop ≤ s.start) :
    insert s (p :: post) =
      if p.stop = s.start then insert ⟨p.start, s.stop⟩ post else p :: insert s post := by
  have hstart : p.start < s.stop := lt_trans (lt_of_lt_of_le hp hle) hs
  rw [insert, if_neg (not_lt.mpr (le_of_lt hstart)), if_neg (ne_of_gt hstart)]

/-- What is left of `b` when the range from `p` to `q` is cut out of it. -/
def pieces (b : Span α) (p q : α) : List (Span α) :=
  (if b.start < p then [⟨b.start, p⟩] else []) ++ (if q < b.stop then [⟨q, b.stop⟩] else [])

theorem mem_pieces {b c : Span α} {p q : α} (h : c ∈ pieces b p q) :
    c = ⟨b.start, p⟩ ∧ b.start < p ∨ c = ⟨q, b.stop⟩ ∧ q < b.stop := by
  simp only [pieces, List.mem_append] at h
  rcases h with h | h
  · split at h
    · exact Or.inl ⟨by simpa using h, by assumption⟩
    · simp at h
  · split at h
    · exact Or.inr ⟨by simpa using h, by assumption⟩
    · simp at h

theorem coalesced_pieces {b : Span α} {p q : α} (hpq : p < q) : Coalesced (pieces b p q) := by
  unfold pieces
  by_cases h1 : b.start < p <;> by_cases h2 : q < b.stop
  · simp only [h1, h2, if_true, List.singleton_append]
    exact coalesced_cons.mpr ⟨h1, by simpa using hpq, coalesced_cons.mpr ⟨h2, by simp, coalesced_nil⟩⟩
  · simp only [h1, h2, if_true, if_false, List.append_nil]
    exact coalesced_cons.mpr ⟨h1, by simp, coalesced_nil⟩
  · simp only [h1, h2, if_true, if_false, List.nil_append]
    exact coalesced_cons.mpr ⟨h2, by simp, coalesced_nil⟩
  · simpa [h1, h2] using coalesced_nil

theorem cover_pieces {b : Span α} {p q : α} (hp : b.start ≤ p) (hpq : p < q) (hq : q ≤ b.stop) :
    cover (pieces b p q) = b.points \ (Span.mk p q).points := by
  ext x
  simp only [pieces, cover_append, Set.mem_union, Set.mem_sdiff, mem_points, not_and, not_lt]
  constructor
  · rintro (h | h)
    · split at h
      · obtain ⟨c, hc, h1, h2⟩ := h
        rw [List.mem_singleton] at hc
        subst hc
        exact ⟨⟨h1, lt_of_lt_of_le h2 (le_of_lt (lt_of_lt_of_le hpq hq))⟩,
          fun h3 => absurd h2 (not_lt.mpr h3)⟩
      · simp at h
    · split at h
      · obtain ⟨c, hc, h1, h2⟩ := h
        rw [List.mem_singleton] at hc
        subst hc
        exact ⟨⟨le_trans hp (le_trans (le_of_lt hpq) h1), h2⟩, fun _ => h1⟩
      · simp at h
  · rintro ⟨⟨h1, h2⟩, h3⟩
    rcases lt_or_ge x p with hx | hx
    · left
      rw [if_pos (lt_of_le_of_lt h1 hx)]
      exact ⟨⟨b.start, p⟩, by simp, h1, hx⟩
    · right
      rw [if_pos (lt_of_le_of_lt (h3 hx) h2)]
      exact ⟨⟨q, b.stop⟩, by simp, h3 hx, h2⟩

theorem coalesced_carve {pre post : List (Span α)} {b : Span α} {p q : α}
    (h : Coalesced (pre ++ b :: post)) (hp : b.start ≤ p) (hpq : p < q) (hq : q ≤ b.stop) :
    Coalesced (pre ++ pieces b p q ++ post) := by
  obtain ⟨hpre, hbp, hcross⟩ := coalesced_append.mp h
  obtain ⟨hlt, hgap, hpost⟩ := coalesced_cons.mp hbp
  have hbounds : ∀ c ∈ pieces b p q, b.start ≤ c.start ∧ c.stop ≤ b.stop := by
    intro c hc
    rcases mem_pieces hc with ⟨rfl, h⟩ | ⟨rfl, h⟩
    · exact ⟨le_refl _, le_of_lt (lt_of_lt_of_le hpq hq)⟩
    · exact ⟨le_trans hp (le_of_lt hpq), le_refl _⟩
  rw [List.append_assoc]
  refine coalesced_append.mpr ⟨hpre, coalesced_append.mpr ⟨coalesced_pieces hpq, hpost, ?_⟩, ?_⟩
  · intro c hc d hd
    exact lt_of_le_of_lt (hbounds c hc).2 (hgap d hd)
  · intro a ha c hc
    rcases List.mem_append.mp hc with hc | hc
    · exact lt_of_lt_of_le (hcross a ha b (by simp)) (hbounds c hc).1
    · exact hcross a ha c (by simp [hc])

theorem cover_carve {pre post : List (Span α)} {b : Span α} {p q : α}
    (h : Coalesced (pre ++ b :: post)) (hp : b.start ≤ p) (hpq : p < q) (hq : q ≤ b.stop) :
    cover (pre ++ pieces b p q ++ post) = cover (pre ++ b :: post) \ (Span.mk p q).points := by
  obtain ⟨hpre, hbp, hcross⟩ := coalesced_append.mp h
  have hpre' : ∀ x ∈ cover pre, ¬ (p ≤ x ∧ x < q) := by
    rintro x ⟨a, ha, -, hx⟩ ⟨hpx, -⟩
    exact absurd (lt_trans hx (lt_of_lt_of_le (hcross a ha b (by simp)) hp)) (not_lt.mpr hpx)
  have hpost' : ∀ x ∈ cover post, ¬ (p ≤ x ∧ x < q) := by
    rintro x hx ⟨-, hxq⟩
    exact not_mem_cover_of_le hbp (le_of_lt (lt_of_lt_of_le hxq hq)) hx
  simp only [cover_append, cover_cons, cover_pieces hp hpq hq]
  ext x
  simp only [Set.mem_union, Set.mem_sdiff]
  constructor
  · rintro ((h | ⟨h, hx⟩) | h)
    · exact ⟨Or.inl h, hpre' x h⟩
    · exact ⟨Or.inr (Or.inl h), hx⟩
    · exact ⟨Or.inr (Or.inr h), hpost' x h⟩
  · rintro ⟨h | h | h, hx⟩
    · exact Or.inl (Or.inl h)
    · exact Or.inl (Or.inr ⟨h, hx⟩)
    · exact Or.inr h

end Span

namespace Span

def size (s : Span ℕ) : ℕ := s.stop - s.start

def bytes (l : List (Span ℕ)) : ℕ := (l.map size).sum

@[simp] theorem bytes_nil : bytes [] = 0 := rfl

@[simp] theorem bytes_cons (s : Span ℕ) (l : List (Span ℕ)) :
    bytes (s :: l) = s.size + bytes l := by simp [bytes]

@[simp] theorem bytes_append (l m : List (Span ℕ)) : bytes (l ++ m) = bytes l + bytes m := by
  simp [bytes]

theorem bytes_perm {l m : List (Span ℕ)} (h : l.Perm m) : bytes l = bytes m :=
  (h.map size).sum_nat

theorem bytes_insert {s : Span ℕ} {l : List (Span ℕ)} (hs : s.start < s.stop)
    (hl : Coalesced l) : bytes (insert s l) = s.size + bytes l := by
  induction l generalizing s with
  | nil => simp [insert]
  | cons b l ih =>
    obtain ⟨hlt, hgap, hrest⟩ := coalesced_cons.mp hl
    simp only [insert]
    split
    · simp
    · split
      next htouch =>
        simp only [bytes_cons, size]
        omega
      next =>
        split
        next htouch =>
          rw [ih (s := ⟨b.start, s.stop⟩) (by simp only; omega) hrest]
          simp only [bytes_cons, size]
          omega
        next =>
          rw [bytes_cons, bytes_cons, ih hs hrest]
          omega

theorem bytes_pieces {b : Span ℕ} {p q : ℕ} (hp : b.start ≤ p) (hpq : p ≤ q) (hq : q ≤ b.stop) :
    bytes (pieces b p q) + (q - p) = b.size := by
  unfold pieces
  by_cases h1 : b.start < p <;> by_cases h2 : q < b.stop <;>
    simp only [h1, h2, if_true, if_false, bytes_append, bytes_cons, bytes_nil, size] <;> omega

end Span

end Vibra.Lib
