import Mathlib.Data.Set.Lattice

/-! # Radix trees in a memory of tables

A tree of tables of fixed depth: at each level an index is taken from the key, and the entry found
there is absent, is a leaf, or names the table of the next level.
-/

namespace Vibra.Lib.Radix

/-- How an entry leads on. -/
inductive Next (φ : Type)
  | absent
  | leaf
  | child (table : φ)

/-- Keys `κ` are walked through levels `ℓ`; entries `ε` lie in tables `φ` under indices `ι`. -/
structure Shape (ℓ φ ι ε κ : Type) where
  index : ℓ → κ → ι
  next : ℓ → ε → Next φ

variable {ℓ φ ι ε κ : Type} (S : Shape ℓ φ ι ε κ)

/-- The entries met from the table down to the leaf. -/
def walk (m : φ → ι → ε) : List ℓ → φ → κ → Option (List (ℓ × ε))
  | [], _, _ => none
  | l :: ls, t, k =>
    match S.next l (m t (S.index l k)) with
    | .absent => none
    | .leaf => some [(l, m t (S.index l k))]
    | .child c => (walk m ls c k).map ((l, m t (S.index l k)) :: ·)

/-- Where a walk ends: the level, the table and the index of its leaf. -/
def locate (m : φ → ι → ε) : List ℓ → φ → κ → Option (ℓ × φ × ι)
  | [], _, _ => none
  | l :: ls, t, k =>
    match S.next l (m t (S.index l k)) with
    | .absent => none
    | .leaf => some (l, t, S.index l k)
    | .child c => locate m ls c k

def reach (m : φ → ι → ε) : List ℓ → φ → Set φ
  | [], _ => ∅
  | l :: ls, t => insert t {x | ∃ i c, S.next l (m t i) = .child c ∧ x ∈ reach m ls c}

/-- No table is reached twice. -/
def Tree (m : φ → ι → ε) : List ℓ → φ → Prop
  | [], _ => True
  | l :: ls, t =>
    (∀ i c, S.next l (m t i) = .child c → t ∉ reach S m ls c ∧ Tree m ls c) ∧
    ∀ i j c d, i ≠ j → S.next l (m t i) = .child c → S.next l (m t j) = .child d →
      Disjoint (reach S m ls c) (reach S m ls d)

variable {S} {m m' : φ → ι → ε} {l : ℓ} {ls : List ℓ} {t c : φ} {i : ι} {k : κ}

theorem mem_reach_self : t ∈ reach S m (l :: ls) t := Set.mem_insert _ _

theorem reach_child (h : S.next l (m t i) = .child c) : reach S m ls c ⊆ reach S m (l :: ls) t :=
  fun _ hx => Or.inr ⟨i, c, h, hx⟩

theorem Tree.child (h : Tree S m (l :: ls) t) (hc : S.next l (m t i) = .child c) :
    t ∉ reach S m ls c ∧ Tree S m ls c :=
  h.1 i c hc

theorem walk_absent (h : S.next l (m t (S.index l k)) = .absent) :
    walk S m (l :: ls) t k = none := by
  simp only [walk, h]

theorem walk_leaf (h : S.next l (m t (S.index l k)) = .leaf) :
    walk S m (l :: ls) t k = some [(l, m t (S.index l k))] := by
  simp only [walk, h]

theorem walk_child (h : S.next l (m t (S.index l k)) = .child c) :
    walk S m (l :: ls) t k = (walk S m ls c k).map ((l, m t (S.index l k)) :: ·) := by
  simp only [walk, h]

theorem walk_congr (h : ∀ x ∈ reach S m ls t, m' x = m x) (k : κ) :
    walk S m' ls t k = walk S m ls t k := by
  induction ls generalizing t with
  | nil => rfl
  | cons l ls ih =>
    have ht : m' t = m t := h t mem_reach_self
    cases hn : S.next l (m t (S.index l k)) with
    | absent => rw [walk_absent hn, walk_absent (by rw [ht, hn])]
    | leaf => rw [walk_leaf hn, walk_leaf (by rw [ht, hn]), ht]
    | child c =>
      rw [walk_child hn, walk_child (by rw [ht, hn]), ht,
        ih fun x hx => h x (reach_child hn hx)]

theorem walk_agree {k' : κ} {es : List (ℓ × ε)} (h : walk S m ls t k = some es)
    (hk : ∀ x ∈ es, S.index x.1 k' = S.index x.1 k) : walk S m ls t k' = some es := by
  induction ls generalizing t es with
  | nil => cases h
  | cons l ls ih =>
    cases hn : S.next l (m t (S.index l k)) with
    | absent =>
      rw [walk_absent hn] at h
      cases h
    | leaf =>
      rw [walk_leaf hn] at h
      cases h
      have hl : S.index l k' = S.index l k := hk _ List.mem_cons_self
      rw [walk_leaf (by rw [hl, hn]), hl]
    | child c =>
      rw [walk_child hn, Option.map_eq_some_iff] at h
      obtain ⟨es, hes, rfl⟩ := h
      have hl : S.index l k' = S.index l k := hk _ List.mem_cons_self
      rw [walk_child (by rw [hl, hn]), hl, ih hes fun x hx => hk x (List.mem_cons_of_mem _ hx)]
      rfl

theorem reach_congr (h : ∀ x ∈ reach S m ls t, m' x = m x) :
    reach S m' ls t = reach S m ls t := by
  induction ls generalizing t with
  | nil => rfl
  | cons l ls ih =>
    have ht : m' t = m t := h t mem_reach_self
    have hsub : ∀ i c, S.next l (m t i) = .child c →
        reach S m' ls c = reach S m ls c :=
      fun i c hc => ih fun x hx => h x (reach_child hc hx)
    ext x
    simp only [reach, ht, Set.mem_insert_iff, Set.mem_setOf_eq]
    constructor
    · rintro (hx | ⟨i, c, hc, hx⟩)
      · exact Or.inl hx
      · exact Or.inr ⟨i, c, hc, hsub i c hc ▸ hx⟩
    · rintro (hx | ⟨i, c, hc, hx⟩)
      · exact Or.inl hx
      · exact Or.inr ⟨i, c, hc, (hsub i c hc).symm ▸ hx⟩

theorem Tree.congr (hT : Tree S m ls t) (h : ∀ x ∈ reach S m ls t, m' x = m x) :
    Tree S m' ls t := by
  induction ls generalizing t with
  | nil => trivial
  | cons l ls ih =>
    have ht : m' t = m t := h t mem_reach_self
    have hagree : ∀ i c, S.next l (m t i) = .child c → ∀ x ∈ reach S m ls c, m' x = m x :=
      fun i c hc x hx => h x (reach_child hc hx)
    constructor
    · intro i c hc
      rw [ht] at hc
      rw [reach_congr (hagree i c hc)]
      exact ⟨(hT.child hc).1, ih (hT.child hc).2 (hagree i c hc)⟩
    · intro i j c d hij hc hd
      rw [ht] at hc hd
      rw [reach_congr (hagree i c hc), reach_congr (hagree j d hd)]
      exact hT.2 i j c d hij hc hd

theorem walk_beside (hT : Tree S m (l :: ls) t) (hk : S.index l k ≠ i)
    (ht : ∀ j ≠ i, m' t j = m t j)
    (hm : ∀ x ∈ reach S m (l :: ls) t, x ≠ t →
      (∀ c, S.next l (m t i) = .child c → x ∉ reach S m ls c) → m' x = m x) :
    walk S m' (l :: ls) t k = walk S m (l :: ls) t k := by
  have he := ht _ hk
  cases hn : S.next l (m t (S.index l k)) with
  | absent => rw [walk_absent hn, walk_absent (by rw [he, hn])]
  | leaf => rw [walk_leaf hn, walk_leaf (by rw [he, hn]), he]
  | child d =>
    rw [walk_child hn, walk_child (by rw [he, hn]), he]
    congr 1
    apply walk_congr
    intro x hx
    refine hm x (reach_child hn hx) ?_ fun c hc hxc => ?_
    · rintro rfl
      exact (hT.child hn).1 hx
    · exact Set.disjoint_left.mp (hT.2 _ i d c hk hn hc) hx hxc

theorem tree_flat (ls : List ℓ) (h : ∀ i c, S.next l (m t i) ≠ .child c) :
    Tree S m (l :: ls) t ∧ reach S m (l :: ls) t = {t} := by
  refine ⟨⟨fun i c hc => absurd hc (h i c), fun i _ c _ _ hc _ => absurd hc (h i c)⟩, ?_⟩
  ext x
  simp only [reach, Set.mem_insert_iff, Set.mem_setOf_eq, Set.mem_singleton_iff,
    or_iff_left_iff_imp]
  rintro ⟨i, c, hc, _⟩
  exact absurd hc (h i c)

theorem locate_absent (h : S.next l (m t (S.index l k)) = .absent) :
    locate S m (l :: ls) t k = none := by
  simp only [locate, h]

theorem locate_leaf (h : S.next l (m t (S.index l k)) = .leaf) :
    locate S m (l :: ls) t k = some (l, t, S.index l k) := by
  simp only [locate, h]

theorem locate_child (h : S.next l (m t (S.index l k)) = .child c) :
    locate S m (l :: ls) t k = locate S m ls c k := by
  simp only [locate, h]

theorem walk_getLast (m : φ → ι → ε) (ls : List ℓ) (t : φ) (k : κ) :
    (walk S m ls t k).bind List.getLast? =
      (locate S m ls t k).map fun p => (p.1, m p.2.1 p.2.2) := by
  induction ls generalizing t with
  | nil => rfl
  | cons l ls ih =>
    cases hn : S.next l (m t (S.index l k)) with
    | absent => rw [walk_absent hn, locate_absent hn]; rfl
    | leaf => rw [walk_leaf hn, locate_leaf hn]; rfl
    | child c =>
      rw [walk_child hn, locate_child hn, ← ih c]
      cases hw : walk S m ls c k with
      | none => rfl
      | some es =>
        cases es with
        | nil =>
          cases ls with
          | nil => cases hw
          | cons l' ls =>
            cases hn' : S.next l' (m c (S.index l' k)) with
            | absent => rw [walk_absent hn'] at hw; cases hw
            | leaf => rw [walk_leaf hn'] at hw; cases hw
            | child d =>
              rw [walk_child hn', Option.map_eq_some_iff] at hw
              obtain ⟨_, _, hw⟩ := hw
              cases hw
        | cons e es => rfl

theorem locate_spec {x : φ} (h : locate S m ls t k = some (l, x, i)) :
    S.next l (m x i) = .leaf ∧ x ∈ reach S m ls t ∧ l ∈ ls := by
  induction ls generalizing t with
  | nil => cases h
  | cons l₀ ls ih =>
    cases hn : S.next l₀ (m t (S.index l₀ k)) with
    | absent =>
      rw [locate_absent hn] at h
      cases h
    | leaf =>
      rw [locate_leaf hn] at h
      cases h
      exact ⟨hn, mem_reach_self, List.mem_cons_self⟩
    | child c =>
      rw [locate_child hn] at h
      have hbelow := ih h
      exact ⟨hbelow.1, reach_child hn hbelow.2.1, List.mem_cons_of_mem _ hbelow.2.2⟩

theorem locate_level (hT : Tree S m ls t) {x : φ} {l' : ℓ} {k' : κ}
    (h : locate S m ls t k = some (l, x, i)) (h' : locate S m ls t k' = some (l', x, i)) :
    l' = l := by
  induction ls generalizing t with
  | nil => cases h
  | cons l₀ ls ih =>
    cases hn : S.next l₀ (m t (S.index l₀ k)) with
    | absent =>
      rw [locate_absent hn] at h
      cases h
    | leaf =>
      rw [locate_leaf hn] at h
      cases h
      cases hn' : S.next l (m x (S.index l k')) with
      | absent =>
        rw [locate_absent hn'] at h'
        cases h'
      | leaf =>
        rw [locate_leaf hn', Option.some.injEq, Prod.mk.injEq] at h'
        exact h'.1.symm
      | child c =>
        rw [locate_child hn'] at h'
        exact absurd (locate_spec h').2.1 (hT.child hn').1
    | child c =>
      rw [locate_child hn] at h
      have hx := (locate_spec h).2.1
      cases hn' : S.next l₀ (m t (S.index l₀ k')) with
      | absent =>
        rw [locate_absent hn'] at h'
        cases h'
      | leaf =>
        rw [locate_leaf hn'] at h'
        cases h'
        exact absurd hx (hT.child hn).1
      | child d =>
        rw [locate_child hn'] at h'
        by_cases hk : S.index l₀ k = S.index l₀ k'
        · rw [hk, hn'] at hn
          cases hn
          exact ih (hT.child hn').2 h h'
        · exact absurd (locate_spec h').2.1 (Set.disjoint_left.mp (hT.2 _ _ _ _ hk hn hn') hx)

theorem locate_of_leaves (hT : Tree S m ls t)
    (h : ∀ x ∈ reach S m ls t, ∀ i, m' x i = m x i ∨
      ∃ k l, locate S m ls t k = some (l, x, i) ∧ S.next l (m' x i) = .leaf) (k : κ) :
    locate S m' ls t k = locate S m ls t k := by
  induction ls generalizing t with
  | nil => rfl
  | cons l ls ih =>
    rcases h t mem_reach_self (S.index l k) with hsame | ⟨k₁, l₁, hk₁, hleaf⟩
    · cases hn : S.next l (m t (S.index l k)) with
      | absent => rw [locate_absent hn, locate_absent (by rw [hsame, hn])]
      | leaf => rw [locate_leaf hn, locate_leaf (by rw [hsame, hn])]
      | child c =>
        rw [locate_child hn, locate_child (by rw [hsame, hn])]
        apply ih (hT.child hn).2
        intro x hx i
        rcases h x (reach_child hn hx) i with hxi | ⟨k₁, l₁, hk₁, hleaf⟩
        · exact Or.inl hxi
        · refine Or.inr ⟨k₁, l₁, ?_, hleaf⟩
          -- the leaf lies below `c`, so its walk has gone there
          cases hn₁ : S.next l (m t (S.index l k₁)) with
          | absent =>
            rw [locate_absent hn₁] at hk₁
            cases hk₁
          | leaf =>
            rw [locate_leaf hn₁] at hk₁
            cases hk₁
            exact absurd hx (hT.child hn).1
          | child d =>
            rw [locate_child hn₁] at hk₁
            by_cases hkk : S.index l k = S.index l k₁
            · rw [← hkk, hn] at hn₁
              cases hn₁
              exact hk₁
            · have hd := (locate_spec hk₁).2.1
              exact absurd hd (Set.disjoint_left.mp (hT.2 _ _ _ _ hkk hn hn₁) hx)
    · cases hn₁ : S.next l (m t (S.index l k₁)) with
      | absent =>
        rw [locate_absent hn₁] at hk₁
        cases hk₁
      | leaf =>
        rw [locate_leaf hn₁, Option.some.injEq, Prod.mk.injEq, Prod.mk.injEq] at hk₁
        obtain ⟨rfl, -, hi⟩ := hk₁
        rw [hi] at hn₁
        rw [locate_leaf hleaf, locate_leaf hn₁]
      | child c =>
        rw [locate_child hn₁] at hk₁
        exact absurd (locate_spec hk₁).2.1 (hT.child hn₁).1

theorem locate_agree {above : ℓ → ℓ → Prop} (hls : ls.Pairwise above) {x : φ} {k' : κ}
    (h : locate S m ls t k = some (l, x, i))
    (hk : ∀ l' ∈ ls, l' = l ∨ above l' l → S.index l' k' = S.index l' k) :
    locate S m ls t k' = some (l, x, i) := by
  induction ls generalizing t with
  | nil => cases h
  | cons l₀ ls ih =>
    rw [List.pairwise_cons] at hls
    cases hn : S.next l₀ (m t (S.index l₀ k)) with
    | absent =>
      rw [locate_absent hn] at h
      cases h
    | leaf =>
      rw [locate_leaf hn] at h
      cases h
      have hindex := hk l List.mem_cons_self (Or.inl rfl)
      rw [locate_leaf (by rw [hindex, hn]), hindex]
    | child c =>
      rw [locate_child hn] at h
      have hl := (locate_spec h).2.2
      have hindex := hk l₀ List.mem_cons_self (Or.inr (hls.1 l hl))
      rw [locate_child (by rw [hindex, hn])]
      exact ih hls.2 h fun l' hl' => hk l' (List.mem_cons_of_mem _ hl')

theorem locate_congr {k' : κ} (hk : ∀ l ∈ ls, S.index l k' = S.index l k) :
    locate S m ls t k' = locate S m ls t k := by
  induction ls generalizing t with
  | nil => rfl
  | cons l ls ih =>
    have hindex := hk l List.mem_cons_self
    cases hn : S.next l (m t (S.index l k)) with
    | absent => rw [locate_absent hn, locate_absent (by rw [hindex, hn])]
    | leaf => rw [locate_leaf hn, locate_leaf (by rw [hindex, hn]), hindex]
    | child c =>
      rw [locate_child hn, locate_child (by rw [hindex, hn])]
      exact ih fun l' hl' => hk l' (List.mem_cons_of_mem _ hl')

end Vibra.Lib.Radix
