import Vibra.Memory.MappingFrame

/-! # The mapping that `map_user_page_fresh` makes

The call takes a free slot of the PML4 and hangs a new path of tables below it.
-/

namespace Vibra.Vmm

open Vibra.Lib Vibra.Paging

/-- The page tables from here down were changed, and grew by frames that were free. -/
structure Grown (s s' : Space) (ls : List Level) (t : Word) : Prop where
  owned : Owned s' ls t
  inside : Inside s s' ls t
  reach : ∀ x ∈ Radix.reach shape s'.tables ls t,
    x ∈ Radix.reach shape s.tables ls t ∨ x ∈ free s.pmm

/-- They grew by the one page of `virt`, which is walked along `entries`. -/
structure PageMapped (s s' : Space) (ls : List Level) (t virt : Word)
    (entries : List (Level × Word)) : Prop extends Grown s s' ls t where
  page : ∀ address, (∀ l ∈ ls, index address l.shift = index virt l.shift) →
    Radix.walk shape s'.tables ls t address = some entries
  other : ∀ address, (∃ l ∈ ls, index address l.shift ≠ index virt l.shift) →
    Radix.walk shape s'.tables ls t address = Radix.walk shape s.tables ls t address

section Growing

variable {s s' s'' : Space} {l : Level} {ls : List Level} {t c virt : Word} {i : Fin 512}

theorem Opened.agree_beside (h : Opened s s' l ls t i c) (hO : Owned s (l :: ls) t)
    (hI : Inside s' s'' ls c) {j : Fin 512} (hj : j ≠ i) {d : Word}
    (hd : next l (s.tables t j) = .child d) :
    ∀ x ∈ Radix.reach shape s.tables ls d, s''.tables x = s.tables x := by
  intro x hx
  have hxt : x ≠ t := by
    rintro rfl
    exact (hO.tree.child hd).1 hx
  have hxf : x ∉ Vmm.free s.pmm := Set.disjoint_left.mp hO.apart (Radix.reach_child hd hx)
  have hxc : x ∉ Radix.reach shape s'.tables ls c := by
    intro hr
    rcases h.within x hr with hf | ⟨b, hb, hr⟩
    · exact hxf hf
    · exact Set.disjoint_left.mp (hO.tree.2 j i d b hj hd hb) hx hr
  rw [hI.tables x hxc fun hf => hxf (h.free hf), h.away x hxt hxf]

theorem Opened.grown (h : Opened s s' l ls t i c) (hO : Owned s (l :: ls) t)
    (hg : Grown s' s'' ls c) : Grown s s'' (l :: ls) t := by
  have hI := hg.inside
  have hbelow : ∀ x ∈ Radix.reach shape s''.tables ls c, x ∈ Vmm.free s.pmm ∨
      ∃ d, next l (s.tables t i) = .child d ∧ x ∈ Radix.reach shape s.tables ls d := by
    intro x hx
    rcases hg.reach x hx with hr | hf
    · exact h.within x hr
    · exact Or.inl (h.free hf)
  have hentry : s''.tables t = s'.tables t := h.entry hO hI
  have hchild : ∀ j d, next l (s''.tables t j) = .child d →
      j = i ∧ d = c ∨ j ≠ i ∧ next l (s.tables t j) = .child d := by
    intro j d hd
    rw [hentry] at hd
    by_cases hj : j = i
    · subst hj
      rw [h.leads] at hd
      cases hd
      exact Or.inl ⟨rfl, rfl⟩
    · rw [h.beside j hj] at hd
      exact Or.inr ⟨hj, hd⟩
  have hsame : ∀ {j : Fin 512}, j ≠ i → ∀ {d : Word}, next l (s.tables t j) = .child d →
      Radix.reach shape s''.tables ls d = Radix.reach shape s.tables ls d :=
    fun hj _ hd => Radix.reach_congr (h.agree_beside hO hI hj hd)
  have hnot : ∀ {j : Fin 512}, j ≠ i → ∀ {d : Word}, next l (s.tables t j) = .child d →
      Disjoint (Radix.reach shape s.tables ls d) (Radix.reach shape s''.tables ls c) := by
    intro j hj d hd
    apply Set.disjoint_left.mpr
    intro x hx hxc
    rcases hbelow x hxc with hf | ⟨b, hb, hr⟩
    · exact Set.disjoint_left.mp hO.apart (Radix.reach_child hd hx) hf
    · exact Set.disjoint_left.mp (hO.tree.2 j i d b hj hd hb) hx hr
  have hreach : ∀ x ∈ Radix.reach shape s''.tables (l :: ls) t,
      x ∈ Radix.reach shape s.tables (l :: ls) t ∨ x ∈ Vmm.free s.pmm := by
    rintro x (rfl | ⟨j, d, hd, hx⟩)
    · exact Or.inl Radix.mem_reach_self
    · rcases hchild j d hd with ⟨rfl, rfl⟩ | ⟨hj, hd⟩
      · rcases hbelow x hx with hf | ⟨b, hb, hr⟩
        · exact Or.inr hf
        · exact Or.inl (Radix.reach_child hb hr)
      · rw [hsame hj hd] at hx
        exact Or.inl (Radix.reach_child hd hx)
  refine ⟨⟨⟨fun j d hd => ?_, fun j k d b hjk hd hb => ?_⟩, ?_⟩, h.inside hI, hreach⟩
  · rcases hchild j d hd with ⟨rfl, rfl⟩ | ⟨hj, hd⟩
    · refine ⟨fun ht => ?_, hg.owned.tree⟩
      rcases hbelow t ht with hf | ⟨b, hb, hr⟩
      · exact hO.not_free hf
      · exact (hO.tree.child hb).1 hr
    · rw [hsame hj hd]
      exact ⟨(hO.tree.child hd).1, (hO.tree.child hd).2.congr (h.agree_beside hO hI hj hd)⟩
  · rcases hchild j d hd with ⟨rfl, rfl⟩ | ⟨hj, hd⟩
    · rcases hchild k b hb with ⟨rfl, rfl⟩ | ⟨hk, hb⟩
      · exact absurd rfl hjk
      · rw [hsame hk hb]
        exact (hnot hk hb).symm
    · rcases hchild k b hb with ⟨rfl, rfl⟩ | ⟨hk, hb⟩
      · rw [hsame hj hd]
        exact hnot hj hd
      · rw [hsame hj hd, hsame hk hb]
        exact hO.tree.2 j k d b hjk hd hb
  · apply Set.disjoint_left.mpr
    rintro x (rfl | ⟨j, d, hd, hx⟩) hf
    · exact hO.not_free (h.free (hI.free hf))
    · rcases hchild j d hd with ⟨rfl, rfl⟩ | ⟨hj, hd⟩
      · exact Set.disjoint_left.mp hg.owned.apart hx hf
      · rw [hsame hj hd] at hx
        exact Set.disjoint_left.mp hO.apart (Radix.reach_child hd hx) (h.free (hI.free hf))

theorem Opened.pageMapped (virt : Word) {entries : List (Level × Word)}
    (h : Opened s s' l ls t (index virt l.shift) c) (hO : Owned s (l :: ls) t)
    (habsent : ¬ Has (s.tables t (index virt l.shift)) entryPresent)
    (hnone : ∀ address, Radix.walk shape s'.tables ls c address = none)
    (hp : PageMapped s' s'' ls c virt entries) :
    PageMapped s s'' (l :: ls) t virt ((l, s'.tables t (index virt l.shift)) :: entries) := by
  refine ⟨h.grown hO hp.toGrown, fun address ha => ?_, fun address ha => ?_⟩
  · rw [h.walk_below hO hp.inside (ha l List.mem_cons_self),
      hp.page address fun k hk => ha k (List.mem_cons_of_mem l hk)]
    rfl
  · by_cases hl : index address l.shift = index virt l.shift
    · have hrest : ∃ k ∈ ls, index address k.shift ≠ index virt k.shift := by
        obtain ⟨k, hk, hne⟩ := ha
        rcases List.mem_cons.mp hk with rfl | hk
        · exact absurd hl hne
        · exact ⟨k, hk, hne⟩
      rw [h.walk_below hO hp.inside hl, hp.other address hrest, hnone, walk_at_absent hl habsent]
      rfl
    · exact h.walk_beside hO hp.inside hl

theorem setPage_pageMapped (hO : Owned s [.pt] t) {e : Word} (he : Has e entryPresent)
    (virt : Word) :
    PageMapped s (s.set t (index virt 12) e) [.pt] t virt [(.pt, e)] := by
  have hM := setPage_mapped s t virt he
  have hflat : ∀ j d, shape.next .pt ((s.set t (index virt 12) e).tables t j) ≠ .child d := by
    intro j d
    by_cases hp : Has ((s.set t (index virt 12) e).tables t j) entryPresent
    · rw [show shape.next .pt _ = .leaf from next_ends hp rfl]
      nofun
    · rw [show shape.next .pt _ = .absent from next_absent hp]
      nofun
  have htree := Radix.tree_flat [] hflat
  refine ⟨⟨⟨htree.1, ?_⟩, hM.inside, fun x hx => ?_⟩, fun address ha => ?_, fun address ha => ?_⟩
  · rw [htree.2]
    exact Set.disjoint_singleton_left.mpr hO.not_free
  · rw [htree.2] at hx
    obtain rfl : x = t := hx
    exact Or.inl Radix.mem_reach_self
  · obtain ⟨path, hw, _⟩ := hM.page rfl address ha
    have hk : index address 12 = index virt 12 := ha .pt (List.mem_singleton_self _)
    have hsame : (s.set t (index virt 12) e).tables t (index address 12) = e := by
      rw [hk]
      exact setEntry_same _ _ _ _
    rw [walk_pt (by rw [hsame]; exact he), hsame]
  · rw [hM.other address fun _ => ha, Option.map_id']

end Growing

/-! ## New tables -/

def drawn : Pmm.State → Nat → Pmm.State
  | pmm, 0 => pmm
  | pmm, n + 1 => drawn (Pmm.allocFrame pmm).2 n

/-- What `map_user_page_fresh` writes below an entry: new tables for the levels, and the page. -/
def freshPath (e : Word) : List Level → Space → Word → Fin 512 → Bool × Space
  | [], s, t, i => (true, s.set t i e)
  | _ :: ls, s, t, i =>
    match pushTable s t i with
    | (none, s) => (false, s)
    | (some c, s) => freshPath e ls s c 0

def Ladder : List Level → Prop
  | [] => False
  | [l] => l = .pt
  | l :: ls => l ≠ .pt ∧ Ladder ls

theorem mapUserPageFresh_eq (cpu : Cpu) (s : Space) (phys : Word) (writable executable : Bool) :
    mapUserPageFresh cpu s phys writable executable =
      match freeSlot s.tables (pml4Table cpu s.tables) 254 2 with
      | none => (none, s)
      | some slot =>
        match freshPath (userEntry cpu phys writable executable) [.pdpt, .pd, .pt] s
            (pml4Table cpu s.tables) slot with
        | (true, s) => (some (BitVec.ofNat 64 slot <<< 39), s)
        | (false, s) => (none, s) := by
  unfold mapUserPageFresh
  cases h : freeSlot s.tables (pml4Table cpu s.tables) 254 2 with
  | none => simp only [h]
  | some slot =>
    simp only [h, freshPath]
    rcases h1 : pushTable s (pml4Table cpu s.tables) slot with ⟨_ | pdpt, s1⟩
    · simp
    simp only
    rcases h2 : pushTable s1 pdpt 0 with ⟨_ | pd, s2⟩
    · simp
    simp only
    rcases h3 : pushTable s2 pd 0 with ⟨_ | pt, s3⟩ <;> simp

section Path

variable {s : Space} {l k : Level} {ls : List Level} {t virt e : Word} {i : Fin 512}

def pointer (frame : Word) : Word := frame ||| entryPresent ||| entryWritable ||| entryUser

theorem next_pointer_new {l : Level} (hl : l ≠ .pt) {frame : Word} (hf : IsFrame frame) :
    next l (pointer frame) = .child frame := by
  rw [pointer, BitVec.or_assoc, BitVec.or_assoc]
  exact next_pointer hl hf (by decide) (by decide) (by decide)

theorem pushTable_cases (hO : Owned s (l :: k :: ls) t) (hl : l ≠ .pt) (i : Fin 512) :
    pushTable s t i = (none, s) ∧ grant s.pmm = none ∨
      ∃ frame s', pushTable s t i = (some frame, s') ∧ (grant s.pmm).isSome ∧
        s'.pmm = (Pmm.allocFrame s.pmm).2 ∧ IsFrame frame ∧ Opened s s' l (k :: ls) t i frame ∧
        (s'.tables frame = fun _ => 0) ∧ s'.tables t i = pointer frame := by
  unfold pushTable
  rcases allocFrameZeroed_cases s with ⟨hA, hg⟩ | ⟨frame, s1, hA, hg, hpmm, hfree, hfree1, htab⟩
  · rw [hA]
    exact Or.inl ⟨rfl, hg⟩
  · rw [hA]
    have htables : (s1.set t i (pointer frame)).tables =
        setEntry (setTable s.tables frame fun _ => 0) t i (pointer frame) := by
      rw [← htab]
      rfl
    have h0 : ¬ Has 0 entryPresent := by decide
    have hflat : ∀ j d, next k ((fun _ => 0 : Fin 512 → Word) j) ≠ .child d := by
      intro j d
      rw [next_absent h0]
      nofun
    have hframe := isFrame_of_free hfree
    have hleft : free (s1.set t i (pointer frame)).pmm = free s.pmm \ {frame} := hfree1
    obtain ⟨hop, hzero⟩ := opened_fresh hO hfree hleft htables (next_pointer_new hl hframe) hflat
    refine Or.inr ⟨frame, _, rfl, by rw [hg]; rfl, hpmm, hframe, hop, hzero, ?_⟩
    exact setEntry_same _ _ _ _

/-- A new path takes a frame for each level but the first, and maps the one page. -/
structure PathMade (s s' : Space) (ls : List Level) (t virt e : Word) (i : Fin 512) : Prop where
  mapped : ∃ path, PageMapped s s' ls t virt (path ++ [(.pt, e)]) ∧
    ∀ x ∈ path, ∃ frame, IsFrame frame ∧ x.2 = pointer frame
  beside : ∀ j, j ≠ i → s'.tables t j = s.tables t j
  entry : Has (s'.tables t i) entryPresent

theorem freshPath_spec (he : Has e entryPresent) (hls : Ladder (l :: ls))
    (hO : Owned s (l :: ls) t) (habsent : ¬ Has (s.tables t i) entryPresent)
    (hi : index virt l.shift = i) (hrest : ∀ k ∈ ls, index virt k.shift = 0) :
    ((freshPath e ls s t i).1 = true ↔ enough s.pmm ls.length) ∧
      free (freshPath e ls s t i).2.pmm ⊆ free s.pmm ∧
      ((freshPath e ls s t i).1 = true →
        (freshPath e ls s t i).2.pmm = drawn s.pmm ls.length ∧
          PathMade s (freshPath e ls s t i).2 (l :: ls) t virt e i) := by
  induction ls generalizing l s t i with
  | nil =>
    obtain rfl : l = .pt := hls
    obtain rfl : index virt 12 = i := hi
    refine ⟨by simp [freshPath, enough], Set.Subset.rfl, fun _ => ⟨rfl, ?_⟩⟩
    refine ⟨⟨[], setPage_pageMapped hO he virt, by simp⟩, fun j hj => setEntry_beside _ _ _ hj, ?_⟩
    have hsame : (s.set t (index virt 12) e).tables t (index virt 12) = e := setEntry_same _ _ _ _
    exact hsame.symm ▸ he
  | cons k ls ih =>
    obtain ⟨hl, hls⟩ : l ≠ .pt ∧ Ladder (k :: ls) := hls
    rcases pushTable_cases hO hl i with ⟨hp, hg⟩ |
      ⟨frame, s1, hp, hg, hpmm, hframe, hop, hzero, hentry⟩
    · simp [freshPath, hp, enough, hg]
    · have h0 : ¬ Has (s1.tables frame 0) entryPresent := by
        rw [hzero]
        decide
      obtain ⟨hok, hsub, hmade⟩ := ih hls hop.owned h0 (hrest k List.mem_cons_self)
        fun k hk => hrest k (List.mem_cons_of_mem _ hk)
      have hstep : freshPath e (k :: ls) s t i = freshPath e ls s1 frame 0 := by
        simp only [freshPath, hp]
      rw [hstep, hok, hpmm]
      refine ⟨by simp [enough, hg], hsub.trans hop.free, fun henough => ?_⟩
      obtain ⟨hdrawn, hpath⟩ := hmade (hok.mpr (by rw [hpmm]; exact henough))
      rw [hdrawn, hpmm]
      refine ⟨rfl, ?_⟩
      subst hi
      obtain ⟨path, hmap, hptr⟩ := hpath.mapped
      have hkept : (freshPath e ls s1 frame 0).2.tables t = s1.tables t :=
        hop.entry hO hmap.inside
      refine ⟨⟨(l, s1.tables t (index virt l.shift)) :: path, ?_, ?_⟩, ?_, ?_⟩
      · exact hop.pageMapped virt hO habsent (fun _ => walk_zero hzero) hmap
      · intro x hx
        rcases List.mem_cons.mp hx with rfl | hx
        · exact ⟨frame, hframe, hentry⟩
        · exact hptr x hx
      · intro j hj
        rw [hkept, hop.beside j hj]
      · rw [hkept, hentry]
        exact has_or.mpr (Or.inl (has_or.mpr (Or.inl (has_self _ (by decide)))))

end Path

def freeSlots (tables : Tables) (pml4 : Word) : Set (Fin 512) :=
  {i | 2 ≤ i.val ∧ i.val < 256 ∧ ¬ Has (tables pml4 i) entryPresent}

theorem ofNat_val {n : Nat} (h : n < 256) : (Fin.ofNat 512 n).val = n :=
  Nat.mod_eq_of_lt (by omega)

theorem freeSlot_some {tables : Tables} {pml4 : Word} {slot : Fin 512}
    (h : freeSlot tables pml4 254 2 = some slot) : slot ∈ freeSlots tables pml4 := by
  have hgen : ∀ remaining start, start + remaining ≤ 256 →
      freeSlot tables pml4 remaining start = some slot →
        start ≤ slot.val ∧ slot.val < 256 ∧ ¬ Has (tables pml4 slot) entryPresent := by
    intro remaining
    induction remaining with
    | zero => intro start _ h; cases h
    | succ remaining ih =>
      intro start hle h
      simp only [freeSlot] at h
      split at h
      · have hrest := ih (start + 1) (by omega) h
        exact ⟨by omega, hrest.2⟩
      · rename_i hfree
        cases h
        rw [ofNat_val (by omega)]
        exact ⟨le_rfl, by omega, hfree⟩
  exact hgen 254 2 (by decide) h

theorem freeSlot_none {tables : Tables} {pml4 : Word}
    (h : freeSlot tables pml4 254 2 = none) : freeSlots tables pml4 = ∅ := by
  have hgen : ∀ remaining start, start + remaining ≤ 256 →
      freeSlot tables pml4 remaining start = none → ∀ i : Fin 512, start ≤ i.val →
        i.val < start + remaining → Has (tables pml4 i) entryPresent := by
    intro remaining
    induction remaining with
    | zero => intro start _ _ i h1 h2; omega
    | succ remaining ih =>
      intro start hle h i h1 h2
      simp only [freeSlot] at h
      split at h
      · rename_i hpresent
        rcases Nat.eq_or_lt_of_le h1 with heq | hlt
        · have hi : i = Fin.ofNat 512 start := Fin.ext (by rw [ofNat_val (by omega), heq])
          rw [hi]
          exact hpresent
        · exact ih (start + 1) (by omega) h i hlt (by omega)
      · cases h
  apply Set.eq_empty_iff_forall_notMem.mpr
  rintro i ⟨h1, h2, h3⟩
  exact h3 (hgen 254 2 (by decide) h i h1 h2)

theorem toNat_slot (slot : Fin 512) : (BitVec.ofNat 64 slot <<< 39).toNat = slot.val * 2 ^ 39 := by
  have hlt := slot.isLt
  rw [BitVec.toNat_shiftLeft, BitVec.toNat_ofNat, Nat.shiftLeft_eq]
  omega

theorem index_slot {slot : Fin 512} {address : Word}
    (h : address.toNat / 4096 = slot.val * 2 ^ 27) :
    index address 48 = 0 ∧ index address 39 = slot ∧ index address 30 = 0 ∧
      index address 21 = 0 ∧ index address 12 = 0 := by
  have hlt := slot.isLt
  refine ⟨?_, ?_, ?_, ?_, ?_⟩ <;>
    · apply Fin.ext
      simp only [index, BitVec.toNat_ushiftRight, Nat.shiftRight_eq_div_pow, Fin.val_zero]
      omega

theorem PathMade.freeSlots {s s' : Space} {ls : List Level} {t virt e : Word} {i : Fin 512}
    (h : PathMade s s' ls t virt e i) :
    freeSlots s'.tables t = Vmm.freeSlots s.tables t \ {i} := by
  ext j
  simp only [Vmm.freeSlots, Set.mem_ofPred_eq, Set.mem_sdiff, Set.mem_singleton_iff]
  by_cases hj : j = i
  · subst hj
    simp [h.entry]
  · rw [h.beside j hj]
    simp [hj]

theorem WellFormed.grown {cpu : Cpu} {s s' : Space} (hwf : WellFormed cpu s)
    (hg : Grown s s' levels4 (pml4Table cpu s.tables)) :
    WellFormed cpu s' ∧ pml4Table cpu s'.tables = pml4Table cpu s.tables ∧
      aboveLower cpu s'.tables = aboveLower cpu s.tables := by
  cases h : cpu.la57 with
  | false =>
    have hroot : ∀ tables, pml4Table cpu tables = currentRootPhys cpu := fun tables => by
      simp [pml4Table, h]
    rw [hroot] at hg
    refine ⟨⟨by simpa [levels, h] using hg.owned, by simp [h]⟩, by rw [hroot, hroot], ?_⟩
    simp [aboveLower, h]
  | true =>
    obtain ⟨hop, hO⟩ := opened_lower hwf h
    have hroot := hop.grown hO hg
    have hentry : s'.tables (currentRootPhys cpu) = s.tables (currentRootPhys cpu) :=
      hop.entry hO hg.inside
    refine ⟨⟨by simpa [levels, h] using hroot.owned, fun _ => ?_⟩, ?_, ?_⟩
    · rw [hentry]
      exact hwf.lower h
    · simp only [pml4Table, readEntry, hentry]
    · simp only [aboveLower, hentry]

theorem mapUserPageFresh_spec {cpu : Cpu} {s : Space} (hwf : WellFormed cpu s) (phys : Word)
    (writable executable : Bool) :
    ((mapUserPageFresh cpu s phys writable executable).1.isSome ↔
        (freeSlots s.tables (pml4Table cpu s.tables)).Nonempty ∧ enough s.pmm 3) ∧
      free (mapUserPageFresh cpu s phys writable executable).2.pmm ⊆ free s.pmm ∧
      ∀ virt, (mapUserPageFresh cpu s phys writable executable).1 = some virt →
        (mapUserPageFresh cpu s phys writable executable).2.pmm = drawn s.pmm 3 ∧
        ∃ slot ∈ freeSlots s.tables (pml4Table cpu s.tables), virt = BitVec.ofNat 64 slot <<< 39 ∧
          PathMade s (mapUserPageFresh cpu s phys writable executable).2 levels4
            (pml4Table cpu s.tables) virt (userEntry cpu phys writable executable) slot := by
  rw [mapUserPageFresh_eq]
  cases hslot : freeSlot s.tables (pml4Table cpu s.tables) 254 2 with
  | none =>
    have hnone := freeSlot_none hslot
    simp [hnone]
  | some slot =>
    have hmem := freeSlot_some hslot
    have hpage : (BitVec.ofNat 64 slot <<< 39).toNat / 4096 = slot.val * 2 ^ 27 := by
      rw [toNat_slot]
      omega
    obtain ⟨_, h39, h30, h21, h12⟩ := index_slot hpage
    have hladder : Ladder [.pml4, .pdpt, .pd, .pt] := by simp [Ladder]
    have hrest : ∀ k ∈ [Level.pdpt, .pd, .pt], index (BitVec.ofNat 64 slot <<< 39) k.shift = 0 := by
      simp [Level.shift, h30, h21, h12]
    obtain ⟨hok, hsub, hmade⟩ := freshPath_spec
      (userEntry_present cpu phys writable executable) hladder (owned_pml4 hwf) hmem.2.2
      h39 hrest
    have hnonempty : (freeSlots s.tables (pml4Table cpu s.tables)).Nonempty := ⟨slot, hmem⟩
    simp only
    rcases hr : freshPath (userEntry cpu phys writable executable) [.pdpt, .pd, .pt] s
      (pml4Table cpu s.tables) slot with ⟨ok, s'⟩
    rw [hr] at hok hsub hmade
    cases ok with
    | false =>
      have hfew : ¬ enough s.pmm 3 := fun h => by simpa using hok.mpr h
      exact ⟨by simp [hfew], hsub, fun _ hvirt => by cases hvirt⟩
    | true =>
      have henough : enough s.pmm 3 := hok.mp rfl
      refine ⟨by simp [henough, hnonempty], hsub, fun virt hvirt => ?_⟩
      obtain ⟨hdrawn, hpath⟩ := hmade rfl
      obtain rfl : BitVec.ofNat 64 slot <<< 39 = virt := Option.some.inj hvirt
      exact ⟨hdrawn, slot, hmem, rfl, hpath⟩

section Several

variable {s s' s'' : Space} {ls : List Level} {t x : Word}

theorem Grown.trans (h : Grown s s' ls t) (h' : Grown s' s'' ls t) : Grown s s'' ls t := by
  refine ⟨h'.owned, ⟨fun x hx hf => ?_, h'.inside.free.trans h.inside.free⟩, fun x hx => ?_⟩
  · have hx' : x ∉ Radix.reach shape s'.tables ls t := fun hr => (h.reach x hr).elim hx hf
    rw [h'.inside.tables x hx' fun hf' => hf (h.inside.free hf'), h.inside.tables x hx hf]
  · rcases h'.reach x hx with hr | hf
    · exact h.reach x hr
    · exact Or.inr (h.inside.free hf)

theorem Grown.keeps (h : Grown s s' ls t) (hx : x ∉ Radix.reach shape s.tables ls t)
    (hf : x ∉ free s.pmm) :
    s'.tables x = s.tables x ∧ x ∉ Radix.reach shape s'.tables ls t ∧ x ∉ free s'.pmm :=
  ⟨h.inside.tables x hx hf, fun hr => (h.reach x hr).elim hx hf, fun hf' => hf (h.inside.free hf')⟩

theorem fill_grown (hO : Owned s ls t) {frame : Word} (hframe : frame ∈ free s.pmm)
    {f : Fin 512 → Word} (htab : s'.tables = setTable s.tables frame f)
    (hfree : free s'.pmm = free s.pmm \ {frame}) :
    Grown s s' ls t ∧ ∀ y ∈ Radix.reach shape s.tables ls t, s'.tables y = s.tables y := by
  have hsame : ∀ y ∈ Radix.reach shape s.tables ls t, s'.tables y = s.tables y := by
    intro y hy
    rw [htab, setTable_away]
    rintro rfl
    exact Set.disjoint_left.mp hO.apart hy hframe
  have hreach := Radix.reach_congr hsame
  have hsub : free s'.pmm ⊆ free s.pmm := by
    rw [hfree]
    exact Set.sdiff_subset
  refine ⟨⟨⟨hO.tree.congr hsame, ?_⟩, ⟨fun y _ hf => ?_, hsub⟩, fun y hy => ?_⟩, hsame⟩
  · rw [hreach]
    exact Set.disjoint_of_subset_right hsub hO.apart
  · rw [htab, setTable_away]
    rintro rfl
    exact hf hframe
  · rw [hreach] at hy
    exact Or.inl hy

theorem enough_add (pmm : Pmm.State) (n k : Nat) :
    enough pmm (n + k) ↔ enough pmm n ∧ enough (drawn pmm n) k := by
  induction n generalizing pmm with
  | zero => simp [enough, drawn]
  | succ n ih => rw [Nat.add_right_comm, enough, ih, enough, drawn, and_assoc]

theorem drawn_add (pmm : Pmm.State) (n k : Nat) :
    drawn pmm (n + k) = drawn (drawn pmm n) k := by
  induction n generalizing pmm with
  | zero => simp [drawn]
  | succ n ih => rw [Nat.add_right_comm, drawn, ih, drawn]

end Several

end Vibra.Vmm
