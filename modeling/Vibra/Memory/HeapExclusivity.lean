import Vibra.Memory.HeapList

/-! # Exclusive allocation and full coalescing

The system is the heap together with its live allocations.
-/

namespace Vibra.Heap

open Lib Span

variable {fl : FreeList} {bs : List (Span Nat)}

theorem Valid.blocksFrom_eq (h : Valid fl bs) {post : List (Span Nat)} {cur : Option Nat}
    {steps : Nat} (hsub : ∀ b ∈ post, b ∈ bs) (hseg : Seg fl.words cur post none)
    (hsteps : post.length < steps) : fl.blocksFrom steps cur = post := by
  induction post generalizing cur steps with
  | nil =>
    obtain ⟨steps, rfl⟩ : ∃ n, steps = n + 1 := ⟨steps - 1, by simp at hsteps; omega⟩
    have hcur : cur = none := hseg
    simp [FreeList.blocksFrom, hcur]
  | cons b post ih =>
    obtain ⟨steps, rfl⟩ : ∃ n, steps = n + 1 := ⟨steps - 1, by simp at hsteps; omega⟩
    obtain ⟨hcur, hw, hrest⟩ := hseg
    have hb := h.blocks b (hsub b (by simp))
    have hlt := hb.lt
    have hend : b.start + FreeNode.size fl.words b.start = b.stop := by
      rw [FreeNode.size_eq hb.small hw]
      unfold Span.size
      omega
    rw [hcur, FreeList.blocksFrom, h.nodeOk (hsub b (by simp)) hw, hend,
      ih (fun c hc => hsub c (by simp [hc])) hrest (by simpa using hsteps)]
    simp

theorem foldl_satAdd {l : List (Span Nat)} {n : Nat} (h : n + bytes l < usizeLimit) :
    l.foldl (fun sum b => satAdd sum b.size) n = n + bytes l := by
  induction l generalizing n with
  | nil => simp
  | cons b l ih =>
    rw [bytes_cons] at h
    rw [List.foldl_cons, exact_satAdd n b.size (by omega), ih (by omega), bytes_cons]
    omega

theorem Valid.blocks_eq (h : Valid fl bs) (hsum : bytes bs ≤ maxHeapBytes) : fl.blocks = bs :=
  h.blocksFrom_eq (fun _ hb => hb) h.linked (h.length_lt hsum)

theorem Valid.freeBytes_eq (h : Valid fl bs) (hsum : bytes bs ≤ maxHeapBytes) :
    fl.freeBytes = bytes bs := by
  have hmax : maxHeapBytes < usizeLimit := by decide
  rw [FreeList.freeBytes, h.blocks_eq hsum, foldl_satAdd (by omega), Nat.zero_add]

def RegionOk (r : Span Nat) : Prop :=
  0 < r.start ∧ 16 ∣ r.start ∧ 16 ∣ r.stop ∧ r.start < r.stop ∧ r.stop < usizeLimit

/-- `regions` with the range `n` merged into them is `rest` and `m`. -/
structure Merged (regions : List (Span Nat)) (n : Span Nat) (rest : List (Span Nat))
    (m : Span Nat) : Prop where
  cover : cover (m :: rest) = n.points ∪ cover regions
  bytes : bytes (m :: rest) = n.size + bytes regions
  apart : (m :: rest).Pairwise Apart
  ok : ∀ r ∈ m :: rest, RegionOk r
  above : ∀ r ∈ regions, ∃ q ∈ m :: rest, q.start ≤ r.start ∧ r.stop ≤ q.stop
  within : m.start ≤ n.start ∧ n.stop ≤ m.stop
  length : rest.length ≤ regions.length

/-- Two ranges that touch are one range. -/
theorem touching {n r : Span Nat} (hn : n.start < n.stop) (hr : r.start < r.stop)
    (htouch : r.stop = n.start ∨ r.start = n.stop) :
    let m : Span Nat := ⟨min n.start r.start, max n.stop r.stop⟩
    m.points = n.points ∪ r.points ∧ m.size = n.size + r.size ∧
      ∀ q : Span Nat, q.start < q.stop → n.stop ≤ q.start ∨ q.stop ≤ n.start → Apart r q →
        m.stop ≤ q.start ∨ q.stop ≤ m.start := by
  dsimp only
  unfold size Apart
  rcases htouch with h | h
  · rw [Nat.min_eq_right (by omega), Nat.max_eq_left (by omega)]
    refine ⟨?_, by dsimp only; omega, fun q hq hqn hqr => by omega⟩
    ext x
    simp only [mem_points, Set.mem_union]
    omega
  · rw [Nat.min_eq_left (by omega), Nat.max_eq_right (by omega)]
    refine ⟨?_, by dsimp only; omega, fun q hq hqn hqr => by omega⟩
    ext x
    simp only [mem_points, Set.mem_union]
    omega

theorem mergeRegions_spec {count : Nat} {regions : List (Span Nat)} {n : Span Nat}
    (hcount : count = regions.length) (hap : regions.Pairwise Apart)
    (hok : ∀ r ∈ regions, RegionOk r) (hn : RegionOk n) (hclear : Clear n regions) :
    Merged regions n (FreeList.mergeRegions count regions n).1
      (FreeList.mergeRegions count regions n).2 := by
  induction count generalizing regions n with
  | zero =>
    obtain rfl := List.length_eq_zero_iff.mp hcount.symm
    simp only [FreeList.mergeRegions]
    exact ⟨by simp, by simp, by simp, by simpa using hn, by simp, by simp, by simp⟩
  | succ count ih =>
    simp only [FreeList.mergeRegions]
    cases hfind : regions.findIdx? fun r => r.stop == n.start || r.start == n.stop with
    | none =>
      have hno := List.findIdx?_eq_none_iff.mp hfind
      dsimp only
      refine ⟨by simp, by simp, ?_, ?_, fun r hr => ⟨r, by simp [hr], Nat.le_refl _, Nat.le_refl _⟩,
        by simp, Nat.le_refl _⟩
      · refine List.pairwise_cons.mpr ⟨?_, hap⟩
        intro r hr
        have hne := hno r hr
        simp only [Bool.or_eq_false_iff, beq_eq_false_iff_ne] at hne
        rcases hclear r hr with h | h
        · exact Or.inl (by omega)
        · exact Or.inr (by omega)
      · intro r hr
        rcases List.mem_cons.mp hr with rfl | hr
        · exact hn
        · exact hok r hr
    | some index =>
      obtain ⟨hlt, htouch, -⟩ := List.findIdx?_eq_some_iff_getElem.mp hfind
      have hget : regions.getD index n = regions[index] := by simp [hlt]
      have hperm := List.getElem_cons_eraseIdx_perm hlt
      simp only [hget]
      generalize hr : regions[index] = r at htouch hperm ⊢
      have hmem : r ∈ regions := hperm.subset (by simp)
      have hrok := hok r hmem
      obtain ⟨hr0, hr1, hr2, hr3, hr4⟩ := hrok
      obtain ⟨hn0, hn1, hn2, hn3, hn4⟩ := hn
      obtain ⟨hrAp, hapRest⟩ :=
        List.pairwise_cons.mp (hperm.symm.pairwise hap fun h => Or.symm h)
      have hsub : ∀ q ∈ regions.eraseIdx index, q ∈ regions :=
        fun q hq => hperm.subset (by simp [hq])
      simp only [Bool.or_eq_true, beq_iff_eq] at htouch
      have hcoverPerm : Span.cover regions = r.points ∪ Span.cover (regions.eraseIdx index) := by
        rw [← cover_cons, cover_perm hperm]
      have hbytesPerm : Span.bytes regions = r.size + Span.bytes (regions.eraseIdx index) := by
        rw [← bytes_cons, bytes_perm hperm]
      have hmok : RegionOk ⟨min n.start r.start, max n.stop r.stop⟩ := by
        rcases htouch with h | h
        · rw [Nat.min_eq_right (by omega), Nat.max_eq_left (by omega)]
          exact ⟨hr0, hr1, hn2, by simp only; omega, hn4⟩
        · rw [Nat.min_eq_left (by omega), Nat.max_eq_right (by omega)]
          exact ⟨hn0, hn1, hr2, by simp only; omega, hr4⟩
      obtain ⟨hpts, hsize, hmerge⟩ := touching hn3 hr3 htouch
      have hmclear : Clear ⟨min n.start r.start, max n.stop r.stop⟩ (regions.eraseIdx index) := by
        intro q hq
        exact hmerge q (hok q (hsub q hq)).2.2.2.1 (hclear q (hsub q hq)) (hrAp q hq)
      obtain ⟨hcov, hbyt, hap', hok', habove, hwithin, hlen⟩ :=
        ih (n := ⟨min n.start r.start, max n.stop r.stop⟩)
          (by rw [List.length_eraseIdx_of_lt hlt]; omega) hapRest (fun q hq => hok q (hsub q hq))
          hmok hmclear
      refine ⟨?_, ?_, hap', hok', ?_, ?_, ?_⟩
      · rw [hcov, hpts, hcoverPerm, Set.union_assoc]
      · rw [hbyt, hbytesPerm, hsize, Nat.add_assoc]
      · intro q hq
        rcases List.mem_cons.mp (hperm.symm.subset hq) with rfl | hq
        · refine ⟨_, List.mem_cons_self, ?_, ?_⟩
          · exact Nat.le_trans hwithin.1 (Nat.min_le_right _ _)
          · exact Nat.le_trans (Nat.le_max_right _ _) hwithin.2
        · exact habove q hq
      · exact ⟨Nat.le_trans hwithin.1 (Nat.min_le_left _ _),
          Nat.le_trans (Nat.le_max_left _ _) hwithin.2⟩
      · rw [List.length_eraseIdx_of_lt hlt] at hlen
        omega

/-- A pointer that `allocate` returned, with its layout. -/
structure Allocation where
  ptr : Nat
  layout : Layout
deriving DecidableEq

def Allocation.span (a : Allocation) : Span Nat := ⟨a.ptr, a.ptr + a.layout.rounded⟩

/-- The heap, the allocations not freed yet, and every region it was given. -/
structure System where
  fl : FreeList
  live : List Allocation
  added : List (Span Nat)

def System.spans (s : System) : List (Span Nat) := s.live.map Allocation.span

inductive Call where
  | addRegion (start size : Nat)
  | allocate (layout : Layout)
  | deallocate (ptr : Nat) (layout : Layout)
  /-- The holder of a live allocation writes a word of it. -/
  | store (addr value : Nat)

/-- The returned pointer of `allocate`, 0 otherwise. `none` when the call does
not return. -/
def System.exec (s : System) : Call → Option (Nat × System)
  | .addRegion start size =>
    (s.fl.addRegion start size).map fun r =>
      (0, ⟨r.2, s.live, if r.1 then ⟨start, start + size⟩ :: s.added else s.added⟩)
  | .allocate layout =>
    (s.fl.allocate layout).map fun r =>
      (r.1, ⟨r.2, if r.1 = 0 then s.live else ⟨r.1, layout⟩ :: s.live, s.added⟩)
  | .deallocate ptr layout =>
    (s.fl.deallocate ptr layout).map fun fl => (0, ⟨fl, s.live.erase ⟨ptr, layout⟩, s.added⟩)
  | .store addr value =>
    some (0, { s with fl := { s.fl with words := Function.update s.fl.words addr value } })

/-- What the callers keep to: new regions are 16-aligned and overlap no old one,
a pointer is freed once and with its layout, and a store stays in a live
allocation. -/
def System.Allowed (s : System) : Call → Prop
  | .addRegion start size =>
    0 < start ∧ 16 ∣ start ∧ 16 ∣ size ∧
      ∀ r ∈ s.fl.regions, start + size ≤ r.start ∨ r.stop ≤ start
  | .allocate _ => True
  | .deallocate ptr layout => ⟨ptr, layout⟩ ∈ s.live
  | .store addr _ => 8 ∣ addr ∧ ∃ b ∈ s.spans, b.start ≤ addr ∧ addr + 8 ≤ b.stop

/-- The search of an `allocate` rounds no block address up past the end of the
address space. -/
def System.InRange (s : System) : Call → Prop
  | .allocate layout => NoWrap layout.rounded layout.granule s.fl.blocks
  | _ => True

instance (s : System) : (call : Call) → Decidable (s.InRange call)
  | .allocate layout => inferInstanceAs (Decidable (NoWrap layout.rounded layout.granule _))
  | .addRegion _ _ | .deallocate _ _ | .store _ _ => isTrue trivial

/-- The states reached from `init` by calls that keep to the rules, with every
`allocate` in range. -/
inductive Reach (words : Nat → Nat) (start size : Nat) : System → Prop
  | init {fl : FreeList} (h : FreeList.init words start size = some fl) :
      Reach words start size ⟨fl, [], fl.regions⟩
  | step {s s' : System} {call : Call} {ptr : Nat} (hs : Reach words start size s)
      (ha : s.Allowed call) (hr : s.InRange call) (he : s.exec call = some (ptr, s')) :
      Reach words start size s'

theorem Layout.rounded_spec (layout : Layout) :
    16 ∣ layout.rounded ∧ 0 < layout.rounded ∧ layout.size ≤ layout.rounded := by
  have hfits := layout.fits
  have hle : max layout.size 1 + (alignGranule - 1) < usizeLimit := by
    simp only [alignGranule, usizeLimit]
    omega
  obtain ⟨h1, -, h3⟩ :=
    alignUp_spec (show alignGranule = 2 ^ 4 from rfl) (show 4 ≤ 64 by decide) hle
  exact ⟨h3, by unfold rounded; omega, by unfold rounded; omega⟩

theorem Layout.granule_spec (layout : Layout) :
    ∃ k, layout.granule = 2 ^ k ∧ k ≤ 64 ∧ 16 ∣ layout.granule ∧ layout.align ∣ layout.granule := by
  obtain ⟨k, hk⟩ := layout.align_pow
  have hfits := layout.fits
  have hk64 : k ≤ 63 := by
    by_contra hgt
    have : 2 ^ 64 ≤ 2 ^ k := Nat.pow_le_pow_right (by decide) (by omega)
    omega
  unfold granule alignGranule
  rcases Nat.le_total k 4 with h | h
  · have hle : layout.align ≤ 16 := hk ▸ Nat.pow_le_pow_right (by decide) h
    rw [Nat.max_eq_right hle]
    exact ⟨4, rfl, by decide, Nat.dvd_refl _, hk ▸ Nat.pow_dvd_pow 2 h⟩
  · have hle : 16 ≤ layout.align := by
      rw [hk, show 16 = 2 ^ 4 from rfl]
      exact Nat.pow_le_pow_right (by decide) h
    rw [Nat.max_eq_left hle]
    exact ⟨k, hk, by omega, hk ▸ Nat.pow_dvd_pow 2 h, Nat.dvd_refl _⟩

structure Inv (s : System) (bs : List (Span Nat)) : Prop where
  valid : Valid s.fl bs
  placed : ∀ a ∈ s.live, Placed s.fl.regions a.span
  aligned : ∀ a ∈ s.live, a.layout.align ∣ a.ptr
  disjoint : s.spans.Pairwise fun a b => a.stop ≤ b.start ∨ b.stop ≤ a.start
  clear : ∀ b ∈ s.spans, Clear b bs
  total : bytes bs + bytes s.spans = s.fl.totalBytes
  cover : Span.cover bs ∪ Span.cover s.spans = Span.cover s.fl.regions
  added : Span.cover s.fl.regions = Span.cover s.added

variable {s : System}

theorem Inv.sum_le (h : Inv s bs) : bytes bs ≤ maxHeapBytes := by
  have := h.total
  have := h.valid.limit
  omega

theorem Inv.span_placed (h : Inv s bs) {b : Span Nat} (hb : b ∈ s.spans) :
    Placed s.fl.regions b := by
  obtain ⟨a, ha, rfl⟩ := List.mem_map.mp hb
  exact h.placed a ha

theorem clear_of_placed {regions l : List (Span Nat)} {n : Span Nat} (hn : Clear n regions)
    (hl : ∀ b ∈ l, Placed regions b) : Clear n l := by
  intro b hb
  obtain ⟨-, -, -, hlt, r, hr, hlo, hhi⟩ := hl b hb
  rcases hn r hr with h | h
  · exact Or.inl (Nat.le_trans h hlo)
  · exact Or.inr (Nat.le_trans hhi h)

theorem Placed.mono {regions regions' : List (Span Nat)}
    (h : ∀ r ∈ regions, ∃ q ∈ regions', q.start ≤ r.start ∧ r.stop ≤ q.stop) {b : Span Nat}
    (hb : Placed regions b) : Placed regions' b := by
  obtain ⟨h0, h1, h2, h3, r, hr, hlo, hhi⟩ := hb
  obtain ⟨q, hq, hqlo, hqhi⟩ := h r hr
  exact ⟨h0, h1, h2, h3, q, hq, Nat.le_trans hqlo hlo, Nat.le_trans hhi hqhi⟩

theorem Valid.insert_at (h : Valid fl bs) {n : Span Nat} (hn : Placed fl.regions n)
    (hclear : Clear n bs) (hsum : bytes bs + n.size ≤ maxHeapBytes) {bound : Nat}
    (hlo : n.start ≤ bound) (hhi : bound ≤ n.stop) {add : Nat → Nat → Nat} (hadd : Exact add) :
    ∃ fl', (fl.seek bound FreeList.maxSteps none fl.head).map
        (fun (fl, prev, cur) => fl.link add n.start n.stop prev cur) = some fl' ∧
      Valid fl' (Span.insert n bs) ∧ fl'.regions = fl.regions ∧ fl'.totalBytes = fl.totalBytes := by
  obtain ⟨pre, post, rfl, hpre, hpost⟩ := exists_split h.coalesced hclear
  have hnlt := hn.2.2.2.1
  have hseek := h.seek rfl (by omega)
    (fun b hb => show b.start < bound by
      have h1 := hpre b hb
      have h2 := (h.blocks b (by simp [hb])).lt
      omega)
    (fun b hb => Nat.le_trans hhi (hpost b (List.mem_of_mem_head? hb)))
  obtain ⟨hreg, htot⟩ := link_regions add fl n.start n.stop (lastStart pre) (headStart post)
  exact ⟨_, by rw [hseek]; rfl, h.link hn hpre hpost hsum hadd, hreg, htot⟩

theorem Inv.addRegion (h : Inv s bs) {start size : Nat} (ha : s.Allowed (.addRegion start size)) :
    ∃ s' bs', s.exec (.addRegion start size) = some (0, s') ∧ Inv s' bs' := by
  obtain ⟨hpos, hstart, hsize, hclear⟩ := ha
  change Clear ⟨start, start + size⟩ s.fl.regions at hclear
  simp only [System.exec]
  unfold FreeList.addRegion
  split
  next => exact ⟨s, bs, rfl, h⟩
  next hargs =>
    split
    next => exact ⟨s, bs, rfl, h⟩
    next hmax =>
      split
      next => exact ⟨s, bs, rfl, h⟩
      next hfit =>
        rw [minBlock_eq] at hargs
        have hn : RegionOk ⟨start, start + size⟩ :=
          ⟨hpos, hstart, Nat.dvd_add hstart hsize, by simp only; omega, by simp only; omega⟩
        have hm := mergeRegions_spec rfl h.valid.apart h.valid.regions hn hclear
        generalize FreeList.mergeRegions s.fl.regions.length s.fl.regions ⟨start, start + size⟩ = r
          at hm
        obtain ⟨rest, m⟩ := r
        simp only at hm ⊢
        have hlen := hm.length
        rw [if_neg (by omega)]
        have hperm : (rest ++ [m]).Perm (m :: rest) := List.perm_append_singleton m rest
        have hexact : satAdd s.fl.totalBytes size = s.fl.totalBytes + size := by
          refine exact_satAdd _ _ ?_
          have h1 := h.valid.limit
          have h2 : maxHeapBytes < 2 ^ 32 := by decide
          have h3 : satAdd s.fl.totalBytes size ≤ maxHeapBytes := by omega
          unfold satAdd at h3
          unfold usizeLimit at h3 ⊢
          omega
        have habove : ∀ r ∈ s.fl.regions, ∃ q ∈ rest ++ [m], q.start ≤ r.start ∧ r.stop ≤ q.stop := by
          intro r hr
          obtain ⟨q, hq, hqr⟩ := hm.above r hr
          exact ⟨q, hperm.symm.subset hq, hqr⟩
        have hcover : Span.cover (rest ++ [m]) = Span.cover (m :: rest) := cover_perm hperm
        -- the old blocks, under the merged regions
        have hvalid : Valid
            { s.fl with regions := rest ++ [m], totalBytes := satAdd s.fl.totalBytes size } bs := by
          refine ⟨h.valid.linked, h.valid.coalesced, h.valid.blocks, ?_, ?_, ?_, ?_, ?_⟩
          · intro b hb
            exact (Placed.mono habove (h.valid.placed hb)).2.2.2.2
          · intro r hr
            exact hm.ok r (hperm.subset hr)
          · exact hperm.symm.pairwise hm.apart fun h => Or.symm h
          · simp only [bytes_append, bytes_cons, bytes_nil, hexact]
            have := hm.bytes
            have := h.valid.total
            simp only [bytes_cons, Span.size] at *
            omega
          · simp only
            omega
        have hplaced : Placed (rest ++ [m]) ⟨start, start + size⟩ :=
          ⟨hpos, hstart, Nat.dvd_add hstart hsize, by simp only; omega, m, by simp, hm.within⟩
        have hclearBs : Clear ⟨start, start + size⟩ bs :=
          clear_of_placed hclear fun b hb => h.valid.placed hb
        have hbytes := h.total
        obtain ⟨fl', hfl', hv', hreg', htot'⟩ := hvalid.insert_at hplaced hclearBs
          (by simp only [Span.size]; omega) (Nat.le_refl _) (by simp only; omega) exact_wrapAdd
        have hwrap : wrapAdd start size = start + size := exact_wrapAdd _ _ (by omega)
        refine ⟨⟨fl', s.live, ⟨start, start + size⟩ :: s.added⟩,
          Span.insert ⟨start, start + size⟩ bs, ?_, ?_⟩
        · unfold FreeList.insertBlock
          rw [hwrap, hfl']
          rfl
        · have hclearLive : ∀ b ∈ s.spans, Clear b (Span.insert ⟨start, start + size⟩ bs) := by
            intro b hb
            have hclearB := clear_of_placed hclear fun c hc => h.span_placed hc
            exact clear_insert (h.span_placed hb).2.2.2.1 (Or.symm (hclearB b hb)) (h.clear b hb)
          refine ⟨hv', ?_, h.aligned, h.disjoint, hclearLive, ?_, ?_, ?_⟩
          · intro a ha
            rw [hreg']
            exact Placed.mono habove (h.placed a ha)
          · rw [htot', bytes_insert (by simp only; omega) h.valid.coalesced]
            simp only [hexact, Span.size, System.spans] at hbytes ⊢
            omega
          · rw [hreg', hcover, hm.cover,
              cover_insert (by simp only; omega) h.valid.coalesced hclearBs, ← h.cover,
              Set.union_assoc]
            rfl
          · rw [hreg', hcover, hm.cover, cover_cons, h.added]

/-! ## Allocating and freeing -/

theorem pieces_bounds {b c : Span Nat} {p q : Nat} (hp : b.start ≤ p) (hpq : p < q)
    (hq : q ≤ b.stop) (hc : c ∈ pieces b p q) :
    b.start ≤ c.start ∧ c.stop ≤ b.stop ∧ c.start < c.stop ∧ (c.stop = p ∨ c.start = q) := by
  rcases mem_pieces hc with ⟨rfl, h⟩ | ⟨rfl, h⟩
  · exact ⟨Nat.le_refl _, by simp only; omega, h, Or.inl rfl⟩
  · exact ⟨by simp only; omega, Nat.le_refl _, h, Or.inr rfl⟩

theorem Placed.piece {regions : List (Span Nat)} {b c : Span Nat} (hb : Placed regions b)
    {p q : Nat} (hp : b.start ≤ p) (hpq : p < q) (hq : q ≤ b.stop) (hp16 : 16 ∣ p) (hq16 : 16 ∣ q)
    (hc : c ∈ pieces b p q) : Placed regions c := by
  obtain ⟨hpos, hb1, hb2, -, r, hr, hlo, hhi⟩ := hb
  rcases mem_pieces hc with ⟨rfl, h⟩ | ⟨rfl, h⟩
  · exact ⟨hpos, hb1, hp16, h, r, hr, hlo, by simp only; omega⟩
  · exact ⟨by simp only; omega, hq16, hb2, h, r, hr, by simp only; omega, hhi⟩

theorem Valid.carve {pre post : List (Span Nat)} {b : Span Nat} (h : Valid fl (pre ++ b :: post))
    {p q : Nat} (hp : b.start ≤ p) (hpq : p < q) (hq : q ≤ b.stop) (hp16 : 16 ∣ p) (hq16 : 16 ∣ q)
    {fl' : FreeList} (hseg : Seg fl'.words fl'.head (pre ++ pieces b p q ++ post) none)
    (hreg : fl'.regions = fl.regions) (htot : fl'.totalBytes = fl.totalBytes) :
    Valid fl' (pre ++ pieces b p q ++ post) := by
  have hb := h.blocks b (by simp)
  have hmem : ∀ c ∈ pre ++ pieces b p q ++ post, c ∈ pre ++ b :: post ∨ c ∈ pieces b p q := by
    intro c hc
    simp only [List.mem_append, List.mem_cons] at hc ⊢
    tauto
  refine ⟨hseg, coalesced_carve h.coalesced hp hpq hq, ?_, ?_, by rw [hreg]; exact h.regions,
    by rw [hreg]; exact h.apart, by rw [hreg, htot]; exact h.total, by rw [htot]; exact h.limit⟩
  · intro c hc
    rcases hmem c hc with hc | hc
    · exact h.blocks c hc
    · obtain ⟨hpos, h1, h2, hlt, -⟩ := (h.placed (b := b) (by simp)).piece hp hpq hq hp16 hq16 hc
      obtain ⟨hlo, hhi, -, -⟩ := pieces_bounds hp hpq hq hc
      have hlim := hb.limit
      have hsmall := hb.small
      unfold size at hsmall
      exact ⟨hpos, h1, h2, hlt, by omega, by unfold size; omega⟩
  · intro c hc
    rw [hreg]
    rcases hmem c hc with hc | hc
    · exact h.inside c hc
    · exact ((h.placed (b := b) (by simp)).piece hp hpq hq hp16 hq16 hc).2.2.2.2

theorem Inv.carve {pre post : List (Span Nat)} {b : Span Nat} (h : Inv s (pre ++ b :: post))
    {a : Allocation} (hlo : b.start ≤ a.ptr) (hhi : a.span.stop ≤ b.stop)
    (halign : a.layout.align ∣ a.ptr) (hptr : 16 ∣ a.ptr) {fl' : FreeList}
    (hseg : Seg fl'.words fl'.head (pre ++ pieces b a.ptr a.span.stop ++ post) none)
    (hreg : fl'.regions = s.fl.regions) (htot : fl'.totalBytes = s.fl.totalBytes) :
    Inv ⟨fl', a :: s.live, s.added⟩ (pre ++ pieces b a.ptr a.span.stop ++ post) := by
  obtain ⟨hsize, hpos, -⟩ := a.layout.rounded_spec
  have hlt : a.ptr < a.span.stop := by
    simp only [Allocation.span]
    omega
  have hstop : 16 ∣ a.span.stop := Nat.dvd_add hptr hsize
  have hco := h.valid.coalesced
  obtain ⟨hcPre, hcPost, hcross⟩ := coalesced_append.mp hco
  obtain ⟨-, hgap, -⟩ := coalesced_cons.mp hcPost
  have hb : b ∈ pre ++ b :: post := by simp
  have hold : ∀ c ∈ s.spans, c.stop ≤ b.start ∨ b.stop ≤ c.start := fun c hc => h.clear c hc b hb
  refine ⟨h.valid.carve hlo hlt hhi hptr hstop hseg hreg htot, ?_, ?_, ?_, ?_, ?_, ?_,
    hreg ▸ h.added⟩
  · intro c hc
    rw [hreg]
    rcases List.mem_cons.mp hc with rfl | hc
    · obtain ⟨hpos, -, -, -, r, hr, h1, h2⟩ := h.valid.placed hb
      exact ⟨Nat.lt_of_lt_of_le hpos hlo, hptr, hstop, hlt, r, hr, Nat.le_trans h1 hlo,
        Nat.le_trans hhi h2⟩
    · exact h.placed c hc
  · intro c hc
    rcases List.mem_cons.mp hc with rfl | hc
    · exact halign
    · exact h.aligned c hc
  · refine List.pairwise_cons.mpr ⟨?_, h.disjoint⟩
    intro c hc
    rcases hold c hc with hc | hc
    · exact Or.inr (Nat.le_trans hc hlo)
    · exact Or.inl (Nat.le_trans hhi hc)
  · intro c hc d hd
    rcases List.mem_cons.mp hc with rfl | hc
    · rcases List.mem_append.mp hd with hd | hd
      · rcases List.mem_append.mp hd with hd | hd
        · exact Or.inr (Nat.le_of_lt (Nat.lt_of_lt_of_le (hcross d hd b (by simp)) hlo))
        · rcases (pieces_bounds hlo hlt hhi hd).2.2.2 with hd | hd
          · exact Or.inr (Nat.le_of_eq hd)
          · exact Or.inl (Nat.le_of_eq hd.symm)
      · exact Or.inl (Nat.le_of_lt (Nat.lt_of_le_of_lt hhi (hgap d hd)))
    · rcases List.mem_append.mp hd with hd | hd
      · rcases List.mem_append.mp hd with hd | hd
        · exact h.clear c hc d (by simp [hd])
        · obtain ⟨h1, h2, -, -⟩ := pieces_bounds hlo hlt hhi hd
          rcases hold c hc with hc | hc
          · exact Or.inl (Nat.le_trans hc h1)
          · exact Or.inr (Nat.le_trans h2 hc)
      · exact h.clear c hc d (by simp [hd])
  · have hbytes := bytes_pieces hlo (Nat.le_of_lt hlt) hhi
    have htotal := h.total
    simp only [System.spans, List.map_cons, bytes_append, bytes_cons, htot] at htotal ⊢
    have hspan : a.span.size = a.span.stop - a.ptr := rfl
    omega
  · have hcover := h.cover
    have hsub : a.span.points ⊆ Span.cover (pre ++ b :: post) := by
      intro x hx
      refine ⟨b, hb, Nat.le_trans hlo hx.1, Nat.lt_of_lt_of_le hx.2 hhi⟩
    rw [cover_carve hco hlo hlt hhi, hreg, ← hcover]
    change _ ∪ Span.cover (a.span :: s.spans) = _
    rw [cover_cons, ← Set.union_assoc]
    congr 1
    exact Set.sdiff_union_of_subset hsub

theorem Inv.allocate (h : Inv s bs) {layout : Layout} (hr : s.InRange (.allocate layout)) :
    ∃ ptr s' bs', s.exec (.allocate layout) = some (ptr, s') ∧ Inv s' bs' := by
  obtain ⟨hsize, hpos, -⟩ := layout.rounded_spec
  obtain ⟨k, hk, hk64, h16, halign⟩ := layout.granule_spec
  have hwrap : NoWrap layout.rounded layout.granule bs := by
    rw [← h.valid.blocks_eq h.sum_le]
    exact hr
  obtain ⟨r, hr, htaken⟩ := h.valid.allocateFrom_spec hk hk64 h16 hsize hpos
    (show bs = [] ++ bs from rfl) h.valid.linked (h.valid.length_lt h.sum_le) (by simp) hwrap
  change s.fl.allocate layout = some r at hr
  simp only [System.exec, hr, Option.map_some]
  cases htaken with
  | null => exact ⟨0, s, bs, rfl, h⟩
  | @carved pre post b ptr fl' hbs hpre hlo hptr hhi hleast hseg hreg htot =>
    subst hbs
    have hb := (h.valid.blocks b (by simp)).pos
    rw [if_neg (by omega)]
    exact ⟨ptr, _, _, rfl, h.carve (a := ⟨ptr, layout⟩) hlo hhi (Nat.dvd_trans halign hptr)
      (Nat.dvd_trans h16 hptr) hseg hreg htot⟩

theorem Inv.deallocate (h : Inv s bs) {ptr : Nat} {layout : Layout}
    (ha : s.Allowed (.deallocate ptr layout)) :
    ∃ s' bs', s.exec (.deallocate ptr layout) = some (0, s') ∧ Inv s' bs' := by
  change ⟨ptr, layout⟩ ∈ s.live at ha
  have hplaced := h.placed _ ha
  have hperm : s.spans.Perm
      (Allocation.span ⟨ptr, layout⟩ :: (s.live.erase ⟨ptr, layout⟩).map Allocation.span) :=
    (List.perm_cons_erase ha).map Allocation.span
  have hlt : ptr < ptr + layout.rounded := hplaced.2.2.2.1
  obtain ⟨r, hr, hlo, hhi⟩ := hplaced.2.2.2.2
  simp only [Allocation.span] at hplaced hperm hlo hhi
  generalize hn : (⟨ptr, ptr + layout.rounded⟩ : Span Nat) = n at hplaced hperm
  have hclear : Clear n bs := h.clear n (hperm.symm.subset (by simp))
  have hbytes : bytes s.spans = n.size + bytes ((s.live.erase ⟨ptr, layout⟩).map Allocation.span) := by
    rw [← bytes_cons, bytes_perm hperm]
  have htotal := h.total
  have hlimit := h.valid.limit
  obtain ⟨fl', hfl', hv', hreg', htot'⟩ := h.valid.insert_at hplaced hclear (by omega)
    (Nat.le_of_lt hplaced.2.2.2.1) (Nat.le_refl n.stop) exact_satAdd
  obtain ⟨hapart, hrest⟩ := List.pairwise_cons.mp (hperm.pairwise h.disjoint fun h => Or.symm h)
  refine ⟨⟨fl', s.live.erase ⟨ptr, layout⟩, s.added⟩, Span.insert n bs, ?_, hv', ?_, ?_, hrest,
    ?_, ?_, ?_, hreg' ▸ h.added⟩
  · have hlim := (h.valid.regions r hr).2.2.2.2
    subst hn
    simp only [System.exec, FreeList.deallocate]
    rw [if_neg (by omega), h.valid.regionOf hr hlo (by omega)]
    simp only [hlo, hhi, and_self, if_true]
    rw [hfl']
    rfl
  · intro a ha
    rw [hreg']
    exact h.placed a (List.mem_of_mem_erase ha)
  · intro a ha
    exact h.aligned a (List.mem_of_mem_erase ha)
  · intro c hc
    have hcs : c ∈ s.spans := hperm.symm.subset (List.mem_cons_of_mem _ hc)
    exact clear_insert (h.span_placed hcs).2.2.2.1 (Or.symm (hapart c hc)) (h.clear c hcs)
  · simp only [System.spans, htot', bytes_insert hplaced.2.2.2.1 h.valid.coalesced] at htotal hbytes ⊢
    omega
  · rw [hreg', cover_insert hplaced.2.2.2.1 h.valid.coalesced hclear, ← h.cover, Set.union_comm n.points,
      Set.union_assoc]
    congr 1
    change _ ∪ Span.cover ((s.live.erase ⟨ptr, layout⟩).map Allocation.span) = _
    rw [← cover_cons]
    exact (cover_perm hperm).symm

theorem Inv.store (h : Inv s bs) {addr value : Nat} (ha : s.Allowed (.store addr value)) :
    ∃ s', s.exec (.store addr value) = some (0, s') ∧ Inv s' bs := by
  obtain ⟨hdvd, c, hc, hlo, hhi⟩ := ha
  refine ⟨_, rfl, ⟨?_, h.valid.coalesced, h.valid.blocks, h.valid.inside, h.valid.regions,
    h.valid.apart, h.valid.total, h.valid.limit⟩, h.placed, h.aligned, h.disjoint, h.clear,
    h.total, h.cover, h.added⟩
  refine h.valid.linked.congr fun b hb => ?_
  have hok := h.valid.blocks b hb
  have hsix := hok.sixteen_le
  have hb16 := hok.start16
  unfold size at hsix
  have hclear := h.clear c hc b hb
  have h1 : b.start ≠ addr := by omega
  have h2 : b.start + 8 ≠ addr := by omega
  exact ⟨Function.update_of_ne h1 _ _, Function.update_of_ne h2 _ _⟩

theorem Inv.exec (h : Inv s bs) {call : Call} (ha : s.Allowed call) (hr : s.InRange call) :
    ∃ ptr s' bs', s.exec call = some (ptr, s') ∧ Inv s' bs' := by
  cases call with
  | addRegion start size => exact ⟨0, h.addRegion ha⟩
  | allocate layout => exact h.allocate hr
  | deallocate ptr layout => exact ⟨0, h.deallocate ha⟩
  | store addr value =>
    obtain ⟨s', he, hs'⟩ := h.store ha
    exact ⟨0, s', bs, he, hs'⟩

theorem inv_empty (words : Nat → Nat) : Inv ⟨⟨words, none, [], 0⟩, [], []⟩ [] := by
  refine ⟨⟨rfl, coalesced_nil, ?_, ?_, ?_, List.Pairwise.nil, rfl, Nat.zero_le _⟩, ?_, ?_,
    List.Pairwise.nil, ?_, rfl, ?_, rfl⟩ <;> simp [System.spans]

theorem inv_init {words : Nat → Nat} {start size : Nat} (hpos : 0 < start) (hstart : 16 ∣ start)
    (hsize : 16 ∣ size) : ∃ fl bs, FreeList.init words start size = some fl ∧ Inv ⟨fl, [], fl.regions⟩ bs := by
  have hallowed : System.Allowed ⟨⟨words, none, [], 0⟩, [], []⟩ (.addRegion start size) :=
    ⟨hpos, hstart, hsize, by simp⟩
  obtain ⟨s', bs', he, hs'⟩ := (inv_empty words).addRegion hallowed
  simp only [System.exec, Option.map_eq_some_iff] at he
  obtain ⟨r, hr, heq⟩ := he
  simp only [Prod.mk.injEq, true_and] at heq
  subst heq
  exact ⟨r.2, bs', by simp [FreeList.init, hr], { hs' with added := rfl }⟩

theorem reach_inv {words : Nat → Nat} {start size : Nat} (hpos : 0 < start) (hstart : 16 ∣ start)
    (hsize : 16 ∣ size) (h : Reach words start size s) : Inv s s.fl.blocks := by
  have hbs : ∃ bs, Inv s bs := by
    induction h with
    | init h =>
      obtain ⟨fl, bs, hinit, hinv⟩ := @inv_init words _ _ hpos hstart hsize
      rw [hinit, Option.some_inj] at h
      exact ⟨bs, h ▸ hinv⟩
    | step _ ha hr he ih =>
      obtain ⟨bs, hinv⟩ := ih
      obtain ⟨ptr, s', bs', he', hinv'⟩ := hinv.exec ha hr
      rw [he', Option.some_inj, Prod.mk.injEq] at he
      exact ⟨bs', he.2 ▸ hinv'⟩
  obtain ⟨bs, hinv⟩ := hbs
  rwa [hinv.valid.blocks_eq hinv.sum_le]

theorem perm_of_cover_eq {bs regions : List (Span Nat)} (hbs : Coalesced bs)
    (hap : regions.Pairwise Apart) (hne : ∀ r ∈ regions, r.start < r.stop)
    (hcover : Span.cover bs = Span.cover regions) : bs.Perm regions := by
  let sorted := regions.mergeSort fun a b => decide (a.start ≤ b.start)
  have hperm : sorted.Perm regions := List.mergeSort_perm regions _
  have hord : sorted.Pairwise fun a b => a.start ≤ b.start := by
    have := @List.pairwise_mergeSort _ (fun a b : Span Nat => decide (a.start ≤ b.start))
      (fun a b c => by simp only [decide_eq_true_eq]; omega)
      (fun a b => by simp only [Bool.or_eq_true, decide_eq_true_eq]; omega) regions
    simpa using this
  have hne' : ∀ r ∈ sorted, r.start < r.stop := fun r hr => hne r (hperm.subset hr)
  have hco : Coalesced sorted := by
    refine ⟨hne', ?_⟩
    refine List.Pairwise.imp_of_mem ?_ (hord.and (hperm.symm.pairwise hap fun h => h.symm))
    intro a b ha hb hab
    have := hne' b hb
    have := hne' a ha
    unfold Before
    rcases hab.2 with h | h <;> omega
  rw [coalesced_ext hbs hco (hcover.trans (cover_perm hperm).symm)]
  exact hperm

/-! ## Main results -/

/-- Live allocations are aligned, inside one region, and disjoint from each other
and from every node of the list; free and live bytes add up to the total; and
every further call returns. -/
theorem heap_exclusive {words : Nat → Nat} {start size : Nat} (hpos : 0 < start)
    (hstart : 16 ∣ start) (hsize : 16 ∣ size) (h : Reach words start size s) :
    (∀ a ∈ s.live, a.ptr ≠ 0 ∧ a.layout.align ∣ a.ptr ∧
      ∃ r ∈ s.fl.regions, r.start ≤ a.ptr ∧ a.ptr + a.layout.rounded ≤ r.stop) ∧
    s.spans.Pairwise (fun a b => a.stop ≤ b.start ∨ b.stop ≤ a.start) ∧
    Seg s.fl.words s.fl.head s.fl.blocks none ∧
    (∀ a ∈ s.spans, ∀ b ∈ s.fl.blocks, a.stop ≤ b.start ∨ b.stop ≤ a.start) ∧
    s.fl.freeBytes + bytes s.spans = s.fl.totalBytes ∧
    ∀ call, s.Allowed call → s.InRange call → ∃ r, s.exec call = some r := by
  have hinv := reach_inv hpos hstart hsize h
  refine ⟨?_, hinv.disjoint, hinv.valid.linked, hinv.clear, ?_, ?_⟩
  · intro a ha
    obtain ⟨hptr, -, -, -, r, hr, hin⟩ := hinv.placed a ha
    exact ⟨Nat.pos_iff_ne_zero.mp hptr, hinv.aligned a ha, r, hr, hin⟩
  · rw [hinv.valid.freeBytes_eq hinv.sum_le]
    exact hinv.total
  · intro call ha hr
    obtain ⟨ptr, s', -, he, -⟩ := hinv.exec ha hr
    exact ⟨_, he⟩

theorem heap_exclusive_one_page : ∃ s : System, s.live.length = 1 ∧
    (∀ a ∈ s.live, a.ptr ≠ 0 ∧ a.layout.align ∣ a.ptr ∧
      ∃ r ∈ s.fl.regions, r.start ≤ a.ptr ∧ a.ptr + a.layout.rounded ≤ r.stop) ∧
    s.fl.freeBytes + bytes s.spans = s.fl.totalBytes := by
  let layout : Layout := ⟨100, 256, ⟨8, rfl⟩, by decide⟩
  have hrun : ((FreeList.init (fun _ => 0) 4096 4096).bind fun fl =>
      (System.exec ⟨fl, [], fl.regions⟩ (.allocate layout)).map fun r =>
        (r.2.live.length, decide (System.InRange ⟨fl, [], fl.regions⟩ (.allocate layout)))) =
      some (1, true) := by
    decide
  obtain ⟨fl, hfl, hexec⟩ := Option.bind_eq_some_iff.mp hrun
  obtain ⟨⟨ptr, s⟩, hs, heq⟩ := Option.map_eq_some_iff.mp hexec
  simp only [Prod.mk.injEq, decide_eq_true_eq] at heq
  obtain ⟨hlen, hrange⟩ := heq
  have h := heap_exclusive (by decide) (by decide) (by decide)
    (Reach.step (Reach.init hfl)
      (show System.Allowed ⟨fl, [], fl.regions⟩ (.allocate layout) from trivial) hrange hs)
  exact ⟨s, hlen, h.1, h.2.2.2.2.1⟩

/-- Rounding a block address up to 128 TiB wraps: the call returns null, and the
block is lost. -/
theorem heap_exclusive_align_wraps : ∃ (layout : Layout) (fl : FreeList) (s : System),
    FreeList.init (fun _ => 0) 0xffff800000100000 4096 = some fl ∧
    System.exec ⟨fl, [], fl.regions⟩ (.allocate layout) = some (0, s) ∧
    s.fl.freeBytes + bytes s.spans ≠ s.fl.totalBytes := by
  let layout : Layout := ⟨16, 2 ^ 47, ⟨47, rfl⟩, by decide⟩
  have hrun : ((FreeList.init (fun _ => 0) 0xffff800000100000 4096).bind fun fl =>
      (System.exec ⟨fl, [], fl.regions⟩ (.allocate layout)).map fun r =>
        (r.1, r.2.fl.freeBytes + bytes r.2.spans, r.2.fl.totalBytes)) = some (0, 0, 4096) := by
    decide
  obtain ⟨fl, hfl, hexec⟩ := Option.bind_eq_some_iff.mp hrun
  obtain ⟨⟨ptr, s⟩, hs, heq⟩ := Option.map_eq_some_iff.mp hexec
  simp only [Prod.mk.injEq] at heq
  obtain ⟨rfl, hfree, htotal⟩ := heq
  exact ⟨layout, fl, s, hfl, hs, by rw [hfree, htotal]; decide⟩

/-- The free list is coalesced. With nothing live it covers exactly the regions
that were added, one block for each merged region, whatever the calls before. -/
theorem heap_coalesced {words : Nat → Nat} {start size : Nat} (hpos : 0 < start)
    (hstart : 16 ∣ start) (hsize : 16 ∣ size) (h : Reach words start size s) :
    Seg s.fl.words s.fl.head s.fl.blocks none ∧ Coalesced s.fl.blocks ∧
    (s.live = [] →
      s.fl.blocks.Perm s.fl.regions ∧ s.fl.regions.Pairwise Apart ∧
      Span.cover s.fl.blocks = Span.cover s.added ∧
      ∀ s', Reach words start size s' → s'.live = [] → Span.cover s'.added = Span.cover s.added →
        s'.fl.blocks = s.fl.blocks) := by
  have hfree : ∀ {s : System}, Inv s s.fl.blocks → s.live = [] →
      Span.cover s.fl.blocks = Span.cover s.fl.regions := by
    intro s hinv hlive
    rw [← hinv.cover]
    simp [System.spans, hlive]
  have hinv := reach_inv hpos hstart hsize h
  refine ⟨hinv.valid.linked, hinv.valid.coalesced, fun hlive => ⟨?_, hinv.valid.apart,
    (hfree hinv hlive).trans hinv.added, ?_⟩⟩
  · exact perm_of_cover_eq hinv.valid.coalesced hinv.valid.apart
      (fun r hr => (hinv.valid.regions r hr).2.2.2.1) (hfree hinv hlive)
  · intro s' hs' hlive' hadded
    have hinv' := reach_inv hpos hstart hsize hs'
    refine coalesced_ext hinv'.valid.coalesced hinv.valid.coalesced ?_
    rw [hfree hinv' hlive', hfree hinv hlive, hinv'.added, hadded, hinv.added]

theorem heap_coalesced_one_page : ∃ s : System, s.live = [] ∧ Coalesced s.fl.blocks ∧
    s.fl.blocks.Perm s.fl.regions ∧ Span.cover s.fl.blocks = Span.cover s.added := by
  let layout : Layout := ⟨100, 256, ⟨8, rfl⟩, by decide⟩
  have hrun : ((FreeList.init (fun _ => 0) 4096 4096).bind fun fl =>
      (System.exec ⟨fl, [], fl.regions⟩ (.allocate layout)).bind fun r =>
        (r.2.exec (.deallocate r.1 layout)).map fun q =>
          (decide (System.InRange ⟨fl, [], fl.regions⟩ (.allocate layout)),
            decide (⟨r.1, layout⟩ ∈ r.2.live), decide (q.2.live = []))) =
      some (true, true, true) := by
    decide
  obtain ⟨fl, hfl, hexec⟩ := Option.bind_eq_some_iff.mp hrun
  obtain ⟨⟨ptr, s⟩, hs, hexec⟩ := Option.bind_eq_some_iff.mp hexec
  obtain ⟨⟨_, s'⟩, hs', heq⟩ := Option.map_eq_some_iff.mp hexec
  simp only [Prod.mk.injEq, decide_eq_true_eq] at heq
  obtain ⟨hrange, hmem, hlive⟩ := heq
  have hreach : Reach (fun _ => 0) 4096 4096 s' :=
    ((Reach.init hfl).step
      (show System.Allowed ⟨fl, [], fl.regions⟩ (.allocate layout) from trivial) hrange hs).step
      (show s.Allowed (.deallocate ptr layout) from hmem) trivial hs'
  have h := heap_coalesced (by decide) (by decide) (by decide) hreach
  exact ⟨s', hlive, h.2.1, (h.2.2 hlive).1, (h.2.2 hlive).2.2.1⟩

/-- The same call leaves nothing live, and the free
list of the region unreadable. -/
theorem heap_coalesced_align_wraps : ∃ (layout : Layout) (fl : FreeList) (s : System),
    FreeList.init (fun _ => 0) 0xffff800000100000 4096 = some fl ∧
    System.exec ⟨fl, [], fl.regions⟩ (.allocate layout) = some (0, s) ∧
    s.live = [] ∧ s.fl.regions = [⟨0xffff800000100000, 0xffff800000101000⟩] ∧
    s.fl.blocks = [] := by
  let layout : Layout := ⟨16, 2 ^ 47, ⟨47, rfl⟩, by decide⟩
  have hrun : ((FreeList.init (fun _ => 0) 0xffff800000100000 4096).bind fun fl =>
      (System.exec ⟨fl, [], fl.regions⟩ (.allocate layout)).map fun r =>
        (r.1, r.2.live, r.2.fl.regions, r.2.fl.blocks)) =
      some (0, [], [⟨0xffff800000100000, 0xffff800000101000⟩], []) := by
    decide
  obtain ⟨fl, hfl, hexec⟩ := Option.bind_eq_some_iff.mp hrun
  obtain ⟨⟨ptr, s⟩, hs, heq⟩ := Option.map_eq_some_iff.mp hexec
  simp only [Prod.mk.injEq] at heq
  obtain ⟨rfl, hlive, hregions, hblocks⟩ := heq
  exact ⟨layout, fl, s, hfl, hs, hlive, hregions, hblocks⟩

end Vibra.Heap
