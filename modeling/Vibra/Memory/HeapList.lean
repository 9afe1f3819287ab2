import Vibra.Memory.Heap

/-! # The free list in memory

`Seg` reads a list of spans off the linked nodes.
-/

namespace Vibra.Heap

open Lib Span

theorem minBlock_eq : minBlock = 16 := by decide

theorem bitNot_testBit {k : Nat} (hk : k ≤ 64) (i : Nat) :
    (bitNot (2 ^ k - 1)).testBit i = decide (k ≤ i ∧ i < 64) := by
  have hlt : 2 ^ k - 1 < 2 ^ 64 := by
    have hpos := Nat.two_pow_pos k
    have hle : 2 ^ k ≤ 2 ^ 64 := Nat.pow_le_pow_right (by decide) hk
    omega
  unfold bitNot usizeLimit
  rw [Nat.testBit_two_pow_sub_succ hlt, Nat.testBit_two_pow_sub_one]
  grind

theorem and_bitNot {k x : Nat} (hk : k ≤ 64) (hx : x < usizeLimit) :
    x &&& bitNot (2 ^ k - 1) = x / 2 ^ k * 2 ^ k := by
  apply Nat.eq_of_testBit_eq
  intro i
  rw [Nat.testBit_and, bitNot_testBit hk, Nat.testBit_mul_two_pow, Nat.testBit_div_two_pow]
  by_cases hi : k ≤ i
  · rw [Nat.sub_add_cancel hi]
    by_cases h64 : i < 64
    · simp [hi, h64]
    · have hbig : x < 2 ^ i :=
        Nat.lt_of_lt_of_le hx (Nat.pow_le_pow_right (by decide) (by omega))
      simp [h64, Nat.testBit_lt_two_pow hbig]
  · simp [hi]

theorem alignUp_eq {addr align k : Nat} (hk : align = 2 ^ k) (hk64 : k ≤ 64)
    (hfit : addr + (align - 1) < usizeLimit) :
    alignUp addr align = (addr + (align - 1)) / align * align := by
  unfold alignUp wrapAdd
  rw [Nat.mod_eq_of_lt hfit, hk, and_bitNot hk64 (by rwa [hk] at hfit)]

theorem alignUp_spec {addr align k : Nat} (hk : align = 2 ^ k) (hk64 : k ≤ 64)
    (hfit : addr + (align - 1) < usizeLimit) :
    addr ≤ alignUp addr align ∧ alignUp addr align < addr + align ∧
      align ∣ alignUp addr align := by
  rw [alignUp_eq hk hk64 hfit]
  have hpos : 0 < align := hk ▸ Nat.two_pow_pos k
  have hdiv := Nat.div_add_mod (addr + (align - 1)) align
  have hmod := Nat.mod_lt (addr + (align - 1)) hpos
  rw [Nat.mul_comm] at hdiv
  exact ⟨by omega, by omega, Nat.dvd_mul_left _ _⟩

/-- The header word of a block of `size` bytes. -/
def sizeWord (size : Nat) : Nat := sizeMagicBits ||| (size &&& sizeMask)

theorem sizeMask_eq : sizeMask = 2 ^ 48 - 1 := by decide

theorem sizeMagicBits_eq : sizeMagicBits = 2 ^ 48 * 0x5649 := by decide

theorem sizeWord_eq {size : Nat} (h : size < 2 ^ 48) : sizeWord size = 2 ^ 48 * 0x5649 + size := by
  unfold sizeWord
  rw [sizeMask_eq, Nat.and_two_pow_sub_one_eq_mod, Nat.mod_eq_of_lt h, sizeMagicBits_eq,
    ← Nat.two_pow_add_eq_or_of_lt h]

theorem sizeWord_and_mask {size : Nat} (h : size < 2 ^ 48) : sizeWord size &&& sizeMask = size := by
  rw [sizeWord_eq h, sizeMask_eq, Nat.and_two_pow_sub_one_eq_mod]
  omega

theorem sizeWord_magic {size : Nat} (h : size < 2 ^ 48) :
    sizeWord size &&& bitNot sizeMask = sizeMagicBits := by
  rw [sizeWord_eq h, sizeMask_eq, and_bitNot (by decide) (by unfold usizeLimit; omega),
    sizeMagicBits_eq]
  omega

/-! ## Segments of the list -/

namespace FreeNode

theorem size_eq {words : Nat → Nat} {b : Span Nat} (hsize : b.size < 2 ^ 48)
    (hw : words b.start = sizeWord b.size) : size words b.start = b.size := by
  unfold size
  rw [hw, sizeWord_and_mask hsize]

@[simp] theorem setSize_self (words : Nat → Nat) (p n : Nat) :
    setSize words p n p = sizeWord n := by
  simp [setSize, sizeWord]

@[simp] theorem setSize_of_ne {words : Nat → Nat} {p n a : Nat} (h : a ≠ p) :
    setSize words p n a = words a := by
  simp [setSize, h]

@[simp] theorem setNext_of_ne {words : Nat → Nat} {p a : Nat} {nxt : Option Nat}
    (h : a ≠ p + 8) : setNext words p nxt a = words a := by
  simp [setNext, h]

@[simp] theorem next_setSize (words : Nat → Nat) {p q n : Nat} (h : q + 8 ≠ p) :
    next (setSize words p n) q = next words q := by
  simp [next, h]

@[simp] theorem next_setNext_self (words : Nat → Nat) {p : Nat} {nxt : Option Nat}
    (h : nxt ≠ some 0) : next (setNext words p nxt) p = nxt := by
  cases nxt with
  | none => simp [next, setNext]
  | some q =>
    have hq : q ≠ 0 := fun h0 => h (by rw [h0])
    simp [next, setNext, hq]

end FreeNode

/-- The nodes from `cur` on are the blocks `bs`, and the last one links to `stop`. -/
def Seg (words : Nat → Nat) : Option Nat → List (Span Nat) → Option Nat → Prop
  | cur, [], stop => cur = stop
  | cur, b :: rest, stop =>
    cur = some b.start ∧ words b.start = sizeWord b.size ∧
      Seg words (FreeNode.next words b.start) rest stop

theorem seg_append {words : Nat → Nat} {cur stop : Option Nat} {pre post : List (Span Nat)} :
    Seg words cur (pre ++ post) stop ↔ ∃ mid, Seg words cur pre mid ∧ Seg words mid post stop := by
  induction pre generalizing cur with
  | nil => simp [Seg]
  | cons b pre ih =>
    simp only [List.cons_append, Seg, ih]
    constructor
    · rintro ⟨hc, hw, mid, h1, h2⟩
      exact ⟨mid, ⟨hc, hw, h1⟩, h2⟩
    · rintro ⟨mid, ⟨hc, hw, h1⟩, h2⟩
      exact ⟨hc, hw, mid, h1, h2⟩

theorem Seg.congr {words words' : Nat → Nat} {cur stop : Option Nat} {bs : List (Span Nat)}
    (h : Seg words cur bs stop)
    (hw : ∀ b ∈ bs, words' b.start = words b.start ∧ words' (b.start + 8) = words (b.start + 8)) :
    Seg words' cur bs stop := by
  induction bs generalizing cur with
  | nil => exact h
  | cons b bs ih =>
    obtain ⟨hc, hs, hrest⟩ := h
    obtain ⟨h1, h2⟩ := hw b (by simp)
    have hnext : FreeNode.next words' b.start = FreeNode.next words b.start := by
      simp [FreeNode.next, h2]
    exact ⟨hc, h1.trans hs, hnext ▸ ih hrest fun c hcm => hw c (by simp [hcm])⟩

/-- A block as the allocator keeps it: 16-aligned, non-empty, not at address 0. -/
structure BlockOk (b : Span Nat) : Prop where
  pos : 0 < b.start
  start16 : 16 ∣ b.start
  stop16 : 16 ∣ b.stop
  lt : b.start < b.stop
  limit : b.stop < usizeLimit
  small : b.size < 2 ^ 48

theorem BlockOk.sixteen_le {b : Span Nat} (h : BlockOk b) : 16 ≤ b.size := by
  have h1 := h.start16
  have h2 := h.stop16
  have h3 := h.lt
  unfold size
  omega

theorem words_apart {p q : Nat} (hp : 16 ∣ p) (hq : 16 ∣ q) (hne : q ≠ p) :
    q ≠ p ∧ q + 8 ≠ p ∧ q ≠ p + 8 ∧ q + 8 ≠ p + 8 := by
  omega

theorem Seg.setSize {words : Nat → Nat} {cur stop : Option Nat} {bs : List (Span Nat)}
    (h : Seg words cur bs stop) {p : Nat} (hp : 16 ∣ p) (n : Nat)
    (hbs : ∀ b ∈ bs, 16 ∣ b.start ∧ b.start ≠ p) :
    Seg (FreeNode.setSize words p n) cur bs stop := by
  refine h.congr fun b hb => ?_
  obtain ⟨h1, h2, -, -⟩ := words_apart hp (hbs b hb).1 (hbs b hb).2
  exact ⟨FreeNode.setSize_of_ne h1, FreeNode.setSize_of_ne h2⟩

theorem Seg.setNext {words : Nat → Nat} {cur stop : Option Nat} {bs : List (Span Nat)}
    (h : Seg words cur bs stop) {p : Nat} (hp : 16 ∣ p) (nxt : Option Nat)
    (hbs : ∀ b ∈ bs, 16 ∣ b.start ∧ b.start ≠ p) :
    Seg (FreeNode.setNext words p nxt) cur bs stop := by
  refine h.congr fun b hb => ?_
  obtain ⟨-, -, h1, h2⟩ := words_apart hp (hbs b hb).1 (hbs b hb).2
  exact ⟨FreeNode.setNext_of_ne h1, FreeNode.setNext_of_ne h2⟩

theorem seg_new (words : Nat → Nat) {p n : Nat} {nxt : Option Nat}
    (hnxt : nxt ≠ some 0) :
    Seg (FreeNode.setNext (FreeNode.setSize words p n) p nxt) (some p) [⟨p, p + n⟩] nxt := by
  refine ⟨rfl, ?_, ?_⟩
  · rw [FreeNode.setNext_of_ne (show p ≠ p + 8 by omega), FreeNode.setSize_self]
    simp [Span.size]
  · simp [Seg, hnxt]

theorem Seg.relink {words : Nat → Nat} {cur stop : Option Nat} {pre : List (Span Nat)}
    {p : Span Nat} (h : Seg words cur (pre ++ [p]) stop) (hp : 16 ∣ p.start)
    {nxt : Option Nat} (hnxt : nxt ≠ some 0)
    (hpre : ∀ b ∈ pre, 16 ∣ b.start ∧ b.start ≠ p.start) :
    Seg (FreeNode.setNext words p.start nxt) cur (pre ++ [p]) nxt := by
  obtain ⟨mid, h1, h2, h3, -⟩ := seg_append.mp h
  refine seg_append.mpr ⟨mid, h1.setNext hp _ hpre, h2, ?_, ?_⟩
  · rw [FreeNode.setNext_of_ne (by omega), h3]
  · simp [Seg, hnxt]

theorem Seg.resize {words : Nat → Nat} {cur stop : Option Nat} {pre : List (Span Nat)}
    {p : Span Nat} (h : Seg words cur (pre ++ [p]) stop) (hp : 16 ∣ p.start) (n : Nat)
    (hpre : ∀ b ∈ pre, 16 ∣ b.start ∧ b.start ≠ p.start) :
    Seg (FreeNode.setSize words p.start n) cur (pre ++ [⟨p.start, p.start + n⟩]) stop := by
  obtain ⟨mid, h1, h2, -, h4⟩ := seg_append.mp h
  refine seg_append.mpr ⟨mid, h1.setSize hp _ hpre, h2, ?_, ?_⟩
  · simp [Span.size]
  · rw [FreeNode.next_setSize _ (by simp only; omega)]
    exact h4

def headStart (bs : List (Span Nat)) : Option Nat := bs.head?.map Span.start

def lastStart (bs : List (Span Nat)) : Option Nat := bs.getLast?.map Span.start

theorem Seg.cur_eq {words : Nat → Nat} {cur : Option Nat} {bs : List (Span Nat)}
    (h : Seg words cur bs none) : cur = headStart bs := by
  cases bs with
  | nil => exact h
  | cons b bs => exact h.1

def Apart (a b : Span Nat) : Prop := a.stop < b.start ∨ b.stop < a.start

/-- The free list of `fl` is `bs`. -/
structure Valid (fl : FreeList) (bs : List (Span Nat)) : Prop where
  linked : Seg fl.words fl.head bs none
  coalesced : Coalesced bs
  blocks : ∀ b ∈ bs, BlockOk b
  inside : ∀ b ∈ bs, ∃ r ∈ fl.regions, r.start ≤ b.start ∧ b.stop ≤ r.stop
  regions : ∀ r ∈ fl.regions, 0 < r.start ∧ 16 ∣ r.start ∧ 16 ∣ r.stop ∧ r.start < r.stop ∧
    r.stop < usizeLimit
  apart : fl.regions.Pairwise Apart
  total : bytes fl.regions = fl.totalBytes
  limit : fl.totalBytes ≤ maxHeapBytes

theorem apart_find {regions : List (Span Nat)} (h : regions.Pairwise Apart) {r : Span Nat}
    (hr : r ∈ regions) {addr : Nat} (hlo : r.start ≤ addr) (hhi : addr < r.stop) :
    regions.find? (fun r => decide (r.start ≤ addr ∧ addr < r.stop)) = some r := by
  induction regions with
  | nil => simp at hr
  | cons a rest ih =>
    obtain ⟨ha, hrest⟩ := List.pairwise_cons.mp h
    rcases List.mem_cons.mp hr with rfl | hr
    · simp [hlo, hhi]
    · have hna : ¬ (a.start ≤ addr ∧ addr < a.stop) := by
        rcases ha r hr with h | h <;> omega
      rw [List.find?_cons_of_neg (by simpa using hna)]
      exact ih hrest hr

variable {fl : FreeList} {bs : List (Span Nat)}

theorem Valid.regionOf (h : Valid fl bs) {r : Span Nat} (hr : r ∈ fl.regions) {addr : Nat}
    (hlo : r.start ≤ addr) (hhi : addr < r.stop) : fl.regionOf addr = some r :=
  apart_find h.apart hr hlo hhi

theorem Valid.nodeOk (h : Valid fl bs) {b : Span Nat} (hb : b ∈ bs)
    (hw : fl.words b.start = sizeWord b.size) : fl.nodeOk b.start = true := by
  obtain ⟨r, hr, hlo, hhi⟩ := h.inside b hb
  have hok := h.blocks b hb
  have hlt := hok.lt
  have hlim := hok.limit
  have hsix := hok.sixteen_le
  have hsize : b.start + b.size = b.stop := by unfold size; omega
  rw [FreeList.nodeOk, h.regionOf hr hlo (by omega)]
  simp only [hw, sizeWord_and_mask hok.small, sizeWord_magic hok.small, minBlock_eq, freeNodeSize,
    decide_eq_true_eq]
  exact ⟨hlo, by omega, by omega, trivial, hsix, by omega, by omega⟩

theorem length_le_bytes {l : List (Span Nat)} (h : ∀ b ∈ l, b.start < b.stop) :
    l.length ≤ bytes l := by
  induction l with
  | nil => simp
  | cons b l ih =>
    have hb := h b (by simp)
    have hrest := ih fun c hc => h c (by simp [hc])
    rw [List.length_cons, bytes_cons, size]
    omega

theorem size_le_bytes {l : List (Span Nat)} {b : Span Nat} (hb : b ∈ l) : b.size ≤ bytes l := by
  induction l with
  | nil => simp at hb
  | cons c l ih =>
    rw [bytes_cons]
    rcases List.mem_cons.mp hb with rfl | hb
    · omega
    · have := ih hb
      omega

theorem lastStart_concat (bs : List (Span Nat)) (b : Span Nat) :
    lastStart (bs ++ [b]) = some b.start := by
  simp [lastStart]

theorem lastStart_cons_or (b : Span Nat) (bs : List (Span Nat)) (prev : Option Nat) :
    (lastStart (b :: bs)).or prev = (lastStart bs).or (some b.start) := by
  cases bs with
  | nil => rfl
  | cons c bs =>
    have hlast : (c :: bs).getLast? = some ((c :: bs).getLast (by simp)) :=
      List.getLast?_eq_some_getLast (by simp)
    simp [lastStart, List.getLast?_cons_cons, hlast]

theorem Valid.seek_seg (h : Valid fl bs) {bound : Nat} {pre post : List (Span Nat)}
    {cur prev : Option Nat} {steps : Nat} (hsub : ∀ b ∈ pre ++ post, b ∈ bs)
    (hseg : Seg fl.words cur (pre ++ post) none) (hsteps : pre.length < steps)
    (hpre : ∀ b ∈ pre, b.start < bound) (hpost : ∀ b ∈ post.head?, bound ≤ b.start) :
    fl.seek bound steps prev cur = some (fl, (lastStart pre).or prev, headStart post) := by
  induction pre generalizing cur prev steps with
  | nil =>
    obtain ⟨steps, rfl⟩ : ∃ n, steps = n + 1 := ⟨steps - 1, by simp at hsteps; omega⟩
    cases post with
    | nil =>
      have hcur : cur = none := hseg
      simp [FreeList.seek, hcur, lastStart, headStart]
    | cons b post =>
      obtain ⟨hcur, hw, -⟩ := hseg
      have hok := h.nodeOk (hsub b (by simp)) hw
      have hle := hpost b (by simp)
      simp [FreeList.seek, hcur, hok, hle, lastStart, headStart]
  | cons b pre ih =>
    obtain ⟨steps, rfl⟩ : ∃ n, steps = n + 1 := ⟨steps - 1, by simp at hsteps; omega⟩
    obtain ⟨hcur, hw, hrest⟩ := hseg
    have hok := h.nodeOk (hsub b (by simp)) hw
    have hlt := hpre b (by simp)
    have hlen : pre.length < steps := by simpa using hsteps
    rw [lastStart_cons_or, hcur, FreeList.seek]
    simp only [hok, Bool.not_true, Bool.false_eq_true, if_false, Nat.not_le.mpr hlt]
    exact ih (fun c hc => hsub c (by simp at hc ⊢; tauto)) hrest hlen
      fun c hc => hpre c (by simp [hc])

theorem Valid.length_lt (h : Valid fl bs) (hsum : bytes bs ≤ maxHeapBytes) :
    bs.length < FreeList.maxSteps := by
  have hlen := length_le_bytes fun b hb => (h.blocks b hb).lt
  have hmax : maxHeapBytes < FreeList.maxSteps := by decide
  omega

theorem Valid.seek (h : Valid fl bs) {bound : Nat} {pre post : List (Span Nat)}
    (hbs : bs = pre ++ post) (hsum : bytes bs ≤ maxHeapBytes)
    (hpre : ∀ b ∈ pre, b.start < bound) (hpost : ∀ b ∈ post.head?, bound ≤ b.start) :
    fl.seek bound FreeList.maxSteps none fl.head = some (fl, lastStart pre, headStart post) := by
  have hlen := h.length_lt hsum
  have hpreLen : pre.length < FreeList.maxSteps := by
    rw [hbs, List.length_append] at hlen
    omega
  rw [h.seek_seg (fun b hb => hbs ▸ hb) (hbs ▸ h.linked) hpreLen hpre hpost, Option.or_none]

/-! ## Linking a block -/

@[simp] theorem link_regions (add : Nat → Nat → Nat) (fl : FreeList) (start stop : Nat)
    (prev cur : Option Nat) :
    (fl.link add start stop prev cur).regions = fl.regions ∧
      (fl.link add start stop prev cur).totalBytes = fl.totalBytes := by
  unfold FreeList.link
  simp only
  split
  · simp
  · split <;> simp

def Exact (add : Nat → Nat → Nat) : Prop := ∀ a b, a + b < usizeLimit → add a b = a + b

theorem exact_wrapAdd : Exact wrapAdd := fun _ _ h => Nat.mod_eq_of_lt h

theorem exact_satAdd : Exact satAdd := fun a b h => by
  unfold satAdd
  omega

theorem wrapSub_eq {a b : Nat} (h : b ≤ a) (ha : a < usizeLimit) : wrapSub a b = a - b := by
  unfold wrapSub
  rw [show a + usizeLimit - b = (a - b) + usizeLimit by omega, Nat.add_mod_right,
    Nat.mod_eq_of_lt (by omega)]

/-- The right half of `link`: the block `s`, extended over the first block of
`post` where they touch, in front of the rest. -/
structure RightMerge (words : Nat → Nat) (s : Span Nat) (post : List (Span Nat)) (stop : Nat)
    (rest : List (Span Nat)) : Prop where
  join : ∀ a, joinRight ⟨a, s.stop⟩ post = ⟨a, stop⟩ :: rest
  seg : Seg words (headStart rest) rest none
  sub : ∀ b ∈ rest, b ∈ post
  le : s.stop ≤ stop
  lt : stop < usizeLimit
  size : stop - s.stop ≤ bytes post

theorem rightMerge {words : Nat → Nat} {s : Span Nat} {post : List (Span Nat)}
    (hseg : Seg words (headStart post) post none) (hs : BlockOk s)
    (hpost : ∀ b ∈ post, BlockOk b) {add : Nat → Nat → Nat} (hadd : Exact add) :
    ∃ rest, RightMerge words s post
        (if headStart post = some s.stop then add s.stop (FreeNode.size words s.stop) else s.stop)
        rest ∧
      (if headStart post = some s.stop then
        (if headStart post = some s.stop then FreeNode.next words s.stop else none)
        else headStart post) = headStart rest := by
  by_cases htouch : headStart post = some s.stop
  · obtain ⟨b, post, rfl⟩ : ∃ b rest, post = b :: rest := by
      cases post with
      | nil => simp [headStart] at htouch
      | cons b rest => exact ⟨b, rest, rfl⟩
    have hbs : b.start = s.stop := by simpa [headStart] using htouch
    have hb := hpost b (by simp)
    obtain ⟨-, hw, hrest⟩ := hseg
    have hlt := hb.lt
    have hlim := hb.limit
    have hsize : FreeNode.size words s.stop = b.size := by
      rw [← hbs]
      exact FreeNode.size_eq hb.small hw
    have hend : s.stop + b.size = b.stop := by unfold Span.size; omega
    have hnext := hrest.cur_eq
    refine ⟨post, ⟨fun a => ?_, hnext ▸ hrest, fun c hc => by simp [hc], ?_, ?_, ?_⟩, ?_⟩
    · simp only [htouch, if_true, hsize, hadd _ _ (hend ▸ hlim), hend, joinRight, hbs]
    · simp only [htouch, if_true, hsize, hadd _ _ (hend ▸ hlim)]
      omega
    · simpa only [htouch, if_true, hsize, hadd _ _ (hend ▸ hlim), hend] using hlim
    · simp only [htouch, if_true, hsize, hadd _ _ (hend ▸ hlim), bytes_cons]
      omega
    · simp only [htouch, if_true, ← hbs, hnext]
  · refine ⟨post, ⟨fun a => ?_, hseg, fun c hc => hc, ?_, ?_, ?_⟩, ?_⟩
    · simp only [htouch, if_false]
      cases post with
      | nil => rfl
      | cons b post =>
        have hne : s.stop ≠ b.start := fun he => htouch (by simp [headStart, he])
        simp [joinRight, hne]
    · simp [htouch]
    · simpa [htouch] using hs.limit
    · simp [htouch]
    · simp [htouch]

/-- Linking a block between its neighbours inserts its span into the list. -/
theorem Valid.link_seg {pre post : List (Span Nat)} (h : Valid fl (pre ++ post)) {s : Span Nat}
    (hs : BlockOk s) (hpre : ∀ b ∈ pre, b.stop ≤ s.start) (hpost : ∀ b ∈ post, s.stop ≤ b.start)
    (hsum : bytes (pre ++ post) + s.size ≤ maxHeapBytes) {add : Nat → Nat → Nat}
    (hadd : Exact add) :
    Seg (fl.link add s.start s.stop (lastStart pre) (headStart post)).words
      (fl.link add s.start s.stop (lastStart pre) (headStart post)).head
      (Span.insert s (pre ++ post)) none := by
  obtain ⟨mid, hsegPre, hsegPost⟩ := seg_append.mp h.linked
  obtain rfl := hsegPost.cur_eq
  have hokPre : ∀ b ∈ pre, BlockOk b := fun b hb => h.blocks b (by simp [hb])
  have hokPost : ∀ b ∈ post, BlockOk b := fun b hb => h.blocks b (by simp [hb])
  obtain ⟨rest, hright, hnext⟩ := rightMerge hsegPost hs hokPost hadd
  have hlt := hs.lt
  have hstopLe := hright.le
  have hstopLt := hright.lt
  have hrestApart : ∀ {a : Nat}, a < s.stop → ∀ b ∈ rest, 16 ∣ b.start ∧ b.start ≠ a := by
    intro a ha b hb
    have hb' := hpost b (hright.sub b hb)
    exact ⟨(hokPost b (hright.sub b hb)).start16, by omega⟩
  have hnextNe : headStart rest ≠ some 0 := by
    cases hr : rest with
    | nil => simp [headStart]
    | cons b rest' =>
      have := (hokPost b (hright.sub b (by simp [hr]))).pos
      simp [headStart]
      omega
  have hone : ∀ c : Span Nat, c :: rest = [c] ++ rest := fun _ => rfl
  rcases List.eq_nil_or_concat' pre with rfl | ⟨pre, p, rfl⟩
  · -- the new block becomes the head of the list
    rw [List.nil_append, insert_eq_joinRight hpost, hright.join s.start, hone]
    simp only [FreeList.link, lastStart, List.getLast?_nil, Option.map_none, Option.filter_none,
      hnext]
    refine seg_append.mpr ⟨headStart rest, ?_, ?_⟩
    · rw [wrapSub_eq (by omega) hstopLt]
      have hnew := seg_new fl.words (p := s.start)
        (n := (if headStart post = some s.stop then add s.stop (FreeNode.size fl.words s.stop)
          else s.stop) - s.start) hnextNe
      rwa [Nat.add_sub_cancel' (by omega)] at hnew
    · exact (hright.seg.setSize hs.start16 _ (hrestApart hlt)).setNext hs.start16 _ (hrestApart hlt)
  · have hp := hokPre p (by simp)
    have hple := hpre p (by simp)
    have hplt := hp.lt
    have hplim := hp.limit
    have hsizep : FreeNode.size fl.words p.start = p.size := by
      obtain ⟨_, -, -, hw, -⟩ := seg_append.mp hsegPre
      exact FreeNode.size_eq hp.small hw
    have hpend : p.start + p.size = p.stop := by unfold Span.size; omega
    have hcoal := (coalesced_append.mp h.coalesced).1
    have hbefore : ∀ b ∈ pre, b.stop < p.start := fun b hb =>
      (coalesced_append.mp hcoal).2.2 b hb p (by simp)
    have hpreApart : ∀ b ∈ pre, 16 ∣ b.start ∧ b.start ≠ p.start := by
      intro b hb
      have hb' := hbefore b hb
      have hb'' := (hokPre b (by simp [hb])).lt
      exact ⟨(hokPre b (by simp [hb])).start16, by omega⟩
    have hins : Span.insert s (pre ++ [p] ++ post) =
        pre ++ (if p.stop = s.start then joinRight ⟨p.start, s.stop⟩ post
          else p :: joinRight s post) := by
      rw [List.append_assoc, insert_append hlt
        (fun b hb => (hokPre b (by simp [hb])).lt) (fun b hb => by have := hbefore b hb; omega),
        List.singleton_append, insert_cons hlt hplt hple, insert_eq_joinRight hpost,
        insert_eq_joinRight (s := ⟨p.start, s.stop⟩) hpost]
    have hleft : ((some p.start).filter fun q => add q (FreeNode.size fl.words q) == s.start) =
        if p.stop = s.start then some p.start else none := by
      have hq : (add p.start (FreeNode.size fl.words p.start) == s.start) =
          decide (p.stop = s.start) := by
        rw [hsizep, hadd _ _ (by omega), hpend]
        rfl
      by_cases htouch : p.stop = s.start <;> simp [Option.filter, hq, htouch]
    rw [hins, lastStart_concat]
    simp only [FreeList.link, hleft, hnext]
    by_cases htouch : p.stop = s.start
    · -- the block before grows over the new one
      simp only [htouch, if_true, hright.join p.start]
      rw [wrapSub_eq (by omega) hstopLt, ← List.singleton_append, ← List.append_assoc]
      refine seg_append.mpr ⟨headStart rest, ?_, ?_⟩
      · by_cases hm : headStart post = some s.stop
        · simp only [hm, if_true] at hnext hstopLe ⊢
          have hre := (hsegPre.resize hp.start16
            (add s.stop (FreeNode.size fl.words s.stop) - p.start) hpreApart).relink hp.start16
            hnextNe hpreApart
          rw [hnext]
          rwa [Nat.add_sub_cancel' (by omega)] at hre
        · simp only [hm, if_false] at hnext hstopLe ⊢
          have hre := hsegPre.resize hp.start16 (s.stop - p.start) hpreApart
          rwa [hnext, Nat.add_sub_cancel' (by omega)] at hre
      · have hap := hrestApart (a := p.start) (by omega)
        split
        · exact (hright.seg.setSize hp.start16 _ hap).setNext hp.start16 _ hap
        · exact hright.seg.setSize hp.start16 _ hap
    · -- a new node between its neighbours
      simp only [htouch, if_false, hright.join s.start]
      rw [wrapSub_eq (by omega) hstopLt, hone, ← List.singleton_append, ← List.append_assoc,
        ← List.append_assoc]
      have hap := hrestApart hlt
      have happ := hrestApart (a := p.start) (by omega)
      have hsne : s.start ≠ p.start := by omega
      have hpreS : ∀ b ∈ pre ++ [p], 16 ∣ b.start ∧ b.start ≠ s.start := by
        intro b hb
        have h1 := hpre b hb
        have h2 := (hokPre b hb).lt
        exact ⟨(hokPre b hb).start16, by omega⟩
      refine seg_append.mpr ⟨headStart rest, seg_append.mpr ⟨some s.start, ?_, ?_⟩, ?_⟩
      · have hkeep := (hsegPre.setSize hs.start16
          ((if headStart post = some s.stop then add s.stop (FreeNode.size fl.words s.stop)
            else s.stop) - s.start) hpreS).setNext hs.start16 (headStart rest) hpreS
        have hsome : (some s.start : Option Nat) ≠ some 0 := by
          have := hs.pos
          simp
          omega
        exact hkeep.relink hp.start16 hsome hpreApart
      · refine Seg.setNext ?_ hp.start16 _ (by simpa using ⟨hs.start16, hsne⟩)
        have hnew := seg_new fl.words (p := s.start)
          (n := (if headStart post = some s.stop then add s.stop (FreeNode.size fl.words s.stop)
            else s.stop) - s.start) hnextNe
        rwa [Nat.add_sub_cancel' (by omega)] at hnew
      · exact ((hright.seg.setSize hs.start16 _ hap).setNext hs.start16 _ hap).setNext hp.start16 _
          happ

instance : Std.Symm Apart := ⟨fun _ _ h => h.symm⟩

theorem region_eq {regions : List (Span Nat)} (h : regions.Pairwise Apart) {a b : Span Nat}
    (ha : a ∈ regions) (hb : b ∈ regions) {x : Nat} (hax : a.start ≤ x ∧ x ≤ a.stop)
    (hbx : b.start ≤ x ∧ x ≤ b.stop) : a = b := by
  by_contra hab
  rcases h.forall ha hb hab with h | h <;> omega

def Placed (regions : List (Span Nat)) (b : Span Nat) : Prop :=
  0 < b.start ∧ 16 ∣ b.start ∧ 16 ∣ b.stop ∧ b.start < b.stop ∧
    ∃ r ∈ regions, r.start ≤ b.start ∧ b.stop ≤ r.stop

theorem Placed.blockOk {regions : List (Span Nat)} {b : Span Nat} (h : Placed regions b)
    (hregions : ∀ r ∈ regions, r.stop < usizeLimit) (hsmall : b.size ≤ maxHeapBytes) :
    BlockOk b := by
  obtain ⟨hpos, h1, h2, hlt, r, hr, -, hhi⟩ := h
  have hlim := hregions r hr
  have hmax : maxHeapBytes < 2 ^ 48 := by decide
  exact ⟨hpos, h1, h2, hlt, by omega, by omega⟩

theorem Valid.placed (h : Valid fl bs) {b : Span Nat} (hb : b ∈ bs) : Placed fl.regions b :=
  have hok := h.blocks b hb
  ⟨hok.pos, hok.start16, hok.stop16, hok.lt, h.inside b hb⟩

theorem Placed.merge {regions : List (Span Nat)} (hap : regions.Pairwise Apart) {a b : Span Nat}
    (ha : Placed regions a) (hb : Placed regions b) (htouch : a.stop = b.start) :
    Placed regions ⟨a.start, b.stop⟩ := by
  obtain ⟨hpos, ha1, ha2, halt, r, hr, hr1, hr2⟩ := ha
  obtain ⟨-, hb1, hb2, hblt, q, hq, hq1, hq2⟩ := hb
  have hrq : r = q := region_eq hap hr hq (x := a.stop) ⟨by omega, by omega⟩ ⟨by omega, by omega⟩
  subst hrq
  exact ⟨hpos, ha1, hb2, by simp only; omega, r, hr, hr1, hq2⟩

theorem Valid.link {pre post : List (Span Nat)} (h : Valid fl (pre ++ post)) {s : Span Nat}
    (hs : Placed fl.regions s) (hpre : ∀ b ∈ pre, b.stop ≤ s.start)
    (hpost : ∀ b ∈ post, s.stop ≤ b.start)
    (hsum : bytes (pre ++ post) + s.size ≤ maxHeapBytes) {add : Nat → Nat → Nat}
    (hadd : Exact add) :
    Valid (fl.link add s.start s.stop (lastStart pre) (headStart post))
      (Span.insert s (pre ++ post)) := by
  have hlim : ∀ r ∈ fl.regions, r.stop < usizeLimit := fun r hr => (h.regions r hr).2.2.2.2
  have hok : BlockOk s := hs.blockOk hlim (by omega)
  have hclear : Clear s (pre ++ post) := by
    intro b hb
    rcases List.mem_append.mp hb with hb | hb
    · exact Or.inr (hpre b hb)
    · exact Or.inl (hpost b hb)
  obtain ⟨hreg, htot⟩ := link_regions add fl s.start s.stop (lastStart pre) (headStart post)
  have hplaced := forall_insert (P := Placed fl.regions) (fun a b ha hb => ha.merge h.apart hb) hs
    fun b hb => h.placed hb
  have hbytes := bytes_insert hok.lt h.coalesced
  refine ⟨h.link_seg hok hpre hpost hsum hadd, coalesced_insert hok.lt h.coalesced hclear, ?_, ?_,
    by rw [hreg]; exact h.regions, by rw [hreg]; exact h.apart, by rw [hreg, htot]; exact h.total,
    by rw [htot]; exact h.limit⟩
  · intro b hb
    have hle := size_le_bytes hb
    exact (hplaced b hb).blockOk hlim (by omega)
  · intro b hb
    rw [hreg]
    exact (hplaced b hb).2.2.2.2

/-! ## Taking an allocation out of a block -/

/-- The block contains a range of `size` bytes that starts at a multiple of `align`. -/
def Fits (size align : Nat) (b : Span Nat) : Prop :=
  ∃ p, b.start ≤ p ∧ align ∣ p ∧ p + size ≤ b.stop

/-- The first-fit search rounds no block address up past the end of the address
space: every block it looks at, up to the first that fits. -/
def NoWrap (size align : Nat) : List (Span Nat) → Prop
  | [] => True
  | b :: rest =>
    b.start + (align - 1) < usizeLimit ∧
      (alignUp b.start align + size ≤ b.stop ∨ NoWrap size align rest)

instance decidableNoWrap (size align : Nat) :
    (bs : List (Span Nat)) → Decidable (NoWrap size align bs)
  | [] => isTrue trivial
  | _ :: rest =>
    have := decidableNoWrap size align rest
    inferInstanceAs (Decidable (_ ∧ (_ ∨ _)))

theorem alignUp_le {addr align k p : Nat} (hk : align = 2 ^ k) (hk64 : k ≤ 64)
    (hfit : addr + (align - 1) < usizeLimit) (hp : addr ≤ p) (hdvd : align ∣ p) :
    alignUp addr align ≤ p := by
  obtain ⟨-, hlt, d, hd⟩ := alignUp_spec hk hk64 hfit
  obtain ⟨e, rfl⟩ := hdvd
  rw [hd] at hlt ⊢
  have hstep : align * d < align * (e + 1) := by
    rw [Nat.mul_succ]
    omega
  exact Nat.mul_le_mul_left _ (Nat.lt_succ_iff.mp (Nat.lt_of_mul_lt_mul_left hstep))

theorem fits_iff {size align k : Nat} {b : Span Nat} (hk : align = 2 ^ k) (hk64 : k ≤ 64)
    (hfit : b.start + (align - 1) < usizeLimit) :
    Fits size align b ↔ alignUp b.start align + size ≤ b.stop := by
  obtain ⟨hle, -, hdvd⟩ := alignUp_spec hk hk64 hfit
  constructor
  · rintro ⟨p, hp, hdp, hend⟩
    have := alignUp_le hk hk64 hfit hp hdp
    omega
  · intro h
    exact ⟨_, hle, hdvd, h⟩

inductive Taken (fl : FreeList) (bs : List (Span Nat)) (size align : Nat) : Nat × FreeList → Prop
  /-- No block contains an aligned range of the size. -/
  | null (h : ∀ b ∈ bs, ¬ Fits size align b) : Taken fl bs size align (0, fl)
  /-- The range is cut out of the first block that contains one, at its lowest place. -/
  | carved {pre post : List (Span Nat)} {b : Span Nat} {ptr : Nat} {fl' : FreeList}
      (hbs : bs = pre ++ b :: post) (hpre : ∀ a ∈ pre, ¬ Fits size align a)
      (hlo : b.start ≤ ptr) (hdvd : align ∣ ptr) (hhi : ptr + size ≤ b.stop)
      (hleast : ∀ p, b.start ≤ p → align ∣ p → ptr ≤ p)
      (hseg : Seg fl'.words fl'.head (pre ++ pieces b ptr (ptr + size) ++ post) none)
      (hreg : fl'.regions = fl.regions) (htot : fl'.totalBytes = fl.totalBytes) :
      Taken fl bs size align (ptr, fl')

/-- Cutting a range out of the block at `b`: the words and links that `allocate`
writes make the pieces the list. -/
theorem Valid.carve_seg {pre post : List (Span Nat)} {b : Span Nat} (h : Valid fl (pre ++ b :: post))
    {ptr size : Nat} (hlo : b.start ≤ ptr) (hptr : 16 ∣ ptr) (hsize : 16 ∣ size) (hpos : 0 < size)
    (hhi : ptr + size ≤ b.stop) :
    let suffix := b.stop - (ptr + size)
    let next := FreeNode.next fl.words b.start
    let words :=
      if minBlock ≤ suffix then
        FreeNode.setNext (FreeNode.setSize fl.words (ptr + size) suffix) (ptr + size) next
      else fl.words
    let right := if minBlock ≤ suffix then some (ptr + size) else next
    ∃ fl' : FreeList,
      (if minBlock ≤ ptr - b.start then
        { fl with words := FreeNode.setNext (FreeNode.setSize words b.start (ptr - b.start)) b.start right }
      else
        match lastStart pre with
        | some p => { fl with words := FreeNode.setNext words p right }
        | none => { fl with words := words, head := right }) = fl' ∧
      Seg fl'.words fl'.head (pre ++ pieces b ptr (ptr + size) ++ post) none ∧
      fl'.regions = fl.regions ∧ fl'.totalBytes = fl.totalBytes := by
  intro suffix next words right
  obtain ⟨mid, hsegPre, hmid, hw, hsegPost⟩ := seg_append.mp h.linked
  subst hmid
  have hb := h.blocks b (by simp)
  have hb1 := hb.start16
  have hb2 := hb.stop16
  have hblt := hb.lt
  obtain ⟨hcPre, hcPost, hcross⟩ := coalesced_append.mp h.coalesced
  obtain ⟨-, hgap, hcPost'⟩ := coalesced_cons.mp hcPost
  have hpreApart : ∀ {a : Nat}, b.start ≤ a → ∀ c ∈ pre, 16 ∣ c.start ∧ c.start ≠ a := by
    intro a ha c hc
    have h1 := hcross c hc b (by simp)
    have h2 := hcPre.nonempty c hc
    exact ⟨(h.blocks c (by simp [hc])).start16, by omega⟩
  have hpostApart : ∀ {a : Nat}, a < b.stop → ∀ c ∈ post, 16 ∣ c.start ∧ c.start ≠ a := by
    intro a ha c hc
    have h1 := hgap c hc
    exact ⟨(h.blocks c (by simp [hc])).start16, by omega⟩
  have hnextNe : next ≠ some 0 := by
    simp only [next, FreeNode.next]
    split <;> simp_all
  -- the part of the block after the allocation, in front of the later blocks
  have hright : Seg words right
      ((if ptr + size < b.stop then [⟨ptr + size, b.stop⟩] else []) ++ post) none := by
    by_cases hsuf : ptr + size < b.stop
    · have hmin : minBlock ≤ suffix := by rw [minBlock_eq]; simp only [suffix]; omega
      simp only [words, right, hmin, hsuf, if_true]
      refine seg_append.mpr ⟨next, ?_, ?_⟩
      · have hnew := seg_new fl.words (p := ptr + size) (n := suffix) hnextNe
        rwa [show ptr + size + suffix = b.stop by simp only [suffix]; omega] at hnew
      · have hap := hpostApart hsuf
        have hd : 16 ∣ ptr + size := Nat.dvd_add hptr hsize
        exact (hsegPost.setSize hd _ hap).setNext hd _ hap
    · have hmin : ¬ minBlock ≤ suffix := by rw [minBlock_eq]; simp only [suffix]; omega
      simp only [words, right, hmin, hsuf, if_false, List.nil_append]
      exact hsegPost
  have hrightNe : right ≠ some 0 := by
    simp only [right]
    split
    · have := hb.pos
      simp
      omega
    · exact hnextNe
  have hpreKeep : Seg words fl.head pre (some b.start) := by
    simp only [words]
    split
    · have hd : 16 ∣ ptr + size := Nat.dvd_add hptr hsize
      have hap := hpreApart (a := ptr + size) (by omega)
      exact (hsegPre.setSize hd _ hap).setNext hd _ hap
    · exact hsegPre
  have hrightApart : ∀ {a : Nat}, a < ptr + size → ∀ c ∈
      (if ptr + size < b.stop then [⟨ptr + size, b.stop⟩] else []) ++ post,
      16 ∣ c.start ∧ c.start ≠ a := by
    intro a ha c hc
    rcases List.mem_append.mp hc with hc | hc
    · split at hc
      · rw [List.mem_singleton] at hc
        subst hc
        exact ⟨Nat.dvd_add hptr hsize, by simp only; omega⟩
      · simp at hc
    · exact hpostApart (by omega) c hc
  simp only [pieces]
  by_cases hstart : b.start < ptr
  · have hmin : minBlock ≤ ptr - b.start := by rw [minBlock_eq]; omega
    refine ⟨_, if_pos hmin, ?_, rfl, rfl⟩
    simp only [hstart, if_true]
    rw [List.append_assoc, List.append_assoc]
    refine seg_append.mpr ⟨some b.start, ?_, seg_append.mpr ⟨right, ?_, ?_⟩⟩
    · have hap := hpreApart (Nat.le_refl b.start)
      exact (hpreKeep.setSize hb1 _ hap).setNext hb1 _ hap
    · have hnew := seg_new words (p := b.start) (n := ptr - b.start) hrightNe
      rwa [Nat.add_sub_cancel' hlo] at hnew
    · have hap := hrightApart (a := b.start) (by omega)
      exact (hright.setSize hb1 _ hap).setNext hb1 _ hap
  · have hmin : ¬ minBlock ≤ ptr - b.start := by rw [minBlock_eq]; omega
    rw [if_neg hmin]
    simp only [hstart, if_false, List.nil_append]
    rcases List.eq_nil_or_concat' pre with rfl | ⟨pre, p, rfl⟩
    · exact ⟨_, rfl, hright, rfl, rfl⟩
    · rw [lastStart_concat]
      refine ⟨_, rfl, ?_, rfl, rfl⟩
      rw [List.append_assoc]
      have hp := h.blocks p (by simp)
      have hplt := hp.lt
      have hpb := hcross p (by simp) b (by simp)
      have hpp : ∀ c ∈ pre, 16 ∣ c.start ∧ c.start ≠ p.start := by
        intro c hc
        have h1 := (coalesced_append.mp hcPre).2.2 c hc p (by simp)
        have h2 := hcPre.nonempty c (by simp [hc])
        exact ⟨(h.blocks c (by simp [hc])).start16, by omega⟩
      exact seg_append.mpr ⟨right, hpreKeep.relink hp.start16 hrightNe hpp,
        hright.setNext hp.start16 _ (hrightApart (by omega))⟩

theorem Valid.allocateFrom_spec (h : Valid fl bs) {size align k : Nat} (hk : align = 2 ^ k)
    (hk64 : k ≤ 64) (h16 : 16 ∣ align) (hsize : 16 ∣ size) (hpos : 0 < size)
    {pre post : List (Span Nat)} {steps : Nat} {cur : Option Nat} (hbs : bs = pre ++ post)
    (hseg : Seg fl.words cur post none) (hsteps : post.length < steps)
    (hpre : ∀ a ∈ pre, ¬ Fits size align a) (hwrap : NoWrap size align post) :
    ∃ r, fl.allocateFrom size align steps (lastStart pre) cur = some r ∧
      Taken fl bs size align r := by
  induction post generalizing pre steps cur with
  | nil =>
    obtain ⟨steps, rfl⟩ : ∃ n, steps = n + 1 := ⟨steps - 1, by simp at hsteps; omega⟩
    have hcur : cur = none := hseg
    refine ⟨(0, fl), by simp [FreeList.allocateFrom, hcur], .null ?_⟩
    simpa [hbs] using hpre
  | cons b post ih =>
    obtain ⟨steps, rfl⟩ : ∃ n, steps = n + 1 := ⟨steps - 1, by simp at hsteps; omega⟩
    obtain ⟨hcur, hw, hrest⟩ := hseg
    obtain ⟨hfit, hor⟩ := hwrap
    have hb := h.blocks b (by simp [hbs])
    have hok := h.nodeOk (by simp [hbs]) hw
    have hblt := hb.lt
    have hlim := hb.limit
    obtain ⟨hle, hlt, hdvd⟩ := alignUp_spec hk hk64 hfit
    have hend : b.start + FreeNode.size fl.words b.start = b.stop := by
      rw [FreeNode.size_eq hb.small hw]
      unfold Span.size
      omega
    have hiff : Fits size align b ↔ _ := fits_iff hk hk64 hfit
    simp only [FreeList.allocateFrom, hcur, hok, Bool.not_true, Bool.false_eq_true, if_false, hend]
    by_cases hover : usizeLimit ≤ alignUp b.start align + size
    · -- rounding up leaves no room below the limit, here and in every later block
      refine ⟨(0, fl), if_pos hover, .null ?_⟩
      rw [hbs]
      intro a ha
      rcases List.mem_append.mp ha with ha | ha
      · exact hpre a ha
      · rintro ⟨p, hp, hdp, hpe⟩
        have halim := (h.blocks a (by simp [hbs, ha])).limit
        have hba : b.start ≤ a.start := by
          rcases List.mem_cons.mp ha with rfl | ha
          · exact Nat.le_refl _
          · have := (coalesced_cons.mp (coalesced_append.mp (hbs ▸ h.coalesced)).2.1).2.1 a ha
            omega
        have := alignUp_le hk hk64 hfit (Nat.le_trans hba hp) hdp
        omega
    · rw [if_neg hover]
      by_cases hfits : alignUp b.start align + size ≤ b.stop
      · have hptr : 16 ∣ alignUp b.start align := Nat.dvd_trans h16 hdvd
        obtain ⟨fl', hfl', hseg', hreg, htot⟩ :=
          (hbs ▸ h : Valid fl (pre ++ b :: post)).carve_seg hle hptr hsize hpos hfits
        have hsub : wrapSub (alignUp b.start align) b.start = alignUp b.start align - b.start :=
          wrapSub_eq hle (by omega)
        refine ⟨(alignUp b.start align, fl'), ?_, .carved hbs hpre hle hdvd hfits
          (fun p hp hdp => alignUp_le hk hk64 hfit hp hdp) hseg' hreg htot⟩
        rw [if_pos hfits, hsub, ← hfl']
        cases lastStart pre <;> split <;> rfl
      · rw [if_neg hfits]
        have hlast : lastStart (pre ++ [b]) = some b.start := lastStart_concat pre b
        rw [← hlast]
        refine ih (by simp [hbs]) hrest (by simpa using hsteps) ?_ (hor.resolve_left hfits)
        intro a ha
        rcases List.mem_append.mp ha with ha | ha
        · exact hpre a ha
        · rw [List.mem_singleton] at ha
          subst ha
          exact fun hf => hfits (hiff.mp hf)

end Vibra.Heap
