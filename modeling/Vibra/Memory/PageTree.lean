import Mathlib.Order.CompletePartialOrder
import Vibra.Memory.PmmOwnership
import Vibra.Memory.Paging

/-! # Mapping in a tree of page tables

A well-formed address space is a tree of tables none of which is a free frame.
-/

namespace Vibra.Vmm

open Vibra.Lib Vibra.Paging

theorem has_or {a b flag : Word} : Has (a ||| b) flag ↔ Has a flag ∨ Has b flag := by
  have h : (a &&& flag) ||| (b &&& flag) = 0 ↔ a &&& flag = 0 ∧ b &&& flag = 0 :=
    BitVec.or_eq_zero_iff
  unfold Has
  rw [BitVec.and_or_distrib_right, ne_eq, h]
  tauto

def IsFrame (x : Word) : Prop := x &&& addressMask = x

theorem IsFrame.not_has {x flag : Word} (h : IsFrame x) (hflag : addressMask &&& flag = 0) :
    ¬ Has x flag := by
  unfold Has
  rw [← h, BitVec.and_assoc, hflag]
  simp

theorem address_or {a b : Word} :
    (a ||| b) &&& addressMask = (a &&& addressMask) ||| (b &&& addressMask) :=
  BitVec.and_or_distrib_right

section Frame

variable {x : Word} (h : IsFrame x)

include h

theorem IsFrame.writable : ¬ Has x entryWritable := h.not_has (by decide)
theorem IsFrame.huge : ¬ Has x entryHugePage := h.not_has (by decide)

theorem IsFrame.address_or {flags : Word} (hf : flags &&& addressMask = 0) :
    (x ||| flags) &&& addressMask = x := by
  rw [Vmm.address_or, h, hf]
  simp

end Frame

def free (pmm : Pmm.State) : Set Word :=
  {x | ∃ f : Pmm.Frame, Pmm.isFrameFree pmm.bitmap f = true ∧
    x = BitVec.ofNat 64 (f * Pmm.frameSize)}

theorem frame_lt (f : Pmm.Frame) : f.val * Pmm.frameSize < 2 ^ 36 := by
  have h := f.isLt
  simp only [Pmm.maxFrames, Pmm.frameSize] at h ⊢
  omega

theorem ofNat_frame_inj {f g : Pmm.Frame}
    (h : BitVec.ofNat 64 (f * Pmm.frameSize) = BitVec.ofNat 64 (g * Pmm.frameSize)) : f = g := by
  have hf := frame_lt f
  have hg := frame_lt g
  have hnat := congrArg BitVec.toNat h
  rw [BitVec.toNat_ofNat, BitVec.toNat_ofNat, Nat.mod_eq_of_lt (by omega),
    Nat.mod_eq_of_lt (by omega)] at hnat
  exact Fin.ext (Nat.eq_of_mul_eq_mul_right (by decide) hnat)

theorem addressMask_getLsbD (k : Nat) (hk : k < 64) :
    addressMask.getLsbD k = decide (12 ≤ k ∧ k < 52) := by
  have h : ∀ k : Fin 64, addressMask.getLsbD k = decide (12 ≤ k.val ∧ k.val < 52) := by decide
  exact h ⟨k, hk⟩

theorem isFrame_of_frame (f : Pmm.Frame) : IsFrame (BitVec.ofNat 64 (f * Pmm.frameSize)) := by
  apply BitVec.eq_of_getLsbD_eq
  intro k hk
  rw [BitVec.getLsbD_and, addressMask_getLsbD k hk, BitVec.getLsbD_ofNat]
  simp only [hk, decide_true, Bool.true_and]
  have hsize : Pmm.frameSize = 2 ^ 12 := rfl
  rw [hsize, Nat.testBit_mul_two_pow]
  by_cases h12 : 12 ≤ k
  · by_cases h52 : k < 52
    · simp [h12, h52]
    · have hbig : f.val.testBit (k - 12) = false := by
        apply Nat.testBit_lt_two_pow
        have h := f.isLt
        have hpow : 2 ^ 24 ≤ 2 ^ (k - 12) := Nat.pow_le_pow_right (by decide) (by omega)
        simp only [Pmm.maxFrames] at h
        omega
      simp [hbig]
  · simp [h12]

theorem isFrame_of_free {pmm : Pmm.State} {x : Word} (h : x ∈ free pmm) : IsFrame x := by
  obtain ⟨f, _, rfl⟩ := h
  exact isFrame_of_frame f

theorem free_of_used {pmm pmm' : Pmm.State} {f : Pmm.Frame}
    (h : pmm'.bitmap = Pmm.setFrameUsed pmm.bitmap f) :
    free pmm' = free pmm \ {BitVec.ofNat 64 (f * Pmm.frameSize)} := by
  ext x
  constructor
  · rintro ⟨g, hg, rfl⟩
    rw [h, Pmm.isFrameFree_setFrameUsed] at hg
    simp only [Bool.and_eq_true, decide_eq_true_eq] at hg
    exact ⟨⟨g, hg.1, rfl⟩, fun h => hg.2 (ofNat_frame_inj h)⟩
  · rintro ⟨⟨g, hg, rfl⟩, hne⟩
    refine ⟨g, ?_, rfl⟩
    rw [h, Pmm.isFrameFree_setFrameUsed]
    simp only [hg, Bool.true_and, decide_eq_true_eq]
    rintro rfl
    exact hne rfl

def grant (pmm : Pmm.State) : Option Word := (Pmm.allocFrame pmm).1.map (BitVec.ofNat 64 ·)

def secondGrant (pmm : Pmm.State) : Option Word := grant (Pmm.allocFrame pmm).2

theorem allocFrameZeroed_cases (s : Space) :
    allocFrameZeroed s = (none, s) ∧ grant s.pmm = none ∨
      ∃ frame s', allocFrameZeroed s = (some frame, s') ∧ grant s.pmm = some frame ∧
        s'.pmm = (Pmm.allocFrame s.pmm).2 ∧ frame ∈ free s.pmm ∧
        free s'.pmm = free s.pmm \ {frame} ∧ s'.tables = setTable s.tables frame fun _ => 0 := by
  unfold allocFrameZeroed grant Pmm.allocFrame
  by_cases h0 : s.pmm.freeFrames = 0
  · exact Or.inl (by simp [h0])
  · cases hf : Pmm.findFree s.pmm.bitmap s.pmm.nextHint Pmm.maxFrames 0 with
    | none => exact Or.inl (by simp [h0])
    | some f =>
      simp only [h0, if_false]
      exact Or.inr ⟨BitVec.ofNat 64 (f * Pmm.frameSize), _, rfl, rfl, rfl,
        ⟨f, Pmm.findFree_spec hf, rfl⟩, free_of_used rfl, rfl⟩

/-- The tables from here down are a tree, and none of them is a free frame. -/
structure Owned (s : Space) (ls : List Level) (t : Word) : Prop where
  tree : Radix.Tree shape s.tables ls t
  apart : Disjoint (Radix.reach shape s.tables ls t) (free s.pmm)

/-- Only the tables from here down and frames that were free have changed. -/
structure Inside (s s' : Space) (ls : List Level) (t : Word) : Prop where
  tables : ∀ x, x ∉ Radix.reach shape s.tables ls t → x ∉ free s.pmm → s'.tables x = s.tables x
  free : free s'.pmm ⊆ free s.pmm

/-- One entry of a table was made to lead on to the table `c`: the old one of that entry, or
frames that were free. -/
structure Opened (s s' : Space) (l : Level) (ls : List Level) (t : Word) (i : Fin 512)
    (c : Word) : Prop where
  leads : next l (s'.tables t i) = .child c
  beside : ∀ j, j ≠ i → s'.tables t j = s.tables t j
  away : ∀ x, x ≠ t → x ∉ free s.pmm → s'.tables x = s.tables x
  free : free s'.pmm ⊆ free s.pmm
  owned : Owned s' ls c
  within : ∀ x ∈ Radix.reach shape s'.tables ls c, x ∈ Vmm.free s.pmm ∨
    ∃ d, next l (s.tables t i) = .child d ∧ x ∈ Radix.reach shape s.tables ls d

theorem Inside.refl (s : Space) (ls : List Level) (t : Word) : Inside s s ls t :=
  ⟨fun _ _ _ => rfl, Set.Subset.rfl⟩

section Below

variable {s s' s'' : Space} {l : Level} {ls : List Level} {t c : Word} {i : Fin 512}

theorem Owned.not_free (h : Owned s (l :: ls) t) : t ∉ free s.pmm :=
  Set.disjoint_left.mp h.apart Radix.mem_reach_self

theorem Owned.child (h : Owned s (l :: ls) t) (hc : next l (s.tables t i) = .child c) :
    Owned s ls c :=
  ⟨(h.tree.child hc).2, Set.disjoint_of_subset_left (Radix.reach_child hc) h.apart⟩

theorem Opened.above (h : Opened s s' l ls t i c) (hO : Owned s (l :: ls) t) :
    t ∉ Radix.reach shape s'.tables ls c := by
  intro ht
  rcases h.within t ht with hf | ⟨d, hd, hr⟩
  · exact hO.not_free hf
  · exact (hO.tree.child hd).1 hr

theorem Opened.entry (h : Opened s s' l ls t i c) (hO : Owned s (l :: ls) t)
    (hI : Inside s' s'' ls c) : s''.tables t = s'.tables t :=
  hI.tables t (h.above hO) fun hf => hO.not_free (h.free hf)

theorem Opened.walk_beside (h : Opened s s' l ls t i c) (hO : Owned s (l :: ls) t)
    (hI : Inside s' s'' ls c) {address : Word} (hk : index address l.shift ≠ i) :
    Radix.walk shape s''.tables (l :: ls) t address =
      Radix.walk shape s.tables (l :: ls) t address := by
  apply Radix.walk_beside hO.tree hk
  · intro j hj
    rw [h.entry hO hI, h.beside j hj]
  · intro x hx hxt hother
    have hxf : x ∉ Vmm.free s.pmm := Set.disjoint_left.mp hO.apart hx
    have hxc : x ∉ Radix.reach shape s'.tables ls c := by
      intro hr
      rcases h.within x hr with hf | ⟨d, hd, hr⟩
      · exact hxf hf
      · exact hother d hd hr
    rw [hI.tables x hxc fun hf => hxf (h.free hf), h.away x hxt hxf]

theorem Opened.walk_below (h : Opened s s' l ls t i c) (hO : Owned s (l :: ls) t)
    (hI : Inside s' s'' ls c) {address : Word} (hk : index address l.shift = i) :
    Radix.walk shape s''.tables (l :: ls) t address =
      (Radix.walk shape s''.tables ls c address).map ((l, s'.tables t i) :: ·) := by
  have he : s''.tables t (index address l.shift) = s'.tables t i := by
    rw [h.entry hO hI, hk]
  have hleads : shape.next l (s''.tables t (shape.index l address)) = .child c :=
    (congrArg (next l) he).trans h.leads
  rw [Radix.walk_child hleads]
  exact congrArg (fun e => Option.map ((l, e) :: ·) _) he

theorem Opened.inside (h : Opened s s' l ls t i c) (hI : Inside s' s'' ls c) :
    Inside s s'' (l :: ls) t := by
  refine ⟨fun x hx hf => ?_, hI.free.trans h.free⟩
  have hxt : x ≠ t := by
    rintro rfl
    exact hx Radix.mem_reach_self
  have hxc : x ∉ Radix.reach shape s'.tables ls c := by
    intro hr
    rcases h.within x hr with hfree | ⟨d, hd, hr⟩
    · exact hf hfree
    · exact hx (Radix.reach_child hd hr)
  rw [hI.tables x hxc fun hfree => hf (h.free hfree), h.away x hxt hf]

theorem setEntry_same (tables : Tables) (t : Word) (i : Fin 512) (e : Word) :
    setEntry tables t i e t i = e := by
  simp [setEntry]

theorem setEntry_beside (tables : Tables) (t : Word) {i j : Fin 512} (e : Word) (h : j ≠ i) :
    setEntry tables t i e t j = tables t j := by
  simp [setEntry, h]

theorem setEntry_away (tables : Tables) {t x : Word} (i : Fin 512) (e : Word) (h : x ≠ t) :
    setEntry tables t i e x = tables x := by
  simp [setEntry, h]

theorem setTable_same (tables : Tables) (t : Word) (f : Fin 512 → Word) :
    setTable tables t f t = f := by
  simp [setTable]

theorem setTable_away (tables : Tables) {t x : Word} (f : Fin 512 → Word) (h : x ≠ t) :
    setTable tables t f x = tables x := by
  simp [setTable, h]

theorem opened_kept (hO : Owned s (l :: ls) t) (hc : next l (s.tables t i) = .child c)
    {e : Word} (he : next l e = .child c) :
    Opened s (s.set t i e) l ls t i c ∧
      ∀ address, Radix.walk shape (s.set t i e).tables ls c address =
        Radix.walk shape s.tables ls c address := by
  have hsame : ∀ x ∈ Radix.reach shape s.tables ls c, (s.set t i e).tables x = s.tables x := by
    intro x hx
    apply setEntry_away
    rintro rfl
    exact (hO.tree.child hc).1 hx
  have hreach := Radix.reach_congr hsame
  have hown := hO.child hc
  refine ⟨⟨?_, fun j hj => setEntry_beside _ _ _ hj, fun x hx _ => setEntry_away _ _ _ hx,
    Set.Subset.rfl, ⟨hown.tree.congr hsame, ?_⟩, ?_⟩, Radix.walk_congr hsame⟩
  · exact (congrArg (next l) (setEntry_same _ _ _ _)).trans he
  · rw [hreach]
    exact hown.apart
  · intro x hx
    rw [hreach] at hx
    exact Or.inr ⟨c, hc, hx⟩

theorem opened_fresh {l' : Level} {ls' : List Level} (hO : Owned s (l :: l' :: ls') t)
    (hc : c ∈ free s.pmm) (hfree : free s'.pmm = free s.pmm \ {c}) {f : Fin 512 → Word} {e : Word}
    (htables : s'.tables = setEntry (setTable s.tables c f) t i e) (he : next l e = .child c)
    (hflat : ∀ j d, next l' (f j) ≠ .child d) :
    Opened s s' l (l' :: ls') t i c ∧ s'.tables c = f := by
  have htc : c ≠ t := by
    rintro rfl
    exact hO.not_free hc
  have hcf : s'.tables c = f := by
    rw [htables, setEntry_away _ _ _ htc, setTable_same]
  have htree := Radix.tree_flat (S := shape) (m := s'.tables) (l := l') (t := c) ls'
    fun j d => by rw [hcf]; exact hflat j d
  have hte : s'.tables t i = e := by rw [htables, setEntry_same]
  refine ⟨⟨by rw [hte, he], fun j hj => ?_, fun x hx hxf => ?_, ?_, ⟨htree.1, ?_⟩, ?_⟩, hcf⟩
  · rw [htables, setEntry_beside _ _ _ hj, setTable_away _ _ htc.symm]
  · have hxc : x ≠ c := by
      rintro rfl
      exact hxf hc
    rw [htables, setEntry_away _ _ _ hx, setTable_away _ _ hxc]
  · rw [hfree]
    exact Set.sdiff_subset
  · rw [htree.2, hfree]
    exact Set.disjoint_singleton_left.mpr fun h => h.2 rfl
  · intro x hx
    rw [htree.2] at hx
    obtain rfl : x = c := hx
    exact Or.inl hc

end Below

/-- `map_user_pages` from the PD on; `e` is the entry of the page. -/
def mapPd (s : Space) (pd virt e : Word) : Bool × Space :=
  match ptOf s pd (index virt 21) with
  | (none, s) => (false, s)
  | (some pt, s) => (true, s.set pt (index virt 12) e)

def mapPdpt (s : Space) (pdpt virt e : Word) : Bool × Space :=
  match pdOf s pdpt (index virt 30) with
  | (none, s) => (false, s)
  | (some pd, s) => mapPd s pd virt e

def mapPml4 (s : Space) (pml4 virt e : Word) : Bool × Space :=
  match pdptOf s pml4 (index virt 39) with
  | (none, s) => (false, s)
  | (some pdpt, s) => mapPdpt s pdpt virt e

theorem mapUserPages_eq (cpu : Cpu) (s : Space) (virt phys : Word) (writable executable : Bool) :
    mapUserPages cpu s virt phys writable executable =
      mapPml4 s (pml4Table cpu s.tables) virt (userEntry cpu phys writable executable) :=
  rfl

/-- What becomes of a walk below the PD entry of `virt`, for another page: a 2 MiB page is
broken into small ones. -/
def viaPd (frame : Option Word) (virt address : Word) (entries : List (Level × Word)) :
    List (Level × Word) :=
  if index address 21 = index virt 21 then
    match entries, frame with
    | [(.pd, e)], some frame =>
      [(.pd, frame ||| entryPresent ||| entryUser ||| entryWritable),
        (.pt, split2m e (index address 12))]
    | entries, _ => entries
  else entries

/-- Below the PDPT entry: a 1 GiB page is broken, an entry that leads on is opened to the
user. `second` is the frame after the first. -/
def viaPdpt (frame second : Option Word) (virt address : Word)
    (entries : List (Level × Word)) : List (Level × Word) :=
  if index address 30 = index virt 30 then
    match entries, frame with
    | [(.pdpt, e)], some frame =>
      (.pdpt, frame ||| entryPresent ||| entryUser ||| entryWritable) ::
        viaPd second virt address [(.pd, split1g e (index address 21))]
    | (.pdpt, e) :: x :: entries, frame =>
      (.pdpt, e ||| entryUser) :: viaPd frame virt address (x :: entries)
    | entries, _ => entries
  else entries

def viaPml4 (frame second : Option Word) (virt address : Word)
    (entries : List (Level × Word)) : List (Level × Word) :=
  if index address 39 = index virt 39 then
    match entries with
    | (.pml4, e) :: entries =>
      (.pml4, e ||| entryUser) :: viaPdpt frame second virt address entries
    | entries => entries
  else entries

theorem next_absent {l : Level} {e : Word} (h : ¬ Has e entryPresent) : next l e = .absent := by
  simp [next, h]

theorem next_ends {l : Level} {e : Word} (h : Has e entryPresent) (he : l.ends e = true) :
    next l e = .leaf := by
  simp [next, h, he]

theorem next_table {l : Level} {e : Word} (h : Has e entryPresent) (he : l.ends e = false) :
    next l e = .child (e &&& addressMask) := by
  simp [next, h, he]

theorem has_self (e : Word) {flag : Word} (h : flag ≠ 0) : Has (e ||| flag) flag := by
  rw [has_or]
  exact Or.inr (by unfold Has; rwa [BitVec.and_self])

theorem next_pointer {l : Level} (hl : l ≠ .pt) {frame : Word} (hf : IsFrame frame) {flags : Word}
    (hp : Has flags entryPresent) (hh : ¬ Has flags entryHugePage)
    (ha : flags &&& addressMask = 0) : next l (frame ||| flags) = .child frame := by
  have hends : l.ends (frame ||| flags) = false := by
    cases l <;> simp [Level.ends, has_or, hf.huge, hh] at hl ⊢
  rw [next_table (has_or.mpr (Or.inr hp)) hends, hf.address_or ha]

theorem next_pointerUser {l : Level} (hl : l ≠ .pt) {frame : Word} (hf : IsFrame frame) :
    next l (frame ||| entryPresent ||| entryUser) = .child frame := by
  rw [BitVec.or_assoc]
  exact next_pointer hl hf (by decide) (by decide) (by decide)

theorem next_pointerWritable {l : Level} (hl : l ≠ .pt) {frame : Word} (hf : IsFrame frame) :
    next l (frame ||| entryPresent ||| entryUser ||| entryWritable) = .child frame := by
  rw [BitVec.or_assoc, BitVec.or_assoc]
  exact next_pointer hl hf (by decide) (by decide) (by decide)

theorem split2m_present (e : Word) (i : Fin 512) : Has (split2m e i) entryPresent :=
  has_or.mpr (Or.inr (by decide))

theorem split1g_present (e : Word) (i : Fin 512) : Has (split1g e i) entryPresent :=
  has_or.mpr (Or.inr (by decide))

theorem split1g_huge (e : Word) (i : Fin 512) : Has (split1g e i) entryHugePage :=
  has_or.mpr (Or.inr (by decide))

/-- From the PD on the call leaves user code with access: only a PD entry that leads on
already is not opened. -/
def userBelowPd (tables : Tables) (pd virt : Word) : Prop :=
  Has (tables pd (index virt 21)) entryPresent → ¬ Has (tables pd (index virt 21)) entryHugePage →
    Has (tables pd (index virt 21)) entryUser

def writableBelowPd (tables : Tables) (pd virt : Word) : Prop :=
  Has (tables pd (index virt 21)) entryPresent ∧
    (Has (tables pd (index virt 21)) entryHugePage ∨ Has (tables pd (index virt 21)) entryWritable)

def userBelowPdpt (tables : Tables) (pdpt virt : Word) : Prop :=
  Has (tables pdpt (index virt 30)) entryPresent →
    ¬ Has (tables pdpt (index virt 30)) entryHugePage →
      userBelowPd tables (tables pdpt (index virt 30) &&& addressMask) virt

def writableBelowPdpt (tables : Tables) (pdpt virt : Word) : Prop :=
  Has (tables pdpt (index virt 30)) entryPresent ∧
    (Has (tables pdpt (index virt 30)) entryHugePage ∨
      Has (tables pdpt (index virt 30)) entryWritable ∧
        writableBelowPd tables (tables pdpt (index virt 30) &&& addressMask) virt)

def userBelowPml4 (tables : Tables) (pml4 virt : Word) : Prop :=
  Has (tables pml4 (index virt 39)) entryPresent →
    userBelowPdpt tables (tables pml4 (index virt 39) &&& addressMask) virt

def writableBelowPml4 (tables : Tables) (pml4 virt : Word) : Prop :=
  Has (tables pml4 (index virt 39)) entryPresent ∧
    Has (tables pml4 (index virt 39)) entryWritable ∧
      writableBelowPdpt tables (tables pml4 (index virt 39) &&& addressMask) virt

def enough : Pmm.State → Nat → Prop
  | _, 0 => True
  | pmm, n + 1 => (grant pmm).isSome = true ∧ enough (Pmm.allocFrame pmm).2 n

def neededPd (tables : Tables) (pd virt : Word) : Nat :=
  if Has (tables pd (index virt 21)) entryPresent ∧ ¬ Has (tables pd (index virt 21)) entryHugePage
  then 0 else 1

def neededPdpt (tables : Tables) (pdpt virt : Word) : Nat :=
  if Has (tables pdpt (index virt 30)) entryPresent ∧
      ¬ Has (tables pdpt (index virt 30)) entryHugePage
  then neededPd tables (tables pdpt (index virt 30) &&& addressMask) virt else 2

def neededPml4 (tables : Tables) (pml4 virt : Word) : Nat :=
  if Has (tables pml4 (index virt 39)) entryPresent
  then neededPdpt tables (tables pml4 (index virt 39) &&& addressMask) virt else 3

section Layers

variable {s : Space} {t virt e : Word}

theorem walk_pt (ht : Has (s.tables t (index virt 12)) entryPresent) :
    Radix.walk shape s.tables [.pt] t virt = some [(.pt, s.tables t (index virt 12))] :=
  Radix.walk_leaf (next_ends ht rfl)

/-- The part of a call from a table on. Where it succeeds, the entries above the page's own
grant user code access where `user` holds, and write access where `writable` does. The walks
of the addresses outside the page, or of all where it fails, become what `via` makes of them. -/
structure Mapped (s : Space) (r : Bool × Space) (ls : List Level) (t virt e : Word)
    (user writable : Prop) (via : Word → List (Level × Word) → List (Level × Word)) :
    Prop where
  inside : Inside s r.2 ls t
  page : r.1 = true → ∀ address, (∀ l ∈ ls, index address l.shift = index virt l.shift) →
    ∃ path, Radix.walk shape r.2.tables ls t address = some (path ++ [(.pt, e)]) ∧
      (Grants entryUser path ↔ user) ∧ (Grants entryWritable path ↔ writable)
  other : ∀ address, (r.1 = true → ∃ l ∈ ls, index address l.shift ≠ index virt l.shift) →
    Radix.walk shape r.2.tables ls t address =
      (Radix.walk shape s.tables ls t address).map (via address)

theorem setPage_mapped (s : Space) (t virt : Word) (he : Has e entryPresent) :
    Mapped s (true, s.set t (index virt 12) e) [.pt] t virt e True True fun _ es => es := by
  have hsame : (s.set t (index virt 12) e).tables t (index virt 12) = e := setEntry_same _ _ _ _
  refine ⟨⟨fun x hx _ => setEntry_away _ _ _ ?_, Set.Subset.rfl⟩, fun _ address ha => ?_,
    fun address ha => ?_⟩
  · rintro rfl
    exact hx Radix.mem_reach_self
  · have hk : index address 12 = index virt 12 := ha .pt (List.mem_singleton_self _)
    refine ⟨[], ?_, by simp [Grants], by simp [Grants]⟩
    rw [walk_pt (by rw [hk, hsame]; exact he), hk, hsame]
    rfl
  · obtain ⟨l, hl, ha⟩ := ha rfl
    obtain rfl : l = .pt := List.mem_singleton.mp hl
    have hkeep : (s.set t (index virt 12) e).tables t (index address 12) =
        s.tables t (index address 12) := setEntry_beside _ _ _ ha
    rw [walk_level, walk_level, Option.map_id']
    simp only [readEntry, Level.shift, hkeep, Level.ends, if_true]
    rfl

theorem grants_cons {flag : Word} {x : Level × Word} {path : List (Level × Word)} :
    Grants flag (x :: path) ↔ Has x.2 flag ∧ Grants flag path := by
  simp [Grants]

theorem mapped_failed {l : Level} {ls : List Level} {user writable : Prop}
    {via : Word → List (Level × Word) → List (Level × Word)}
    (hvia : ∀ address, index address l.shift = index virt l.shift →
      (Radix.walk shape s.tables (l :: ls) t address).map (via address) =
        Radix.walk shape s.tables (l :: ls) t address)
    (hid : ∀ address es, index address l.shift ≠ index virt l.shift → via address es = es) :
    Mapped s (false, s) (l :: ls) t virt e user writable via := by
  refine ⟨Inside.refl s _ t, nofun, fun address _ => ?_⟩
  by_cases hk : index address l.shift = index virt l.shift
  · exact (hvia address hk).symm
  · cases Radix.walk shape s.tables (l :: ls) t address with
    | none => rfl
    | some es => rw [Option.map_some, hid address es hk]

theorem Opened.mapped {s' : Space} {l : Level} {ls : List Level} {c : Word} {r : Bool × Space}
    {user writable user' writable' : Prop}
    {via via' : Word → List (Level × Word) → List (Level × Word)}
    (virt : Word) (h : Opened s s' l ls t (index virt l.shift) c) (hO : Owned s (l :: ls) t)
    (hM : Mapped s' r ls c virt e user' writable' via')
    (hu : Has (s'.tables t (index virt l.shift)) entryUser ∧ user' ↔ user)
    (hw : Has (s'.tables t (index virt l.shift)) entryWritable ∧ writable' ↔ writable)
    (hvia : ∀ address, index address l.shift = index virt l.shift →
      (Radix.walk shape s'.tables ls c address).map
          (fun es => (l, s'.tables t (index virt l.shift)) :: via' address es) =
        (Radix.walk shape s.tables (l :: ls) t address).map (via address))
    (hid : ∀ address es, index address l.shift ≠ index virt l.shift → via address es = es) :
    Mapped s r (l :: ls) t virt e user writable via := by
  refine ⟨h.inside hM.inside, fun hr address ha => ?_, fun address ha => ?_⟩
  · obtain ⟨path, hwalk, hpu, hpw⟩ := hM.page hr address fun l' hl' =>
      ha l' (List.mem_cons_of_mem l hl')
    refine ⟨(l, s'.tables t (index virt l.shift)) :: path, ?_, ?_, ?_⟩
    · rw [h.walk_below hO hM.inside (ha l List.mem_cons_self), hwalk]
      rfl
    · rw [grants_cons, hpu, hu]
    · rw [grants_cons, hpw, hw]
  · by_cases hl : index address l.shift = index virt l.shift
    · have hrest : r.1 = true → ∃ l' ∈ ls, index address l'.shift ≠ index virt l'.shift := by
        intro hr
        obtain ⟨l', hl', hne⟩ := ha hr
        rcases List.mem_cons.mp hl' with rfl | hl'
        · exact absurd hl hne
        · exact ⟨l', hl', hne⟩
      rw [h.walk_below hO hM.inside hl, hM.other address hrest, Option.map_map, ← hvia address hl]
      rfl
    · rw [h.walk_beside hO hM.inside hl]
      cases Radix.walk shape s.tables (l :: ls) t address with
      | none => rfl
      | some es => rw [Option.map_some, hid address es hl]

/-! ### Walks that take the entry of the page -/

section At

variable {tables : Tables} {l : Level} {ls : List Level} {address : Word}
  (hk : index address l.shift = index virt l.shift)

include hk

theorem walk_at_absent (h : ¬ Has (tables t (index virt l.shift)) entryPresent) :
    Radix.walk shape tables (l :: ls) t address = none :=
  Radix.walk_absent (next_absent (by rw [show shape.index l address = _ from hk]; exact h))

theorem walk_at_leaf (h : Has (tables t (index virt l.shift)) entryPresent)
    (he : l.ends (tables t (index virt l.shift)) = true) :
    Radix.walk shape tables (l :: ls) t address = some [(l, tables t (index virt l.shift))] := by
  have hi : shape.index l address = index virt l.shift := hk
  rw [Radix.walk_leaf (by rw [hi]; exact next_ends h he), hi]

theorem walk_at_table (h : Has (tables t (index virt l.shift)) entryPresent)
    (he : l.ends (tables t (index virt l.shift)) = false) :
    Radix.walk shape tables (l :: ls) t address =
      (Radix.walk shape tables ls (tables t (index virt l.shift) &&& addressMask) address).map
        ((l, tables t (index virt l.shift)) :: ·) := by
  have hi : shape.index l address = index virt l.shift := hk
  rw [Radix.walk_child (by rw [hi]; exact next_table h he), hi]

end At

theorem walk_zero {tables : Tables} {l : Level} {ls : List Level} {address : Word}
    (h : tables t = fun _ => 0) : Radix.walk shape tables (l :: ls) t address = none := by
  refine Radix.walk_absent (next_absent ?_)
  rw [h]
  exact (by decide : ¬ Has 0 entryPresent)

theorem setTable_twice (tables : Tables) (x : Word) (f g : Fin 512 → Word) :
    setTable (setTable tables x f) x g = setTable tables x g := by
  simp [setTable]

theorem set_same (s : Space) (t : Word) (i : Fin 512) : s.set t i (s.tables t i) = s := by
  simp [Space.set, setEntry]

section Fresh

variable {s1 : Space} {l k : Level} {ls : List Level} {i : Fin 512} {frame : Word}
  (hO : Owned s (l :: k :: ls) t) (hl : l ≠ .pt) (hfree : frame ∈ free s.pmm)
  (hfree1 : free s1.pmm = free s.pmm \ {frame})
  (htab : s1.tables = setTable s.tables frame fun _ => 0)

include hO hl hfree hfree1 htab

theorem opened_absent :
    Opened s (s1.set t i (frame ||| entryPresent ||| entryUser)) l (k :: ls) t i frame ∧
      (s1.set t i (frame ||| entryPresent ||| entryUser)).tables frame = (fun _ => 0) ∧
      ∀ address, Radix.walk shape (s1.set t i (frame ||| entryPresent ||| entryUser)).tables
        (k :: ls) frame address = none := by
  have htables : (s1.set t i (frame ||| entryPresent ||| entryUser)).tables =
      setEntry (setTable s.tables frame fun _ => 0) t i (frame ||| entryPresent ||| entryUser) := by
    rw [← htab]
    rfl
  have hfree2 : free (s1.set t i (frame ||| entryPresent ||| entryUser)).pmm =
      free s.pmm \ {frame} := hfree1
  have hzero : ¬ Has 0 entryPresent := by decide
  have hflat : ∀ j d, next k ((fun _ => 0 : Fin 512 → Word) j) ≠ .child d := by
    intro j d
    rw [next_absent hzero]
    nofun
  obtain ⟨hop, hzero⟩ := opened_fresh hO hfree hfree2 htables
    (next_pointerUser hl (isFrame_of_free hfree)) hflat
  exact ⟨hop, hzero, fun address => walk_zero hzero⟩

theorem opened_split {f : Fin 512 → Word} (hp : ∀ j, Has (f j) entryPresent)
    (hends : ∀ j, k.ends (f j) = true) :
    Opened s ((s1.fill frame f).set t i
        (frame ||| entryPresent ||| entryUser ||| entryWritable)) l (k :: ls) t i frame ∧
      ((s1.fill frame f).set t i
        (frame ||| entryPresent ||| entryUser ||| entryWritable)).tables frame = f ∧
      ∀ address, Radix.walk shape ((s1.fill frame f).set t i
        (frame ||| entryPresent ||| entryUser ||| entryWritable)).tables (k :: ls) frame address =
          some [(k, f (index address k.shift))] := by
  have htables : ((s1.fill frame f).set t i
      (frame ||| entryPresent ||| entryUser ||| entryWritable)).tables =
      setEntry (setTable s.tables frame f) t i
        (frame ||| entryPresent ||| entryUser ||| entryWritable) := by
    simp only [Space.set, Space.fill, htab, setTable_twice]
  have hfree2 : free ((s1.fill frame f).set t i
      (frame ||| entryPresent ||| entryUser ||| entryWritable)).pmm = free s.pmm \ {frame} := hfree1
  have hflat : ∀ j d, next k (f j) ≠ .child d := by
    intro j d
    rw [next_ends (hp j) (hends j)]
    nofun
  obtain ⟨hop, hf⟩ := opened_fresh hO hfree hfree2 htables
    (next_pointerWritable hl (isFrame_of_free hfree)) hflat
  refine ⟨hop, hf, fun address => ?_⟩
  rw [Radix.walk_leaf (by rw [hf]; exact next_ends (hp _) (hends _)), hf]
  rfl

end Fresh

section Pointer

variable {x : Word} (h : IsFrame x)

theorem pointer_user : Has (x ||| entryPresent ||| entryUser) entryUser := has_self _ (by decide)

theorem pointer_not_writable (h : IsFrame x) :
    ¬ Has (x ||| entryPresent ||| entryUser) entryWritable := by
  rw [has_or, has_or]
  rintro ((h' | h') | h')
  · exact h.writable h'
  · exact absurd h' (by decide)
  · exact absurd h' (by decide)

theorem pointerWritable_user :
    Has (x ||| entryPresent ||| entryUser ||| entryWritable) entryUser :=
  has_or.mpr (Or.inl (has_self _ (by decide)))

theorem pointerWritable_writable :
    Has (x ||| entryPresent ||| entryUser ||| entryWritable) entryWritable :=
  has_self _ (by decide)

end Pointer

theorem mapPd_mapped (hO : Owned s [.pd, .pt] t) (he : Has e entryPresent) :
    Mapped s (mapPd s t virt e) [.pd, .pt] t virt e (userBelowPd s.tables t virt)
      (writableBelowPd s.tables t virt) (viaPd (grant s.pmm) virt) := by
  have hid : ∀ address es, index address 21 ≠ index virt 21 →
      viaPd (grant s.pmm) virt address es = es := fun _ _ h => if_neg h
  have hpd : Level.pd ≠ .pt := by decide
  unfold mapPd ptOf
  by_cases hp : Has (s.tables t (index virt 21)) entryPresent
  · by_cases hh : Has (s.tables t (index virt 21)) entryHugePage
    · have hwalk : ∀ address, index address 21 = index virt 21 →
          Radix.walk shape s.tables [.pd, .pt] t address =
            some [(.pd, s.tables t (index virt 21))] :=
        fun address hk => walk_at_leaf (l := .pd) hk hp (decide_eq_true hh)
      rcases allocFrameZeroed_cases s with ⟨hA, hg⟩ | ⟨frame, s1, hA, hg, _, hfree, hfree1, htab⟩
      · simp only [hp, hh, hA, if_true]
        refine mapped_failed (fun address hk => ?_) hid
        rw [show Radix.walk _ _ _ _ _ = _ from hwalk address hk, hg]
        simp [viaPd]
      · simp only [hp, hh, hA, if_true]
        obtain ⟨hop, _, hsplit⟩ := opened_split (i := index virt 21) hO hpd hfree hfree1 htab
          (split2m_present (s.tables t (index virt 21))) fun _ => rfl
        refine hop.mapped virt hO (setPage_mapped _ frame virt he) ?_ ?_ ?_ hid
        · simp only [Space.set, Level.shift, setEntry_same, pointerWritable_user, userBelowPd]
          tauto
        · simp only [Space.set, Level.shift, setEntry_same, pointerWritable_writable,
            writableBelowPd]
          tauto
        · intro address hk
          have hk' : index address 21 = index virt 21 := hk
          rw [hwalk address hk, hsplit, hg]
          simp [viaPd, hk', Space.set, setEntry_same, Level.shift]
    · simp only [hp, hh, if_true, if_false]
      have hnext := next_table (l := .pd) hp (decide_eq_false hh)
      obtain ⟨hop, hsame⟩ := opened_kept hO hnext hnext
      rw [set_same] at hop hsame
      refine hop.mapped virt hO (setPage_mapped s _ virt he) ?_ ?_ ?_ hid
      · simp only [Level.shift, userBelowPd]
        tauto
      · simp only [Level.shift, writableBelowPd]
        tauto
      · intro address hk
        rw [walk_at_table (l := .pd) hk hp (decide_eq_false hh)]
        simp only [Level.shift, Option.map_map]
        cases hw : Radix.walk shape s.tables [.pt]
            (s.tables t (index virt 21) &&& addressMask) address with
        | none => rfl
        | some es =>
          obtain ⟨x, es, rfl⟩ := List.exists_cons_of_ne_nil (walk_ne_nil hw)
          simp [viaPd]
  · have hwalk : ∀ address, index address 21 = index virt 21 →
        Radix.walk shape s.tables [.pd, .pt] t address = none :=
      fun address hk => walk_at_absent (l := .pd) hk hp
    rcases allocFrameZeroed_cases s with ⟨hA, hg⟩ | ⟨frame, s1, hA, hg, _, hfree, hfree1, htab⟩
    · simp only [hp, hA, if_false]
      refine mapped_failed (fun address hk => ?_) hid
      rw [show Radix.walk _ _ _ _ _ = _ from hwalk address hk]
      rfl
    · simp only [hp, hA, if_false]
      obtain ⟨hop, _, hzero⟩ := opened_absent (i := index virt 21) hO hpd hfree hfree1 htab
      refine hop.mapped virt hO (setPage_mapped _ frame virt he) ?_ ?_ ?_ hid
      · simp only [Space.set, Level.shift, setEntry_same, pointer_user, userBelowPd]
        tauto
      · have hnot := pointer_not_writable (isFrame_of_free hfree)
        simp only [Space.set, Level.shift, setEntry_same, writableBelowPd]
        tauto
      · intro address hk
        rw [hwalk address hk, hzero]
        rfl

/-! ## The PDPT and the PML4 -/

theorem entryUser_getLsbD (k : Nat) (hk : k < 64) : entryUser.getLsbD k = decide (k = 2) := by
  have h : ∀ k : Fin 64, entryUser.getLsbD k = decide (k.val = 2) := by decide
  exact h ⟨k, hk⟩

theorem or_user {x : Word} (h : Has x entryUser) : x ||| entryUser = x := by
  have hbit : x.getLsbD 2 = true := by
    by_contra hno
    apply h
    apply BitVec.eq_of_getLsbD_eq
    intro k hk
    rw [BitVec.getLsbD_and, entryUser_getLsbD k hk]
    by_cases h2 : k = 2
    · rw [h2, Bool.eq_false_iff.mpr hno]
      simp
    · simp [h2]
  apply BitVec.eq_of_getLsbD_eq
  intro k hk
  rw [BitVec.getLsbD_or, entryUser_getLsbD k hk]
  by_cases h2 : k = 2
  · simp [h2, hbit]
  · simp [h2]

theorem set_user (s : Space) (t : Word) (i : Fin 512) :
    (if Has (s.tables t i) entryUser then s else s.set t i (s.tables t i ||| entryUser)) =
      s.set t i (s.tables t i ||| entryUser) := by
  split
  · rename_i h
    rw [or_user h, set_same]
  · rfl

theorem next_user {l : Level} {x : Word} (hp : Has x entryPresent) (hends : l.ends x = false) :
    next l (x ||| entryUser) = .child (x &&& addressMask) := by
  have hh : ¬ Has entryUser entryHugePage := by decide
  have hends' : l.ends (x ||| entryUser) = false := by
    cases l <;> simp_all [Level.ends, has_or]
  have ha : entryUser &&& addressMask = 0 := by decide
  have haddr : (x ||| entryUser) &&& addressMask = x &&& addressMask := by
    rw [address_or, ha]
    simp
  rw [next_table (has_or.mpr (Or.inl hp)) hends', haddr]

theorem set_below {l : Level} {ls : List Level} {i : Fin 512} {c x : Word}
    (hO : Owned s (l :: ls) t) (hc : next l (s.tables t i) = .child c) :
    ∀ y ∈ Radix.reach shape s.tables ls c, (s.set t i x).tables y = s.tables y := by
  intro y hy
  apply setEntry_away
  rintro rfl
  exact (hO.tree.child hc).1 hy

theorem set_child {l k : Level} {ls : List Level} {i : Fin 512} {c x : Word}
    (hO : Owned s (l :: k :: ls) t) (hc : next l (s.tables t i) = .child c) :
    (s.set t i x).tables c = s.tables c :=
  set_below hO hc c Radix.mem_reach_self

theorem belowPdpt_congr {m m' : Tables} {c : Word}
    (h : ∀ x ∈ Radix.reach shape m [.pdpt, .pd, .pt] c, m' x = m x) :
    (userBelowPdpt m' c virt ↔ userBelowPdpt m c virt) ∧
      (writableBelowPdpt m' c virt ↔ writableBelowPdpt m c virt) := by
  have hc : m' c = m c := h c Radix.mem_reach_self
  simp only [userBelowPdpt, writableBelowPdpt, userBelowPd, writableBelowPd, hc]
  by_cases hp : Has (m c (index virt 30)) entryPresent
  · by_cases hh : Has (m c (index virt 30)) entryHugePage
    · simp [hh]
    · have hnext := next_table (l := .pdpt) hp (decide_eq_false hh)
      have hd := h _ (Radix.reach_child (S := shape) hnext Radix.mem_reach_self)
      rw [hd]
      exact ⟨Iff.rfl, Iff.rfl⟩
  · simp [hp]

theorem neededPdpt_congr {m m' : Tables} {c : Word}
    (h : ∀ x ∈ Radix.reach shape m [.pdpt, .pd, .pt] c, m' x = m x) :
    neededPdpt m' c virt = neededPdpt m c virt := by
  have hc : m' c = m c := h c Radix.mem_reach_self
  simp only [neededPdpt, hc]
  split
  · rename_i hk
    have hnext := next_table (l := .pdpt) hk.1 (decide_eq_false hk.2)
    have hd := h _ (Radix.reach_child (S := shape) hnext Radix.mem_reach_self)
    simp only [neededPd, hd]
  · rfl

/-- From the PDPT on. -/
theorem mapPdpt_mapped (hO : Owned s [.pdpt, .pd, .pt] t) (he : Has e entryPresent) :
    Mapped s (mapPdpt s t virt e) [.pdpt, .pd, .pt] t virt e (userBelowPdpt s.tables t virt)
      (writableBelowPdpt s.tables t virt)
      (viaPdpt (grant s.pmm) (secondGrant s.pmm) virt) := by
  have hid : ∀ address es, index address 30 ≠ index virt 30 →
      viaPdpt (grant s.pmm) (secondGrant s.pmm) virt address es = es := fun _ _ h => if_neg h
  have hpdpt : Level.pdpt ≠ .pt := by decide
  unfold mapPdpt pdOf
  by_cases hp : Has (s.tables t (index virt 30)) entryPresent
  · by_cases hh : Has (s.tables t (index virt 30)) entryHugePage
    · have hwalk : ∀ address, index address 30 = index virt 30 →
          Radix.walk shape s.tables [.pdpt, .pd, .pt] t address =
            some [(.pdpt, s.tables t (index virt 30))] :=
        fun address hk => walk_at_leaf (l := .pdpt) hk hp (decide_eq_true hh)
      rcases allocFrameZeroed_cases s with ⟨hA, hg⟩ | ⟨frame, s1, hA, hg, hg1, hfree, hfree1, htab⟩
      · simp only [hp, hh, hA, if_true]
        refine mapped_failed (fun address hk => ?_) hid
        rw [show Radix.walk _ _ _ _ _ = _ from hwalk address hk, hg]
        simp [viaPdpt]
      · simp only [hp, hh, hA, if_true]
        obtain ⟨hop, hbroken, hsplit⟩ := opened_split (i := index virt 30) hO hpdpt hfree hfree1
          htab (split1g_present (s.tables t (index virt 30)))
          fun j => decide_eq_true (split1g_huge _ j)
        refine hop.mapped virt hO (mapPd_mapped hop.owned he) ?_ ?_ ?_ hid
        · simp only [userBelowPd, hbroken, split1g_huge, userBelowPdpt]
          simp only [Space.set, Level.shift, setEntry_same, pointerWritable_user]
          tauto
        · simp only [writableBelowPd, hbroken, split1g_huge, split1g_present, writableBelowPdpt]
          simp only [Space.set, Level.shift, setEntry_same, pointerWritable_writable]
          tauto
        · intro address hk
          have hk' : index address 30 = index virt 30 := hk
          have hg2 : grant ((s1.fill frame (split1g (s.tables t (index virt 30)))).set t
              (index virt 30) (frame ||| entryPresent ||| entryUser ||| entryWritable)).pmm =
              secondGrant s.pmm := congrArg grant hg1
          rw [hwalk address hk, hsplit, hg, hg2]
          simp [viaPdpt, hk', Space.set, setEntry_same, Level.shift]
    · simp only [hp, hh, if_true, if_false, set_user]
      have hends : Level.pdpt.ends (s.tables t (index virt 30)) = false := decide_eq_false hh
      have hnext := next_table (l := .pdpt) hp hends
      obtain ⟨hop, hsame⟩ := opened_kept hO hnext (next_user hp hends)
      refine hop.mapped virt hO (mapPd_mapped hop.owned he) ?_ ?_ ?_ hid
      · simp only [userBelowPd, set_child hO hnext, userBelowPdpt]
        simp only [Space.set, Level.shift, setEntry_same, has_self _ (show entryUser ≠ 0 by decide)]
        tauto
      · simp only [writableBelowPd, set_child hO hnext, writableBelowPdpt]
        have hw : ¬ Has entryUser entryWritable := by decide
        simp only [Space.set, Level.shift, setEntry_same, has_or]
        tauto
      · intro address hk
        have hk' : index address 30 = index virt 30 := hk
        rw [hsame, walk_at_table (l := .pdpt) hk hp hends]
        simp only [Level.shift, Option.map_map]
        cases hw : Radix.walk shape s.tables [.pd, .pt]
            (s.tables t (index virt 30) &&& addressMask) address with
        | none => rfl
        | some es =>
          obtain ⟨x, es, rfl⟩ := List.exists_cons_of_ne_nil (walk_ne_nil hw)
          simp [viaPdpt, hk', Space.set, setEntry_same]
  · have hwalk : ∀ address, index address 30 = index virt 30 →
        Radix.walk shape s.tables [.pdpt, .pd, .pt] t address = none :=
      fun address hk => walk_at_absent (l := .pdpt) hk hp
    rcases allocFrameZeroed_cases s with ⟨hA, hg⟩ | ⟨frame, s1, hA, hg, _, hfree, hfree1, htab⟩
    · simp only [hp, hA, if_false]
      refine mapped_failed (fun address hk => ?_) hid
      rw [show Radix.walk _ _ _ _ _ = _ from hwalk address hk]
      rfl
    · simp only [hp, hA, if_false]
      obtain ⟨hop, hnew, hzero⟩ := opened_absent (i := index virt 30) hO hpdpt hfree hfree1 htab
      have h0 : ¬ Has 0 entryPresent := by decide
      refine hop.mapped virt hO (mapPd_mapped hop.owned he) ?_ ?_ ?_ hid
      · simp only [userBelowPd, hnew, userBelowPdpt]
        simp only [Space.set, Level.shift, setEntry_same, pointer_user]
        tauto
      · have hnot := pointer_not_writable (isFrame_of_free hfree)
        simp only [writableBelowPd, hnew, writableBelowPdpt]
        tauto
      · intro address hk
        rw [hwalk address hk, hzero]
        rfl

theorem mapPml4_mapped (virt : Word) (hO : Owned s levels4 t) (he : Has e entryPresent) :
    Mapped s (mapPml4 s t virt e) levels4 t virt e (userBelowPml4 s.tables t virt)
      (writableBelowPml4 s.tables t virt)
      (viaPml4 (grant s.pmm) (secondGrant s.pmm) virt) := by
  have hid : ∀ address es, index address 39 ≠ index virt 39 →
      viaPml4 (grant s.pmm) (secondGrant s.pmm) virt address es = es := fun _ _ h => if_neg h
  have hpml4 : Level.pml4 ≠ .pt := by decide
  unfold levels4 at hO ⊢
  unfold mapPml4 pdptOf
  by_cases hp : Has (s.tables t (index virt 39)) entryPresent
  · simp only [hp, if_true, set_user]
    have hnext := next_table (l := .pml4) hp rfl
    obtain ⟨hop, hsame⟩ := opened_kept hO hnext (next_user hp rfl)
    refine hop.mapped virt hO (mapPdpt_mapped hop.owned he) ?_ ?_ ?_ hid
    · rw [(belowPdpt_congr (set_below hO hnext)).1]
      simp only [Space.set, Level.shift, setEntry_same, has_self _ (show entryUser ≠ 0 by decide),
        userBelowPml4]
      tauto
    · have hw : ¬ Has entryUser entryWritable := by decide
      rw [(belowPdpt_congr (set_below hO hnext)).2]
      simp only [Space.set, Level.shift, setEntry_same, has_or, writableBelowPml4]
      tauto
    · intro address hk
      have hk' : index address 39 = index virt 39 := hk
      rw [hsame, walk_at_table (l := .pml4) hk hp rfl]
      simp only [Level.shift, Option.map_map]
      congr 1
      funext es
      simp [viaPml4, hk', Space.set, setEntry_same]
  · have hwalk : ∀ address, index address 39 = index virt 39 →
        Radix.walk shape s.tables [.pml4, .pdpt, .pd, .pt] t address = none :=
      fun address hk => walk_at_absent (l := .pml4) hk hp
    rcases allocFrameZeroed_cases s with ⟨hA, hg⟩ | ⟨frame, s1, hA, hg, _, hfree, hfree1, htab⟩
    · simp only [hp, hA, if_false]
      refine mapped_failed (fun address hk => ?_) hid
      rw [show Radix.walk _ _ _ _ _ = _ from hwalk address hk]
      rfl
    · simp only [hp, hA, if_false]
      obtain ⟨hop, hnew, hzero⟩ := opened_absent (i := index virt 39) hO hpml4 hfree hfree1 htab
      have h0 : ¬ Has 0 entryPresent := by decide
      refine hop.mapped virt hO (mapPdpt_mapped hop.owned he) ?_ ?_ ?_ hid
      · simp only [userBelowPdpt, hnew, userBelowPml4]
        simp only [Space.set, Level.shift, setEntry_same, pointer_user]
        tauto
      · have hnot := pointer_not_writable (isFrame_of_free hfree)
        simp only [writableBelowPdpt, hnew, writableBelowPml4]
        tauto
      · intro address hk
        rw [hwalk address hk, hzero]
        rfl

theorem mapPd_succeeds (s : Space) (t virt e : Word) :
    (mapPd s t virt e).1 = true ↔ enough s.pmm (neededPd s.tables t virt) := by
  unfold mapPd ptOf neededPd
  by_cases hp : Has (s.tables t (index virt 21)) entryPresent
  · by_cases hh : Has (s.tables t (index virt 21)) entryHugePage
    · rcases allocFrameZeroed_cases s with ⟨hA, hg⟩ | ⟨frame, s1, hA, hg, _⟩ <;>
        simp [hp, hh, hA, hg, enough]
    · simp [hp, hh, enough]
  · rcases allocFrameZeroed_cases s with ⟨hA, hg⟩ | ⟨frame, s1, hA, hg, _⟩ <;>
      simp [hp, hA, hg, enough]

theorem mapPdpt_succeeds (hO : Owned s [.pdpt, .pd, .pt] t) (virt e : Word) :
    (mapPdpt s t virt e).1 = true ↔ enough s.pmm (neededPdpt s.tables t virt) := by
  have hpdpt : Level.pdpt ≠ .pt := by decide
  have h0 : ¬ Has 0 entryPresent := by decide
  unfold mapPdpt pdOf neededPdpt
  by_cases hp : Has (s.tables t (index virt 30)) entryPresent
  · by_cases hh : Has (s.tables t (index virt 30)) entryHugePage
    · rcases allocFrameZeroed_cases s with ⟨hA, hg⟩ | ⟨frame, s1, hA, hg, hpmm, hfree, hfree1, htab⟩
      · simp [hp, hh, hA, hg, enough]
      · obtain ⟨_, hbroken, _⟩ := opened_split (i := index virt 30) hO hpdpt hfree hfree1
          htab (split1g_present (s.tables t (index virt 30)))
          fun j => decide_eq_true (split1g_huge _ j)
        simp only [hp, hh, hA, if_true, mapPd_succeeds, neededPd, hbroken, split1g_huge,
          not_true_eq_false, and_false, if_false]
        simp [Space.set, Space.fill, hpmm, enough, hg]
    · have hnext := next_table (l := .pdpt) hp (decide_eq_false hh)
      simp only [hp, hh, if_true, if_false, set_user, mapPd_succeeds, neededPd,
        set_child hO hnext]
      rfl
  · rcases allocFrameZeroed_cases s with ⟨hA, hg⟩ | ⟨frame, s1, hA, hg, hpmm, hfree, hfree1, htab⟩
    · simp [hp, hA, hg, enough]
    · obtain ⟨_, hnew, _⟩ := opened_absent (i := index virt 30) hO hpdpt hfree hfree1 htab
      simp only [hp, hA, if_false, mapPd_succeeds, neededPd, hnew, h0, false_and]
      simp [Space.set, hpmm, enough, hg]

theorem mapPml4_succeeds (hO : Owned s levels4 t) (virt e : Word) :
    (mapPml4 s t virt e).1 = true ↔ enough s.pmm (neededPml4 s.tables t virt) := by
  have hpml4 : Level.pml4 ≠ .pt := by decide
  have h0 : ¬ Has 0 entryPresent := by decide
  unfold levels4 at hO
  unfold mapPml4 pdptOf neededPml4
  by_cases hp : Has (s.tables t (index virt 39)) entryPresent
  · have hnext := next_table (l := .pml4) hp rfl
    have hop := (opened_kept hO hnext (next_user hp rfl)).1
    simp only [hp, if_true, set_user]
    rw [mapPdpt_succeeds hop.owned, neededPdpt_congr (set_below hO hnext)]
    rfl
  · rcases allocFrameZeroed_cases s with ⟨hA, hg⟩ | ⟨frame, s1, hA, hg, hpmm, hfree, hfree1, htab⟩
    · simp [hp, hA, hg, enough]
    · obtain ⟨hop, hnew, _⟩ := opened_absent (i := index virt 39) hO hpml4 hfree hfree1 htab
      simp only [hp, hA, if_false]
      rw [mapPdpt_succeeds hop.owned]
      simp only [neededPdpt, hnew, h0]
      simp [Space.set, hpmm, enough, hg]

end Layers

end Vibra.Vmm
