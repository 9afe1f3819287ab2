import Vibra.Memory.UserMapping

/-! # What `map_user_pages` does to other pages

A call opens the PML4 and the PDPT entry on its way to user code, and breaks a huge page it meets
into smaller ones.
-/

namespace Vibra.Vmm

open Vibra.Lib Vibra.Paging

/-- What the leaf of a walk says of an address. -/
structure Attributes where
  physicalAddress : Word
  writable : Bool
  nx : Bool
  pwt : Bool
  pcd : Bool
  pat : Bool

def patOf : PageSize → Word
  | .size4KiB => ptePat
  | .size2MiB | .size1GiB => hugePat

def attributes (mapping : Mapping) : Attributes where
  physicalAddress := mapping.physicalAddress
  writable := Has mapping.flags entryWritable
  nx := Has mapping.flags entryNx
  pwt := Has mapping.flags entryPwt
  pcd := Has mapping.flags ptePcd
  pat := Has mapping.flags (patOf mapping.pageSize)

/-- The address is translated as before, and is open to user code only if it was before. -/
def Undisturbed (cpu : Cpu) (before after : Tables) (address : Word) : Prop :=
  (translate cpu after address).map attributes = (translate cpu before address).map attributes ∧
    (UserAccessible cpu after address → UserAccessible cpu before address)

def SamePage (cpu : Cpu) (a b : Word) : Prop := ∀ l ∈ levels cpu, index a l.shift = index b l.shift

/-- Every address outside the page of `virt` is undisturbed. -/
def LeavesOthers (cpu : Cpu) (before after : Tables) (virt : Word) : Prop :=
  ∀ address, ¬ SamePage cpu address virt → Undisturbed cpu before after address

def walkLower (cpu : Cpu) (tables : Tables) (address : Word) : Option (List (Level × Word)) :=
  Radix.walk shape tables levels4 (pml4Table cpu tables) address

def TopGrants (cpu : Cpu) (tables : Tables) (flag : Word) : Prop :=
  cpu.la57 = true → Has (tables (currentRootPhys cpu) 0) flag

def Lower (cpu : Cpu) (address : Word) : Prop := cpu.la57 = true → index address 48 = 0

/-- The pieces of a huge page say what it said: it is writable, executable and cached, and the
address of a 1 GiB page is below `2 ^ 39`. -/
def Plain : Level × Word → Prop
  | (l, e) =>
    Has e entryWritable ∧ ¬ Has e entryNx ∧ ¬ Has e entryPwt ∧ ¬ Has e ptePcd ∧ ¬ Has e hugePat ∧
      (l = .pdpt → e &&& (page1gAddressMask &&& ~~~split1gMask) = 0)

/-- The entries of a walk that the call does not open on its way to `virt`. -/
def unopened (virt address : Word) : List (Level × Word) → List (Level × Word)
  | (.pml4, e) :: entries =>
    if index address 39 = index virt 39 then
      match entries with
      | (.pdpt, _) :: x :: rest =>
        if index address 30 = index virt 30 then x :: rest else entries
      | entries => entries
    else (.pml4, e) :: entries
  | entries => entries

/-- Where a call does not disturb the pages beside the one it maps. -/
structure Harmless (cpu : Cpu) (s : Space) (virt phys : Word) (writable executable : Bool) :
    Prop where
  /-- A huge page that is broken says what its pieces say, and was open to user code. -/
  broken : ∀ path x, walkLower cpu s.tables virt = some (path ++ [x]) → x.1 ≠ .pt →
    (grant s.pmm).isSome → Plain x ∧
      (TopGrants cpu s.tables entryUser → Grants entryUser (path ++ [x]))
  /-- A page that only the opened entries withheld from user code is not there. -/
  opened : ∀ address entries, ¬ SamePage cpu address virt → Lower cpu address →
    (enough s.pmm (neededPml4 s.tables (pml4Table cpu s.tables) virt) →
      ∃ l ∈ levels4, index address l.shift ≠ index virt l.shift) →
    walkLower cpu s.tables address = some entries → TopGrants cpu s.tables entryUser →
    Grants entryUser (unopened virt address entries) → Grants entryUser entries
  /-- With five levels and an address outside the first slot, the page in its place was mapped
  so before. -/
  stray : ¬ Lower cpu virt → enough s.pmm (neededPml4 s.tables (pml4Table cpu s.tables) virt) →
    ∀ address, Lower cpu address → (∀ l ∈ levels4, index address l.shift = index virt l.shift) →
      (translate cpu s.tables address).map attributes = some (attributes (mappingOf address
        (.pt, userEntry cpu phys writable executable))) ∧
      (TopGrants cpu s.tables entryUser →
        userBelowPml4 s.tables (pml4Table cpu s.tables) virt → UserAccessible cpu s.tables address)

/-! ## The pieces of a huge page -/

theorem not_has_and {x m flag : Word} (h : m &&& flag = 0) : ¬ Has (x &&& m) flag := by
  unfold Has
  rw [BitVec.and_assoc, h]
  simp

def index21Mask : Word := 0x3fe00000#64
def index12Mask : Word := 0x1ff000#64

theorem testBit_index (address : Word) (shift k : Nat) :
    (index address shift).val.testBit k = (decide (k < 9) && address.toNat.testBit (k + shift)) := by
  have h512 : 512 = 2 ^ 9 := rfl
  simp only [index, BitVec.toNat_ushiftRight]
  rw [h512, Nat.testBit_mod_two_pow, Nat.testBit_shiftRight, Nat.add_comm]

theorem offset_eq (address : Word) (shift : Nat) (m : Word)
    (hm : ∀ k < 64, m.getLsbD k = decide (shift ≤ k ∧ k < shift + 9)) :
    BitVec.ofNat 64 ((index address shift).val * 2 ^ shift) = address &&& m := by
  apply BitVec.eq_of_getLsbD_eq
  intro k hk
  rw [BitVec.getLsbD_and, hm k hk, BitVec.getLsbD_ofNat, Nat.testBit_mul_two_pow, testBit_index]
  by_cases h1 : shift ≤ k
  · by_cases h2 : k < shift + 9
    · have h3 : k - shift < 9 := by omega
      simp [hk, h1, h2, h3, BitVec.getLsbD]
    · have h3 : ¬ k - shift < 9 := by omega
      simp [h2, h3]
  · simp [h1]

theorem add_masked {x y m n : Word} (h : m &&& n = 0) :
    (x &&& m) + (y &&& n) = (x &&& m) ||| (y &&& n) := by
  apply BitVec.add_eq_or_of_and_eq_zero
  have hcomm : (x &&& m) &&& (y &&& n) = (x &&& y) &&& (m &&& n) := by
    simp only [BitVec.and_assoc]
    congr 1
    rw [← BitVec.and_assoc, BitVec.and_comm m y, BitVec.and_assoc]
  rw [hcomm, h]
  simp

theorem mask_bits (m : Word) (lo hi : Nat)
    (h : ∀ k : Fin 64, m.getLsbD k = decide (lo ≤ k.val ∧ k.val < hi)) :
    ∀ k < 64, m.getLsbD k = decide (lo ≤ k ∧ k < hi) :=
  fun k hk => h ⟨k, hk⟩

theorem split2m_eq (e address : Word) : split2m e (index address 12) =
    (e &&& split2mMask) ||| (address &&& index12Mask) |||
      (entryPresent ||| entryUser ||| entryWritable) := by
  have hmul : BitVec.ofNat 64 (index address 12) * 4096#64 = address &&& index12Mask := by
    rw [← offset_eq address 12 index12Mask (mask_bits _ 12 21 (by decide))]
    exact (BitVec.ofNat_mul _ _).symm
  unfold split2m
  rw [hmul, add_masked (by decide)]

theorem split1g_eq (e address : Word) : split1g e (index address 21) =
    (e &&& split1gMask) ||| (address &&& index21Mask) |||
      (entryPresent ||| entryUser ||| entryWritable ||| entryHugePage) := by
  have hmul : BitVec.ofNat 64 (index address 21) * 2#64 * 1024#64 * 1024#64 =
      address &&& index21Mask := by
    rw [← offset_eq address 21 index21Mask (mask_bits _ 21 30 (by decide))]
    have hconst : (2#64 * 1024#64 * 1024#64 : Word) = BitVec.ofNat 64 (2 ^ 21) := by decide
    rw [BitVec.mul_assoc, BitVec.mul_assoc, ← BitVec.mul_assoc 2#64, hconst]
    exact (BitVec.ofNat_mul _ _).symm
  unfold split1g
  rw [hmul, add_masked (by decide)]

theorem has_piece {x y m n flags flag : Word} (hm : m &&& flag = 0) (hn : n &&& flag = 0) :
    Has ((x &&& m) ||| (y &&& n) ||| flags) flag ↔ Has flags flag := by
  rw [has_or, has_or]
  have h1 := not_has_and (x := x) hm
  have h2 := not_has_and (x := y) hn
  tauto

theorem mask_piece {x y m n flags k : Word} (hf : flags &&& k = 0) (hm : m &&& k = m)
    (hn : n &&& k = n) :
    ((x &&& m) ||| (y &&& n) ||| flags) &&& k = (x &&& m) ||| (y &&& n) := by
  rw [BitVec.and_or_distrib_right, BitVec.and_or_distrib_right, hf, BitVec.and_assoc,
    BitVec.and_assoc, hm, hn]
  simp

def leafAttributes (address : Word) (x : Level × Word) : Attributes :=
  attributes (mappingOf address x)

theorem leafAttributes_pt (address e : Word) : leafAttributes address (.pt, e) =
    ⟨(e &&& addressMask) ||| (address &&& page4kMask), Has e entryWritable, Has e entryNx,
      Has e entryPwt, Has e ptePcd, Has e ptePat⟩ := rfl

theorem leafAttributes_pd (address e : Word) : leafAttributes address (.pd, e) =
    ⟨(e &&& page2mAddressMask) ||| (address &&& page2mMask), Has e entryWritable, Has e entryNx,
      Has e entryPwt, Has e ptePcd, Has e hugePat⟩ := rfl

theorem leafAttributes_pdpt (address e : Word) : leafAttributes address (.pdpt, e) =
    ⟨(e &&& page1gAddressMask) ||| (address &&& page1gMask), Has e entryWritable, Has e entryNx,
      Has e entryPwt, Has e ptePcd, Has e hugePat⟩ := rfl

theorem split2m_attributes (e address : Word) :
    leafAttributes address (.pt, split2m e (index address 12)) = leafAttributes address (.pd, e) ↔
      Plain (.pd, e) := by
  have hphys : (split2m e (index address 12) &&& addressMask) ||| (address &&& page4kMask) =
      (e &&& page2mAddressMask) ||| (address &&& page2mMask) := by
    rw [split2m_eq, mask_piece (by decide) (by decide) (by decide), BitVec.or_assoc,
      ← BitVec.and_or_distrib_left]
    rfl
  have hw : Has (split2m e (index address 12)) entryWritable := has_or.mpr (Or.inr (by decide))
  have hflag : ∀ flag, split2mMask &&& flag = 0 → index12Mask &&& flag = 0 →
      ¬ Has (entryPresent ||| entryUser ||| entryWritable) flag →
      ¬ Has (split2m e (index address 12)) flag := by
    intro flag h1 h2 h3
    rw [split2m_eq, has_piece h1 h2]
    exact h3
  have hnx := hflag entryNx (by decide) (by decide) (by decide)
  have hpwt := hflag entryPwt (by decide) (by decide) (by decide)
  have hpcd := hflag ptePcd (by decide) (by decide) (by decide)
  have hpat := hflag ptePat (by decide) (by decide) (by decide)
  rw [leafAttributes_pt, leafAttributes_pd]
  simp only [hphys, hw, hnx, hpwt, hpcd, hpat, Attributes.mk.injEq, true_and, Plain]
  simp

theorem split1g_leaf (e address : Word) :
    leafAttributes address (.pd, split1g e (index address 21)) =
      ⟨(e &&& split1gMask) ||| (address &&& page1gMask), true, false, false, false, false⟩ := by
  have hphys : (split1g e (index address 21) &&& page2mAddressMask) |||
      (address &&& page2mMask) = (e &&& split1gMask) ||| (address &&& page1gMask) := by
    rw [split1g_eq, mask_piece (by decide) (by decide) (by decide), BitVec.or_assoc,
      ← BitVec.and_or_distrib_left]
    rfl
  have hw : Has (split1g e (index address 21)) entryWritable := has_or.mpr (Or.inr (by decide))
  have hflag : ∀ flag, split1gMask &&& flag = 0 → index21Mask &&& flag = 0 →
      ¬ Has (entryPresent ||| entryUser ||| entryWritable ||| entryHugePage) flag →
      ¬ Has (split1g e (index address 21)) flag := by
    intro flag h1 h2 h3
    rw [split1g_eq, has_piece h1 h2]
    exact h3
  have hnx := hflag entryNx (by decide) (by decide) (by decide)
  have hpwt := hflag entryPwt (by decide) (by decide) (by decide)
  have hpcd := hflag ptePcd (by decide) (by decide) (by decide)
  have hpat := hflag hugePat (by decide) (by decide) (by decide)
  rw [leafAttributes_pd]
  simp only [hphys, hw, hnx, hpwt, hpcd, hpat, decide_true, decide_false]

theorem split1g_plain (e address : Word) : Plain (.pd, split1g e (index address 21)) := by
  have h := split1g_leaf e address
  rw [leafAttributes_pd, Attributes.mk.injEq] at h
  simpa [Plain] using h.2

theorem split1g_attributes (e address : Word) :
    leafAttributes address (.pd, split1g e (index address 21)) = leafAttributes address (.pdpt, e) ↔
      Plain (.pdpt, e) := by
  have hhigh : (e &&& split1gMask) ||| (address &&& page1gMask) =
      (e &&& page1gAddressMask) ||| (address &&& page1gMask) ↔
        e &&& (page1gAddressMask &&& ~~~split1gMask) = 0 := by
    constructor
    · intro h
      have hcut := congrArg (· &&& (page1gAddressMask &&& ~~~split1gMask)) h
      have h1 : split1gMask &&& (page1gAddressMask &&& ~~~split1gMask) = 0 := by decide
      have h2 : page1gMask &&& (page1gAddressMask &&& ~~~split1gMask) = 0 := by decide
      have h3 : page1gAddressMask &&& (page1gAddressMask &&& ~~~split1gMask) =
          page1gAddressMask &&& ~~~split1gMask := by decide
      simp only [BitVec.and_or_distrib_right, BitVec.and_assoc, h1, h2, h3] at hcut
      simpa using hcut.symm
    · intro h
      have hall : page1gAddressMask = split1gMask ||| (page1gAddressMask &&& ~~~split1gMask) := by
        decide
      have hsplit : e &&& page1gAddressMask = e &&& split1gMask := by
        rw [hall, BitVec.and_or_distrib_left, h]
        simp
      rw [hsplit]
  rw [split1g_leaf, leafAttributes_pdpt]
  simp only [Attributes.mk.injEq, hhigh, Plain]
  simp
  tauto

/-! ## The walks below the PML4 -/

theorem walk_shape {tables : Tables} {root address : Word} {es : List (Level × Word)}
    (h : Radix.walk shape tables levels4 root address = some es) :
    (∃ e4 e3, es = [(.pml4, e4), (.pdpt, e3)]) ∨
    (∃ e4 e3 e2, es = [(.pml4, e4), (.pdpt, e3), (.pd, e2)]) ∨
    (∃ e4 e3 e2 e1, es = [(.pml4, e4), (.pdpt, e3), (.pd, e2), (.pt, e1)]) := by
  unfold levels4 at h
  rw [walk_level] at h
  obtain ⟨e4, _, h4⟩ := Option.bind_eq_some_iff.mp h
  rw [if_neg (by simp [Level.ends]), Option.map_eq_some_iff] at h4
  obtain ⟨es3, h3, rfl⟩ := h4
  rw [walk_level] at h3
  obtain ⟨e3, _, h3⟩ := Option.bind_eq_some_iff.mp h3
  split at h3
  · cases h3
    exact Or.inl ⟨e4, e3, rfl⟩
  obtain ⟨es2, h2, rfl⟩ := Option.map_eq_some_iff.mp h3
  rw [walk_level] at h2
  obtain ⟨e2, _, h2⟩ := Option.bind_eq_some_iff.mp h2
  split at h2
  · cases h2
    exact Or.inr (Or.inl ⟨e4, e3, e2, rfl⟩)
  obtain ⟨es1, h1, rfl⟩ := Option.map_eq_some_iff.mp h2
  rw [walk_level] at h1
  obtain ⟨e1, _, h1⟩ := Option.bind_eq_some_iff.mp h1
  simp only [Level.ends, if_true] at h1
  cases h1
  exact Or.inr (Or.inr ⟨e4, e3, e2, e1, rfl⟩)

theorem walk_huge {tables : Tables} {root address : Word} {path : List (Level × Word)}
    {x : Level × Word} (h : Radix.walk shape tables levels4 root address = some (path ++ [x]))
    (hx : x.1 ≠ .pt) :
    (∃ e4 e3, path = [(.pml4, e4)] ∧ x = (.pdpt, e3)) ∨
    (∃ e4 e3 e2, path = [(.pml4, e4), (.pdpt, e3)] ∧ x = (.pd, e2)) := by
  rcases walk_shape h with ⟨e4, e3, hes⟩ | ⟨e4, e3, e2, hes⟩ | ⟨e4, e3, e2, e1, hes⟩
  · have hsplit : path ++ [x] = [(.pml4, e4)] ++ [(.pdpt, e3)] := hes
    obtain ⟨hpath, hxe⟩ := List.append_inj' hsplit rfl
    exact Or.inl ⟨e4, e3, hpath, by simpa using hxe⟩
  · have hsplit : path ++ [x] = [(.pml4, e4), (.pdpt, e3)] ++ [(.pd, e2)] := hes
    obtain ⟨hpath, hxe⟩ := List.append_inj' hsplit rfl
    exact Or.inr ⟨e4, e3, e2, hpath, by simpa using hxe⟩
  · have hsplit : path ++ [x] = [(.pml4, e4), (.pdpt, e3), (.pd, e2)] ++ [(.pt, e1)] := hes
    obtain ⟨_, hxe⟩ := List.append_inj' hsplit rfl
    obtain rfl : x = (.pt, e1) := by simpa using hxe
    exact absurd rfl hx

def lastAttributes (address : Word) (entries : List (Level × Word)) : Option Attributes :=
  entries.getLast?.map (leafAttributes address)

/-- The walk that replaces another says the same of the address, and opens it to user code
only if the other did. -/
def SameFor (top : Prop) (address : Word) (before after : List (Level × Word)) : Prop :=
  lastAttributes address after = lastAttributes address before ∧
    (top → Grants entryUser after → Grants entryUser before)

def InBroken (frame : Option Word) (virt address : Word) (entries : List (Level × Word)) : Prop :=
  frame.isSome ∧ index address 39 = index virt 39 ∧ index address 30 = index virt 30 ∧
    ∃ path x, entries = path ++ [x] ∧
      (x.1 = .pdpt ∨ x.1 = .pd ∧ index address 21 = index virt 21)

theorem has_user (e : Word) : Has (e ||| entryUser) entryUser := has_self e (by decide)

theorem via_whole {frame second : Option Word} {virt address root : Word} {tables : Tables}
    {es : List (Level × Word)} (top : Prop)
    (h : Radix.walk shape tables levels4 root address = some es)
    (hout : ¬ InBroken frame virt address es) :
    SameFor top address es (viaPml4 frame second virt address es) ↔
      (top → Grants entryUser (unopened virt address es) → Grants entryUser es) := by
  by_cases h39 : index address 39 = index virt 39
  · by_cases h30 : index address 30 = index virt 30
    · rcases walk_shape h with ⟨e4, e3, rfl⟩ | ⟨e4, e3, e2, rfl⟩ | ⟨e4, e3, e2, e1, rfl⟩
      · have hf : frame = none := by
          by_contra hsome
          exact hout ⟨Option.isSome_iff_ne_none.mpr hsome, h39, h30, [(.pml4, e4)], (.pdpt, e3),
            rfl, Or.inl rfl⟩
        subst hf
        simp [SameFor, viaPml4, viaPdpt, unopened, h39, h30, lastAttributes, grants_cons, has_user]
      · have hpd : viaPd frame virt address [(.pd, e2)] = [(.pd, e2)] := by
          unfold viaPd
          split
          · rename_i h21
            have hf : frame = none := by
              by_contra hsome
              exact hout ⟨Option.isSome_iff_ne_none.mpr hsome, h39, h30,
                [(.pml4, e4), (.pdpt, e3)], (.pd, e2), rfl, Or.inr ⟨rfl, h21⟩⟩
            subst hf
            rfl
          · rfl
        simp [SameFor, viaPml4, viaPdpt, unopened, h39, h30, hpd, lastAttributes, grants_cons,
          has_user]
      · have hpd : viaPd frame virt address [(.pd, e2), (.pt, e1)] = [(.pd, e2), (.pt, e1)] := by
          unfold viaPd
          split <;> rfl
        simp [SameFor, viaPml4, viaPdpt, unopened, h39, h30, hpd, lastAttributes, grants_cons,
          has_user]
    · rcases walk_shape h with ⟨e4, e3, rfl⟩ | ⟨e4, e3, e2, rfl⟩ | ⟨e4, e3, e2, e1, rfl⟩ <;>
        simp [SameFor, viaPml4, viaPdpt, unopened, h39, h30, lastAttributes, grants_cons, has_user]
  · rcases walk_shape h with ⟨e4, e3, rfl⟩ | ⟨e4, e3, e2, rfl⟩ | ⟨e4, e3, e2, e1, rfl⟩ <;>
      simp [SameFor, viaPml4, unopened, h39]

theorem sameFor_pieces {top : Prop} {address : Word} {before after : List (Level × Word)}
    {x : Level × Word} (hlast : lastAttributes address before = some (leafAttributes address x))
    (hafter : lastAttributes address after = some (leafAttributes address x) ↔ Plain x)
    (huser : Grants entryUser after) :
    SameFor top address before after ↔ Plain x ∧ (top → Grants entryUser before) := by
  unfold SameFor
  rw [hlast, hafter]
  tauto

theorem split1g_user (e : Word) (i : Fin 512) : Has (split1g e i) entryUser :=
  has_or.mpr (Or.inr (by decide))

theorem split2m_user (e : Word) (i : Fin 512) : Has (split2m e i) entryUser :=
  has_or.mpr (Or.inr (by decide))

theorem via_broken {frame second : Option Word} {virt address root : Word} {tables : Tables}
    {path : List (Level × Word)} {x : Level × Word} (top : Prop)
    (h : Radix.walk shape tables levels4 root address = some (path ++ [x]))
    (hin : InBroken frame virt address (path ++ [x])) :
    SameFor top address (path ++ [x]) (viaPml4 frame second virt address (path ++ [x])) ↔
      Plain x ∧ (top → Grants entryUser (path ++ [x])) := by
  obtain ⟨hsome, h39, h30, path', x', heq, hx⟩ := hin
  obtain ⟨frame, rfl⟩ := Option.isSome_iff_exists.mp hsome
  obtain ⟨rfl, rfl⟩ : path = path' ∧ x = x' := by
    obtain ⟨h1, h2⟩ := List.append_inj' heq rfl
    exact ⟨h1, by simpa using h2⟩
  have hlast : lastAttributes address (path ++ [x]) = some (leafAttributes address x) := by
    simp [lastAttributes]
  have hxpt : x.1 ≠ .pt := by
    rcases hx with hx | ⟨hx, _⟩ <;> rw [hx] <;> decide
  rcases walk_huge h hxpt with ⟨e4, e3, rfl, rfl⟩ | ⟨e4, e3, e2, rfl, rfl⟩
  · have hsmall := (split2m_attributes (split1g e3 (index address 21)) address).mpr
      (split1g_plain e3 address)
    apply sameFor_pieces hlast
    · have hpiece : lastAttributes address (viaPml4 (some frame) second virt address
          ([(.pml4, e4)] ++ [(.pdpt, e3)])) =
            some (leafAttributes address (.pd, split1g e3 (index address 21))) := by
        by_cases h21 : index address 21 = index virt 21
        · cases second with
          | none => simp [viaPml4, viaPdpt, viaPd, h39, h30, lastAttributes]
          | some frame' =>
            rw [← hsmall]
            simp [viaPml4, viaPdpt, viaPd, h39, h30, h21, lastAttributes]
        · simp [viaPml4, viaPdpt, viaPd, h39, h30, h21, lastAttributes]
      rw [hpiece, Option.some.injEq, split1g_attributes]
    · by_cases h21 : index address 21 = index virt 21
      · cases second <;>
          simp [viaPml4, viaPdpt, viaPd, h39, h30, h21, has_user, split1g_user, split2m_user,
            pointerWritable_user, Grants]
      · simp [viaPml4, viaPdpt, viaPd, h39, h30, h21, has_user, split1g_user,
          pointerWritable_user, Grants]
  · have h21 : index address 21 = index virt 21 := by simpa using hx
    apply sameFor_pieces hlast
    · have hpiece : lastAttributes address (viaPml4 (some frame) second virt address
          ([(.pml4, e4), (.pdpt, e3)] ++ [(.pd, e2)])) =
            some (leafAttributes address (.pt, split2m e2 (index address 12))) := by
        simp [viaPml4, viaPdpt, viaPd, h39, h30, h21, lastAttributes]
      rw [hpiece, Option.some.injEq, split2m_attributes]
    · simp [viaPml4, viaPdpt, viaPd, h39, h30, h21, has_user, split2m_user, pointerWritable_user,
        Grants]

def aboveLower (cpu : Cpu) (tables : Tables) : List (Level × Word) :=
  if cpu.la57 then [(.pml5, tables (currentRootPhys cpu) 0)] else []

section Root

variable {cpu : Cpu} {s : Space} {r : Bool × Space} {address : Word}

theorem grants_aboveLower {tables : Tables} {flag : Word} :
    Grants flag (aboveLower cpu tables) ↔ TopGrants cpu tables flag := by
  cases h : cpu.la57 <;> simp [aboveLower, TopGrants, Grants, h]

theorem walk_lower (hwf : WellFormed cpu s)
    (hI : Inside s r.2 levels4 (pml4Table cpu s.tables)) (hl : Lower cpu address) :
    walk cpu r.2.tables address =
      (Radix.walk shape r.2.tables levels4 (pml4Table cpu s.tables) address).map
        (aboveLower cpu s.tables ++ ·) := by
  cases h : cpu.la57 with
  | false =>
    have hroot : currentRootPhys cpu = pml4Table cpu s.tables := by simp [pml4Table, h]
    rw [walk_four h, hroot]
    simp [aboveLower, h]
  | true =>
    rw [walk_five hwf h hI, if_pos (hl h)]
    simp [aboveLower, h]

theorem walk_upper (hwf : WellFormed cpu s)
    (hI : Inside s r.2 levels4 (pml4Table cpu s.tables)) (hl : ¬ Lower cpu address) :
    walk cpu r.2.tables address = walk cpu s.tables address := by
  have hl' : cpu.la57 = true ∧ index address 48 ≠ 0 := by simpa [Lower] using hl
  rw [walk_five hwf hl'.1 hI, if_neg hl'.2]

theorem attributes_lower (hwf : WellFormed cpu s)
    (hI : Inside s r.2 levels4 (pml4Table cpu s.tables)) (hl : Lower cpu address) :
    (translate cpu r.2.tables address).map attributes =
      (Radix.walk shape r.2.tables levels4 (pml4Table cpu s.tables) address).bind
        (lastAttributes address) := by
  rw [translate_eq_walk, walk_lower hwf hI hl]
  cases hw : Radix.walk shape r.2.tables levels4 (pml4Table cpu s.tables) address with
  | none => rfl
  | some es =>
    have hlast : (aboveLower cpu s.tables ++ es).getLast? = es.getLast? := by
      unfold aboveLower
      split
      · exact getLast?_cons_walk (walk_ne_nil hw) _
      · rfl
    simp only [Option.map_some, Option.bind_some, hlast, Option.map_map, lastAttributes]
    rfl

theorem userAccessible_lower (hwf : WellFormed cpu s)
    (hI : Inside s r.2 levels4 (pml4Table cpu s.tables)) (hl : Lower cpu address) :
    UserAccessible cpu r.2.tables address ↔ TopGrants cpu s.tables entryUser ∧
      ∃ es ∈ Radix.walk shape r.2.tables levels4 (pml4Table cpu s.tables) address,
        Grants entryUser es := by
  unfold UserAccessible
  rw [walk_lower hwf hI hl]
  cases Radix.walk shape r.2.tables levels4 (pml4Table cpu s.tables) address with
  | none => simp
  | some es => simp [grants_append, grants_aboveLower]

theorem undisturbed_via (hwf : WellFormed cpu s)
    (hI : Inside s r.2 levels4 (pml4Table cpu s.tables)) (hl : Lower cpu address)
    {via : List (Level × Word) → List (Level × Word)}
    (hw : Radix.walk shape r.2.tables levels4 (pml4Table cpu s.tables) address =
      (walkLower cpu s.tables address).map via) :
    Undisturbed cpu s.tables r.2.tables address ↔
      ∀ es, walkLower cpu s.tables address = some es →
        SameFor (TopGrants cpu s.tables entryUser) address es (via es) := by
  have hI0 : Inside s (true, s).2 levels4 (pml4Table cpu s.tables) := Inside.refl s _ _
  have hattr := attributes_lower hwf hI0 hl
  have huser := userAccessible_lower hwf hI0 hl
  unfold Undisturbed
  rw [attributes_lower hwf hI hl, userAccessible_lower hwf hI hl, hw, hattr, huser]
  change _ = (walkLower cpu s.tables address).bind _ ∧
    (_ → _ ∧ ∃ es ∈ walkLower cpu s.tables address, _) ↔ _
  cases walkLower cpu s.tables address with
  | none => simp
  | some es =>
    simp only [Option.map_some, Option.bind_some, Option.mem_def, Option.some.injEq,
      exists_eq_left', forall_eq', SameFor]
    tauto

end Root

/-- The lower 4 KiB page that shares all tables with the page of the address. -/
def neighbour (virt : Word) : Word := (virt &&& 0xffffffffffff#64) ^^^ 0x1000#64

theorem index_neighbour (virt : Word) (shift : Nat)
    (h : ∀ k : Fin 9, (0xffffffffffff#64).getLsbD (k + shift) = true ∧
      (0x1000#64).getLsbD (k + shift) = false) :
    index (neighbour virt) shift = index virt shift := by
  apply Fin.ext
  apply Nat.eq_of_testBit_eq
  intro k
  rw [testBit_index, testBit_index]
  by_cases hk : k < 9
  · obtain ⟨h1, h2⟩ := h ⟨k, hk⟩
    have hbit : (neighbour virt).getLsbD (k + shift) = virt.getLsbD (k + shift) := by
      rw [neighbour, BitVec.getLsbD_xor, BitVec.getLsbD_and, h1, h2]
      simp
    exact congrArg (decide (k < 9) && ·) hbit
  · simp [hk]

theorem neighbour_lower (cpu : Cpu) (virt : Word) : Lower cpu (neighbour virt) := by
  intro _
  apply Fin.ext
  apply Nat.eq_of_testBit_eq
  intro k
  rw [testBit_index]
  by_cases hk : k < 9
  · have h : ∀ k : Fin 9, (0xffffffffffff#64).getLsbD (k + 48) = false ∧
        (0x1000#64).getLsbD (k + 48) = false := by decide
    obtain ⟨h1, h2⟩ := h ⟨k, hk⟩
    have hbit : (neighbour virt).getLsbD (k + 48) = false := by
      rw [neighbour, BitVec.getLsbD_xor, BitVec.getLsbD_and, h1, h2]
      simp
    have htest : (neighbour virt).toNat.testBit (k + 48) = false := hbit
    simp [htest]
  · simp [hk]

theorem neighbour_ne (virt : Word) : index (neighbour virt) 12 ≠ index virt 12 := by
  intro h
  have hbit := congrArg (fun i : Fin 512 => i.val.testBit 0) h
  simp only [testBit_index] at hbit
  have hflip : (neighbour virt).getLsbD 12 = !virt.getLsbD 12 := by
    have h1 : (0xffffffffffff#64).getLsbD 12 = true := by decide
    have h2 : (0x1000#64).getLsbD 12 = true := by decide
    rw [neighbour, BitVec.getLsbD_xor, BitVec.getLsbD_and, h1, h2]
    simp
  have hflip' : (neighbour virt).toNat.testBit 12 = !virt.toNat.testBit 12 := hflip
  simp [hflip'] at hbit

/-! ## The condition is exact -/

section Exact

variable {cpu : Cpu} {s : Space} {virt : Word}

theorem walk_broken {frame : Option Word} {address : Word} {es : List (Level × Word)}
    (hes : walkLower cpu s.tables address = some es) (h : InBroken frame virt address es) :
    ∃ path x, es = path ++ [x] ∧ x.1 ≠ .pt ∧ walkLower cpu s.tables virt = some (path ++ [x]) := by
  obtain ⟨_, h39, h30, path, x, rfl, hx⟩ := h
  have hxpt : x.1 ≠ .pt := by
    rcases hx with hx | ⟨hx, _⟩ <;> rw [hx] <;> decide
  refine ⟨path, x, rfl, hxpt, Radix.walk_agree hes ?_⟩
  rcases walk_huge hes hxpt with ⟨e4, e3, rfl, rfl⟩ | ⟨e4, e3, e2, rfl, rfl⟩
  · simp [shape, Level.shift, h39, h30]
  · have h21 : index address 21 = index virt 21 := by simpa using hx
    simp [shape, Level.shift, h39, h30, h21]

theorem neighbour_broken {frame : Option Word} {path : List (Level × Word)} {x : Level × Word}
    (hes : walkLower cpu s.tables virt = some (path ++ [x])) (hx : x.1 ≠ .pt)
    (hf : frame.isSome) :
    walkLower cpu s.tables (neighbour virt) = some (path ++ [x]) ∧
      InBroken frame virt (neighbour virt) (path ++ [x]) := by
  have h39 := index_neighbour virt 39 (by decide)
  have h30 := index_neighbour virt 30 (by decide)
  have h21 := index_neighbour virt 21 (by decide)
  rcases walk_huge hes hx with ⟨e4, e3, rfl, rfl⟩ | ⟨e4, e3, e2, rfl, rfl⟩
  · refine ⟨Radix.walk_agree hes ?_, hf, h39, h30, _, _, rfl, Or.inl rfl⟩
    simp [shape, Level.shift, h39, h30]
  · refine ⟨Radix.walk_agree hes ?_, hf, h39, h30, _, _, rfl, Or.inr ⟨rfl, h21⟩⟩
    simp [shape, Level.shift, h39, h30, h21]

def MapsPage (cpu : Cpu) (s : Space) (r : Bool × Space) (virt e : Word) : Prop :=
  Mapped s r levels4 (pml4Table cpu s.tables) virt e
      (userBelowPml4 s.tables (pml4Table cpu s.tables) virt)
      (writableBelowPml4 s.tables (pml4Table cpu s.tables) virt)
      (viaPml4 (grant s.pmm) (secondGrant s.pmm) virt) ∧
    (r.1 = true ↔ enough s.pmm (neededPml4 s.tables (pml4Table cpu s.tables) virt))

theorem mapUserPages_mapsPage (hwf : WellFormed cpu s) (phys : Word) (writable executable : Bool) :
    MapsPage cpu s (mapUserPages cpu s virt phys writable executable) virt
      (userEntry cpu phys writable executable) :=
  ⟨mapPml4_mapped virt (owned_pml4 hwf) (userEntry_present cpu phys writable executable),
    mapPml4_succeeds (owned_pml4 hwf) virt _⟩

variable {r : Bool × Space} {e address : Word}

theorem undisturbed_beside (hwf : WellFormed cpu s) (hM : MapsPage cpu s r virt e)
    (hl : Lower cpu address)
    (ha : enough s.pmm (neededPml4 s.tables (pml4Table cpu s.tables) virt) →
      ∃ l ∈ levels4, index address l.shift ≠ index virt l.shift) :
    Undisturbed cpu s.tables r.2.tables address ↔
      ∀ es, walkLower cpu s.tables address = some es →
        SameFor (TopGrants cpu s.tables entryUser) address es
          (viaPml4 (grant s.pmm) (secondGrant s.pmm) virt address es) :=
  undisturbed_via hwf hM.1.inside hl (hM.1.other address fun hr => ha (hM.2.mp hr))

theorem undisturbed_stray {phys : Word} {writable executable : Bool} (hwf : WellFormed cpu s)
    (hM : MapsPage cpu s r virt (userEntry cpu phys writable executable))
    (hl : Lower cpu address) (henough : enough s.pmm
      (neededPml4 s.tables (pml4Table cpu s.tables) virt))
    (ha : ∀ l ∈ levels4, index address l.shift = index virt l.shift) :
    Undisturbed cpu s.tables r.2.tables address ↔
      (translate cpu s.tables address).map attributes = some (attributes (mappingOf address
        (.pt, userEntry cpu phys writable executable))) ∧
      (TopGrants cpu s.tables entryUser →
        userBelowPml4 s.tables (pml4Table cpu s.tables) virt →
          UserAccessible cpu s.tables address) := by
  obtain ⟨path, hwalk, huser, _⟩ := hM.1.page (hM.2.mpr henough) address ha
  have hlast : lastAttributes address (path ++ [(.pt, userEntry cpu phys writable executable)]) =
      some (attributes (mappingOf address (.pt, userEntry cpu phys writable executable))) := by
    simp [lastAttributes, leafAttributes]
  unfold Undisturbed
  rw [attributes_lower hwf hM.1.inside hl, userAccessible_lower hwf hM.1.inside hl, hwalk,
    Option.bind_some, hlast]
  simp only [Option.mem_def, Option.some.injEq, exists_eq_left', grants_append, huser,
    grants_singleton, userEntry_user, and_true, and_imp]
  rw [eq_comm]

theorem SamePage.levels4 {a b : Word} (h : SamePage cpu a b) :
    ∀ l ∈ levels4, index a l.shift = index b l.shift := by
  intro l hl
  apply h
  unfold levels
  split
  · exact List.mem_cons_of_mem _ hl
  · exact hl

theorem samePage_of_lower {a b : Word} (ha : Lower cpu a) (hb : Lower cpu b)
    (h : ∀ l ∈ levels4, index a l.shift = index b l.shift) : SamePage cpu a b := by
  intro l hl
  unfold levels at hl
  split at hl
  · rename_i h5
    rcases List.mem_cons.mp hl with rfl | hl
    · exact (ha h5).trans (hb h5).symm
    · exact h l hl
  · exact h l hl

theorem Harmless.leavesOthers {phys : Word} {writable executable : Bool} (hwf : WellFormed cpu s)
    (hM : MapsPage cpu s r virt (userEntry cpu phys writable executable))
    (h : Harmless cpu s virt phys writable executable) :
    LeavesOthers cpu s.tables r.2.tables virt := by
  intro address hother
  by_cases hl : Lower cpu address
  · by_cases ha : enough s.pmm (neededPml4 s.tables (pml4Table cpu s.tables) virt) →
        ∃ l ∈ levels4, index address l.shift ≠ index virt l.shift
    · rw [undisturbed_beside hwf hM hl ha]
      intro es hes
      by_cases hin : InBroken (grant s.pmm) virt address es
      · obtain ⟨path, x, rfl, hx, hvirt⟩ := walk_broken hes hin
        rw [via_broken _ hes hin]
        exact h.broken path x hvirt hx hin.1
      · rw [via_whole _ hes hin]
        exact h.opened address es hother hl ha hes
    · push Not at ha
      have hvirt : ¬ Lower cpu virt := fun hv => hother (samePage_of_lower hl hv ha.2)
      rw [undisturbed_stray hwf hM hl ha.1 ha.2]
      exact h.stray hvirt ha.1 address hl ha.2
  · have hsame := walk_upper hwf hM.1.inside hl
    simp only [Undisturbed, translate_eq_walk, UserAccessible, hsame, true_and]
    exact id

theorem Harmless.of_leavesOthers {phys : Word} {writable executable : Bool}
    (hwf : WellFormed cpu s)
    (hM : MapsPage cpu s r virt (userEntry cpu phys writable executable))
    (h : LeavesOthers cpu s.tables r.2.tables virt) :
    Harmless cpu s virt phys writable executable := by
  have hbroken : ∀ path x, walkLower cpu s.tables virt = some (path ++ [x]) → x.1 ≠ .pt →
      (grant s.pmm).isSome → Plain x ∧
        (TopGrants cpu s.tables entryUser → Grants entryUser (path ++ [x])) := by
    intro path x hvirt hx hf
    obtain ⟨hes, hin⟩ := neighbour_broken hvirt hx hf
    have hne : ∃ l ∈ Paging.levels4, index (neighbour virt) l.shift ≠ index virt l.shift :=
      ⟨.pt, by simp [Paging.levels4], neighbour_ne virt⟩
    have hother : ¬ SamePage cpu (neighbour virt) virt := by
      intro hs
      obtain ⟨l, hl, hne⟩ := hne
      exact hne (hs.levels4 l hl)
    have hu := h _ hother
    rw [undisturbed_beside hwf hM (neighbour_lower cpu virt) fun _ => hne] at hu
    exact (via_broken _ hes hin).mp (hu _ hes)
  refine ⟨hbroken, ?_, ?_⟩
  · intro address es hother hl ha hes htop hrest
    by_cases hin : InBroken (grant s.pmm) virt address es
    · obtain ⟨path, x, rfl, hx, hvirt⟩ := walk_broken hes hin
      exact (hbroken path x hvirt hx hin.1).2 htop
    · have hu := h address hother
      rw [undisturbed_beside hwf hM hl ha] at hu
      exact (via_whole _ hes hin).mp (hu es hes) htop hrest
  · intro hvirt henough address hl ha
    have hother : ¬ SamePage cpu address virt := by
      intro hs
      apply hvirt
      intro h5
      have hroot : index address 48 = index virt 48 := hs .pml5 (by simp [levels, h5])
      rw [← hroot]
      exact hl h5
    exact (undisturbed_stray hwf hM hl henough ha).mp (h address hother)

end Exact

theorem walkLower_emptySpace (address : Word) :
    walkLower plainCpu emptySpace.tables address = none :=
  walk_zero rfl

/-- The root leads to a table at 0x2000 with one kernel page of 1 GiB. -/
def kernelSpace : Space where
  tables t i :=
    if t = 0x1000#64 ∧ i = 0 then 0x2000#64 ||| entryPresent ||| entryWritable
    else if t = 0x2000#64 ∧ i = 1 then
      0x40000000#64 ||| entryPresent ||| entryWritable ||| entryHugePage
    else 0
  pmm := fewFrames

theorem kernelSpace_leaf (i : Fin 512) (c : Word) :
    next .pdpt (kernelSpace.tables 0x2000#64 i) ≠ .child c := by
  by_cases hi : i = 1
  · subst hi
    rw [next_ends (by decide) (by decide)]
    nofun
  · have h0 : kernelSpace.tables 0x2000#64 i = 0 := by simp [kernelSpace, hi]
    rw [h0, next_absent (by decide)]
    nofun

theorem kernelSpace_child {i : Fin 512} {c : Word}
    (h : next .pml4 (kernelSpace.tables 0x1000#64 i) = .child c) : i = 0 ∧ c = 0x2000#64 := by
  by_cases hi : i = 0
  · subst hi
    rw [next_table (by decide) rfl] at h
    cases h
    exact ⟨rfl, by decide⟩
  · have h0 : kernelSpace.tables 0x1000#64 i = 0 := by simp [kernelSpace, hi]
    rw [h0, next_absent (by decide)] at h
    cases h

theorem kernelSpace_wellFormed : WellFormed plainCpu kernelSpace := by
  have hflat := Radix.tree_flat (S := shape) (m := kernelSpace.tables) (l := .pdpt)
    (t := 0x2000#64) [.pd, .pt] kernelSpace_leaf
  refine ⟨⟨⟨fun i c hc => ?_, fun i j c d hij hc hd => ?_⟩, ?_⟩, nofun⟩
  · obtain ⟨_, rfl⟩ := kernelSpace_child hc
    refine ⟨?_, hflat.1⟩
    rw [hflat.2]
    decide
  · exact absurd ((kernelSpace_child hc).1.trans (kernelSpace_child hd).1.symm) hij
  · apply Set.disjoint_left.mpr
    intro x hx hfree
    rcases hx with hx | ⟨i, c, hc, hx⟩
    · exact not_free_fewFrames ⟨1, by decide⟩ (hx.trans (by decide)) (by decide) hfree
    · obtain ⟨_, rfl⟩ := kernelSpace_child hc
      rw [hflat.2] at hx
      exact not_free_fewFrames ⟨2, by decide⟩ (hx.trans (by decide)) (by decide) hfree

end Vibra.Vmm
