import Mathlib.Algebra.Ring.Nat
import Mathlib.Data.List.GetD
import Mathlib.Data.Nat.Log
import Mathlib.Tactic.Common

/-! # Memory type ranges

`memory/mtrr.rs`: `set_write_combining` gives a range of physical addresses the type WC.
-/

namespace Vibra.Mtrr

abbrev Msr := BitVec 64

def typeUc : Nat := 0
def typeWc : Nat := 1
def typeWt : Nat := 4
def typeWb : Nat := 6

def maskValid : Msr := 1#64 <<< 11
def defTypeEnable : Msr := 1#64 <<< 11
def defTypeLock : Msr := 1#64 <<< 10

def rangeBits : Msr := 0x000ffffffffff000#64

/-- `IA32_MTRRCAP`, `IA32_MTRR_DEF_TYPE`, and the pairs `IA32_MTRR_PHYSBASE`,
`IA32_MTRR_PHYSMASK`. -/
structure Registers where
  cap : Msr
  defType : Msr
  physBase : Nat → Msr
  physMask : Nat → Msr

/-- The registers with `WC_RANGES`, `FB_TYPE_BEFORE` and `FB_TYPE_AFTER`. -/
structure State where
  regs : Registers
  wcRanges : Nat
  fbTypeBefore : Nat
  fbTypeAfter : Nat

namespace Registers

variable (r : Registers)

/-- `MTRRCAP.VCNT` -/
def vcnt : Nat := (r.cap &&& 0xff#64).toNat

def variableCount : Nat := min r.vcnt 16

def isLocked : Prop := r.defType &&& defTypeLock ≠ 0

def supportsWc : Prop := r.cap &&& (1#64 <<< 10) ≠ 0

def defaultType : Nat := (r.defType &&& 0xff#64).toNat

def Enabled : Prop := r.defType &&& defTypeEnable ≠ 0

def Valid (i : Nat) : Prop := r.physMask i &&& maskValid ≠ 0

instance : Decidable r.isLocked := inferInstanceAs (Decidable (_ ≠ _))
instance : Decidable r.supportsWc := inferInstanceAs (Decidable (_ ≠ _))
instance : Decidable r.Enabled := inferInstanceAs (Decidable (_ ≠ _))
instance (i : Nat) : Decidable (r.Valid i) := inferInstanceAs (Decidable (_ ≠ _))

/-- The pair is in use and the address agrees with it in all bits that it compares. -/
def Covers (i : Nat) (a : Msr) : Prop :=
  r.Valid i ∧ a &&& (r.physMask i &&& rangeBits) = r.physBase i &&& (r.physMask i &&& rangeBits)

instance (i : Nat) (a : Msr) : Decidable (r.Covers i a) := inferInstanceAs (Decidable (_ ∧ _))

def typeOf (i : Nat) : Nat := (r.physBase i &&& 0xff#64).toNat

/-- `covering_type`: that of the first pair that covers the address. -/
def coveringType (physical : Msr) : Option Nat :=
  ((List.range r.variableCount).find? fun i => r.Covers i physical).map r.typeOf

end Registers

/-- `u64::next_power_of_two`; above `2 ^ 63` the result does not fit. -/
def nextPowerOfTwo (n : Nat) : Nat := if n ≤ 1 then 1 else 2 ^ (Nat.log2 (n - 1) + 1)

/-- `align_range`, with the wrapping arithmetic of a release build. -/
def alignRange (physical length : Msr) : Option (Msr × Msr) :=
  if length = 0 then none
  else
    let size := BitVec.ofNat 64 (nextPowerOfTwo length.toNat)
    if 1#64 <<< 40 < size then none
    else some (physical &&& ~~~(size - 1), size)

namespace Registers

variable (r : Registers)

def Describes (i : Nat) (base maskBits : Msr) : Prop :=
  r.Valid i ∧ r.physMask i &&& rangeBits = maskBits ∧ r.physBase i &&& rangeBits = base

instance (i : Nat) (base maskBits : Msr) : Decidable (r.Describes i base maskBits) :=
  inferInstanceAs (Decidable (_ ∧ _))

/-- The loop of `set_write_combining` over the pairs: the first that describes the block, and the
first before it that is not in use. -/
def search (base maskBits : Msr) : List Nat → Option Nat → Option Nat × Option Nat
  | [], free => (none, free)
  | i :: rest, free =>
    if ¬ r.Valid i then search base maskBits rest (free.or (some i))
    else if r.Describes i base maskBits then (some i, free)
    else search base maskBits rest free

/-- `target.or(free)` -/
def findSlot (base maskBits : Msr) : Option Nat :=
  let found := r.search base maskBits (List.range r.variableCount) none
  found.1.or found.2

/-- The MTRRs are turned on and the pair is written. -/
def write (slot : Nat) (base maskBits : Msr) : Registers where
  cap := r.cap
  defType := if r.Enabled then r.defType else r.defType ||| defTypeEnable
  physBase := Function.update r.physBase slot (base ||| 1#64)
  physMask := Function.update r.physMask slot (maskBits ||| maskValid)

end Registers

def maskOf (size : Msr) : Msr := ~~~(size - 1) &&& rangeBits

def setWriteCombining (s : State) (physical length : Msr) : Bool × State :=
  if ¬ s.regs.supportsWc then (false, s)
  else if s.regs.isLocked then (false, s)
  else
    match alignRange physical length with
    | none => (false, s)
    | some (base, size) =>
      let before := (s.regs.coveringType physical).getD s.regs.defaultType
      if before = typeWc then (true, { s with fbTypeBefore := before, fbTypeAfter := typeWc })
      else
        match s.regs.findSlot base (maskOf size) with
        | none => (false, { s with fbTypeBefore := before, fbTypeAfter := before })
        | some slot =>
          let regs := s.regs.write slot base (maskOf size)
          let after := (regs.coveringType physical).getD regs.defaultType
          if after = typeWc then (true, ⟨regs, s.wcRanges + 1, before, after⟩)
          else (false, ⟨regs, s.wcRanges, before, after⟩)

namespace Registers

variable (r : Registers)

def matching (a : Msr) : List Nat :=
  ((List.range r.vcnt).filter fun i => r.Covers i a).map r.typeOf

/-- The type that an address has: UC with the MTRRs off, the default type where no pair covers
it, and else UC before all others, a type that all pairs have, WT of WT and WB. Other overlaps
are not defined. -/
def memoryType (a : Msr) : Option Nat :=
  if ¬ r.Enabled then some typeUc
  else if r.matching a = [] then some r.defaultType
  else if typeUc ∈ r.matching a then some typeUc
  else if ∀ t ∈ r.matching a, t = (r.matching a).headI then some (r.matching a).headI
  else if ∀ t ∈ r.matching a, t = typeWt ∨ t = typeWb then some typeWt
  else none

end Registers

/-- The block that `align_range` chooses; a pair cannot describe less than a page. -/
def blockSize (length : Msr) : Nat := max 4096 (nextPowerOfTwo length.toNat)

/-- The address lies in the block around `physical`. -/
def InBlock (physical length a : Msr) : Prop :=
  a.toNat / blockSize length = physical.toNat / blockSize length

def InRange (physical length a : Msr) : Prop :=
  physical.toNat ≤ a.toNat ∧ a.toNat < physical.toNat + length.toNat

def IsPhysical (a : Msr) : Prop := a.toNat < 2 ^ 52

section Blocks

variable {physical length a base size : Msr}

theorem nextPowerOfTwo_eq (length : Msr) : ∃ k ≤ 64, nextPowerOfTwo length.toNat = 2 ^ k := by
  unfold nextPowerOfTwo
  split
  · exact ⟨0, by omega, rfl⟩
  · refine ⟨_, ?_, rfl⟩
    have hlt : length.toNat - 1 < 2 ^ 64 := by
      have := length.isLt
      omega
    have hne : length.toNat - 1 ≠ 0 := by omega
    exact (Nat.log2_lt hne).mpr hlt

theorem not_size_getLsbD {k : Nat} (hk : k ≤ 64) {i : Nat} (hi : i < 64) :
    (~~~(BitVec.ofNat 64 (2 ^ k) - 1)).getLsbD i = decide (k ≤ i) := by
  have hnat : (BitVec.ofNat 64 (2 ^ k) - 1).toNat = 2 ^ k - 1 := by
    rcases Nat.lt_or_eq_of_le hk with hlt | rfl
    · have hpow : 2 ^ k < 2 ^ 64 := Nat.pow_lt_pow_right (by decide) hlt
      have hpos := Nat.two_pow_pos k
      rw [BitVec.toNat_sub, BitVec.toNat_ofNat, Nat.mod_eq_of_lt hpow]
      have hone : BitVec.toNat (1 : Msr) = 1 := rfl
      rw [hone]
      omega
    · rfl
  rw [BitVec.getLsbD_not, ← BitVec.testBit_toNat, hnat, Nat.testBit_two_pow_sub_one]
  by_cases h : k ≤ i
  · simp [hi, h]
  · simp [hi, h, Nat.lt_of_not_le h]

theorem rangeBits_getLsbD {i : Nat} (hi : i < 64) :
    rangeBits.getLsbD i = decide (12 ≤ i ∧ i < 52) := by
  have h : ∀ i : Fin 64, rangeBits.getLsbD i = decide (12 ≤ i.val ∧ i.val < 52) := by decide
  exact h ⟨i, hi⟩

theorem maskOf_getLsbD {k : Nat} (hk : k ≤ 64) {i : Nat} (hi : i < 64) :
    (maskOf (BitVec.ofNat 64 (2 ^ k))).getLsbD i = decide (max 12 k ≤ i ∧ i < 52) := by
  rw [maskOf, BitVec.getLsbD_and, not_size_getLsbD hk hi, rangeBits_getLsbD hi, ← Bool.decide_and]
  congr 1
  rw [Nat.max_le]
  exact propext ⟨fun h => ⟨⟨h.2.1, h.1⟩, h.2.2⟩, fun h => ⟨h.1.2, h.1.1, h.2⟩⟩

theorem div_two_pow_eq_iff {m n k : Nat} :
    m / 2 ^ k = n / 2 ^ k ↔ ∀ i, k ≤ i → m.testBit i = n.testBit i := by
  constructor
  · intro h i hi
    have hbit := congrArg (fun x => x.testBit (i - k)) h
    simpa only [Nat.testBit_div_two_pow, Nat.sub_add_cancel hi] using hbit
  · intro h
    apply Nat.eq_of_testBit_eq
    intro i
    rw [Nat.testBit_div_two_pow, Nat.testBit_div_two_pow]
    exact h _ (Nat.le_add_left k i)

theorem and_maskOf_eq_iff {k : Nat} (hk : k ≤ 64) (ha : IsPhysical a) (hp : IsPhysical physical) :
    a &&& maskOf (BitVec.ofNat 64 (2 ^ k)) = physical &&& maskOf (BitVec.ofNat 64 (2 ^ k)) ↔
      a.toNat / 2 ^ max 12 k = physical.toNat / 2 ^ max 12 k := by
  have hhigh : ∀ {x : Msr}, IsPhysical x → ∀ i, 52 ≤ i → x.toNat.testBit i = false := by
    intro x hx i hi
    exact Nat.testBit_lt_two_pow (Nat.lt_of_lt_of_le hx (Nat.pow_le_pow_right (by decide) hi))
  rw [div_two_pow_eq_iff]
  constructor
  · intro h i hi
    by_cases h52 : i < 52
    · have hbit := congrArg (fun x => x.getLsbD i) h
      simp only [BitVec.getLsbD_and] at hbit
      rw [maskOf_getLsbD hk (by omega), decide_eq_true ⟨hi, h52⟩] at hbit
      simpa only [Bool.and_true, BitVec.testBit_toNat] using hbit
    · rw [hhigh ha i (by omega), hhigh hp i (by omega)]
  · intro h
    apply BitVec.eq_of_getLsbD_eq
    intro i hi
    rw [BitVec.getLsbD_and, BitVec.getLsbD_and, maskOf_getLsbD hk hi]
    by_cases hmask : max 12 k ≤ i ∧ i < 52
    · rw [← BitVec.testBit_toNat, ← BitVec.testBit_toNat, h i hmask.1]
    · rw [decide_eq_false hmask, Bool.and_false, Bool.and_false]

theorem blockSize_eq {k : Nat} (h : nextPowerOfTwo length.toNat = 2 ^ k) :
    blockSize length = 2 ^ max 12 k := by
  rw [blockSize, h]
  rcases Nat.le_total 12 k with hle | hle
  · rw [max_eq_right hle, max_eq_right (Nat.pow_le_pow_right (by decide) hle : 2 ^ 12 ≤ 2 ^ k)]
  · rw [max_eq_left hle, max_eq_left (Nat.pow_le_pow_right (by decide) hle : 2 ^ k ≤ 2 ^ 12)]

structure Aligned (physical length base size : Msr) : Prop where
  eq : base = physical &&& ~~~(size - 1)
  mask : ∀ a, IsPhysical a → IsPhysical physical →
    (a &&& maskOf size = physical &&& maskOf size ↔ InBlock physical length a)
  low : 256 ≤ length.toNat → base &&& 0xff#64 = 0#64

theorem alignRange_aligned (h : alignRange physical length = some (base, size)) :
    Aligned physical length base size := by
  unfold alignRange at h
  split at h
  · cases h
  · dsimp only at h
    split at h
    · cases h
    · obtain ⟨rfl, rfl⟩ := Prod.mk.inj (Option.some.inj h)
      obtain ⟨k, hk, hpow⟩ := nextPowerOfTwo_eq length
      rw [hpow]
      refine ⟨rfl, fun a ha hp => ?_, fun hlen => ?_⟩
      · rw [InBlock, blockSize_eq hpow]
        exact and_maskOf_eq_iff hk ha hp
      · have hk8 : 8 ≤ k := by
          by_contra hlt
          have hsmall : 2 ^ k ≤ 2 ^ 7 := Nat.pow_le_pow_right (by decide) (by omega)
          have hle : length.toNat ≤ 2 ^ k := by
            rw [← hpow]
            unfold nextPowerOfTwo
            split
            · assumption
            · have := Nat.lt_log2_self (n := length.toNat - 1)
              omega
          omega
        apply BitVec.eq_of_getLsbD_eq
        intro i hi
        rw [BitVec.getLsbD_and, BitVec.getLsbD_and, not_size_getLsbD hk hi, BitVec.getLsbD_zero]
        by_cases h8 : i < 8
        · rw [decide_eq_false (by omega), Bool.and_false, Bool.false_and]
        · have hbyte : (0xff#64).getLsbD i = false := by
            rw [← BitVec.testBit_toNat]
            exact Nat.testBit_lt_two_pow (Nat.lt_of_lt_of_le (by decide : 255 < 2 ^ 8)
              (Nat.pow_le_pow_right (by decide) (by omega)))
          rw [hbyte, Bool.and_false]

end Blocks

/-! ## The pair that is written -/

namespace Registers

section Write

variable {r : Registers} {slot i : Nat} {physical length base size a : Msr}

theorem or_and_rangeBits (size : Msr) :
    (maskOf size ||| maskValid) &&& rangeBits = maskOf size := by
  have hvalid : maskValid &&& rangeBits = 0#64 := by decide
  rw [BitVec.and_or_distrib_right, hvalid, BitVec.or_zero, maskOf, BitVec.and_assoc,
    BitVec.and_self]

theorem base_and_maskOf (physical size : Msr) :
    (physical &&& ~~~(size - 1)) &&& maskOf size = physical &&& maskOf size := by
  rw [maskOf, BitVec.and_assoc, ← BitVec.and_assoc (~~~(size - 1)), BitVec.and_self]

theorem write_valid : (r.write slot base (maskOf size)).Valid slot := by
  have hvalid : (maskOf size ||| maskValid) &&& maskValid = maskValid := by
    rw [BitVec.and_or_distrib_right, BitVec.and_self]
    have hzero : maskOf size &&& maskValid = 0#64 := by
      rw [maskOf, BitVec.and_assoc]
      have hnone : rangeBits &&& maskValid = 0#64 := by decide
      rw [hnone, BitVec.and_zero]
    rw [hzero, BitVec.zero_or]
  simp only [Valid, write, Function.update_self, hvalid]
  decide

theorem write_covers (h : Aligned physical length base size) :
    (r.write slot base (maskOf size)).Covers slot a ↔
      a &&& maskOf size = physical &&& maskOf size := by
  have hone : (1#64 : Msr) &&& maskOf size = 0#64 := by
    rw [maskOf, ← BitVec.and_assoc, BitVec.and_comm 1#64, BitVec.and_assoc]
    have hnone : 1#64 &&& rangeBits = 0#64 := by decide
    rw [hnone, BitVec.and_zero]
  have hbase : (base ||| 1#64) &&& maskOf size = physical &&& maskOf size := by
    rw [BitVec.and_or_distrib_right, hone, BitVec.or_zero, h.eq, base_and_maskOf]
  rw [Covers, and_iff_right write_valid]
  simp only [write, Function.update_self, or_and_rangeBits, hbase]

theorem write_covers_of_ne (h : i ≠ slot) :
    (r.write slot base (maskOf size)).Covers i a ↔ r.Covers i a := by
  simp only [Covers, Valid, write, Function.update_of_ne h]

theorem write_typeOf (h : base &&& 0xff#64 = 0#64) :
    (r.write slot base (maskOf size)).typeOf slot = typeWc := by
  simp only [typeOf, write, Function.update_self, BitVec.and_or_distrib_right, h]
  rfl

theorem write_typeOf_of_ne (h : i ≠ slot) :
    (r.write slot base (maskOf size)).typeOf i = r.typeOf i := by
  simp only [typeOf, write, Function.update_of_ne h]

theorem Describes.covers (h : r.Describes i base (maskOf size))
    (haligned : Aligned physical length base size) :
    r.Covers i a ↔ a &&& maskOf size = physical &&& maskOf size := by
  obtain ⟨hvalid, hmask, hbase⟩ := h
  have hcompare : r.physBase i &&& maskOf size = physical &&& maskOf size := by
    have hrange : rangeBits &&& maskOf size = maskOf size := by
      rw [maskOf, BitVec.and_comm, BitVec.and_assoc, BitVec.and_self]
    rw [← hrange, ← BitVec.and_assoc, hbase, haligned.eq, hrange, base_and_maskOf]
  rw [Covers, and_iff_right hvalid, hmask, hcompare]

theorem search_spec {indices : List Nat} {free : Option Nat} {target : Option Nat × Option Nat}
    (h : r.search base (maskOf size) indices free = target) :
    (∀ i, target.1 = some i → i ∈ indices ∧ r.Describes i base (maskOf size)) ∧
      (∀ i, target.2 = some i → free = some i ∨ i ∈ indices ∧ ¬ r.Valid i) ∧
      (target.1 = none → ∀ i ∈ indices, ¬ r.Describes i base (maskOf size)) := by
  induction indices generalizing free with
  | nil =>
    rw [search] at h
    subst h
    exact ⟨nofun, fun i hi => Or.inl hi, fun _ => nofun⟩
  | cons j rest ih =>
    rw [search] at h
    split at h
    · rename_i hvalid
      obtain ⟨h1, h2, h3⟩ := ih h
      refine ⟨fun i hi => ⟨List.mem_cons_of_mem j (h1 i hi).1, (h1 i hi).2⟩, fun i hi => ?_,
        fun hnone i hi => ?_⟩
      · rcases h2 i hi with hfree | ⟨hmem, hi'⟩
        · cases free with
          | none =>
            obtain rfl := Option.some.inj hfree
            exact Or.inr ⟨List.mem_cons_self, hvalid⟩
          | some k => exact Or.inl hfree
        · exact Or.inr ⟨List.mem_cons_of_mem j hmem, hi'⟩
      · rcases List.mem_cons.mp hi with rfl | hi
        · exact fun hdescribes => hvalid hdescribes.1
        · exact h3 hnone i hi
    · split at h
      · rename_i hdescribes
        subst h
        refine ⟨fun i hi => ?_, fun i hi => Or.inl hi, nofun⟩
        obtain rfl := Option.some.inj hi
        exact ⟨List.mem_cons_self, hdescribes⟩
      · rename_i hother
        obtain ⟨h1, h2, h3⟩ := ih h
        refine ⟨fun i hi => ⟨List.mem_cons_of_mem j (h1 i hi).1, (h1 i hi).2⟩, fun i hi => ?_,
          fun hnone i hi => ?_⟩
        · exact (h2 i hi).imp_right fun hi' => ⟨List.mem_cons_of_mem j hi'.1, hi'.2⟩
        · rcases List.mem_cons.mp hi with rfl | hi
          · exact hother
          · exact h3 hnone i hi

theorem findSlot_spec (h : r.findSlot base (maskOf size) = some slot) :
    slot < r.variableCount ∧ (r.Describes slot base (maskOf size) ∨
      ¬ r.Valid slot ∧ ∀ i < r.variableCount, ¬ r.Describes i base (maskOf size)) := by
  have hsearch : r.search base (maskOf size) (List.range r.variableCount) none = _ := rfl
  obtain ⟨htarget, hfree, hnone⟩ := search_spec hsearch
  rw [findSlot, Option.or_eq_some_iff] at h
  rcases h with h | ⟨h, h'⟩
  · obtain ⟨hmem, hdescribes⟩ := htarget slot h
    exact ⟨List.mem_range.mp hmem, Or.inl hdescribes⟩
  · obtain hbad | ⟨hmem, hvalid⟩ := hfree slot h'
    · cases hbad
    · exact ⟨List.mem_range.mp hmem, Or.inr ⟨hvalid, fun i hi =>
        hnone h i (List.mem_range.mpr hi)⟩⟩

end Write

section Types

variable {r r' : Registers} {a : Msr}

theorem mem_matching {t : Nat} :
    t ∈ r.matching a ↔ ∃ i < r.vcnt, r.Covers i a ∧ r.typeOf i = t := by
  simp only [matching, List.mem_map, List.mem_filter, List.mem_range, decide_eq_true_eq, and_assoc]

theorem memoryType_default (hon : r.Enabled) (h : ∀ i < r.vcnt, ¬ r.Covers i a) :
    r.memoryType a = some r.defaultType := by
  have hnil : r.matching a = [] := by
    apply List.eq_nil_iff_forall_not_mem.mpr
    intro t ht
    obtain ⟨i, hi, hcovers, -⟩ := mem_matching.mp ht
    exact h i hi hcovers
  rw [memoryType, if_neg (not_not.mpr hon), if_pos hnil]

theorem memoryType_of_covers (hon : r.Enabled) {i t : Nat} (hi : i < r.vcnt)
    (hcovers : r.Covers i a) (h : ∀ j < r.vcnt, r.Covers j a → r.typeOf j = t) :
    r.memoryType a = some t := by
  have hall : ∀ x ∈ r.matching a, x = t := by
    intro x hx
    obtain ⟨j, hj, hc, rfl⟩ := mem_matching.mp hx
    exact h j hj hc
  have hmem : t ∈ r.matching a := mem_matching.mpr ⟨i, hi, hcovers, h i hi hcovers⟩
  have hne : r.matching a ≠ [] := List.ne_nil_of_mem hmem
  have hhead : (r.matching a).headI = t := by
    cases hlist : r.matching a with
    | nil => exact absurd hlist hne
    | cons x rest => exact hall x (hlist ▸ List.mem_cons_self)
  rw [memoryType, if_neg (not_not.mpr hon), if_neg hne]
  by_cases huc : typeUc ∈ r.matching a
  · rw [if_pos huc, hall _ huc]
  · rw [if_neg huc, if_pos fun x hx => (hall x hx).trans hhead.symm, hhead]

theorem memoryType_congr (hon : r.Enabled ↔ r'.Enabled) (hdefault : r'.defaultType = r.defaultType)
    (hvcnt : r'.vcnt = r.vcnt) (hcovers : ∀ i < r.vcnt, r'.Covers i a ↔ r.Covers i a)
    (htype : ∀ i < r.vcnt, r.Covers i a → r'.typeOf i = r.typeOf i) :
    r'.memoryType a = r.memoryType a := by
  have hmatching : r'.matching a = r.matching a := by
    have hfilter : ((List.range r.vcnt).filter fun i => decide (r'.Covers i a)) =
        (List.range r.vcnt).filter fun i => decide (r.Covers i a) := by
      apply List.filter_congr
      intro i hi
      exact decide_eq_decide.mpr (hcovers i (List.mem_range.mp hi))
    rw [matching, matching, hvcnt, hfilter]
    apply List.map_congr_left
    intro i hi
    obtain ⟨hi, hc⟩ := List.mem_filter.mp hi
    exact htype i (List.mem_range.mp hi) (of_decide_eq_true hc)
  rw [memoryType, memoryType, hmatching, hdefault]
  simp only [hon]

theorem coveringType_spec :
    (∃ i < r.variableCount, r.Covers i a ∧ r.coveringType a = some (r.typeOf i)) ∨
      (∀ i < r.variableCount, ¬ r.Covers i a) ∧ r.coveringType a = none := by
  rw [coveringType]
  cases hfind : (List.range r.variableCount).find? fun i => decide (r.Covers i a) with
  | none =>
    refine Or.inr ⟨fun i hi hcovers => ?_, rfl⟩
    have hnot := List.find?_eq_none.mp hfind i (List.mem_range.mpr hi)
    exact hnot (decide_eq_true hcovers)
  | some i =>
    have hcovers := List.find?_some hfind
    have hmem := List.mem_of_find?_eq_some hfind
    exact Or.inl ⟨i, List.mem_range.mp hmem, of_decide_eq_true hcovers, rfl⟩

theorem variableCount_le : r.variableCount ≤ r.vcnt := min_le_left _ _

end Types

end Registers

/-! ## What a call does -/

/-- At most one pair covers addresses of the range, and that pair describes the block. -/
def Sole (r : Registers) (physical length : Msr) : Prop :=
  ∃ j, ∀ i < r.vcnt, ∀ a, InRange physical length a → IsPhysical a → r.Covers i a →
    i = j ∧ i < r.variableCount ∧ ∀ base size, alignRange physical length = some (base, size) →
      r.Describes i base (maskOf size)

section Calls

variable {s : State} {physical length base size a : Msr}

theorem setWriteCombining_regs (s : State) (physical length : Msr) :
    (setWriteCombining s physical length).2.regs = s.regs ∨
      ∃ base size slot, alignRange physical length = some (base, size) ∧
        s.regs.findSlot base (maskOf size) = some slot ∧
        (setWriteCombining s physical length).2.regs = s.regs.write slot base (maskOf size) := by
  unfold setWriteCombining
  split
  · exact Or.inl rfl
  · split
    · exact Or.inl rfl
    · cases halign : alignRange physical length with
      | none => exact Or.inl rfl
      | some block =>
        dsimp only
        split
        · exact Or.inl rfl
        · cases hslot : s.regs.findSlot block.1 (maskOf block.2) with
          | none => exact Or.inl rfl
          | some slot =>
            refine Or.inr ⟨block.1, block.2, slot, rfl, hslot, ?_⟩
            dsimp only
            split <;> rfl

theorem write_defType (hon : s.regs.Enabled) (slot : Nat) :
    (s.regs.write slot base (maskOf size)).defType = s.regs.defType := if_pos hon

theorem memoryType_outside (hon : s.regs.Enabled) (hp : IsPhysical physical) (ha : IsPhysical a)
    (hout : ¬ InBlock physical length a) :
    (setWriteCombining s physical length).2.regs.memoryType a = s.regs.memoryType a := by
  rcases setWriteCombining_regs s physical length with hsame |
    ⟨base, size, slot, halign, hslot, hregs⟩
  · rw [hsame]
  · have haligned := alignRange_aligned halign
    have hmask : ¬ a &&& maskOf size = physical &&& maskOf size :=
      mt (haligned.mask a ha hp).mp hout
    have hold : ¬ s.regs.Covers slot a := by
      rcases (Registers.findSlot_spec hslot).2 with hdescribes | ⟨hfree, -⟩
      · exact mt (hdescribes.covers haligned).mp hmask
      · exact fun hcovers => hfree hcovers.1
    rw [hregs]
    apply Registers.memoryType_congr
    · simp only [Registers.Enabled, write_defType hon]
    · simp only [Registers.defaultType, write_defType hon]
    · rfl
    · intro i _
      by_cases hi : i = slot
      · subst hi
        exact iff_of_false (mt (Registers.write_covers haligned).mp hmask) hold
      · exact Registers.write_covers_of_ne hi
    · intro i _ hcovers
      apply Registers.write_typeOf_of_ne
      rintro rfl
      exact hold hcovers

def Contained (physical length : Msr) : Prop :=
  ∀ a, InRange physical length a → IsPhysical a → InBlock physical length a

theorem inRange_self (hlen : 0 < length.toNat) : InRange physical length physical :=
  ⟨Nat.le_refl _, Nat.lt_add_of_pos_right hlen⟩

theorem covers_range {r : Registers} {i : Nat} (haligned : Aligned physical length base size)
    (hp : IsPhysical physical) (hcontained : Contained physical length)
    (hdescribes : r.Describes i base (maskOf size)) (hr : InRange physical length a)
    (ha : IsPhysical a) : r.Covers i a :=
  (hdescribes.covers haligned).mpr ((haligned.mask a ha hp).mpr (hcontained a hr ha))

theorem memoryType_already {r : Registers} (hon : r.Enabled) (hp : IsPhysical physical)
    (hlen : 0 < length.toNat) (halign : alignRange physical length = some (base, size))
    (hcontained : Contained physical length) (hsole : Sole r physical length)
    (hwc : (r.coveringType physical).getD r.defaultType = typeWc)
    (hr : InRange physical length a) (ha : IsPhysical a) : r.memoryType a = some typeWc := by
  obtain ⟨j, hsole⟩ := hsole
  have haligned := alignRange_aligned halign
  rcases r.coveringType_spec (a := physical) with ⟨i, hi, hcovers, htype⟩ | ⟨hnone, htype⟩
  · have hi' : i < r.vcnt := Nat.lt_of_lt_of_le hi r.variableCount_le
    obtain ⟨rfl, -, hdescribes⟩ := hsole i hi' physical (inRange_self hlen) hp hcovers
    rw [htype, Option.getD_some] at hwc
    have hcover := covers_range haligned hp hcontained (hdescribes base size halign) hr ha
    apply Registers.memoryType_of_covers hon hi' hcover
    intro k hk hc
    rw [(hsole k hk a hr ha hc).1, hwc]
  · rw [htype, Option.getD_none] at hwc
    rw [← hwc]
    apply Registers.memoryType_default hon
    intro i hi hcovers
    obtain ⟨-, hi', hdescribes⟩ := hsole i hi a hr ha hcovers
    exact hnone i hi' (covers_range haligned hp hcontained (hdescribes base size halign)
      (inRange_self hlen) hp)

theorem only_written {r : Registers} {slot i : Nat} (hp : IsPhysical physical)
    (hlen : 0 < length.toNat) (halign : alignRange physical length = some (base, size))
    (hcontained : Contained physical length) (hsole : Sole r physical length)
    (hslot : r.findSlot base (maskOf size) = some slot) (hi : i < r.vcnt)
    (hr : InRange physical length a) (ha : IsPhysical a)
    (hcovers : (r.write slot base (maskOf size)).Covers i a) : i = slot := by
  by_contra hne
  obtain ⟨j, hsole⟩ := hsole
  have haligned := alignRange_aligned halign
  have hold := (Registers.write_covers_of_ne hne).mp hcovers
  obtain ⟨rfl, hcount, hdescribes⟩ := hsole i hi a hr ha hold
  obtain ⟨hslotlt, hthis | ⟨-, hother⟩⟩ := Registers.findSlot_spec hslot
  · have hphysical := covers_range haligned hp hcontained hthis (inRange_self hlen) hp
    have hslot' := Nat.lt_of_lt_of_le hslotlt r.variableCount_le
    exact hne (hsole slot hslot' physical (inRange_self hlen) hp hphysical).1.symm
  · exact hother i hcount (hdescribes base size halign)

section Written

variable {r : Registers} {slot : Nat} (hp : IsPhysical physical) (hlen : 256 ≤ length.toNat)
  (halign : alignRange physical length = some (base, size))
  (hcontained : Contained physical length) (hsole : Sole r physical length)
  (hslot : r.findSlot base (maskOf size) = some slot)

include hp hlen halign hcontained hsole hslot

theorem memoryType_written (hon : r.Enabled) (hr : InRange physical length a)
    (ha : IsPhysical a) : (r.write slot base (maskOf size)).memoryType a = some typeWc := by
  have haligned := alignRange_aligned halign
  have hslot' : slot < r.vcnt :=
    Nat.lt_of_lt_of_le (Registers.findSlot_spec hslot).1 r.variableCount_le
  have hon' : (r.write slot base (maskOf size)).Enabled := by
    have hdef : (r.write slot base (maskOf size)).defType = r.defType := if_pos hon
    rw [Registers.Enabled, hdef]
    exact hon
  have hcovers : (r.write slot base (maskOf size)).Covers slot a :=
    (Registers.write_covers haligned).mpr ((haligned.mask a ha hp).mpr (hcontained a hr ha))
  apply Registers.memoryType_of_covers hon' hslot' hcovers
  intro i hi hc
  obtain rfl := only_written hp (by omega) halign hcontained hsole hslot hi hr ha hc
  exact Registers.write_typeOf (haligned.low hlen)

theorem coveringType_written :
    (r.write slot base (maskOf size)).coveringType physical = some typeWc := by
  have haligned := alignRange_aligned halign
  have hself : InRange physical length physical := inRange_self (by omega)
  have hslotlt := (Registers.findSlot_spec hslot).1
  rcases Registers.coveringType_spec (r := r.write slot base (maskOf size)) (a := physical) with
    ⟨i, hi, hcovers, htype⟩ | ⟨hnone, -⟩
  · have hi' : i < r.vcnt := Nat.lt_of_lt_of_le hi r.variableCount_le
    obtain rfl := only_written hp (by omega) halign hcontained hsole hslot hi' hself hp hcovers
    rw [htype, Registers.write_typeOf (haligned.low hlen)]
  · exact absurd ((Registers.write_covers haligned).mpr rfl) (hnone slot hslotlt)

end Written

end Calls

/-- Ten pairs, none in use, and the default type WB. -/
def allWb : State where
  regs :=
    { cap := 0x40a#64
      defType := 0x806#64
      physBase _ := 0
      physMask _ := 0 }
  wcRanges := 0
  fbTypeBefore := 0
  fbTypeAfter := 0

end Vibra.Mtrr
