import Mathlib.Tactic.Positivity
import Mathlib.Tactic.Ring
import Vibra.Pci.Bars

/-! # What one assignment does

`assignBar0IfNeeded` moves BAR 0 or leaves the function as it was.
-/

namespace Vibra.Pci

open Lib (alignUp)

namespace Bar

variable {b : Bar} {value : Nat}

theorem flags_lt (b : Bar) : b.flags < 16 ∧ b.flags < 2 ^ min b.bits 32 := by
  have hsizes := b.sizes
  have hmemory (h : 4 ≤ b.bits) : 2 ^ 4 ≤ 2 ^ min b.bits 32 :=
    Nat.pow_le_pow_right (by decide) (by omega)
  cases hkind : b.kind with
  | unused =>
    simp only [flags, hkind]
    exact ⟨by decide, Nat.two_pow_pos _⟩
  | io =>
    rw [hkind] at hsizes
    simp only [flags, hkind]
    exact ⟨by decide, Nat.one_lt_two_pow (by have := hsizes.1; omega)⟩
  | mem32 =>
    rw [hkind] at hsizes
    have hpow := hmemory hsizes.1
    simp only [flags, hkind]
    split <;> omega
  | mem64 =>
    rw [hkind] at hsizes
    have hpow := hmemory hsizes.1
    simp only [flags, hkind]
    split <;> omega

theorem low_le (b : Bar) : b.low + 2 ^ min b.bits 32 ≤ 2 ^ 32 := by
  have hpow : 2 ^ (32 - b.bits) * 2 ^ min b.bits 32 = 2 ^ 32 := by
    rw [← Nat.pow_add]
    congr 1
    omega
  calc b.low + 2 ^ min b.bits 32 = (b.lo + 1) * 2 ^ min b.bits 32 := by rw [low]; ring
    _ ≤ 2 ^ (32 - b.bits) * 2 ^ min b.bits 32 := Nat.mul_le_mul_right _ b.lo_lt
    _ = 2 ^ 32 := hpow

theorem high_lt (b : Bar) : b.high + 2 ^ (b.bits - 32) ≤ 2 ^ 32 := by
  have hbits : b.bits ≤ 64 := by
    have hsizes := b.sizes
    cases hkind : b.kind <;> rw [hkind] at hsizes <;> simp only [BarKind.Sizes] at hsizes <;> omega
  have hpow : 2 ^ (32 - (b.bits - 32)) * 2 ^ (b.bits - 32) = 2 ^ 32 := by
    rw [← Nat.pow_add]
    congr 1
    omega
  calc b.high + 2 ^ (b.bits - 32) = (b.hi + 1) * 2 ^ (b.bits - 32) := by rw [high]; ring
    _ ≤ 2 ^ (32 - (b.bits - 32)) * 2 ^ (b.bits - 32) := Nat.mul_le_mul_right _ b.hi_lt
    _ = 2 ^ 32 := hpow

@[simp] theorem kind_writeLow (b : Bar) (value : Nat) : (b.writeLow value).kind = b.kind := rfl

@[simp] theorem kind_writeHigh (b : Bar) (value : Nat) : (b.writeHigh value).kind = b.kind := rfl

theorem writeLow_eq (h : value % 2 ^ 32 / 2 ^ min b.bits 32 = b.lo) : b.writeLow value = b := by
  cases b
  simp only [writeLow] at h ⊢
  simp only [h]

theorem writeHigh_eq (h : value % 2 ^ 32 / 2 ^ (b.bits - 32) = b.hi) : b.writeHigh value = b := by
  have hhi := b.hi_eq
  cases b
  simp only [writeHigh] at h hhi ⊢
  simp only [h, mk.injEq, true_and]
  split
  · rename_i hone
    exact (hhi hone).symm
  · rfl

theorem writeLow_read (b : Bar) : b.writeLow (b.read 0) = b := by
  have hflags := (flags_lt b).2
  have hlow := b.low_le
  refine writeLow_eq ?_
  rw [read, if_pos rfl, Nat.mod_eq_of_lt (by omega), low, Nat.add_comm,
    Nat.add_mul_div_right _ _ (Nat.two_pow_pos _), Nat.div_eq_of_lt hflags, Nat.zero_add]

theorem writeHigh_read (b : Bar) : b.writeHigh (b.read 1) = b := by
  have hhigh := b.high_lt
  have hpos := Nat.two_pow_pos (b.bits - 32)
  refine writeHigh_eq ?_
  rw [read, if_neg (by decide), Nat.mod_eq_of_lt (by omega), high,
    Nat.mul_div_cancel _ hpos]

theorem low_writeLow_ones (b : Bar) : (b.writeLow 0xFFFFFFFF).low = 2 ^ 32 - 2 ^ min b.bits 32 := by
  obtain ⟨k, hk⟩ : ∃ k, 2 ^ 32 = 2 ^ k * 2 ^ min b.bits 32 :=
    ⟨32 - min b.bits 32, by rw [← Nat.pow_add]; congr 1; omega⟩
  have hpos := Nat.two_pow_pos (min b.bits 32)
  have hdiv : 0xFFFFFFFF / 2 ^ min b.bits 32 = 2 ^ k - 1 := by
    have hsub := Nat.mul_sub_div 0 (2 ^ min b.bits 32) (2 ^ k) (by positivity)
    rwa [Nat.mul_comm, ← hk, Nat.zero_div] at hsub
  show 0xFFFFFFFF % 2 ^ 32 / 2 ^ min b.bits 32 * 2 ^ min b.bits 32 = _
  rw [Nat.mod_eq_of_lt (by decide), hdiv, Nat.sub_mul, ← hk, Nat.one_mul]

theorem high_writeHigh_ones (hkind : b.kind = .mem64) :
    (b.writeHigh 0xFFFFFFFF).high = 2 ^ 32 - 2 ^ (b.bits - 32) := by
  have hsizes := b.sizes
  rw [hkind] at hsizes
  obtain ⟨k, hk⟩ : ∃ k, 2 ^ 32 = 2 ^ k * 2 ^ (b.bits - 32) :=
    ⟨32 - (b.bits - 32), by rw [← Nat.pow_add]; congr 1; have := hsizes.2; omega⟩
  have hpos := Nat.two_pow_pos (b.bits - 32)
  have hdiv : 0xFFFFFFFF / 2 ^ (b.bits - 32) = 2 ^ k - 1 := by
    have hsub := Nat.mul_sub_div 0 (2 ^ (b.bits - 32)) (2 ^ k) (by positivity)
    rwa [Nat.mul_comm, ← hk, Nat.zero_div] at hsub
  have hhi : (b.writeHigh 0xFFFFFFFF).hi = 0xFFFFFFFF % 2 ^ 32 / 2 ^ (b.bits - 32) :=
    if_neg (by rw [hkind]; decide)
  show (b.writeHigh 0xFFFFFFFF).hi * 2 ^ (b.bits - 32) = _
  rw [hhi, Nat.mod_eq_of_lt (by decide), hdiv, Nat.sub_mul, ← hk, Nat.one_mul]

theorem type_read (hio : b.kind ≠ .io) : b.read 0 % 2 = 0 ∧ b.read 0 / 16 * 16 = b.low ∧
    (b.read 0 / 2 % 4 = 2 ↔ b.kind = .mem64) := by
  obtain ⟨q, hq⟩ : ∃ q, b.low = 16 * q := by
    have hsizes := b.sizes
    have hbits : 4 ≤ min b.bits 32 := by
      cases hkind : b.kind <;> rw [hkind] at hsizes
      · rw [show b.bits = 32 from hsizes]
        decide
      · exact absurd hkind hio
      · have := hsizes.1
        omega
      · have := hsizes.1
        omega
    obtain ⟨d, hd⟩ := Nat.pow_dvd_pow 2 hbits
    exact ⟨b.lo * d, by rw [low, hd]; ring⟩
  rw [read, if_pos rfl, hq]
  cases hkind : b.kind with
  | unused =>
    simp only [flags, hkind, reduceCtorEq, iff_false]
    omega
  | io => exact absurd hkind hio
  | mem32 =>
    simp only [flags, hkind, reduceCtorEq, iff_false]
    split <;> omega
  | mem64 =>
    simp only [flags, hkind, iff_true]
    split <;> omega

theorem read_of_io (h : b.kind = .io) : b.read 0 % 2 = 1 := by
  have hsizes := b.sizes
  rw [h] at hsizes
  obtain ⟨d, hd⟩ := Nat.pow_dvd_pow 2 (show 1 ≤ min b.bits 32 by have := hsizes.1; omega)
  have hflags : b.flags = 1 := by simp only [flags, h]
  rw [read, if_pos rfl, low, hd, hflags]
  have : b.lo * (2 ^ 1 * d) = 2 * (b.lo * d) := by ring
  omega

theorem high_eq_zero (h : b.kind ≠ .mem64) : b.high = 0 := by
  have hone : b.kind.registers = 1 := by
    cases hkind : b.kind with
    | mem64 => exact absurd hkind h
    | _ => rfl
  rw [high, b.hi_eq hone, Nat.zero_mul]

theorem address_of_not_mem64 (h : b.kind ≠ .mem64) : b.address = b.low := by
  rw [address, high_eq_zero h, Nat.zero_mul, Nat.zero_add]

def moveTo (b : Bar) (base : Nat) : Bar :=
  (b.writeLow (base % 2 ^ 32)).writeHigh (base / 2 ^ 32)

theorem address_moveTo {base : Nat} (hdvd : b.size ∣ base) (hbits : b.bits ≤ 32)
    (hlt : base < 2 ^ 32) : (b.moveTo base).address = base := by
  have hhigh : (b.moveTo base).hi = 0 := by
    show (if _ then 0 else base / 2 ^ 32 % 2 ^ 32 / 2 ^ (b.bits - 32)) = 0
    rw [Nat.div_eq_of_lt hlt, Nat.zero_mod, Nat.zero_div, ite_self]
  rw [address, high, hhigh, Nat.zero_mul, Nat.zero_mul, Nat.zero_add]
  show base % 2 ^ 32 % 2 ^ 32 / 2 ^ min b.bits 32 * 2 ^ min b.bits 32 = base
  rw [Nat.mod_mod, Nat.mod_eq_of_lt hlt, Nat.min_eq_left hbits]
  exact Nat.div_mul_cancel hdvd

end Bar

/-! ## The configuration space -/

namespace PciFunction

variable {f : PciFunction}

def withBar0 (f : PciFunction) (b : Bar) (h : b.kind = f.bar0.kind) : PciFunction :=
  { f with
    bar0 := b
    six := by rw [List.map_cons, h]; exact f.six }

@[simp] theorem bar0_withBar0 (f : PciFunction) (b : Bar) (h : b.kind = f.bar0.kind) :
    (f.withBar0 b h).bar0 = b := rfl

@[simp] theorem withBar0_withBar0 (f : PciFunction) (b c : Bar) (hb : b.kind = f.bar0.kind)
    (hc : c.kind = (f.withBar0 b hb).bar0.kind) :
    (f.withBar0 b hb).withBar0 c hc = f.withBar0 c (hc.trans hb) := rfl

theorem registers_pos (kind : BarKind) : 0 < kind.registers := by
  cases kind <;> decide

theorem readBar_zero (f : PciFunction) : f.readBar 0 = f.bar0.read 0 :=
  if_pos (registers_pos _)

theorem readBar_one (h : f.bar0.kind = .mem64) : f.readBar 1 = f.bar0.read 1 :=
  if_pos (by rw [h]; decide)

theorem writeBar_zero (f : PciFunction) (value : Nat) :
    f.writeBar 0 value = f.withBar0 (f.bar0.writeLow value) (f.bar0.kind_writeLow value) :=
  if_pos (registers_pos _)

theorem writeBar_one (h : f.bar0.kind = .mem64) (value : Nat) :
    f.writeBar 1 value = f.withBar0 (f.bar0.writeHigh value) (f.bar0.kind_writeHigh value) :=
  if_pos (by rw [h]; decide)

theorem writeBar_both (h : f.bar0.kind = .mem64) (low high : Nat) :
    (f.writeBar 0 low).writeBar 1 high =
      f.withBar0 ((f.bar0.writeLow low).writeHigh high) (by simp) := by
  rw [writeBar_zero, writeBar_one (by simpa using h)]
  rfl

theorem withBar0_self {b : Bar} {hk : b.kind = f.bar0.kind} (h : b = f.bar0) :
    f.withBar0 b hk = f := by
  subst h
  rfl

end PciFunction

variable {f : PciFunction}

def sizeMask (b : Bar) : Nat :=
  match b.kind with
  | .mem64 => 2 ^ 64 - b.size
  | .mem32 => 2 ^ 32 - b.size
  | _ => 0

theorem sizeMask_of_mem64 {b : Bar} (h : b.kind = .mem64) : sizeMask b = 2 ^ 64 - b.size := by
  simp only [sizeMask, h]

theorem probe_of_mem64 (h : f.bar0.kind = .mem64) :
    probe f true (f.bar0.read 0) (f.bar0.read 1) = (f, sizeMask f.bar0) := by
  have hsizes := f.bar0.sizes
  rw [h] at hsizes
  let b := (f.bar0.writeLow 0xFFFFFFFF).writeHigh 0xFFFFFFFF
  have hb : b.kind = .mem64 := h
  have hrestore : (b.writeLow (f.bar0.read 0)).writeHigh (f.bar0.read 1) = f.bar0 := by
    show (f.bar0.writeLow (f.bar0.read 0)).writeHigh (f.bar0.read 1) = f.bar0
    rw [f.bar0.writeLow_read, f.bar0.writeHigh_read]
  have hlow : b.read 0 / 16 * 16 = 2 ^ 32 - 2 ^ min f.bar0.bits 32 := by
    rw [(Bar.type_read (by rw [hb]; exact nofun)).2.1]
    exact f.bar0.low_writeLow_ones
  have hhigh : b.read 1 = 2 ^ 32 - 2 ^ (f.bar0.bits - 32) :=
    Bar.high_writeHigh_ones (b := f.bar0.writeLow 0xFFFFFFFF) h
  obtain ⟨hk, hprobe⟩ : ∃ hk, probe f true (f.bar0.read 0) (f.bar0.read 1) =
      (f.withBar0 ((b.writeLow (f.bar0.read 0)).writeHigh (f.bar0.read 1)) hk,
        b.read 1 * 2 ^ 32 + b.read 0 / 16 * 16) := by
    refine ⟨by simp [b], ?_⟩
    simp [probe, PciFunction.writeBar_zero, PciFunction.writeBar_one, PciFunction.readBar_zero,
      PciFunction.readBar_one, h, b]
  rw [hprobe, PciFunction.withBar0_self hrestore, hlow, hhigh, sizeMask_of_mem64 h, Bar.size]
  congr 1
  rcases Nat.le_total f.bar0.bits 32 with hle | hle
  · have hpow : 2 ^ f.bar0.bits ≤ 2 ^ 32 := Nat.pow_le_pow_right (by decide) hle
    rw [Nat.min_eq_left hle, Nat.sub_eq_zero_of_le hle, Nat.pow_zero]
    omega
  · have hpow : 2 ^ f.bar0.bits = 2 ^ (f.bar0.bits - 32) * 2 ^ 32 := by
      rw [← Nat.pow_add, Nat.sub_add_cancel hle]
    rw [Nat.min_eq_right hle, hpow]
    omega

theorem probe_of_not_mem64 {high : Nat} (hio : f.bar0.kind ≠ .io) (h : f.bar0.kind ≠ .mem64) :
    probe f false (f.bar0.read 0) high = (f, sizeMask f.bar0) := by
  let b := f.bar0.writeLow 0xFFFFFFFF
  have hrestore : b.writeLow (f.bar0.read 0) = f.bar0 := f.bar0.writeLow_read
  have hlow : b.read 0 / 16 * 16 = 2 ^ 32 - 2 ^ min f.bar0.bits 32 := by
    rw [(Bar.type_read (show b.kind ≠ .io from hio)).2.1]
    exact f.bar0.low_writeLow_ones
  obtain ⟨hk, hprobe⟩ : ∃ hk, probe f false (f.bar0.read 0) high =
      (f.withBar0 (b.writeLow (f.bar0.read 0)) hk, 0 * 2 ^ 32 + b.read 0 / 16 * 16) := by
    refine ⟨by simp [b], ?_⟩
    simp [probe, PciFunction.writeBar_zero, PciFunction.readBar_zero, b]
  have hsizes := f.bar0.sizes
  rw [hprobe, PciFunction.withBar0_self hrestore, hlow, sizeMask]
  cases hkind : f.bar0.kind with
  | unused =>
    rw [hkind] at hsizes
    rw [show f.bar0.bits = 32 from hsizes]
    rfl
  | io => exact absurd hkind hio
  | mem32 =>
    rw [hkind] at hsizes
    rw [Nat.min_eq_left (by have := hsizes.2; omega), Nat.zero_mul, Nat.zero_add, Bar.size]
  | mem64 => exact absurd hkind h

/-- A BAR that `init` is to place: it has no address, or one above the window. -/
structure Bar.Stray (b : Bar) : Prop where
  memory : b.kind.IsMemory
  outside : b.address = 0 ∨ mmioLimit ≤ b.address
  size : b.size ≤ 64 * 2 ^ 20

def Bar.Fits (nextMmio : Nat) (b : Bar) : Prop := alignUp b.size nextMmio + b.size ≤ mmioLimit

structure Bar.Moves (nextMmio : Nat) (b : Bar) : Prop where
  stray : b.Stray
  mem64 : b.kind = .mem64
  fits : b.Fits nextMmio

def PciFunction.moveTo (f : PciFunction) (base : Nat) : PciFunction :=
  (f.withBar0 (f.bar0.moveTo base) rfl).writeCommand (f.command ||| 0x0002 ||| 0x0004)

section Assign

variable {nextMmio : Nat}

theorem scan_headerType (f : PciFunction) : ¬ f.scan.headerType % 128 ≠ 0 :=
  not_not.mpr f.type0

theorem scan_bar0 (f : PciFunction) : f.scan.bar0 = f.bar0.read 0 := f.readBar_zero

theorem size_of_mem64 {b : Bar} (h : b.kind = .mem64) :
    2 ^ 4 ≤ b.size ∧ b.size ≤ 2 ^ 63 := by
  have hsizes := b.sizes
  rw [h] at hsizes
  exact ⟨Nat.pow_le_pow_right (by decide) hsizes.1, Nat.pow_le_pow_right (by decide) hsizes.2⟩

theorem assign_of_not_mem64 (h : f.bar0.kind ≠ .mem64) :
    assignBar0IfNeeded f f.scan nextMmio = (f, f.scan, nextMmio) := by
  unfold assignBar0IfNeeded
  rw [if_neg (scan_headerType f), scan_bar0]
  by_cases hio : f.bar0.kind = .io
  · have hodd := Bar.read_of_io hio
    exact if_pos (Or.inr (by omega))
  · obtain ⟨heven, -, htype⟩ := Bar.type_read hio
    have his64 : (f.bar0.read 0 / 2 % 4 == 2) = false := by
      rw [beq_eq_false_iff_ne]
      exact fun htwo => h (htype.mp htwo)
    have hprobe : probe (f.writeCommand (f.command &&& 0xFFFD)) false (f.bar0.read 0) 0 =
        (f.writeCommand (f.command &&& 0xFFFD), sizeMask f.bar0) :=
      probe_of_not_mem64 (f := f.writeCommand _) hio h
    rw [if_neg (by omega)]
    simp only [his64, Bool.false_eq_true, if_false, hprobe]
    split
    · rfl
    · have hmask : sizeMask f.bar0 = 0 ∨
          64 * 2 ^ 20 < (2 ^ 64 - sizeMask f.bar0) % 2 ^ 64 := by
        unfold sizeMask
        split
        · exact absurd ‹_› h
        · refine Or.inr ?_
          have hsizes := f.bar0.sizes
          rw [‹f.bar0.kind = .mem32›] at hsizes
          have hlo : 2 ^ 4 ≤ f.bar0.size := Nat.pow_le_pow_right (by decide) hsizes.1
          have hhi : f.bar0.size ≤ 2 ^ 31 := Nat.pow_le_pow_right (by decide) hsizes.2
          omega
        · exact Or.inl rfl
      split
      · rfl
      · rename_i hzero
        rw [if_pos (Or.inr (Or.inl (hmask.resolve_left fun h => hzero (Or.inl h))))]
        rfl

theorem assign_of_mem64 (h : f.bar0.kind = .mem64) :
    assignBar0IfNeeded f f.scan nextMmio =
      if f.bar0.address ≠ 0 ∧ f.bar0.address < mmioLimit then (f, f.scan, nextMmio)
      else if 64 * 2 ^ 20 < f.bar0.size then (f, f.scan, nextMmio)
      else
        let base := alignUp f.bar0.size nextMmio
        if mmioLimit ≤ base ∨ mmioLimit < base + f.bar0.size then (f, f.scan, nextMmio)
        else (f.moveTo base,
          { f.scan with
            bar0 := base % 2 ^ 32 ||| f.bar0.read 0 % 16
            bar1 := base / 2 ^ 32
            barPhys := (f.scan.barPhys.set 0 base).set 1 0 },
          base + f.bar0.size) := by
  obtain ⟨heven, hlow, htype⟩ := Bar.type_read (b := f.bar0) (by rw [h]; exact nofun)
  obtain ⟨hlo, hhi⟩ := size_of_mem64 h
  have his64 : (f.bar0.read 0 / 2 % 4 == 2) = true := beq_iff_eq.mpr (htype.mpr h)
  have hbar1 : f.scan.bar1 = f.bar0.high := f.readBar_one h
  have hprobe : probe (f.writeCommand (f.command &&& 0xFFFD)) true (f.bar0.read 0) f.bar0.high =
      (f.writeCommand (f.command &&& 0xFFFD), sizeMask f.bar0) :=
    probe_of_mem64 (f := f.writeCommand _) h
  have hsize : (2 ^ 64 - (2 ^ 64 - f.bar0.size)) % 2 ^ 64 = f.bar0.size := by omega
  have hpower : isPowerOfTwo f.bar0.size = true := by
    rw [isPowerOfTwo, Bar.size, Nat.log2_two_pow, beq_self_eq_true]
  unfold assignBar0IfNeeded
  rw [if_neg (scan_headerType f), scan_bar0, if_neg (by omega)]
  simp only [his64, if_true, hbar1, hlow, hprobe, sizeMask_of_mem64 h, hsize, hpower]
  rw [show f.bar0.high * 2 ^ 32 + f.bar0.low = f.bar0.address from rfl]
  by_cases houtside : f.bar0.address ≠ 0 ∧ f.bar0.address < mmioLimit
  · rw [if_pos houtside, if_pos houtside]
  · rw [if_neg houtside, if_neg houtside, if_neg (by omega)]
    by_cases hlarge : 64 * 2 ^ 20 < f.bar0.size
    · rw [if_pos hlarge, if_pos (Or.inr (Or.inl hlarge))]
      rfl
    · rw [if_neg hlarge, if_neg (by simp; omega), show (nextMmio + f.bar0.size - 1) /
          f.bar0.size * f.bar0.size = alignUp f.bar0.size nextMmio from rfl]
      by_cases hroom : mmioLimit ≤ alignUp f.bar0.size nextMmio ∨
          mmioLimit < alignUp f.bar0.size nextMmio + f.bar0.size
      · rw [if_pos hroom, if_pos hroom]
        rfl
      · rw [if_neg hroom, if_neg hroom, PciFunction.writeBar_both
          (show (f.writeCommand (f.command &&& 0xFFFD)).bar0.kind = _ from h)]
        rfl

theorem Bar.Moves.assign (h : f.bar0.Moves nextMmio) :
    (assignBar0IfNeeded f f.scan nextMmio).1 = f.moveTo (alignUp f.bar0.size nextMmio) ∧
      (assignBar0IfNeeded f f.scan nextMmio).2.2 =
        alignUp f.bar0.size nextMmio + f.bar0.size := by
  have houtside := h.stray.outside
  have hsize := h.stray.size
  have hfits := h.fits
  obtain ⟨hlo, -⟩ := size_of_mem64 h.mem64
  unfold Bar.Fits at hfits
  rw [assign_of_mem64 h.mem64, if_neg (by omega), if_neg (by omega)]
  dsimp only
  rw [if_neg (by omega)]
  exact ⟨rfl, rfl⟩

theorem assign_of_not_moves (h : ¬ f.bar0.Moves nextMmio) :
    assignBar0IfNeeded f f.scan nextMmio = (f, f.scan, nextMmio) := by
  by_cases hkind : f.bar0.kind = .mem64
  · rw [assign_of_mem64 hkind]
    split
    · rfl
    · split
      · rfl
      · dsimp only
        rw [if_pos]
        by_contra hroom
        exact h ⟨⟨Or.inr hkind, by omega, by omega⟩, hkind, by unfold Bar.Fits; omega⟩
  · exact assign_of_not_mem64 hkind

end Assign

end Vibra.Pci
