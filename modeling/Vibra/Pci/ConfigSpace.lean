import Vibra.Lib.Checked

/-! # Accesses to configuration space

Configuration space is made of 32-bit registers, and a bit is ordinary, read-only or cleared when a
one is written. The 16-bit accessors write the whole register:
-/

namespace Vibra.Pci

/-- The bits of a register that hold what is written, and those that a one clears; the others
are read-only. -/
structure BitKinds where
  rw : BitVec 32
  w1c : BitVec 32
  apart : rw &&& w1c = 0#32

namespace BitKinds

variable (kinds : BitKinds)

def write (old value : BitVec 32) : BitVec 32 :=
  (old &&& ~~~(kinds.rw ||| (kinds.w1c &&& value))) ||| (value &&& kinds.rw)

theorem getLsbD_apart (i : Nat) : (kinds.rw.getLsbD i && kinds.w1c.getLsbD i) = false := by
  rw [← BitVec.getLsbD_and, kinds.apart, BitVec.getLsbD_zero]

theorem getLsbD_write {i : Nat} (hi : i < 32) (old value : BitVec 32) :
    (kinds.write old value).getLsbD i =
      (old.getLsbD i && !(kinds.rw.getLsbD i || kinds.w1c.getLsbD i && value.getLsbD i) ||
        value.getLsbD i && kinds.rw.getLsbD i) := by
  rw [write, BitVec.getLsbD_or, BitVec.getLsbD_and, BitVec.getLsbD_not, BitVec.getLsbD_or,
    BitVec.getLsbD_and, BitVec.getLsbD_and, decide_eq_true hi, Bool.true_and]

theorem write_keeps_iff {i : Nat} (hi : i < 32) (old value : BitVec 32) :
    (kinds.write old value).getLsbD i = old.getLsbD i ↔
      (kinds.rw.getLsbD i = true → value.getLsbD i = old.getLsbD i) ∧
        (kinds.w1c.getLsbD i = true → value.getLsbD i = false ∨ old.getLsbD i = false) := by
  rw [getLsbD_write kinds hi]
  have hapart := kinds.getLsbD_apart i
  cases hrw : kinds.rw.getLsbD i with
  | true =>
    rw [hrw, Bool.true_and] at hapart
    simp [hapart]
  | false => cases kinds.w1c.getLsbD i <;> cases value.getLsbD i <;> cases old.getLsbD i <;> decide

end BitKinds

structure ConfigSpace where
  kinds : Nat → BitKinds
  regs : Nat → BitVec 32

namespace ConfigSpace

variable (c : ConfigSpace)

/-- The low two bits of the offset are ignored, here and in `pciWriteU32`. -/
def pciReadU32 (offset : Nat) : BitVec 32 := c.regs (offset / 4)

def pciWriteU32 (offset : Nat) (value : BitVec 32) : ConfigSpace where
  kinds := c.kinds
  regs := fun n =>
    if n = offset / 4 then (c.kinds n).write (c.regs n) value else c.regs n

def pciReadU16 (offset : Nat) : BitVec 16 :=
  (c.pciReadU32 offset >>> ((offset &&& 2) * 8)).setWidth 16

def pciReadU8 (offset : Nat) : BitVec 8 :=
  (c.pciReadU32 offset >>> ((offset &&& 3) * 8)).setWidth 8

/-- What `pci_write_u16` writes to the register. -/
def merged (offset : Nat) (value : BitVec 16) : BitVec 32 :=
  let shift := (offset &&& 2) * 8
  let old := c.pciReadU32 offset
  let mask := ~~~(0xFFFF#32 <<< shift)
  (old &&& mask) ||| (value.setWidth 32 <<< shift)

def pciWriteU16 (offset : Nat) (value : BitVec 16) : ConfigSpace :=
  c.pciWriteU32 offset (c.merged offset value)

def pciWriteU16Config (offset : Nat) (value : BitVec 16) : ConfigSpace :=
  c.pciWriteU32 offset (value.setWidth 32)

@[simp] theorem kinds_pciWriteU32 (offset : Nat) (value : BitVec 32) :
    (c.pciWriteU32 offset value).kinds = c.kinds := rfl

@[simp] theorem kinds_pciWriteU16Config (offset : Nat) (value : BitVec 16) :
    (c.pciWriteU16Config offset value).kinds = c.kinds := rfl

/-- Bit `p` of the space; the registers lie one after another. -/
def bit (p : Nat) : Bool := (c.regs (p / 32)).getLsbD (p % 32)

def Addressed (offset p : Nat) : Prop := 8 * offset ≤ p ∧ p < 8 * offset + 16

def KeepsOthers (c' : ConfigSpace) (offset : Nat) : Prop :=
  ∀ p, ¬ Addressed offset p → c'.bit p = c.bit p

/-- A word that is written to the register at the offset finds its ordinary bits outside the 16
addressed ones as they are written, and no bit there that it clears. -/
def Harmless (offset : Nat) (word : BitVec 32) : Prop :=
  ∀ p, p / 32 = offset / 4 → ¬ Addressed offset p →
    ((c.kinds (p / 32)).rw.getLsbD (p % 32) = true → word.getLsbD (p % 32) = c.bit p) ∧
      ((c.kinds (p / 32)).w1c.getLsbD (p % 32) = true →
        word.getLsbD (p % 32) = false ∨ c.bit p = false)

theorem bit_pciWriteU32 (offset : Nat) (value : BitVec 32) {p : Nat} (hp : p / 32 = offset / 4) :
    (c.pciWriteU32 offset value).bit p =
      ((c.kinds (p / 32)).write (c.regs (p / 32)) value).getLsbD (p % 32) := by
  rw [bit, pciWriteU32]
  dsimp only
  rw [if_pos hp]

theorem bit_pciWriteU32_other (offset : Nat) (value : BitVec 32) {p : Nat}
    (hp : p / 32 ≠ offset / 4) : (c.pciWriteU32 offset value).bit p = c.bit p := by
  rw [bit, pciWriteU32]
  dsimp only
  rw [if_neg hp, bit]

theorem keepsOthers_iff (offset : Nat) (word : BitVec 32) :
    c.KeepsOthers (c.pciWriteU32 offset word) offset ↔ c.Harmless offset word := by
  refine forall_congr' fun p => ?_
  by_cases hp : p / 32 = offset / 4
  · rw [bit_pciWriteU32 c offset word hp, bit,
      BitKinds.write_keeps_iff _ (Nat.mod_lt _ (by decide))]
    exact ⟨fun h _ => h, fun h => h hp⟩
  · rw [bit_pciWriteU32_other c offset word hp]
    exact iff_of_true (fun _ => rfl) fun h => absurd h hp

end ConfigSpace

end Vibra.Pci
