import Vibra.Pci.ConfigSpace

/-! # Message-signalled interrupts

The capability list is walked from the pointer in the header, 64 entries at most.
-/

namespace Vibra.Pci

open Lib (Outcome)
open Lib.Outcome (add add_of_lt)

/-- `allocate_vector`: the vector, and the counter after it. -/
def allocateVector (next : Nat) : Nat × Nat :=
  if next = 0 then (64, 65) else (next, (next + 1) % 2 ^ 8)

def nextVector : (requests : Nat) → Nat
  | 0 => 64
  | n + 1 => (allocateVector (nextVector n)).2

def vector (requests : Nat) : Nat := (allocateVector (nextVector requests)).1

theorem nextVector_eq (n : Nat) :
    nextVector n = if n % 192 = 0 ∧ n ≠ 0 then 0 else 64 + n % 192 := by
  induction n with
  | zero => rfl
  | succ n ih =>
    rw [nextVector, ih, allocateVector]
    split
    · rw [if_pos rfl, if_neg (by omega)]
      dsimp only
      omega
    · rw [if_neg (by omega)]
      dsimp only
      split <;> omega

theorem vector_eq (n : Nat) : vector n = 64 + n % 192 := by
  rw [vector, nextVector_eq, allocateVector]
  split
  · rw [if_pos rfl]
    dsimp only
    omega
  · rw [if_neg (by omega)]

theorem vector_fresh_iff (n : Nat) : (∀ i < n, vector i ≠ vector n) ↔ n < 192 := by
  constructor
  · intro h
    by_contra hn
    have hsame := h (n - 192) (by omega)
    rw [vector_eq, vector_eq] at hsame
    omega
  · intro hn i hi
    rw [vector_eq, vector_eq]
    omega

inductive MsiCap where
  | msi (offset : Nat) (is64bit : Bool) (maxVectors : Nat)
  | msix (offset : Nat) (tableOffset : BitVec 32) (tableBir : BitVec 8) (pbaOffset : BitVec 32)
      (pbaBir : BitVec 8) (tableSize : BitVec 16)

def pciCapMsi : BitVec 8 := 0x05#8

def pciCapMsix : BitVec 8 := 0x11#8

def pciCapPtrReg : Nat := 0x34

def msiMcEnable : BitVec 16 := 1#16 <<< 0

def msiMc64bit : BitVec 16 := 1#16 <<< 7

def msiMcMultipleMask : BitVec 16 := 0x0E#16

def msixTcMask : BitVec 16 := 0x07FF#16

def apicBaseAddr : BitVec 32 := 0xFEE00000#32

namespace ConfigSpace

variable (c : ConfigSpace)

/-- The capability that is announced is looked for in the command register. -/
def getCapPtr : Nat :=
  let statusReg := c.pciReadU16 0x04
  if statusReg &&& (1#16 <<< 4) = 0#16 then 0 else (c.pciReadU8 pciCapPtrReg &&& 0xFC#8).toNat

/-- The turns of `find_msi_capabilities` that are left. -/
def findFrom : (turns capPtr : Nat) → (msi msix : Option MsiCap) →
    Outcome Empty (Option MsiCap × Option MsiCap)
  | 0, _, msi, msix => .ok (msi, msix)
  | turns + 1, capPtr, msi, msix =>
    if capPtr = 0 then .ok (msi, msix)
    else do
      let capId := c.pciReadU8 capPtr
      let nextPtr := (c.pciReadU8 (← add 8 capPtr 1) &&& 0xFC#8).toNat
      if capId = pciCapMsi then do
        let msgControl := c.pciReadU16 (← add 8 capPtr 2)
        let is64bit := decide (msgControl &&& msiMc64bit ≠ 0#16)
        let multiMask := (msgControl &&& msiMcMultipleMask) >>> 1
        findFrom turns nextPtr (some (.msi capPtr is64bit (2 ^ multiMask.toNat))) msix
      else if capId = pciCapMsix then do
        let msgControl := c.pciReadU16 (← add 8 capPtr 2)
        let tableSize := (msgControl &&& msixTcMask) + 1#16
        let offsetBir := c.pciReadU32 (← add 8 capPtr 4)
        let pbaBirOff := c.pciReadU32 (← add 8 capPtr 8)
        findFrom turns nextPtr msi (some (.msix capPtr (offsetBir &&& 0xFFFFFFF8#32)
          ((offsetBir &&& 0x07#32).setWidth 8) (pbaBirOff &&& 0xFFFFFFF8#32)
          ((pbaBirOff &&& 0x07#32).setWidth 8) tableSize))
      else findFrom turns nextPtr msi msix

def findMsiCapabilities : Outcome Empty (Option MsiCap × Option MsiCap) :=
  c.findFrom 64 c.getCapPtr none none

/-- The 16-bit writes of a capability, each at its distance from the start. -/
def writeAll (capOffset : Nat) : ConfigSpace → List (Nat × BitVec 16) → Outcome Empty ConfigSpace
  | c, [] => .ok c
  | c, (distance, value) :: rest => do
      let offset ← add 8 capOffset distance
      writeAll capOffset (c.pciWriteU16Config offset value) rest

/-- The message: its address, then its data. -/
def message (is64bit : Bool) (msgData : BitVec 32) : List (Nat × BitVec 16) :=
  let msgAddr : BitVec 64 := apicBaseAddr.setWidth 64
  let msgAddrLo : BitVec 32 := msgAddr.setWidth 32
  let msgAddrHi : BitVec 32 := (msgAddr >>> 32).setWidth 32
  if is64bit then
    [(4, msgAddrLo.setWidth 16), (6, (msgAddrLo >>> 16).setWidth 16),
      (8, msgAddrHi.setWidth 16), (10, (msgAddrHi >>> 16).setWidth 16),
      (12, msgData.setWidth 16), (14, (msgData >>> 16).setWidth 16)]
  else
    [(4, msgAddrLo.setWidth 16), (6, (msgAddrLo >>> 16).setWidth 16), (8, msgData.setWidth 16)]

/-- The space and the counter of vectors after `enable_msi`, and what it returns. -/
def enableMsi (next : Nat) : MsiCap → Outcome Empty (ConfigSpace × Nat × Option Nat)
  | .msi capOffset is64bit _ => do
      let (vector, next) := allocateVector next
      let msgData := BitVec.ofNat 32 vector
      let c ← writeAll capOffset c (message is64bit msgData)
      let control ← add 8 capOffset 2
      let msgControl := c.pciReadU16 control ||| msiMcEnable
      return (c.pciWriteU16Config control msgControl, next, some vector)
  | .msix .. => .ok (c, next, none)

def disableMsi (capOffset : Nat) : Outcome Empty ConfigSpace := do
  let control ← add 8 capOffset 2
  let msgControl := c.pciReadU16 control &&& ~~~msiMcEnable
  return c.pciWriteU16Config control msgControl

/-! ## Where a capability is found -/

theorem toNat_and_aligned (x : BitVec 8) :
    (x &&& 0xFC#8).toNat % 4 = 0 ∧ (x &&& 0xFC#8).toNat < 256 := by
  refine ⟨?_, (x &&& 0xFC#8).isLt⟩
  rw [BitVec.toNat_and]
  have hmod : (x.toNat &&& (0xFC#8).toNat) % 4 = x.toNat % 4 &&& (0xFC#8).toNat % 4 :=
    Nat.and_mod_two_pow (n := 2)
  rw [hmod]
  exact Nat.and_zero _

def Aligned (cap : Option MsiCap) : Prop :=
  ∀ offset is64bit maxVectors, cap = some (.msi offset is64bit maxVectors) →
    offset % 4 = 0 ∧ offset < 256

theorem findFrom_aligned (turns : Nat) {capPtr : Nat} {msi : Option MsiCap}
    (msix : Option MsiCap) (hptr : capPtr % 4 = 0 ∧ capPtr < 256) (hmsi : Aligned msi) :
    (c.findFrom turns capPtr msi msix).Returns fun found => Aligned found.1 := by
  induction turns generalizing capPtr msi msix with
  | zero => exact (Outcome.returns_ok _).mpr hmsi
  | succ turns ih =>
    rw [findFrom]
    refine Outcome.returns_ite.mpr ⟨fun _ => (Outcome.returns_ok _).mpr hmsi, fun _ => ?_⟩
    rw [Outcome.returns_bind]
    intro next _
    have hnext := toNat_and_aligned (c.pciReadU8 next)
    refine Outcome.returns_ite.mpr ⟨fun _ => ?_, fun _ => ?_⟩
    · rw [Outcome.returns_bind]
      intro control _
      refine ih msix hnext ?_
      intro offset is64bit maxVectors h
      cases h
      exact hptr
    · refine Outcome.returns_ite.mpr ⟨fun _ => ?_, fun _ => ih msix hnext hmsi⟩
      simp only [Outcome.returns_bind]
      intro control _ table _ pba _
      exact ih _ hnext hmsi

end ConfigSpace

open ConfigSpace in
/-- A function in which an MSI capability is found. Its enable bit is an ordinary one. -/
structure MsiFunction where
  space : ConfigSpace
  offset : Nat
  is64bit : Bool
  maxVectors : Nat
  msix : Option MsiCap
  found : findMsiCapabilities space = .ok (some (.msi offset is64bit maxVectors), msix)
  writable : (space.kinds (offset / 4)).rw.getLsbD 16 = true

namespace MsiFunction

variable (f : MsiFunction)

theorem aligned : f.offset % 4 = 0 ∧ f.offset < 256 := by
  have hstart : f.space.getCapPtr % 4 = 0 ∧ f.space.getCapPtr < 256 := by
    rw [ConfigSpace.getCapPtr]
    split
    · decide
    · exact ConfigSpace.toNat_and_aligned _
  have hnone : ConfigSpace.Aligned none := by
    intro _ _ _ h
    cases h
  exact ConfigSpace.findFrom_aligned f.space 64 none hstart hnone _ f.found _ _ _ rfl

def dataOffset : Nat := f.offset + if f.is64bit then 12 else 8

/-- A byte that enabling is not about: neither of message control, address nor data. -/
def Foreign (byte : Nat) : Prop :=
  byte < f.offset + 2 ∨ f.dataOffset + 2 ≤ byte

/-- What `enable_msi` is for. -/
def Enabled (next : Nat) : Prop :=
  ∃ c' next' v, f.space.enableMsi next (.msi f.offset f.is64bit f.maxVectors) =
      .ok (c', next', some v) ∧
    c'.pciReadU32 (f.offset + 4) = apicBaseAddr ∧
    (f.is64bit = true → c'.pciReadU32 (f.offset + 8) = 0#32) ∧
    c'.pciReadU16 f.dataOffset = BitVec.ofNat 16 v ∧
    c'.bit (8 * (f.offset + 2)) = true ∧
    ∀ p, f.Foreign (p / 8) → c'.bit p = f.space.bit p

/-- What `disable_msi` is for, whatever the registers of the function hold. -/
def Disabled (regs : Nat → BitVec 32) : Prop :=
  ∃ c', ConfigSpace.disableMsi { f.space with regs } f.offset = .ok c' ∧
    c'.bit (8 * (f.offset + 2)) = false

theorem control_cleared {c : ConfigSpace} (hkinds : c.kinds = f.space.kinds) (value : BitVec 16) :
    (c.pciWriteU16Config (f.offset + 2) value).bit (8 * (f.offset + 2)) = false := by
  obtain ⟨haligned, _⟩ := f.aligned
  have hregister : 8 * (f.offset + 2) / 32 = (f.offset + 2) / 4 := by omega
  have hindex : 8 * (f.offset + 2) / 32 = f.offset / 4 := by omega
  have hbit : 8 * (f.offset + 2) % 32 = 16 := by omega
  have hhigh : (value.setWidth 32).getLsbD 16 = false := by
    rw [BitVec.getLsbD_setWidth, BitVec.getLsbD_of_ge value 16 (Nat.le_refl _), Bool.and_false]
  rw [ConfigSpace.pciWriteU16Config, ConfigSpace.bit_pciWriteU32 c _ _ hregister, hbit, hindex,
    BitKinds.getLsbD_write _ (by decide), hkinds, f.writable, hhigh]
  simp

theorem kinds_writeAll {capOffset : Nat} (writes : List (Nat × BitVec 16)) (c : ConfigSpace) :
    (ConfigSpace.writeAll capOffset c writes).Returns fun c' => c'.kinds = c.kinds := by
  induction writes generalizing c with
  | nil => exact (Outcome.returns_ok _).mpr rfl
  | cons write writes ih =>
    rw [ConfigSpace.writeAll, Outcome.returns_bind]
    intro offset _
    exact ih (c.pciWriteU16Config offset write.2)

theorem not_enabled (next : Nat) : ¬ f.Enabled next := by
  rintro ⟨c', next', v, h, _, _, _, henabled, _⟩
  obtain ⟨written, hwritten, h⟩ := Outcome.bind_eq_ok h
  have hkinds := kinds_writeAll _ f.space written hwritten
  obtain ⟨control, hcontrol, h⟩ := Outcome.bind_eq_ok h
  have hadd : add 8 f.offset 2 = (.ok (f.offset + 2) : Outcome Empty Nat) :=
    add_of_lt (by have := f.aligned; omega)
  rw [hadd] at hcontrol
  cases hcontrol
  cases h
  rw [f.control_cleared hkinds] at henabled
  cases henabled

theorem disabled (regs : Nat → BitVec 32) : f.Disabled regs := by
  have hadd : add 8 f.offset 2 = (.ok (f.offset + 2) : Outcome Empty Nat) :=
    add_of_lt (by have := f.aligned; omega)
  obtain ⟨c, hc⟩ : ∃ c : ConfigSpace, c = { f.space with regs } := ⟨_, rfl⟩
  have hkinds : c.kinds = f.space.kinds := by rw [hc]
  rw [Disabled, ← hc, ConfigSpace.disableMsi, hadd]
  exact ⟨_, rfl, f.control_cleared hkinds _⟩

end MsiFunction

/-- The 16-bit accessors leave the other bits alone exactly where what they write to the rest of
the register is what it holds, and sets no bit that a one clears and that is set. No MSI
capability that is found gets enabled, disabling always clears the enable bit, and the first
192 requests get vectors of their own. -/
theorem configuration_iff (c : ConfigSpace) (f : MsiFunction) :
    (∀ offset value, c.KeepsOthers (c.pciWriteU16 offset value) offset ↔
      c.Harmless offset (c.merged offset value)) ∧
    (∀ offset (value : BitVec 16), c.KeepsOthers (c.pciWriteU16Config offset value) offset ↔
      c.Harmless offset (value.setWidth 32)) ∧
    (∀ next, ¬ f.Enabled next) ∧ (∀ regs, f.Disabled regs) ∧
    ∀ n, (∀ i < n, vector i ≠ vector n) ↔ n < 192 :=
  ⟨fun offset value => c.keepsOthers_iff offset (c.merged offset value),
    fun offset value => c.keepsOthers_iff offset (value.setWidth 32),
    f.not_enabled, f.disabled, vector_fresh_iff⟩

/-- A function with memory-write-and-invalidate enabled and a 64-bit MSI capability at `0x50`,
which is the only one; ones clear the error bits of its status register. -/
def capableSpace : ConfigSpace where
  kinds := fun n =>
    if n = 1 then ⟨0x0000FFFF#32, 0xF9000000#32, by decide⟩
    else if n = 20 then ⟨0x00710000#32, 0#32, by decide⟩
    else ⟨0xFFFFFFFF#32, 0#32, by decide⟩
  regs := fun n =>
    if n = 1 then 0x20100010#32 else if n = 13 then 0x50#32 else if n = 20 then 0x00800005#32
    else 0#32

def capable : MsiFunction where
  space := capableSpace
  offset := 0x50
  is64bit := true
  maxVectors := 1
  msix := none
  found := rfl
  writable := rfl

/-- It is not enabled. -/
theorem capable_not_enabled : ¬ ((∀ (c : ConfigSpace) offset value,
      c.KeepsOthers (c.pciWriteU16 offset value) offset) ∧
    (∀ (c : ConfigSpace) offset value,
      c.KeepsOthers (c.pciWriteU16Config offset value) offset) ∧
    (∀ (f : MsiFunction) next, f.Enabled next) ∧ (∀ (f : MsiFunction) regs, f.Disabled regs) ∧
    ∀ n < 192, ∀ i < n, vector i ≠ vector n) := by
  intro h
  exact capable.not_enabled 64 (h.2.2.1 capable 64)

end Vibra.Pci
