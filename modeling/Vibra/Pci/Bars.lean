import Mathlib.Algebra.Ring.Nat
import Vibra.Lib.Pool

/-! # Base address registers

A type-0 function has six 32-bit registers for its BARs, and a 64-bit BAR takes two of them. The low
bits of a BAR are hardwired:
-/

namespace Vibra.Pci


inductive BarKind where
  | unused
  | io
  | mem32
  | mem64
deriving DecidableEq

namespace BarKind

def registers : BarKind → Nat
  | mem64 => 2
  | _ => 1

/-- The sizes, as powers of two. An unused register is hardwired. -/
def Sizes : BarKind → Nat → Prop
  | unused, bits => bits = 32
  | io, bits => 2 ≤ bits ∧ bits ≤ 31
  | mem32, bits => 4 ≤ bits ∧ bits ≤ 31
  | mem64, bits => 4 ≤ bits ∧ bits ≤ 63

def IsMemory (kind : BarKind) : Prop := kind = mem32 ∨ kind = mem64

instance : DecidablePred IsMemory := fun kind =>
  inferInstanceAs (Decidable (kind = mem32 ∨ kind = mem64))

end BarKind

/-- A BAR of `2 ^ bits` bytes; `lo` and `hi` are the bits of its registers that can be written. -/
structure Bar where
  kind : BarKind
  prefetch : Bool
  bits : Nat
  lo : Nat
  hi : Nat
  sizes : kind.Sizes bits
  lo_lt : lo < 2 ^ (32 - bits)
  hi_lt : hi < 2 ^ (32 - (bits - 32))
  hi_eq : kind.registers = 1 → hi = 0

namespace Bar

def size (b : Bar) : Nat := 2 ^ b.bits

/-- What the lowest bits read as. -/
def flags (b : Bar) : Nat :=
  match b.kind with
  | .unused => 0
  | .io => 1
  | .mem32 => if b.prefetch then 8 else 0
  | .mem64 => if b.prefetch then 12 else 4

def low (b : Bar) : Nat := b.lo * 2 ^ min b.bits 32

def high (b : Bar) : Nat := b.hi * 2 ^ (b.bits - 32)

def address (b : Bar) : Nat := b.high * 2 ^ 32 + b.low

def stop (b : Bar) : Nat := b.address + b.size

def read (b : Bar) (i : Nat) : Nat := if i = 0 then b.low + b.flags else b.high

def writeLow (b : Bar) (value : Nat) : Bar :=
  { b with
    lo := value % 2 ^ 32 / 2 ^ min b.bits 32
    lo_lt := by
      rw [Nat.div_lt_iff_lt_mul (Nat.two_pow_pos _), ← Nat.pow_add]
      exact (Nat.mod_lt _ (by decide)).trans_le (Nat.pow_le_pow_right (by decide) (by omega)) }

def writeHigh (b : Bar) (value : Nat) : Bar :=
  { b with
    hi := if b.kind.registers = 1 then 0 else value % 2 ^ 32 / 2 ^ (b.bits - 32)
    hi_lt := by
      split
      · exact Nat.two_pow_pos _
      · rw [Nat.div_lt_iff_lt_mul (Nat.two_pow_pos _), ← Nat.pow_add]
        exact (Nat.mod_lt _ (by decide)).trans_le (Nat.pow_le_pow_right (by decide) (by omega))
    hi_eq := fun h => if_pos h }

def write (b : Bar) (value i : Nat) : Bar :=
  if i = 0 then b.writeLow value else b.writeHigh value

@[simp] theorem kind_write (b : Bar) (value i : Nat) : (b.write value i).kind = b.kind := by
  unfold write
  split <;> rfl

end Bar

def readBars : List Bar → Nat → Nat
  | [], _ => 0
  | b :: bars, i => if i < b.kind.registers then b.read i else readBars bars (i - b.kind.registers)

def writeBars : List Bar → Nat → Nat → List Bar
  | [], _, _ => []
  | b :: bars, i, value =>
    if i < b.kind.registers then b.write value i :: bars
    else b :: writeBars bars (i - b.kind.registers) value

theorem registers_writeBars (bars : List Bar) (i value : Nat) :
    (writeBars bars i value).map (·.kind.registers) = bars.map (·.kind.registers) := by
  induction bars generalizing i with
  | nil => rfl
  | cons b bars ih =>
    rw [writeBars]
    split
    · rw [List.map_cons, List.map_cons, Bar.kind_write]
    · rw [List.map_cons, List.map_cons, ih]

/-- A function with a type-0 header: the registers of its configuration space that count here. -/
structure PciFunction where
  headerType : Nat
  command : Nat
  bar0 : Bar
  rest : List Bar
  type0 : headerType % 128 = 0
  six : ((bar0 :: rest).map (·.kind.registers)).sum = 6

namespace PciFunction

def bars (f : PciFunction) : List Bar := f.bar0 :: f.rest

/-- `pci_read_u32` at `0x10 + 4 * i` -/
def readBar (f : PciFunction) (i : Nat) : Nat := readBars f.bars i

/-- `pci_write_u32` at `0x10 + 4 * i` -/
def writeBar (f : PciFunction) (i value : Nat) : PciFunction :=
  if i < f.bar0.kind.registers then
    { f with
      bar0 := f.bar0.write value i
      six := by rw [List.map_cons, Bar.kind_write]; exact f.six }
  else
    { f with
      rest := writeBars f.rest (i - f.bar0.kind.registers) value
      six := by rw [List.map_cons, registers_writeBars]; exact f.six }

/-- `pci_write_u16` at `0x04` -/
def writeCommand (f : PciFunction) (command : Nat) : PciFunction := { f with command }

end PciFunction

structure PciDevice where
  headerType : Nat
  bar0 : Nat
  bar1 : Nat
  barPhys : List Nat

/-- The physical address in `bars[i]`, the upper half of a 64-bit address included. -/
def barPhys (bars : Nat → Nat) (i : Nat) : Nat :=
  let raw := bars i
  if raw = 0 ∨ raw = 0xFFFFFFFF then 0
  else if raw % 2 = 0 then
    if raw / 2 % 4 = 2 ∧ i < 5 then bars (i + 1) * 2 ^ 32 + raw / 16 * 16 else raw / 16 * 16
  else raw / 4 * 4

def PciFunction.scan (f : PciFunction) : PciDevice where
  headerType := f.headerType
  bar0 := f.readBar 0
  bar1 := f.readBar 1
  barPhys := (List.range 6).map (barPhys f.readBar)

def mmioLimit : Nat := 0xFEC00000

/-- All ones are written to the BAR, and what it had is written back. -/
def probe (f : PciFunction) (is64 : Bool) (low high : Nat) : PciFunction × Nat :=
  let f := f.writeBar 0 0xFFFFFFFF
  let f := if is64 then f.writeBar 1 0xFFFFFFFF else f
  let maskLow := f.readBar 0
  let maskHigh := if is64 then f.readBar 1 else 0
  let f := f.writeBar 0 low
  let f := if is64 then f.writeBar 1 high else f
  (f, maskHigh * 2 ^ 32 + maskLow / 16 * 16)

def isPowerOfTwo (n : Nat) : Bool := 2 ^ n.log2 == n

/-- The function and its device record after the call, and the next free address. For a power of
two `x & !(size - 1)` is `x / size * size`. -/
def assignBar0IfNeeded (f : PciFunction) (device : PciDevice) (nextMmio : Nat) :
    PciFunction × PciDevice × Nat :=
  if device.headerType % 128 ≠ 0 then (f, device, nextMmio) else
  let low := device.bar0
  if low = 0xFFFFFFFF ∨ low % 2 ≠ 0 then (f, device, nextMmio) else
  let is64 := low / 2 % 4 == 2
  let high := if is64 then device.bar1 else 0
  let address := high * 2 ^ 32 + low / 16 * 16
  if address ≠ 0 ∧ address < mmioLimit then (f, device, nextMmio) else
  let command := f.command
  let (f, mask) := probe (f.writeCommand (command &&& 0xFFFD)) is64 low high
  if mask = 0 ∨ mask = 2 ^ 64 - 1 then (f.writeCommand command, device, nextMmio) else
  -- `(!mask).wrapping_add(1)`
  let size := (2 ^ 64 - mask) % 2 ^ 64
  if size = 0 ∨ 64 * 2 ^ 20 < size ∨ !isPowerOfTwo size then
    (f.writeCommand command, device, nextMmio) else
  let base := (nextMmio + size - 1) / size * size
  if mmioLimit ≤ base ∨ mmioLimit < base + size then
    (f.writeCommand command, device, nextMmio) else
  let f := f.writeBar 0 (base % 2 ^ 32)
  let f := if is64 then f.writeBar 1 (base / 2 ^ 32) else f
  (f.writeCommand (command ||| 0x0002 ||| 0x0004),
    { device with
      bar0 := base % 2 ^ 32 ||| low % 16
      bar1 := base / 2 ^ 32
      barPhys := (device.barPhys.set 0 base).set 1 0 },
    base + size)

/-- Behind the highest address in the window, at a multiple of 1 MiB. -/
def firstFree (devices : List PciDevice) : Nat :=
  let next := devices.foldl (fun next device =>
    device.barPhys.foldl (fun next bar =>
      if next ≤ bar ∧ bar < mmioLimit then bar else next) next) 0x80000000
  (next + 0x100000) / 0x100000 * 0x100000

/-- The second pass of `init`. -/
def assignAll : List PciFunction → List PciDevice → Nat → List (PciFunction × PciDevice)
  | f :: fs, device :: devices, nextMmio =>
    let (f, device, nextMmio) := assignBar0IfNeeded f device nextMmio
    (f, device) :: assignAll fs devices nextMmio
  | _, _, _ => []

def init (functions : List PciFunction) : List (PciFunction × PciDevice) :=
  let devices := functions.map PciFunction.scan
  assignAll functions devices (firstFree devices)

end Vibra.Pci
