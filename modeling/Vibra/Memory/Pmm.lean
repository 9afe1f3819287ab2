import Mathlib.Data.Fintype.Card
import Mathlib.Tactic.IntervalCases

/-! # Physical memory manager

One bit for each 4 KiB frame, set when the frame is in use.
-/

namespace Vibra.Pmm

def frameSize : Nat := 4096
/-- 64 GiB of frames. -/
def maxFrames : Nat := 16 * 1024 * 1024
def bitmapSize : Nat := maxFrames / 8
/-- The first megabyte is never handed out. -/
def reservedLowMem : Nat := 0x100000

abbrev Frame := Fin maxFrames

abbrev Bitmap := Fin bitmapSize → BitVec 8

theorem maxFrames_pos : 0 < maxFrames := by decide

/-- The byte that holds a frame's bit. -/
def byteOf (index : Frame) : Fin bitmapSize :=
  ⟨index / 8, by
    have h := index.isLt
    simp only [maxFrames, bitmapSize] at h ⊢
    omega⟩

def mask (index : Frame) : BitVec 8 := 1#8 <<< (index.val % 8)

def setFrameUsed (bitmap : Bitmap) (index : Frame) : Bitmap :=
  Function.update bitmap (byteOf index) (bitmap (byteOf index) ||| mask index)

def setFrameFree (bitmap : Bitmap) (index : Frame) : Bitmap :=
  Function.update bitmap (byteOf index) (bitmap (byteOf index) &&& ~~~mask index)

def isFrameFree (bitmap : Bitmap) (index : Frame) : Bool :=
  (bitmap (byteOf index) &&& mask index) == 0#8

/-- `PmmInner` together with the bitmap that its lock protects. -/
structure State where
  bitmap : Bitmap
  freeFrames : Nat
  totalFrames : Nat
  nextHint : Nat

/-- A memory map entry of the boot protocol; `type_` 0 is `MEMMAP_USABLE`. -/
structure Entry where
  base : Nat
  length : Nat
  type_ : Nat

def memmapUsable : Nat := 0
def u64Max : Nat := 2 ^ 64 - 1

/-- One turn of the inner loop of `init`. -/
def markFrame (pmm : State) (frameIndex : Nat) : State :=
  if h : frameIndex < maxFrames then
    { pmm with
      bitmap := setFrameFree pmm.bitmap ⟨frameIndex, h⟩
      freeFrames := pmm.freeFrames + 1
      totalFrames := pmm.totalFrames + 1 }
  else pmm

/-- `for i in 0..frame_count`, from the frame `startFrame` on. -/
def markFrames (pmm : State) (startFrame : Nat) : Nat → State
  | 0 => pmm
  | i + 1 => markFrame (markFrames pmm startFrame i) (startFrame + i)

def markEntry (pmm : State) (entry : Entry) : State :=
  if entry.type_ ≠ memmapUsable then pmm
  else
    let entryEnd := min (entry.base + entry.length) u64Max
    let base := max entry.base reservedLowMem
    if entryEnd ≤ base then pmm
    else
      let length := entryEnd - base
      markFrames pmm (base / frameSize) (length / frameSize)

def init (memoryMap : List Entry) : State :=
  let pmm := memoryMap.foldl markEntry
    { bitmap := fun _ => 0xFF#8, freeFrames := 0, totalFrames := 0, nextHint := 0 }
  { pmm with nextHint := reservedLowMem / frameSize }

/-- The frame number `index % MAX_FRAMES`. -/
def wrapFrame (index : Nat) : Frame := ⟨index % maxFrames, Nat.mod_lt _ maxFrames_pos⟩

/-- The next-fit search: `remaining` more offsets, starting at `offset`. -/
def findFree (bitmap : Bitmap) (start : Nat) : Nat → Nat → Option Frame
  | 0, _ => none
  | remaining + 1, offset =>
    if isFrameFree bitmap (wrapFrame (start + offset)) then some (wrapFrame (start + offset))
    else findFree bitmap start remaining (offset + 1)

def allocFrame (pmm : State) : Option Nat × State :=
  if pmm.freeFrames = 0 then (none, pmm)
  else
    match findFree pmm.bitmap pmm.nextHint maxFrames 0 with
    | some frameIndex =>
      (some (frameIndex * frameSize),
        { pmm with
          bitmap := setFrameUsed pmm.bitmap frameIndex
          freeFrames := pmm.freeFrames - 1
          nextHint := frameIndex + 1 })
    | none => (none, pmm)

/-- Misaligned, out-of-range and double frees are reported and change nothing. -/
def freeFrame (pmm : State) (addr : Nat) : State :=
  if addr % frameSize ≠ 0 then pmm
  else if h : addr / frameSize < maxFrames then
    if isFrameFree pmm.bitmap ⟨addr / frameSize, h⟩ then pmm
    else
      { pmm with
        bitmap := setFrameFree pmm.bitmap ⟨addr / frameSize, h⟩
        freeFrames := pmm.freeFrames + 1 }
  else pmm

/-- The frames `start..start + count`, cut at the end of the bitmap. -/
def frames (start count : Nat) : List Frame :=
  (List.range' start count).filterMap fun i => if h : i < maxFrames then some ⟨i, h⟩ else none

/-- The first free frame from `start` on, `remaining` frames before the end of
the bitmap. -/
def firstFree (bitmap : Bitmap) (start : Nat) : Nat → Option Nat
  | 0 => none
  | remaining + 1 =>
    if h : start < maxFrames then
      if isFrameFree bitmap ⟨start, h⟩ then some start
      else firstFree bitmap (start + 1) remaining
    else none

/-- How many of the `count` frames from `start` on are free in a row. -/
def runLength (bitmap : Bitmap) (start : Nat) : Nat → Nat
  | 0 => 0
  | count + 1 =>
    if h : start < maxFrames then
      if isFrameFree bitmap ⟨start, h⟩ then runLength bitmap (start + 1) count + 1 else 0
    else 0

/-- The circular search with `checks` runs left to look at. The outer `none` is
the case where the source loops for ever: at the end of the bitmap the loop
goes back to frame 0 without counting, so with no free frame at all it never
stops. The inner `none` is the search giving up. -/
def findRun (bitmap : Bitmap) (count : Nat) : Nat → Nat → Option (Option Nat)
  | 0, _ => some none
  | checks + 1, start =>
    match firstFree bitmap start (maxFrames - start) <|> firstFree bitmap 0 maxFrames with
    | none => none
    | some first =>
      let length := runLength bitmap first count
      if count ≤ length then some (some first)
      else
        let stop := first + length
        findRun bitmap count checks (if maxFrames ≤ stop then 0 else stop)

/-- `none` when the call does not return. -/
def allocContiguous (pmm : State) (count : Nat) : Option (Option Nat × State) :=
  if count = 0 then some (none, pmm)
  else if pmm.freeFrames < count then some (none, pmm)
  else
    match findRun pmm.bitmap count (maxFrames * 2) pmm.nextHint with
    | none => none
    | some none => some (none, pmm)
    | some (some start) =>
      some (some (start * frameSize),
        { pmm with
          bitmap := (frames start count).foldl setFrameUsed pmm.bitmap
          freeFrames := pmm.freeFrames - count
          nextHint := start + count })

/-- The whole range is checked before any frame of it is freed. -/
def freeContiguous (pmm : State) (addr count : Nat) : Bool × State :=
  if count = 0 ∨ addr % frameSize ≠ 0 then (false, pmm)
  else
    let start := addr / frameSize
    if maxFrames < start + count then (false, pmm)
    else if (frames start count).any (isFrameFree pmm.bitmap) then (false, pmm)
    else
      (true,
        { pmm with
          bitmap := (frames start count).foldl setFrameFree pmm.bitmap
          freeFrames := pmm.freeFrames + count
          nextHint := min pmm.nextHint start })

theorem isFrameFree_eq (bitmap : Bitmap) (index : Frame) :
    isFrameFree bitmap index = !(bitmap (byteOf index)).getLsbD (index.val % 8) := by
  have h8 : index.val % 8 < 8 := Nat.mod_lt _ (by decide)
  unfold isFrameFree mask
  generalize bitmap (byteOf index) = b
  generalize index.val % 8 = k at h8
  revert b
  interval_cases k <;> decide +kernel

theorem frame_ext {i j : Frame} (hbyte : byteOf i = byteOf j) (hbit : i.val % 8 = j.val % 8) :
    i = j := by
  have h : i.val / 8 = j.val / 8 := congrArg Fin.val hbyte
  exact Fin.ext (by omega)

theorem mask_getLsbD (index : Frame) {k : Nat} (hk : k < 8) :
    (mask index).getLsbD k = decide (k = index.val % 8) := by
  have h8 : index.val % 8 < 8 := Nat.mod_lt _ (by decide)
  unfold mask
  generalize index.val % 8 = m at h8 ⊢
  interval_cases m <;> interval_cases k <;> rfl

@[simp] theorem isFrameFree_setFrameUsed (bitmap : Bitmap) (i j : Frame) :
    isFrameFree (setFrameUsed bitmap i) j = (isFrameFree bitmap j && decide (j ≠ i)) := by
  simp only [isFrameFree_eq, setFrameUsed]
  by_cases hbyte : byteOf j = byteOf i
  · have hk : j.val % 8 < 8 := Nat.mod_lt _ (by decide)
    rw [hbyte, Function.update_self, BitVec.getLsbD_or, mask_getLsbD i hk]
    have hiff : j.val % 8 = i.val % 8 ↔ j = i := ⟨frame_ext hbyte, fun h => by rw [h]⟩
    simp [hiff]
  · have hne : j ≠ i := fun h => hbyte (congrArg byteOf h)
    simp [Function.update_of_ne hbyte, hne]

@[simp] theorem isFrameFree_setFrameFree (bitmap : Bitmap) (i j : Frame) :
    isFrameFree (setFrameFree bitmap i) j = (isFrameFree bitmap j || decide (j = i)) := by
  simp only [isFrameFree_eq, setFrameFree]
  by_cases hbyte : byteOf j = byteOf i
  · have hk : j.val % 8 < 8 := Nat.mod_lt _ (by decide)
    rw [hbyte, Function.update_self, BitVec.getLsbD_and, BitVec.getLsbD_not, mask_getLsbD i hk]
    have hiff : j.val % 8 = i.val % 8 ↔ j = i := ⟨frame_ext hbyte, fun h => by rw [h]⟩
    simp [hiff, hk]
  · have hne : j ≠ i := fun h => hbyte (congrArg byteOf h)
    simp [Function.update_of_ne hbyte, hne]

end Vibra.Pmm
