import Mathlib.Algebra.Ring.Nat
import Vibra.Console.Screen
import Vibra.Lib.KeyedList

/-! # The back buffer

The demos draw into a buffer in memory and copy it to the framebuffer with `flip`.
-/

namespace Vibra.Console

open Lib (writeAll lastWrite)

/-- A framebuffer in words of 32 bits, and the virtual resolution. -/
structure Surface where
  display : Display
  width : Nat
  height : Nat
  pitch : Nat
  virt : Option (Nat × Nat)
  pitch_ge : width ≤ pitch
  virt_pos : ∀ v ∈ virt, 1 ≤ v.1 ∧ 1 ≤ v.2

/-- The calls; `text` has its characters. -/
inductive DrawCall where
  | putPixel (x y : Nat) (color : UInt32)
  | fillRect (x y w h : Nat) (color : UInt32)
  | drawRect (x y w h : Nat) (color : UInt32)
  | blit (x y : Nat) (src : List UInt32) (srcW srcH : Nat)
  | drawTextAt (x y : Nat) (text : List Char) (fg bg : UInt32)

/-- What the calls are made of. -/
inductive Stroke where
  | put (x y : Nat) (color : UInt32)
  | fill (x y w h : Nat) (color : UInt32)
  | blit (x y : Nat) (src : List UInt32) (srcW srcH : Nat)

/-- `usize::saturating_add` -/
def satAdd (a b : Nat) : Nat := min (a + b) (2 ^ 64 - 1)

namespace Surface

variable (s : Surface)

def fbWidth : Nat := (s.virt.map Prod.fst).getD s.width

def fbHeight : Nat := (s.virt.map Prod.snd).getD s.height

/-- `set_virtual_resolution`: 16 bits behind the point, in a word of 32. -/
def scale (size virtual : Nat) : Nat := size * 2 ^ 16 % 2 ^ 64 / virtual % 2 ^ 32

/-- A virtual coordinate on the framebuffer. -/
def physX (x : Nat) : Nat :=
  match s.virt with
  | some (vw, _) => x * scale s.width vw / 2 ^ 16
  | none => x

def physY (y : Nat) : Nat :=
  match s.virt with
  | some (_, vh) => y * scale s.height vh / 2 ^ 16
  | none => y

/-- Where `put_pixel` writes. -/
def pixelOffset (x y : Nat) : Option Nat :=
  if s.fbWidth ≤ x ∨ s.fbHeight ≤ y then none
  else if s.width ≤ s.physX x ∨ s.height ≤ s.physY y then none
  else some (s.physY y * s.pitch + s.physX x)

/-- The rectangle that `fill_rect` fills: its columns and its rows, each from and up to. -/
def region (x y w h : Nat) : Nat × Nat × Nat × Nat :=
  let xStart := min x s.fbWidth
  let xEnd := min (satAdd x w) s.fbWidth
  let yStart := min y s.fbHeight
  let yEnd := min (satAdd y h) s.fbHeight
  (s.physX xStart, s.physX xEnd, s.physY yStart, s.physY yEnd)

/-- The first places of its rows, and how many pixels each has. -/
def fillRows (x y w h : Nat) : List Nat × Nat :=
  if w = 0 ∨ h = 0 then ([], 0)
  else
    let (xStart, xEnd, yStart, yEnd) := s.region x y w h
    ((List.range (yEnd - yStart)).map fun dy => (yStart + dy) * s.pitch + xStart, xEnd - xStart)

/-- `slice.fill` -/
def rowSlice (start count : Nat) (color : UInt32) : List (Nat × UInt32) :=
  (List.range count).map fun i => (start + i, color)

def doubleColor (color : UInt32) : UInt64 := (color.toUInt64 <<< 32) ||| color.toUInt64

def writePair (place : Nat) (pair : UInt64) : List (Nat × UInt32) :=
  [(place, pair.toUInt32), (place + 1, (pair >>> 32).toUInt32)]

/-- A row in the buffer: a pixel up to an even place, pairs, and the pixel that is left. -/
def rowPairs (start count : Nat) (color : UInt32) : List (Nat × UInt32) :=
  let offset := if start % 2 ≠ 0 ∧ 0 < count then 1 else 0
  let remaining := count - offset
  let pairs := remaining / 2
  rowSlice start offset color ++
    (List.range pairs).flatMap (fun i => writePair (start + offset + 2 * i) (doubleColor color)) ++
    rowSlice (start + offset + pairs * 2) (remaining - pairs * 2) color

/-- The pixels that `blit` copies. -/
def blitWrites (x y : Nat) (src : List UInt32) (srcW srcH : Nat) : List (Nat × UInt32) :=
  let startX := min x s.width
  let copyWidth := min srcW (s.width - startX)
  ((List.range srcH).takeWhile fun sy =>
      decide (y + sy < s.height) && decide (sy * srcW < src.length)).flatMap fun sy =>
    (List.range copyWidth).filterMap fun dx =>
      src[sy * srcW + dx]?.map fun color => ((y + sy) * s.pitch + startX + dx, color)

/-- The strokes of the two sides of `draw_rect`, line by line. -/
def sides (x y w h : Nat) (color : UInt32) : List Stroke × Bool :=
  let rows := (List.range' 1 (h - 2)).takeWhile fun dy => decide (y + dy < s.fbHeight)
  let left (dy : Nat) : List Stroke := if x < s.fbWidth then [.put x (y + dy) color] else []
  let right (dy : Nat) : List Stroke :=
    if x + w - 1 < s.fbWidth then [.put (x + w - 1) (y + dy) color] else []
  if 2 ^ 64 ≤ x + w then
    -- the sum overflows in the first line
    match rows with
    | [] => ([], false)
    | dy :: _ => (left dy, true)
  else (rows.flatMap fun dy => left dy ++ right dy, false)

def rectStrokes (x y w h : Nat) (color : UInt32) : List Stroke × Bool :=
  if w = 0 ∨ h = 0 then ([], false)
  else if h = 1 then ([.fill x y w 1 color], false)
  else if 2 ^ 64 ≤ y + h then ([.fill x y w 1 color], true)
  else
    let (strokes, panicked) := s.sides x y w h color
    ([.fill x y w 1 color, .fill x (y + h - 1) w 1 color] ++ strokes, panicked)

def glyphStrokes (charX y : Nat) (ch : Char) (fg bg : UInt32) : List Stroke :=
  let index : UInt8 := if ch.toNat < 256 then UInt8.ofNat ch.toNat else 0
  (List.range fontHeight).flatMap fun dy =>
    (List.range fontWidth).map fun dx =>
      .put (charX + dx) (y + dy) (expandLine (s.display.line index dy) fg bg dx)

def textStrokes (x y : Nat) (fg bg : UInt32) : Nat → List Char → List Stroke × Bool
  | _, [] => ([], false)
  | i, ch :: text =>
    let charX := x + i * fontWidth
    if 2 ^ 64 ≤ charX + fontWidth then ([], true)
    else if s.fbWidth < charX + fontWidth then ([], false)
    else if 2 ^ 64 ≤ y + fontHeight then ([], true)
    else if s.fbHeight < y + fontHeight then ([], false)
    else
      let (strokes, panicked) := textStrokes x y fg bg (i + 1) text
      (s.glyphStrokes charX y ch fg bg ++ strokes, panicked)

/-- The strokes of a call, and whether it panics behind them. -/
def strokes : DrawCall → List Stroke × Bool
  | .putPixel x y color => ([.put x y color], false)
  | .fillRect x y w h color => ([.fill x y w h color], false)
  | .drawRect x y w h color => s.rectStrokes x y w h color
  | .blit x y src srcW srcH => ([.blit x y src srcW srcH], false)
  | .drawTextAt x y text fg bg => s.textStrokes x y fg bg 0 text

/-- The strokes of a sequence of calls, as far as it comes. -/
def allStrokes : List DrawCall → List Stroke × Bool
  | [] => ([], false)
  | call :: calls =>
    let (strokes, panicked) := s.strokes call
    if panicked then (strokes, true)
    else (strokes ++ (allStrokes calls).1, (allStrokes calls).2)

/-- `enable_back_buffer` -/
def bufferSize : Nat := s.fbWidth * s.fbHeight

/-- What a stroke writes into the framebuffer where there is no buffer. -/
def direct : Stroke → List (Nat × UInt32)
  | .put x y color => ((s.pixelOffset x y).map fun o => (o, s.display.native color)).toList
  | .fill x y w h color =>
    (s.fillRows x y w h).1.flatMap fun start =>
      rowSlice start (s.fillRows x y w h).2 (s.display.native color)
  | .blit x y src srcW srcH => s.blitWrites x y src srcW srcH

/-- What it writes into the buffer. -/
def buffered : Stroke → List (Nat × UInt32)
  | .put x y color =>
    (((s.pixelOffset x y).filter fun o => decide (o < s.bufferSize)).map fun o =>
      (o, s.display.native color)).toList
  | .fill x y w h color =>
    (s.fillRows x y w h).1.flatMap fun start =>
      rowPairs start (s.fillRows x y w h).2 (s.display.native color)
  | .blit .. => []

def past : Stroke → List (Nat × UInt32)
  | .blit x y src srcW srcH => s.blitWrites x y src srcW srcH
  | _ => []

/-- The framebuffer after the strokes and `flip`: the size of the buffer is divided by the size of
a pixel once more. -/
def flipped (screen : Nat → UInt32) (strokes : List Stroke) (o : Nat) : UInt32 :=
  if o < s.bufferSize / 4 then writeAll (strokes.flatMap s.buffered) (fun _ => 0) o
  else writeAll (strokes.flatMap s.past) screen o

/-- The framebuffer after the strokes without a buffer, where it was zero before. -/
def drawn (strokes : List Stroke) (o : Nat) : UInt32 :=
  writeAll (strokes.flatMap s.direct) (fun _ => 0) o

/-- The buffer makes no difference: no write is outside it, and after `flip` every pixel is what
the calls draw without it. -/
structure Transparent (screen : Nat → UInt32) (calls : List DrawCall) : Prop where
  inside : ∀ w ∈ (s.allStrokes calls).1.flatMap s.buffered, w.1 < s.bufferSize
  visible : (s.allStrokes calls).2 = false → ∀ x < s.width, ∀ y < s.height,
    s.flipped screen (s.allStrokes calls).1 (y * s.pitch + x) =
      s.drawn (s.allStrokes calls).1 (y * s.pitch + x)

variable {s} {screen : Nat → UInt32} {calls : List DrawCall} {strokes : List Stroke}

theorem doubleColor_low (color : UInt32) : (doubleColor color).toUInt32 = color := by
  apply UInt32.toBitVec_inj.mp
  ext i hi
  simp [doubleColor]

theorem doubleColor_high (color : UInt32) : (doubleColor color >>> 32).toUInt32 = color := by
  apply UInt32.toBitVec_inj.mp
  ext i hi
  have hplace : 32 + i < 64 := by omega
  have hword : i < 64 := by omega
  simp [doubleColor, hi, hplace, hword]

theorem rowSlice_append (start a b : Nat) (color : UInt32) :
    rowSlice start a color ++ rowSlice (start + a) b color = rowSlice start (a + b) color := by
  rw [rowSlice, rowSlice, rowSlice, List.range_add, List.map_append, List.map_map]
  congr 1
  apply List.map_congr_left
  intro i _
  rw [Nat.add_assoc]
  rfl

theorem rowSlice_pairs (start pairs : Nat) (color : UInt32) :
    (List.range pairs).flatMap (fun i => writePair (start + 2 * i) (doubleColor color)) =
      rowSlice start (pairs * 2) color := by
  induction pairs with
  | zero => rfl
  | succ n ih =>
    rw [List.range_succ, List.flatMap_append, ih, Nat.succ_mul, ← rowSlice_append]
    congr 1
    simp [writePair, doubleColor_low, doubleColor_high, rowSlice, List.range_succ, Nat.mul_comm]

theorem rowPairs_eq (start count : Nat) (color : UInt32) :
    rowPairs start count color = rowSlice start count color := by
  unfold rowPairs
  have hle : (if start % 2 ≠ 0 ∧ 0 < count then 1 else 0) ≤ count := by
    split <;> omega
  generalize (if start % 2 ≠ 0 ∧ 0 < count then 1 else 0) = offset at hle
  simp only [rowSlice_pairs, rowSlice_append]
  rw [Nat.add_assoc, rowSlice_append]
  congr 1
  omega

/-! ## The condition -/

variable (s) in
def FillFits (x y w h : Nat) : Prop :=
  ∀ start ∈ (s.fillRows x y w h).1.getLast?, 0 < (s.fillRows x y w h).2 →
    start + (s.fillRows x y w h).2 ≤ s.bufferSize

/-- The last colour that a put or a fill gives a place. -/
def lastDrawn (s : Surface) (strokes : List Stroke) (o : Nat) : Option UInt32 :=
  lastWrite o (strokes.flatMap fun
    | .blit .. => []
    | stroke => s.direct stroke)

def lastBlit (s : Surface) (strokes : List Stroke) (o : Nat) : Option UInt32 :=
  lastWrite o (strokes.flatMap s.past)

def lastColor (s : Surface) (strokes : List Stroke) (o : Nat) : Option UInt32 :=
  lastWrite o (strokes.flatMap s.direct)

/-- Every rectangle ends within the buffer. A visible pixel in the first quarter of the buffer has
its last colour from a put or a fill, any other has it from a blit, or the colours are the same. -/
structure Hides (s : Surface) (screen : Nat → UInt32) (strokes : List Stroke) (panicked : Bool) :
    Prop where
  fills : ∀ x y w h color, Stroke.fill x y w h color ∈ strokes → s.FillFits x y w h
  pixels : panicked = false → ∀ x < s.width, ∀ y < s.height,
    if y * s.pitch + x < s.bufferSize / 4 then
      (s.lastDrawn strokes (y * s.pitch + x)).getD 0 =
        (s.lastColor strokes (y * s.pitch + x)).getD 0
    else
      (s.lastBlit strokes (y * s.pitch + x)).getD (screen (y * s.pitch + x)) =
        (s.lastColor strokes (y * s.pitch + x)).getD 0

theorem mem_rowSlice {start count : Nat} {color : UInt32} {w : Nat × UInt32} :
    w ∈ rowSlice start count color ↔ ∃ i < count, w = (start + i, color) := by
  simp [rowSlice, eq_comm]

theorem fillFits_iff (x y w h : Nat) (color : UInt32) :
    (∀ write ∈ s.buffered (.fill x y w h color), write.1 < s.bufferSize) ↔ s.FillFits x y w h := by
  have hrows : ∃ n first step, (s.fillRows x y w h).1 = (List.range n).map fun dy =>
      (first + dy) * step + (s.region x y w h).1 := by
    unfold fillRows
    by_cases hempty : w = 0 ∨ h = 0
    · exact ⟨0, 0, 0, by rw [if_pos hempty]; rfl⟩
    · exact ⟨_, _, _, by rw [if_neg hempty]⟩
  obtain ⟨n, first, step, hrows⟩ := hrows
  have hbuffered : (∀ write ∈ s.buffered (.fill x y w h color), write.1 < s.bufferSize) ↔
      ∀ start ∈ (s.fillRows x y w h).1, ∀ i < (s.fillRows x y w h).2,
        start + i < s.bufferSize := by
    simp only [buffered, List.mem_flatMap, rowPairs_eq, mem_rowSlice]
    constructor
    · intro hall start hstart i hi
      exact hall _ ⟨start, hstart, i, hi, rfl⟩
    · rintro hall _ ⟨start, hstart, i, hi, rfl⟩
      exact hall start hstart i hi
  rw [hbuffered, FillFits, hrows]
  generalize (s.fillRows x y w h).2 = count
  cases n with
  | zero => simp
  | succ n =>
    rw [List.range_succ, List.map_append, List.map_singleton, List.getLast?_concat]
    constructor
    · intro hall start hstart hcount
      rw [← Option.mem_some.mp hstart]
      have hlast := hall ((first + n) * step + (s.region x y w h).1) (by simp) (count - 1)
        (by omega)
      omega
    · intro hlast start hstart i hi
      have hend := hlast _ rfl (by omega)
      have hstart' : ∃ dy ≤ n, start = (first + dy) * step + (s.region x y w h).1 := by
        rcases List.mem_append.mp hstart with hmem | hmem
        · obtain ⟨dy, hdy, rfl⟩ := List.mem_map.mp hmem
          exact ⟨dy, Nat.le_of_lt (List.mem_range.mp hdy), rfl⟩
        · exact ⟨n, Nat.le_refl n, List.mem_singleton.mp hmem⟩
      obtain ⟨dy, hdy, rfl⟩ := hstart'
      have hmono : (first + dy) * step ≤ (first + n) * step :=
        Nat.mul_le_mul_right step (Nat.add_le_add_left hdy first)
      omega

theorem inside_iff : (∀ w ∈ strokes.flatMap s.buffered, w.1 < s.bufferSize) ↔
    ∀ x y w h color, Stroke.fill x y w h color ∈ strokes → s.FillFits x y w h := by
  constructor
  · intro hall x y w h color hmem
    apply (fillFits_iff x y w h color).mp
    exact fun write hwrite => hall write (List.mem_flatMap.mpr ⟨_, hmem, hwrite⟩)
  · intro hfits write hwrite
    obtain ⟨stroke, hmem, hwrite⟩ := List.mem_flatMap.mp hwrite
    cases stroke with
    | put x y color =>
      rw [buffered, Option.mem_toList, Option.map_eq_some_iff] at hwrite
      obtain ⟨o, ho, rfl⟩ := hwrite
      exact of_decide_eq_true (Option.filter_eq_some_iff.mp ho).2
    | fill x y w h color =>
      exact (fillFits_iff x y w h color).mpr (hfits x y w h color hmem) write hwrite
    | blit => exact absurd hwrite List.not_mem_nil

theorem buffered_filter (stroke : Stroke) :
    (s.buffered stroke).filter (fun w => decide (w.1 < s.bufferSize)) =
      (match stroke with
        | .blit .. => []
        | stroke => s.direct stroke).filter fun w => decide (w.1 < s.bufferSize) := by
  cases stroke with
  | put x y color =>
    show List.filter _ (s.buffered (.put x y color)) = List.filter _ (s.direct (.put x y color))
    rw [buffered, direct]
    cases s.pixelOffset x y with
    | none => rfl
    | some o => by_cases h : o < s.bufferSize <;> simp [Option.filter, h]
  | fill x y w h color =>
    show List.filter _ (s.buffered (.fill x y w h color)) =
      List.filter _ (s.direct (.fill x y w h color))
    simp only [buffered, direct, rowPairs_eq]
  | blit => rfl

theorem lastWrite_buffered {o : Nat} (ho : o < s.bufferSize) :
    lastWrite o (strokes.flatMap s.buffered) = s.lastDrawn strokes o := by
  have hplace (w : Nat × UInt32) (hw : w.1 = o) : decide (w.1 < s.bufferSize) = true :=
    decide_eq_true (hw ▸ ho)
  have hbuffered := Lib.lastWrite_filter (strokes.flatMap s.buffered) hplace
  have hdirect := Lib.lastWrite_filter (strokes.flatMap fun
    | .blit .. => []
    | stroke => s.direct stroke) hplace
  rw [lastDrawn, ← hbuffered, ← hdirect, List.filter_flatMap, List.filter_flatMap]
  congr 1
  exact congrArg (fun f => strokes.flatMap f) (funext buffered_filter)

end Surface

end Vibra.Console
