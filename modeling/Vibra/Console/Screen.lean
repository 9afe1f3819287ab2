import Mathlib.Data.List.TakeDrop
import Mathlib.Data.Prod.Lex

/-! # The text console

The console keeps a shadow of the cells that the framebuffer shows, so that it never has to read the
framebuffer back.
-/

namespace Vibra.Console

def fontWidth : Nat := 8
def fontHeight : Nat := 16

/-- The font, and the conversion of a colour to what the framebuffer holds. The glyphs of the
space and of 0 are empty. -/
structure Display where
  line : UInt8 → Nat → Nat
  native : UInt32 → UInt32
  space : ∀ dy, line 32 dy = 0
  null : ∀ dy, line 0 dy = 0

/-- The glyphs of the space and of `_` on a screen with the colours as they are. -/
def underscores : Display where
  line ch dy := if ch = 95 ∧ dy = 12 then 0xFF else 0
  native colour := colour
  space _ := if_neg (by simp)
  null _ := if_neg (by simp)

structure TextCell where
  ch : UInt8
  fg : UInt32
  bg : UInt32
deriving DecidableEq

/-- The boxes, blocks and arrows that the font has, by their code points. -/
def cp437Table : List (Nat × UInt8) :=
  [(0x2500, 0xC4), (0x2502, 0xB3), (0x250C, 0xDA), (0x2510, 0xBF), (0x2514, 0xC0), (0x2518, 0xD9),
    (0x251C, 0xC3), (0x2524, 0xB4), (0x252C, 0xC2), (0x2534, 0xC1), (0x253C, 0xC5), (0x2588, 0xDB),
    (0x2591, 0xB0), (0x2592, 0xB1), (0x2593, 0xB2), (0x25A0, 0xFE), (0x2190, 0x1B), (0x2191, 0x18),
    (0x2192, 0x1A), (0x2193, 0x19), (0x00B7, 0xFA), (0x2014, 0xC4), (0x2013, 0xC4), (0x00B0, 0xF8),
    (0x00B1, 0xF1), (0x2265, 0xF2), (0x2264, 0xF3)]

def cp437Index (ch : Char) : UInt8 := (cp437Table.lookup ch.toNat).getD 0

def fontIndex (ch : Char) : UInt8 :=
  if ch.toNat < 256 then UInt8.ofNat ch.toNat else cp437Index ch

end Console

/-- A console; the framebuffer is what it has at `x` and `y`. -/
structure Console where
  display : Console.Display
  width : Nat
  height : Nat
  cols : Nat
  rows : Nat
  pixels : Nat → Nat → UInt32
  cursorCol : Nat
  cursorRow : Nat
  fgColor : UInt32
  bgColor : UInt32
  cursorPainted : Bool
  cursorPaintedAt : Nat × Nat
  lastBlinkMs : Nat
  cells : List Console.TextCell
  cellsValid : Bool
  /-- The staging buffer has been allocated. -/
  staging : Bool
  pending : Bool
  lastFlushMs : Nat
  paintedMax : Nat
  fbIsRam : Bool
  /-- There is a heap to keep the shadow in. -/
  heap : Bool

namespace Console

variable (c : Console)

def blank : TextCell := ⟨32, c.fgColor, c.bgColor⟩

/-- The pixels of a rectangle, as far as the framebuffer goes. -/
def paint (x y w h : Nat) (f : Nat → Nat → UInt32) : Console :=
  { c with
    pixels := fun px py =>
      if x ≤ px ∧ px < x + w ∧ y ≤ py ∧ py < y + h ∧ px < c.width ∧ py < c.height then
        f (px - x) (py - y)
      else c.pixels px py }

def expandLine (line : Nat) (fg bg : UInt32) (dx : Nat) : UInt32 :=
  if line.testBit (7 - dx) then fg else bg

def cellPixel (cell : TextCell) (dx dy : Nat) : UInt32 :=
  if cell.ch = 32 then c.display.native cell.bg
  else expandLine (c.display.line cell.ch dy) (c.display.native cell.fg) (c.display.native cell.bg) dx

def drawCellPixels (cell : TextCell) (col row : Nat) : Console :=
  c.paint (col * fontWidth) (row * fontHeight) fontWidth fontHeight (c.cellPixel cell)

/-- The cell under the cursor is drawn again. -/
def undrawCursor : Console :=
  if !c.cursorPainted then c
  else
    let (col, row) := c.cursorPaintedAt
    let c := { c with cursorPainted := false }
    if c.cols ≤ col ∨ c.rows ≤ row then c
    else c.drawCellPixels (c.cells.getD (row * c.cols + col) c.blank) col row

/-- A line under the cell of the cursor. -/
def drawCursor : Console :=
  let c := if c.cursorPainted then c.undrawCursor else c
  if c.cols ≤ c.cursorCol ∨ c.rows ≤ c.cursorRow then c
  else
    let c := c.paint (c.cursorCol * fontWidth) (c.cursorRow * fontHeight + (fontHeight - 2))
      fontWidth 2 fun _ _ => c.display.native (~~~c.bgColor)
    { c with cursorPainted := true, cursorPaintedAt := (c.cursorCol, c.cursorRow) }

def updateCursorBlink (now : Nat) : Console :=
  if c.pending then c
  else if c.lastBlinkMs = 0 ∧ 0 < now then { c with lastBlinkMs := now }.drawCursor
  else if 500 ≤ now - c.lastBlinkMs then
    let c := { c with lastBlinkMs := now }
    if c.cursorPainted then c.undrawCursor else c.drawCursor
  else c

def resetCursorBlink : Console := { c with cursorPainted := false, lastBlinkMs := 0 }

/-- The cell of the cursor with its colours exchanged. -/
def drawBlockCursor : Console :=
  let (col, row) := (c.cursorCol, c.cursorRow)
  if c.cols ≤ col ∨ c.rows ≤ row then c
  else
    match c.cells[row * c.cols + col]? with
    | none => c
    | some cell =>
      let c := c.drawCellPixels cell col row
      let fg := c.display.native cell.bg
      let bg := c.display.native cell.fg
      let c := c.paint (col * fontWidth) (row * fontHeight) fontWidth fontHeight fun dx dy =>
        expandLine (c.display.line cell.ch dy) fg bg dx
      { c with cursorPainted := false }

def resetCells : Console :=
  if !c.heap then { c with cells := [], cellsValid := false }
  else { c with cells := List.replicate (c.cols * c.rows) c.blank, cellsValid := true }

def rebuildCells : Console := c.resetCells

def allocStaging : Console :=
  if c.rows = 0 ∨ c.width = 0 then c else { c with staging := c.width % 2 = 0 }

def clear : Console :=
  let c := { c with pixels := fun _ _ => c.display.native c.bgColor }
  { c.resetCells with
    cursorCol := 0, cursorRow := 0, paintedMax := 0, cursorPainted := false, pending := false }

/-- A console for a framebuffer with any pixels. -/
def new (display : Display) (width height : Nat) (pixels : Nat → Nat → UInt32)
    (fbIsRam heap : Bool) : Console :=
  let c : Console := {
    display, width, height, pixels, fbIsRam, heap
    cols := width / fontWidth
    rows := height / fontHeight
    cursorCol := 0
    cursorRow := 0
    fgColor := 0xE0E0E0
    bgColor := 0x1A1A2E
    cursorPainted := false
    cursorPaintedAt := (0, 0)
    lastBlinkMs := 0
    cells := []
    cellsValid := true
    staging := false
    pending := false
    lastFlushMs := 0
    paintedMax := 0 }
  c.resetCells.clear

def drawCharAt (ch : Char) (col row : Nat) (fg bg : UInt32) : Console :=
  let c := if c.cursorPainted ∧ c.cursorPaintedAt = (col, row) then c.undrawCursor else c
  if c.cols ≤ col ∨ c.rows ≤ row then c
  else
    let cell := ⟨fontIndex ch, fg, bg⟩
    let index := row * c.cols + col
    if c.cellsValid then
      if c.cells[index]? = some cell then c
      else
        let c := { c with cells := c.cells.set index cell }
        if c.pending then c else c.drawCellPixels cell col row
    else c.drawCellPixels cell col row

/-- The last row with a cell that is not empty. -/
def lastUsedRow : Nat :=
  if c.cells.length ≠ c.cols * c.rows then c.rows - 1
  else
    (((List.range c.rows).reverse.find? fun row =>
      ((c.cells.drop (row * c.cols)).take c.cols).any fun cell => cell.ch ≠ 32 ∧ cell.ch ≠ 0)).getD 0

/-- A row of the staging buffer: the background of the console, and what is not empty. -/
def stagedPixel (px py : Nat) : UInt32 :=
  let (col, row) := (px / fontWidth, py / fontHeight)
  let cell := c.cells.getD (row * c.cols + col) c.blank
  if c.cols ≤ col ∨ cell.ch = 32 ∨ cell.ch = 0 then c.display.native c.bgColor
  else
    expandLine (c.display.line cell.ch (py % fontHeight)) (c.display.native cell.fg)
      (c.display.native cell.bg) (px % fontWidth)

/-- A row of cells one by one. -/
def singlePixel (px py : Nat) : UInt32 :=
  let (col, row) := (px / fontWidth, py / fontHeight)
  if c.cols ≤ col then c.pixels px py
  else c.cellPixel (c.cells.getD (row * c.cols + col) c.blank) (px % fontWidth) (py % fontHeight)

/-- The buffer is used when it is there and two pixels go into a word of it. -/
def useStaging : Bool := c.width % 2 = 0 ∧ c.staging

def redrawFromCells : Console :=
  if !c.cellsValid ∨ c.cells.length ≠ c.cols * c.rows then c
  else
    let lastUsed := c.lastUsedRow
    let lastRow := min (max lastUsed c.paintedMax) (c.rows - 1)
    let c := c.paint 0 0 c.width ((lastRow + 1) * fontHeight)
      (if c.useStaging then c.stagedPixel else c.singlePixel)
    { c with paintedMax := lastUsed, cursorPainted := false }

def flushIfDue (force : Bool) (now : Nat) : Console :=
  if !c.pending then c
  else if !force ∧ now - c.lastFlushMs < 40 then c
  else { c with lastFlushMs := now, pending := false }.redrawFromCells

def shiftCells : Console :=
  { c with cells := c.cells.drop c.cols ++ List.replicate c.cols c.blank }

/-- The shadow is scrolled and the screen follows when it is due; or both are. -/
def scroll (now : Nat) : Console :=
  if c.rows = 0 ∨ c.cols = 0 then c
  else if c.cellsValid ∧ c.cells.length = c.cols * c.rows ∧ !c.fbIsRam then
    let c := { c.shiftCells with
      cursorPainted := false, paintedMax := c.rows - 1, pending := true }.flushIfDue false now
    { c with cursorRow := c.rows - 1 }
  else
    let c := { c with cursorPainted := false, paintedMax := c.rows - 1 }
    let c :=
      if fontHeight < c.height then
        { c with
          pixels := fun px py =>
            if py + fontHeight < c.height then c.pixels px (py + fontHeight)
            else c.display.native c.bgColor }
      else c
    let c := if c.cells.length = c.cols * c.rows then c.shiftCells else c
    { c with cursorRow := c.rows - 1 }

/-- What `put_char` does before it looks whether to scroll. -/
def advance (ch : Char) : Console :=
  if ch = '\n' then { c with cursorCol := 0, cursorRow := c.cursorRow + 1 }
  else if ch = '\r' then { c with cursorCol := 0 }
  else if ch = '\x08' then { c with cursorCol := c.cursorCol - 1 }
  else if ch = '\t' then
    { c with cursorCol := min ((c.cursorCol / 4 + 1) * 4) (c.cols - 1) }
  else
    let c := c.drawCharAt ch c.cursorCol c.cursorRow c.fgColor c.bgColor
    if c.cols ≤ c.cursorCol + 1 then { c with cursorCol := 0, cursorRow := c.cursorRow + 1 }
    else { c with cursorCol := c.cursorCol + 1 }

/-- `put_char` and `put_char_from_serial`. -/
def putChar (ch : Char) (now : Nat) : Console :=
  let c := c.advance ch
  if c.rows ≤ c.cursorRow then c.scroll now else c

def print (s : List (Char × Nat)) : Console := s.foldl (fun c x => c.putChar x.1 x.2) c

def setFg (fg : UInt32) : Console := { c with fgColor := fg }

def printColored (s : List (Char × Nat)) (fg : UInt32) : Console :=
  ((c.setFg fg).print s).setFg c.fgColor

/-- What `print_char` does to make room for a character. -/
def makeRoom (now : Nat) : Console :=
  let c :=
    if c.width < (c.cursorCol + 1) * fontWidth then
      { c with cursorCol := 0, cursorRow := c.cursorRow + 1 }
    else c
  if c.height ≤ c.cursorRow * fontHeight then
    { c.scroll now with cursorRow := c.height / fontHeight - 1 }
  else c

def printChar (ch : Char) (now : Nat) : Console :=
  if ch = '\n' then { c with cursorCol := 0, cursorRow := c.cursorRow + 1 }
  else if ch = '\r' then { c with cursorCol := 0 }
  else if 1 ≤ ch.toNat ∧ ch.toNat ≤ 4 then c
  else
    let c := c.makeRoom now
    let c := c.drawCharAt ch c.cursorCol c.cursorRow c.fgColor c.bgColor
    { c with cursorCol := c.cursorCol + 1 }

def setCursorPosition (col row : Nat) : Console :=
  { c with cursorCol := min col (c.cols - 1), cursorRow := min row (c.rows - 1) }

/-! ### What stays the same -/

/-- The screen, and what the console has on its cursor and its colours. -/
structure Frame (c c' : Console) : Prop where
  display : c'.display = c.display
  width : c'.width = c.width
  height : c'.height = c.height
  cols : c'.cols = c.cols
  rows : c'.rows = c.rows
  fgColor : c'.fgColor = c.fgColor
  bgColor : c'.bgColor = c.bgColor
  staging : c'.staging = c.staging
  fbIsRam : c'.fbIsRam = c.fbIsRam
  heap : c'.heap = c.heap
  cellsValid : c'.cellsValid = c.cellsValid

theorem Frame.refl : c.Frame c := ⟨rfl, rfl, rfl, rfl, rfl, rfl, rfl, rfl, rfl, rfl, rfl⟩

variable {c}

theorem Frame.trans {c' c'' : Console} (h : c.Frame c') (h' : c'.Frame c'') : c.Frame c'' :=
  ⟨h'.display.trans h.display, h'.width.trans h.width, h'.height.trans h.height,
    h'.cols.trans h.cols, h'.rows.trans h.rows, h'.fgColor.trans h.fgColor,
    h'.bgColor.trans h.bgColor, h'.staging.trans h.staging, h'.fbIsRam.trans h.fbIsRam,
    h'.heap.trans h.heap, h'.cellsValid.trans h.cellsValid⟩

variable (c)

theorem frame_undrawCursor : c.Frame c.undrawCursor := by
  unfold undrawCursor
  dsimp only
  split
  · exact .refl c
  · split <;> exact ⟨rfl, rfl, rfl, rfl, rfl, rfl, rfl, rfl, rfl, rfl, rfl⟩

theorem frame_drawCharAt (ch : Char) (col row : Nat) (fg bg : UInt32) :
    c.Frame (c.drawCharAt ch col row fg bg) := by
  have hstart : c.Frame (if c.cursorPainted ∧ c.cursorPaintedAt = (col, row) then c.undrawCursor
      else c) := by
    split
    · exact c.frame_undrawCursor
    · exact .refl c
  unfold drawCharAt
  dsimp only
  refine hstart.trans ?_
  generalize (if c.cursorPainted ∧ c.cursorPaintedAt = (col, row) then c.undrawCursor else c) = b
  split
  · exact .refl b
  · split
    · split
      · exact .refl b
      · split <;> exact ⟨rfl, rfl, rfl, rfl, rfl, rfl, rfl, rfl, rfl, rfl, rfl⟩
    · exact ⟨rfl, rfl, rfl, rfl, rfl, rfl, rfl, rfl, rfl, rfl, rfl⟩

def nextCell (col row : Nat) : Nat × Nat :=
  if c.cols ≤ col + 1 then (0, row + 1) else (col + 1, row)

theorem nextCell_lt {col row : Nat} (h : ¬ c.rows ≤ (c.nextCell col row).2) :
    Prod.Lex (· < ·) (· < ·) (c.rows - (c.nextCell col row).2, c.cols - (c.nextCell col row).1)
      (c.rows - row, c.cols - col) := by
  unfold nextCell at h ⊢
  rw [Prod.lex_def]
  split at h
  · rename_i hwraps
    rw [if_pos hwraps]
    exact Or.inl (by dsimp only at h ⊢; omega)
  · rename_i hstays
    rw [if_neg hstays]
    exact Or.inr ⟨rfl, by dsimp only; omega⟩

/-- The cells from `(col, row)` to `(endCol, endRow)` are written over. -/
def eraseRange (endCol endRow : Nat) (c : Console) (col row : Nat) : Console :=
  if row < endRow ∨ (row = endRow ∧ col ≤ endCol) then
    let c' := c.drawCharAt ' ' col row c.fgColor c.bgColor
    let next := c.nextCell col row
    if _ : c.rows ≤ next.2 then c' else eraseRange endCol endRow c' next.1 next.2
  else c
termination_by (c.rows - row, c.cols - col)
decreasing_by
  obtain ⟨_, _, _, hcols, hrows, _, _, _, _, _, _⟩ :=
    c.frame_drawCharAt ' ' col row c.fgColor c.bgColor
  rw [hcols, hrows]
  exact c.nextCell_lt ‹_›

def clearRange (col row endCol endRow : Nat) : Console :=
  (eraseRange endCol endRow (c.setCursorPosition col row) col row).setCursorPosition col row

end Console

end Vibra
