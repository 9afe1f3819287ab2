import Vibra.Console.Screen
import Vibra.Lib.Runs
import Vibra.Lib.Terminal

/-! # The console as a terminal

The shadow is the grid of a terminal. `put_char` goes on to the next line as soon as a line is
full, and `print_char` as soon as it has a character for it.
-/

namespace Vibra.Console

open Lib (Along Terminal index_inj index_lt)

variable {c c' : Console} {now : Nat}

/-- There is a shadow of a grid with at least one cell. -/
structure Valid (c : Console) : Prop where
  cols : 0 < c.cols
  rows : 0 < c.rows
  width : c.cols = c.width / fontWidth
  height : c.rows = c.height / fontHeight
  cells : c.cells.length = c.cols * c.rows
  cellsValid : c.cellsValid = true
  heap : c.heap = true

structure SameText (c c' : Console) : Prop extends c.Frame c' where
  cells : c'.cells = c.cells
  cursorCol : c'.cursorCol = c.cursorCol
  cursorRow : c'.cursorRow = c.cursorRow

theorem sameText_undrawCursor (c : Console) : c.SameText c.undrawCursor := by
  refine ⟨c.frame_undrawCursor, ?_, ?_, ?_⟩ <;>
  · unfold undrawCursor
    dsimp only
    split
    · rfl
    · split <;> rfl

theorem sameText_redrawFromCells (c : Console) : c.SameText c.redrawFromCells := by
  unfold redrawFromCells
  dsimp only
  split <;> exact ⟨⟨rfl, rfl, rfl, rfl, rfl, rfl, rfl, rfl, rfl, rfl, rfl⟩, rfl, rfl, rfl⟩

theorem sameText_flushIfDue (c : Console) (force : Bool) (now : Nat) :
    c.SameText (c.flushIfDue force now) := by
  unfold flushIfDue
  split
  · exact ⟨.refl c, rfl, rfl, rfl⟩
  · split
    · exact ⟨.refl c, rfl, rfl, rfl⟩
    · obtain ⟨hframe, hcells, hcol, hrow⟩ :=
        { c with lastFlushMs := now, pending := false }.sameText_redrawFromCells
      exact ⟨⟨hframe.1, hframe.2, hframe.3, hframe.4, hframe.5, hframe.6, hframe.7, hframe.8,
        hframe.9, hframe.10, hframe.11⟩, hcells, hcol, hrow⟩

theorem drawCharAt_cells (h : c.cellsValid = true) {ch : Char} {col row : Nat} {fg bg : UInt32}
    (hcol : col < c.cols) (hrow : row < c.rows) :
    (c.drawCharAt ch col row fg bg).cells =
        c.cells.set (row * c.cols + col) ⟨fontIndex ch, fg, bg⟩ ∧
      (c.drawCharAt ch col row fg bg).cursorCol = c.cursorCol ∧
      (c.drawCharAt ch col row fg bg).cursorRow = c.cursorRow := by
  have hstart : c.SameText (if c.cursorPainted ∧ c.cursorPaintedAt = (col, row) then c.undrawCursor
      else c) := by
    split
    · exact c.sameText_undrawCursor
    · exact ⟨.refl c, rfl, rfl, rfl⟩
  unfold drawCharAt
  dsimp only
  generalize (if c.cursorPainted ∧ c.cursorPaintedAt = (col, row) then c.undrawCursor else c) = b
    at hstart
  obtain ⟨hframe, hcells, hcursorCol, hcursorRow⟩ := hstart
  rw [hframe.cols, hframe.rows, hframe.cellsValid, hcells, if_neg (by omega), if_pos h]
  split
  · rename_i hsame
    refine ⟨?_, hcursorCol, hcursorRow⟩
    rw [hcells]
    obtain ⟨hlt, heq⟩ := List.getElem?_eq_some_iff.mp hsame
    rw [← heq, List.set_getElem_self]
  · split <;> exact ⟨rfl, hcursorCol, hcursorRow⟩

theorem scroll_spec (h : c.Valid) (now : Nat) :
    c.Frame (c.scroll now) ∧
      (c.scroll now).cells = c.cells.drop c.cols ++ List.replicate c.cols c.blank ∧
      (c.scroll now).cursorCol = c.cursorCol ∧ (c.scroll now).cursorRow = c.rows - 1 := by
  have hcols := h.cols
  have hrows := h.rows
  unfold scroll
  rw [if_neg (by omega)]
  split
  · obtain ⟨hframe, hcells, hcol, hrow⟩ := sameText_flushIfDue { c.shiftCells with
      cursorPainted := false, paintedMax := c.rows - 1, pending := true } false now
    exact ⟨⟨hframe.1, hframe.2, hframe.3, hframe.4, hframe.5, hframe.6, hframe.7, hframe.8,
        hframe.9, hframe.10, hframe.11⟩, hcells, hcol, congrArg (· - 1) hframe.rows⟩
  · dsimp only
    split
    · rw [if_pos h.cells]
      exact ⟨⟨rfl, rfl, rfl, rfl, rfl, rfl, rfl, rfl, rfl, rfl, rfl⟩, rfl, rfl, rfl⟩
    · rw [if_pos h.cells]
      exact ⟨⟨rfl, rfl, rfl, rfl, rfl, rfl, rfl, rfl, rfl, rfl, rfl⟩, rfl, rfl, rfl⟩

/-- The cells and the cursor of the terminal are those of the console. -/
structure Shows (c : Console) (t : Terminal TextCell) : Prop where
  cols : t.cols = c.cols
  rows : t.rows = c.rows
  col : t.col = c.cursorCol
  row : t.row = c.cursorRow
  grid : ∀ x < c.cols, ∀ y < c.rows, c.cells[y * c.cols + x]? = some (t.grid x y)

/-- The terminal with the cells of the console. -/
def terminal (c : Console) : Terminal TextCell where
  cols := c.cols
  rows := c.rows
  col := c.cursorCol
  row := c.cursorRow
  grid x y := c.cells.getD (y * c.cols + x) c.blank

theorem shows_terminal (h : c.Valid) : c.Shows c.terminal := by
  refine ⟨rfl, rfl, rfl, rfl, fun x hx y hy => ?_⟩
  have hlt : y * c.cols + x < c.cells.length := h.cells ▸ index_lt hx hy
  show _ = some (c.cells.getD _ _)
  rw [List.getD_eq_getElem?_getD, List.getElem?_eq_getElem hlt]
  rfl

variable {t : Terminal TextCell}

theorem Shows.moved (h : c.Shows t) {col row : Nat} {t' : Terminal TextCell}
    (ht : t' = { t with col := col, row := row }) :
    { c with cursorCol := col, cursorRow := row }.Shows t' :=
  ht ▸ ⟨h.cols, h.rows, rfl, rfl, h.grid⟩

theorem Shows.put (h : c.Shows t) (hcols : c'.cols = c.cols) (hrows : c'.rows = c.rows)
    (hinside : t.Inside) (hlength : c.cells.length = c.cols * c.rows) {cell : TextCell}
    (hcells : c'.cells = c.cells.set (c.cursorRow * c.cols + c.cursorCol) cell) :
    c'.Shows { t.put cell with col := c'.cursorCol, row := c'.cursorRow } := by
  refine ⟨h.cols.trans hcols.symm, h.rows.trans hrows.symm, rfl, rfl, fun x hx y hy => ?_⟩
  rw [hcols] at hx
  rw [hrows] at hy
  have hcol : c.cursorCol < c.cols := by rw [← h.col, ← h.cols]; exact hinside.1
  have hrow : c.cursorRow < c.rows := by rw [← h.row, ← h.rows]; exact hinside.2
  rw [hcells, hcols, List.getElem?_set]
  show _ = some (if x = t.col ∧ y = t.row then cell else t.grid x y)
  rw [h.col, h.row]
  by_cases hat : x = c.cursorCol ∧ y = c.cursorRow
  · obtain ⟨rfl, rfl⟩ := hat
    rw [if_pos rfl, if_pos (hlength ▸ index_lt hcol hrow), if_pos ⟨rfl, rfl⟩]
  · rw [if_neg, if_neg hat]
    · exact h.grid x hx y hy
    · intro heq
      exact hat (((index_inj hcol hx).mp heq).imp Eq.symm Eq.symm)

theorem getElem?_shift {cells : List TextCell} {cols rows x y : Nat}
    (hlength : cells.length = cols * rows) (hx : x < cols) (hy : y < rows) (cell : TextCell) :
    (cells.drop cols ++ List.replicate cols cell)[y * cols + x]? =
      if y + 1 < rows then cells[(y + 1) * cols + x]? else some cell := by
  have hdrop : (cells.drop cols).length = cols * (rows - 1) := by
    rw [List.length_drop, hlength, Nat.mul_sub, Nat.mul_one]
  have hnext : (y + 1) * cols + x = cols + (y * cols + x) := by
    rw [Nat.succ_mul]
    omega
  by_cases hlast : y + 1 < rows
  · rw [if_pos hlast, List.getElem?_append_left, List.getElem?_drop, hnext]
    rw [hdrop]
    exact index_lt hx (by omega)
  · have hy' : y = rows - 1 := by omega
    have hplace : y * cols + x - cols * (rows - 1) = x := by
      rw [hy', Nat.mul_comm]
      omega
    have hge : cols * (rows - 1) ≤ y * cols + x := by
      rw [hy', Nat.mul_comm]
      omega
    rw [if_neg hlast, List.getElem?_append_right (hdrop ▸ hge), hdrop, hplace,
      List.getElem?_replicate, if_pos hx]

theorem Shows.scroll (h : c.Shows t) (hvalid : c.Valid) (now : Nat) :
    (c.scroll now).Shows { t.scrollUp c.blank with row := c.rows - 1 } := by
  obtain ⟨hframe, hcells, hcol, hrow⟩ := scroll_spec hvalid now
  refine ⟨h.cols.trans hframe.cols.symm, h.rows.trans hframe.rows.symm, h.col.trans hcol.symm,
    hrow.symm, fun x hx y hy => ?_⟩
  rw [hframe.cols] at hx ⊢
  rw [hframe.rows] at hy
  rw [hcells]
  show _ = some (if y + 1 < t.rows then t.grid x (y + 1) else c.blank)
  rw [h.rows, getElem?_shift hvalid.cells hx hy]
  split
  · exact h.grid x hx (y + 1) ‹_›
  · rfl

/-- A call of a printing function, with the time at each character, or of what places the
cursor. -/
inductive Call where
  | putChar (ch : Char) (now : Nat)
  | print (s : List (Char × Nat))
  | printColored (s : List (Char × Nat)) (fg : UInt32)
  | printChar (ch : Char) (now : Nat)
  | setCursorPosition (col row : Nat)
  | clear

def step (c : Console) : Call → Console
  | .putChar ch now => c.putChar ch now
  | .print s => c.print s
  | .printColored s fg => c.printColored s fg
  | .printChar ch now => c.printChar ch now
  | .setCursorPosition col row => c.setCursorPosition col row
  | .clear => c.clear

/-- A character of `put_char`. -/
def typed (fg bg : UInt32) (t : Terminal TextCell) (ch : Char) : Terminal TextCell :=
  if ch = '\n' then t.newline ⟨32, fg, bg⟩
  else if ch = '\r' then t.carriageReturn
  else if ch = '\x08' then t.backspace
  else if ch = '\t' then t.tab 4
  else t.write ⟨32, fg, bg⟩ ⟨fontIndex ch, fg, bg⟩

/-- A character of `print_char`, for which four codes are not text. -/
def printed (fg bg : UInt32) (t : Terminal TextCell) (ch : Char) : Terminal TextCell :=
  if ch = '\n' then t.newline ⟨32, fg, bg⟩
  else if ch = '\r' then t.carriageReturn
  else if 1 ≤ ch.toNat ∧ ch.toNat ≤ 4 then t
  else t.write ⟨32, fg, bg⟩ ⟨fontIndex ch, fg, bg⟩

/-- What the calls do to a terminal. -/
def reference (fg bg : UInt32) (t : Terminal TextCell) : Call → Terminal TextCell
  | .putChar ch _ => typed fg bg t ch
  | .print s => s.foldl (fun t x => typed fg bg t x.1) t
  | .printColored s fg => s.foldl (fun t x => typed fg bg t x.1) t
  | .printChar ch _ => printed fg bg t ch
  | .setCursorPosition col row => t.move col row
  | .clear => t.clear ⟨32, fg, bg⟩

/-- `print_char` does not leave the line that it fills, nor the last line. -/
def Fits (c : Console) : Call → Prop
  | .printChar ch _ =>
    if ch = '\n' then c.cursorRow + 1 < c.rows
    else if ch = '\r' ∨ (1 ≤ ch.toNat ∧ ch.toNat ≤ 4) then True
    else c.cursorCol + 1 < c.cols
  | _ => True

instance (c : Console) : DecidablePred c.Fits := fun call => by
  cases call <;> unfold Fits <;> infer_instance

theorem Valid.of_frame (h : c.Valid) (hframe : c.Frame c')
    (hcells : c'.cells.length = c.cells.length) : c'.Valid where
  cols := hframe.cols ▸ h.cols
  rows := hframe.rows ▸ h.rows
  width := hframe.cols.trans (h.width.trans (congrArg (· / fontWidth) hframe.width.symm))
  height := hframe.rows.trans (h.height.trans (congrArg (· / fontHeight) hframe.height.symm))
  cells := by rw [hcells, h.cells, hframe.cols, hframe.rows]
  cellsValid := hframe.cellsValid.trans h.cellsValid
  heap := hframe.heap.trans h.heap

theorem length_drawCharAt (c : Console) (ch : Char) (col row : Nat) (fg bg : UInt32) :
    (c.drawCharAt ch col row fg bg).cells.length = c.cells.length := by
  have hstart : (if c.cursorPainted ∧ c.cursorPaintedAt = (col, row) then c.undrawCursor
      else c).cells = c.cells := by
    split
    · exact c.sameText_undrawCursor.cells
    · rfl
  unfold drawCharAt
  dsimp only
  generalize (if c.cursorPainted ∧ c.cursorPaintedAt = (col, row) then c.undrawCursor else c) = b
    at hstart
  rw [← hstart]
  split
  · rfl
  · split
    · split
      · rfl
      · split <;> exact List.length_set
    · rfl

theorem length_scroll (h : c.Valid) (now : Nat) :
    (c.scroll now).cells.length = c.cells.length := by
  rw [(scroll_spec h now).2.1, List.length_append, List.length_drop, List.length_replicate, h.cells]
  have := Nat.le_mul_of_pos_right c.cols h.rows
  omega

theorem frame_advance (c : Console) (ch : Char) :
    c.Frame (c.advance ch) ∧ (c.advance ch).cells.length = c.cells.length := by
  unfold advance
  split
  · exact ⟨⟨rfl, rfl, rfl, rfl, rfl, rfl, rfl, rfl, rfl, rfl, rfl⟩, rfl⟩
  split
  · exact ⟨⟨rfl, rfl, rfl, rfl, rfl, rfl, rfl, rfl, rfl, rfl, rfl⟩, rfl⟩
  split
  · exact ⟨⟨rfl, rfl, rfl, rfl, rfl, rfl, rfl, rfl, rfl, rfl, rfl⟩, rfl⟩
  split
  · exact ⟨⟨rfl, rfl, rfl, rfl, rfl, rfl, rfl, rfl, rfl, rfl, rfl⟩, rfl⟩
  · have hframe := c.frame_drawCharAt ch c.cursorCol c.cursorRow c.fgColor c.bgColor
    have hlength := c.length_drawCharAt ch c.cursorCol c.cursorRow c.fgColor c.bgColor
    dsimp only
    split <;> exact ⟨⟨hframe.1, hframe.2, hframe.3, hframe.4, hframe.5, hframe.6, hframe.7,
      hframe.8, hframe.9, hframe.10, hframe.11⟩, hlength⟩

theorem frame_putChar (h : c.Valid) (ch : Char) (now : Nat) :
    c.Frame (c.putChar ch now) ∧ (c.putChar ch now).Valid := by
  obtain ⟨hframe, hlength⟩ := c.frame_advance ch
  have hvalid := h.of_frame hframe hlength
  unfold putChar
  dsimp only
  split
  · have hscroll := (scroll_spec hvalid now).1
    exact ⟨hframe.trans hscroll, hvalid.of_frame hscroll (length_scroll hvalid now)⟩
  · exact ⟨hframe, hvalid⟩

/-! ## A character -/

theorem shows_down (h : c.Shows t) (hvalid : c.Valid) (hinside : t.Inside) (now : Nat) :
    (if c.rows ≤ c.cursorRow + 1 then { c with cursorRow := c.cursorRow + 1 }.scroll now
      else { c with cursorRow := c.cursorRow + 1 }).Shows (t.down c.blank) := by
  have hrow := hinside.2
  unfold Terminal.down
  by_cases hlast : t.row + 1 < t.rows
  · rw [if_pos hlast, if_neg (by rw [← h.row, ← h.rows]; omega)]
    exact h.moved (by rw [← h.row, ← h.col])
  · rw [if_neg hlast, if_pos (by rw [← h.row, ← h.rows]; omega)]
    have hmoved : { c with cursorRow := c.cursorRow + 1 }.Shows { t with row := t.row + 1 } :=
      h.moved (by rw [← h.row, ← h.col])
    have hvalid' : { c with cursorRow := c.cursorRow + 1 }.Valid :=
      hvalid.of_frame ⟨rfl, rfl, rfl, rfl, rfl, rfl, rfl, rfl, rfl, rfl, rfl⟩ rfl
    have hsame : t.scrollUp c.blank =
        { ({ t with row := t.row + 1 } : Terminal TextCell).scrollUp c.blank with
          row := c.rows - 1 } := by
      have hlast' : t.row = c.rows - 1 := by
        rw [← h.rows]
        omega
      unfold Terminal.scrollUp
      dsimp only
      rw [← hlast']
    rw [hsame]
    exact hmoved.scroll hvalid' now

theorem shows_newline (h : c.Shows t) (hvalid : c.Valid) (hinside : t.Inside) (now : Nat) :
    (if c.rows ≤ c.cursorRow + 1 then
        { c with cursorCol := 0, cursorRow := c.cursorRow + 1 }.scroll now
      else { c with cursorCol := 0, cursorRow := c.cursorRow + 1 }).Shows (t.newline c.blank) := by
  have hreturn : { c with cursorCol := 0 }.Shows t.carriageReturn :=
    h.moved (by rw [Terminal.carriageReturn, ← h.row])
  exact shows_down hreturn (hvalid.of_frame
    ⟨rfl, rfl, rfl, rfl, rfl, rfl, rfl, rfl, rfl, rfl, rfl⟩ rfl) hinside.carriageReturn now

theorem shows_draw (h : c.Shows t) (hvalid : c.Valid) (hinside : t.Inside) (ch : Char) :
    (c.drawCharAt ch c.cursorCol c.cursorRow c.fgColor c.bgColor).Shows
      (t.put ⟨fontIndex ch, c.fgColor, c.bgColor⟩) := by
  have hframe := c.frame_drawCharAt ch c.cursorCol c.cursorRow c.fgColor c.bgColor
  have hcol := hinside.1
  have hrow := hinside.2
  rw [h.col, h.cols] at hcol
  rw [h.row, h.rows] at hrow
  obtain ⟨hcells, hcol', hrow'⟩ := @drawCharAt_cells c hvalid.cellsValid ch _ _ c.fgColor
    c.bgColor hcol hrow
  have hput := h.put hframe.cols hframe.rows hinside hvalid.cells hcells
  rw [hcol', hrow', ← h.col, ← h.row] at hput
  rw [← h.col, ← h.row]
  exact hput

theorem shows_putChar (h : c.Shows t) (hvalid : c.Valid) (hinside : t.Inside) (ch : Char)
    (now : Nat) : (c.putChar ch now).Shows (typed c.fgColor c.bgColor t ch) := by
  have hcol := hinside.1
  have hrow := hinside.2
  rw [h.col, h.cols] at hcol
  rw [h.row, h.rows] at hrow
  have hstays (col : Nat) (t' : Terminal TextCell) (ht : t' = { t with col := col }) :
      (if c.rows ≤ c.cursorRow then { c with cursorCol := col }.scroll now
        else { c with cursorCol := col }).Shows t' := by
    rw [if_neg (by omega)]
    exact h.moved (by rw [ht, ← h.row])
  unfold putChar advance typed
  dsimp only
  split
  · exact shows_newline h hvalid hinside now
  split
  · exact hstays 0 _ rfl
  split
  · exact hstays (c.cursorCol - 1) _ (by rw [Terminal.backspace, h.col])
  split
  · exact hstays (min ((c.cursorCol / 4 + 1) * 4) (c.cols - 1)) _
      (by rw [Terminal.tab, h.col, h.cols])
  · have hdrawn := shows_draw h hvalid hinside ch
    have hframe := c.frame_drawCharAt ch c.cursorCol c.cursorRow c.fgColor c.bgColor
    have hvalid' := hvalid.of_frame hframe
      (c.length_drawCharAt ch c.cursorCol c.cursorRow c.fgColor c.bgColor)
    have hinside' : (t.put ⟨fontIndex ch, c.fgColor, c.bgColor⟩).Inside := hinside
    have hblank : (⟨32, c.fgColor, c.bgColor⟩ : TextCell) =
        (c.drawCharAt ch c.cursorCol c.cursorRow c.fgColor c.bgColor).blank := by
      rw [blank, hframe.fgColor, hframe.bgColor]
    rw [hblank]
    generalize c.drawCharAt ch c.cursorCol c.cursorRow c.fgColor c.bgColor = b at hdrawn hframe hvalid'
    unfold Terminal.write
    dsimp only
    generalize t.put ⟨fontIndex ch, c.fgColor, c.bgColor⟩ = u at hdrawn hinside'
    have hucol := hinside'.1
    have hurow := hinside'.2
    rw [hdrawn.col, hdrawn.cols] at hucol
    rw [hdrawn.row, hdrawn.rows] at hurow
    by_cases hwraps : b.cols ≤ b.cursorCol + 1
    · have hfull : ¬ u.col + 1 < u.cols := by rw [hdrawn.col, hdrawn.cols]; omega
      rw [if_pos hwraps, if_neg hfull]
      exact shows_newline hdrawn hvalid' hinside' now
    · have hroom : u.col + 1 < u.cols := by rw [hdrawn.col, hdrawn.cols]; omega
      have hrow' : ¬ b.rows ≤ b.cursorRow := by omega
      rw [if_neg hwraps, if_pos hroom, if_neg hrow']
      exact hdrawn.moved (by rw [← hdrawn.row, ← hdrawn.col])

theorem inside_typed (fg bg : UInt32) (h : t.Inside) (ch : Char) : (typed fg bg t ch).Inside := by
  unfold typed
  split
  · exact h.newline
  split
  · exact h.carriageReturn
  split
  · exact h.backspace
  split
  · exact h.tab 4
  · exact h.write _

theorem inside_printed (fg bg : UInt32) (h : t.Inside) (ch : Char) :
    (printed fg bg t ch).Inside := by
  unfold printed
  split
  · exact h.newline
  split
  · exact h.carriageReturn
  split
  · exact h
  · exact h.write _

def Inside (c : Console) : Prop := c.cursorCol < c.cols ∧ c.cursorRow < c.rows

theorem Shows.inside_iff (h : c.Shows t) : c.Inside ↔ t.Inside := by
  unfold Inside Terminal.Inside
  rw [h.col, h.cols, h.row, h.rows]

theorem makeRoom_of_inside (hvalid : c.Valid) (hinside : c.Inside) (now : Nat) :
    c.makeRoom now = c := by
  obtain ⟨hcol, hrow⟩ := hinside
  rw [hvalid.width, fontWidth] at hcol
  rw [hvalid.height, fontHeight] at hrow
  have hwidth : ¬ c.width < (c.cursorCol + 1) * fontWidth := by
    rw [fontWidth]
    omega
  have hheight : ¬ c.height ≤ c.cursorRow * fontHeight := by
    rw [fontHeight]
    omega
  unfold makeRoom
  rw [if_neg hwidth]
  exact if_neg hheight

theorem frame_makeRoom (hvalid : c.Valid) (now : Nat) :
    c.Frame (c.makeRoom now) ∧ (c.makeRoom now).Valid := by
  have hstart (b : Console) (hb : c.Frame b) (hlength : b.cells.length = c.cells.length) :
      c.Frame (if b.height ≤ b.cursorRow * fontHeight then
        { b.scroll now with cursorRow := b.height / fontHeight - 1 } else b) ∧
      (if b.height ≤ b.cursorRow * fontHeight then
        { b.scroll now with cursorRow := b.height / fontHeight - 1 } else b).Valid := by
    have hvalid' := hvalid.of_frame hb hlength
    split
    · have hscroll := (scroll_spec hvalid' now).1
      have hframe : b.Frame { b.scroll now with cursorRow := b.height / fontHeight - 1 } :=
        ⟨hscroll.1, hscroll.2, hscroll.3, hscroll.4, hscroll.5, hscroll.6, hscroll.7, hscroll.8,
          hscroll.9, hscroll.10, hscroll.11⟩
      exact ⟨hb.trans hframe, hvalid'.of_frame hframe (length_scroll hvalid' now)⟩
    · exact ⟨hb, hvalid'⟩
  unfold makeRoom
  split
  · exact hstart _ ⟨rfl, rfl, rfl, rfl, rfl, rfl, rfl, rfl, rfl, rfl, rfl⟩ rfl
  · exact hstart c (.refl c) rfl

theorem frame_printChar (hvalid : c.Valid) (ch : Char) (now : Nat) :
    c.Frame (c.printChar ch now) ∧ (c.printChar ch now).Valid := by
  have hcursor (col row : Nat) : c.Frame { c with cursorCol := col, cursorRow := row } ∧
      { c with cursorCol := col, cursorRow := row }.Valid := by
    have hframe : c.Frame { c with cursorCol := col, cursorRow := row } :=
      ⟨rfl, rfl, rfl, rfl, rfl, rfl, rfl, rfl, rfl, rfl, rfl⟩
    exact ⟨hframe, hvalid.of_frame hframe rfl⟩
  unfold printChar
  split
  · exact hcursor 0 (c.cursorRow + 1)
  split
  · exact hcursor 0 c.cursorRow
  split
  · exact ⟨.refl c, hvalid⟩
  · obtain ⟨hroom, hvalid'⟩ := frame_makeRoom hvalid now
    generalize c.makeRoom now = b at hroom hvalid'
    have hdraw := b.frame_drawCharAt ch b.cursorCol b.cursorRow b.fgColor b.bgColor
    have hlength := b.length_drawCharAt ch b.cursorCol b.cursorRow b.fgColor b.bgColor
    have hframe : b.Frame { b.drawCharAt ch b.cursorCol b.cursorRow b.fgColor b.bgColor with
        cursorCol := (b.drawCharAt ch b.cursorCol b.cursorRow b.fgColor b.bgColor).cursorCol + 1 } :=
      ⟨hdraw.1, hdraw.2, hdraw.3, hdraw.4, hdraw.5, hdraw.6, hdraw.7, hdraw.8, hdraw.9, hdraw.10,
        hdraw.11⟩
    exact ⟨hroom.trans hframe, hvalid'.of_frame hframe hlength⟩

theorem shows_printChar_iff (h : c.Shows t) (hvalid : c.Valid) (hinside : t.Inside) (ch : Char)
    (now : Nat) :
    (c.printChar ch now).Inside ∧ (c.printChar ch now).Shows (printed c.fgColor c.bgColor t ch) ↔
      c.Fits (.printChar ch now) := by
  obtain ⟨hcol, hrow⟩ := h.inside_iff.mpr hinside
  have hstays (col : Nat) (hlt : col < c.cols) (t' : Terminal TextCell)
      (ht : t' = { t with col := col }) :
      { c with cursorCol := col }.Inside ∧ { c with cursorCol := col }.Shows t' :=
    ⟨⟨hlt, hrow⟩, h.moved (by rw [ht, ← h.row])⟩
  unfold printChar printed Fits
  dsimp only
  by_cases hline : ch = '\n'
  · rw [if_pos hline, if_pos hline, if_pos hline]
    constructor
    · exact fun hboth => hboth.1.2
    · intro hroom
      have hroom' : t.row + 1 < t.rows := by rw [h.row, h.rows]; exact hroom
      refine ⟨⟨hvalid.cols, hroom⟩, ?_⟩
      unfold Terminal.newline Terminal.down
      rw [if_pos (show t.carriageReturn.row + 1 < t.carriageReturn.rows from hroom')]
      exact h.moved (by rw [← h.row]; rfl)
  rw [if_neg hline, if_neg hline, if_neg hline]
  by_cases hreturn : ch = '\r'
  · rw [if_pos hreturn, if_pos hreturn, if_pos (Or.inl hreturn)]
    exact iff_of_true (hstays 0 hvalid.cols _ rfl) trivial
  rw [if_neg hreturn, if_neg hreturn]
  by_cases hcode : 1 ≤ ch.toNat ∧ ch.toNat ≤ 4
  · rw [if_pos hcode, if_pos hcode, if_pos (Or.inr hcode)]
    exact iff_of_true ⟨⟨hcol, hrow⟩, h⟩ trivial
  rw [if_neg hcode, if_neg hcode, if_neg (not_or.mpr ⟨hreturn, hcode⟩),
    makeRoom_of_inside hvalid ⟨hcol, hrow⟩]
  have hdrawn := shows_draw h hvalid hinside ch
  have hframe := c.frame_drawCharAt ch c.cursorCol c.cursorRow c.fgColor c.bgColor
  obtain ⟨_, hcol', hrow'⟩ := @drawCharAt_cells c hvalid.cellsValid ch _ _ c.fgColor
    c.bgColor hcol hrow
  constructor
  · rintro ⟨⟨hlt, _⟩, _⟩
    dsimp only at hlt
    rwa [hcol', hframe.cols] at hlt
  · intro hroom
    have hroom' : t.col + 1 < t.cols := by rw [h.col, h.cols]; exact hroom
    refine ⟨⟨?_, ?_⟩, ?_⟩
    · dsimp only
      rwa [hcol', hframe.cols]
    · dsimp only
      rwa [hrow', hframe.rows]
    · unfold Terminal.write
      dsimp only
      rw [if_pos (show (t.put _).col + 1 < (t.put _).cols from hroom')]
      exact hdrawn.moved (by rw [← hdrawn.col, ← hdrawn.row])

/-! ## Whole runs -/

theorem print_spec (h : c.Shows t) (hvalid : c.Valid) (hinside : t.Inside)
    (s : List (Char × Nat)) :
    c.Frame (c.print s) ∧ (c.print s).Valid ∧
      (c.print s).Shows (s.foldl (fun t x => typed c.fgColor c.bgColor t x.1) t) := by
  induction s generalizing c t with
  | nil => exact ⟨.refl c, hvalid, h⟩
  | cons x s ih =>
    obtain ⟨hframe, hvalid'⟩ := frame_putChar hvalid x.1 x.2
    obtain ⟨hframe', hvalid'', hshows⟩ := ih (shows_putChar h hvalid hinside x.1 x.2) hvalid'
      (inside_typed c.fgColor c.bgColor hinside x.1)
    rw [hframe.fgColor, hframe.bgColor] at hshows
    exact ⟨hframe.trans hframe', hvalid'', hshows⟩

theorem valid_print (hvalid : c.Valid) (s : List (Char × Nat)) :
    c.Frame (c.print s) ∧ (c.print s).Valid := by
  induction s generalizing c with
  | nil => exact ⟨.refl c, hvalid⟩
  | cons x s ih =>
    obtain ⟨hframe, hvalid'⟩ := frame_putChar hvalid x.1 x.2
    obtain ⟨hframe', hvalid''⟩ := ih hvalid'
    exact ⟨hframe.trans hframe', hvalid''⟩

theorem inside_foldl_typed (fg bg : UInt32) (h : t.Inside) (s : List (Char × Nat)) :
    (s.foldl (fun t x => typed fg bg t x.1) t).Inside := by
  induction s generalizing t with
  | nil => exact h
  | cons x s ih => exact ih (inside_typed fg bg h x.1)

theorem inside_reference (fg bg : UInt32) (h : t.Inside) (call : Call) :
    (reference fg bg t call).Inside := by
  cases call with
  | putChar ch now => exact inside_typed fg bg h ch
  | print s => exact inside_foldl_typed fg bg h s
  | printColored s fg' => exact inside_foldl_typed fg' bg h s
  | printChar ch now => exact inside_printed fg bg h ch
  | setCursorPosition col row => exact h.move col row
  | clear => exact h.clear

/-- A console that keeps its colours, beside the terminal that it should be. -/
structure Kept (fg bg : UInt32) (s : Console × Terminal TextCell) : Prop where
  valid : s.1.Valid
  fgColor : s.1.fgColor = fg
  bgColor : s.1.bgColor = bg
  inside : s.2.Inside

def both (fg bg : UInt32) (s : Console × Terminal TextCell) (call : Call) :
    Console × Terminal TextCell := (s.1.step call, reference fg bg s.2 call)

variable {fg bg : UInt32} {s : Console × Terminal TextCell}

theorem Kept.of_frame (h : Kept fg bg s) (hframe : s.1.Frame c) (hvalid : c.Valid)
    (hinside : t.Inside) : Kept fg bg (c, t) :=
  ⟨hvalid, hframe.fgColor.trans h.fgColor, hframe.bgColor.trans h.bgColor, hinside⟩

theorem frame_clear (hvalid : c.Valid) : c.Frame c.clear ∧ c.clear.Valid ∧
    c.clear.cells = List.replicate (c.cols * c.rows) c.blank := by
  have hclear : c.clear = { c with
      pixels := fun _ _ => c.display.native c.bgColor
      cells := List.replicate (c.cols * c.rows) c.blank
      cellsValid := true
      cursorCol := 0, cursorRow := 0, paintedMax := 0, cursorPainted := false, pending := false } := by
    unfold clear resetCells
    dsimp only
    rw [if_neg (by simp [hvalid.heap])]
    rfl
  have hframe : c.Frame c.clear := by
    rw [hclear]
    exact ⟨rfl, rfl, rfl, rfl, rfl, rfl, rfl, rfl, rfl, rfl, hvalid.cellsValid.symm⟩
  have hcells : c.clear.cells = List.replicate (c.cols * c.rows) c.blank := by rw [hclear]
  exact ⟨hframe, hvalid.of_frame hframe (by rw [hcells, List.length_replicate, hvalid.cells]),
    hcells⟩

theorem kept_both (h : Kept fg bg s) (call : Call) : Kept fg bg (both fg bg s call) := by
  have hinside := inside_reference fg bg h.inside call
  cases call with
  | putChar ch now =>
    obtain ⟨hframe, hvalid⟩ := frame_putChar h.valid ch now
    exact h.of_frame hframe hvalid hinside
  | print text =>
    obtain ⟨hframe, hvalid⟩ := valid_print h.valid text
    exact h.of_frame hframe hvalid hinside
  | printColored text fg' =>
    have hset : (s.1.setFg fg').Valid :=
      ⟨h.valid.1, h.valid.2, h.valid.3, h.valid.4, h.valid.5, h.valid.6, h.valid.7⟩
    obtain ⟨hframe, hvalid⟩ := valid_print hset text
    refine ⟨⟨hvalid.1, hvalid.2, hvalid.3, hvalid.4, hvalid.5, hvalid.6, hvalid.7⟩, h.fgColor, ?_,
      hinside⟩
    exact hframe.bgColor.trans h.bgColor
  | printChar ch now =>
    obtain ⟨hframe, hvalid⟩ := frame_printChar h.valid ch now
    exact h.of_frame hframe hvalid hinside
  | setCursorPosition col row =>
    have hframe : s.1.Frame (s.1.setCursorPosition col row) :=
      ⟨rfl, rfl, rfl, rfl, rfl, rfl, rfl, rfl, rfl, rfl, rfl⟩
    exact h.of_frame hframe (h.valid.of_frame hframe rfl) hinside
  | clear =>
    obtain ⟨hframe, hvalid, _⟩ := frame_clear h.valid
    exact h.of_frame hframe hvalid hinside

def Agrees (s : Console × Terminal TextCell) : Prop := s.1.Inside ∧ s.1.Shows s.2

theorem agrees_both_iff (h : Kept fg bg s) (hagrees : Agrees s) (call : Call) :
    Agrees (both fg bg s call) ↔ s.1.Fits call := by
  obtain ⟨hvalid, rfl, rfl, hinside⟩ := h
  obtain ⟨_, hshows⟩ := hagrees
  have hafter {c' : Console} {t' : Terminal TextCell} (hshows' : c'.Shows t')
      (hinside' : t'.Inside) : Agrees (c', t') := ⟨hshows'.inside_iff.mpr hinside', hshows'⟩
  have hnext := inside_reference s.1.fgColor s.1.bgColor hinside call
  cases call with
  | putChar ch now =>
    exact iff_of_true (hafter (shows_putChar hshows hvalid hinside ch now) hnext) trivial
  | print text =>
    exact iff_of_true (hafter (print_spec hshows hvalid hinside text).2.2 hnext) trivial
  | printColored text fg' =>
    have hset : (s.1.setFg fg').Valid :=
      ⟨hvalid.1, hvalid.2, hvalid.3, hvalid.4, hvalid.5, hvalid.6, hvalid.7⟩
    have hset' : (s.1.setFg fg').Shows s.2 :=
      ⟨hshows.1, hshows.2, hshows.3, hshows.4, hshows.5⟩
    obtain ⟨hcols, hrows, hcol, hrow, hgrid⟩ := (print_spec hset' hset hinside text).2.2
    exact iff_of_true (hafter ⟨hcols, hrows, hcol, hrow, hgrid⟩ hnext) trivial
  | printChar ch now => exact shows_printChar_iff hshows hvalid hinside ch now
  | setCursorPosition col row =>
    refine iff_of_true (hafter (hshows.moved ?_) hnext) trivial
    rw [← hshows.cols, ← hshows.rows]
    rfl
  | clear =>
    obtain ⟨hframe, _, hcells⟩ := frame_clear hvalid
    refine iff_of_true (hafter ⟨hshows.cols.trans hframe.cols.symm,
      hshows.rows.trans hframe.rows.symm, rfl, rfl, fun x hx y hy => ?_⟩ hnext) trivial
    replace hx : x < s.1.cols := hframe.cols ▸ hx
    replace hy : y < s.1.rows := hframe.rows ▸ hy
    show s.1.clear.cells[y * s.1.clear.cols + x]? = _
    rw [hcells, List.getElem?_replicate, hframe.cols, if_pos (index_lt hx hy)]
    rfl

/-- After each call of every run the console is the terminal, with its cursor in the grid, exactly
when `print_char` never leaves the line that it fills, nor the last line. -/
theorem terminal_iff (c : Console) (hvalid : c.Valid) (hinside : c.Inside) (calls : List Call) :
    (∀ before, before <+: calls →
      (before.foldl step c).Inside ∧
      (before.foldl step c).Shows (before.foldl (reference c.fgColor c.bgColor) c.terminal)) ↔
      Along step Fits c calls := by
  have hfold (before : List Call) (u : Console × Terminal TextCell) :
      before.foldl (both c.fgColor c.bgColor) u =
        (before.foldl step u.1, before.foldl (reference c.fgColor c.bgColor) u.2) := by
    induction before generalizing u with
    | nil => rfl
    | cons call before ih => exact ih _
  have halong (calls : List Call) (u : Console × Terminal TextCell) :
      Along (both c.fgColor c.bgColor) (fun s => Fits s.1) u calls ↔ Along step Fits u.1 calls := by
    induction calls generalizing u with
    | nil => exact Iff.rfl
    | cons call calls ih => exact and_congr Iff.rfl (ih _)
  have hkept : Kept c.fgColor c.bgColor (c, c.terminal) := ⟨hvalid, rfl, rfl, hinside⟩
  have hgood : Along (both c.fgColor c.bgColor) (fun s => Fits s.1) (c, c.terminal) calls ↔
      ∀ before, before <+: calls →
        Agrees (before.foldl (both c.fgColor c.bgColor) (c, c.terminal)) :=
    Lib.along_iff_good (fun s call (h : Kept c.fgColor c.bgColor s) => kept_both h call)
      (fun _ call h hagrees => agrees_both_iff h hagrees call) hkept
      ⟨hinside, shows_terminal hvalid⟩
  rw [← halong calls (c, c.terminal), hgood]
  refine forall_congr' fun before => imp_congr_right fun _ => ?_
  rw [hfold]
  rfl

theorem valid_new (display : Display) {width height : Nat} (pixels : Nat → Nat → UInt32)
    (fbIsRam : Bool) (hwidth : fontWidth ≤ width) (hheight : fontHeight ≤ height) :
    (new display width height pixels fbIsRam true).Valid ∧
      (new display width height pixels fbIsRam true).Inside := by
  have hcols : 0 < width / fontWidth := Nat.div_pos hwidth (by decide)
  have hrows : 0 < height / fontHeight := Nat.div_pos hheight (by decide)
  exact ⟨⟨hcols, hrows, rfl, rfl, List.length_replicate, rfl, rfl⟩, hcols, hrows⟩

def small : Console := new underscores 16 32 (fun _ _ => 0) true true

/-- Text of both functions that never fills a line with `print_char`. -/
def mixedCalls : List Call :=
  [.print [('_', 1), ('_', 2), ('_', 3)], .printChar '\r' 4, .printChar '_' 5, .putChar '\n' 6,
    .setCursorPosition 7 7]

theorem terminal_iff_small :
    Along step Fits small mixedCalls ∧ ∀ before, before <+: mixedCalls →
      (before.foldl step small).Inside ∧ (before.foldl step small).Shows
        (before.foldl (reference small.fgColor small.bgColor) small.terminal) := by
  obtain ⟨hvalid, hinside⟩ := @valid_new underscores 16 32 (fun _ _ => 0) true (by decide)
    (by decide)
  have hfits : Along step Fits small mixedCalls := by decide
  exact ⟨hfits, (terminal_iff small hvalid hinside mixedCalls).mpr hfits⟩

/-- Two characters of `print_char` fill a line, and the one of `put_char` after them is lost; a line
feed of `print_char` on the last line leaves the grid. -/
theorem terminal_fails :
    (¬ ([.printChar '_' 1, .printChar '_' 2].foldl step small).Inside ∧
      ([.printChar '_' 1, .printChar '_' 2, .putChar '_' 3].foldl step small).cells =
        ([.printChar '_' 1, .printChar '_' 2].foldl step small).cells) ∧
    ¬ ([.setCursorPosition 0 1, .printChar '\n' 1].foldl step small).Inside := by
  unfold Inside
  decide

end Vibra.Console
