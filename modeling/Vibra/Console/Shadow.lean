import Vibra.Console.Terminal

/-! # The screen and the shadow

A cell is drawn when its shadow changes, and not otherwise. The two stay together as long as nothing
goes to the one without the other.
-/

namespace Vibra.Console

open Lib (Along index_inj index_lt)

variable {c : Console} {x y dx dy col row now : Nat} {cell : TextCell}

section Screen

variable (c)

def Underlined (x y dy : Nat) : Prop :=
  c.cursorPainted = true ∧ c.cursorPaintedAt = (x, y) ∧ fontHeight - 2 ≤ dy

instance : Decidable (c.Underlined x y dy) := inferInstanceAs (Decidable (_ ∧ _ ∧ _))

/-- A cell is on the screen in its own colours, but for the cursor that is recorded in it. -/
def CellShown (x y : Nat) : Prop :=
  ∃ cell ∈ c.cells[y * c.cols + x]?, ∀ dx < fontWidth, ∀ dy < fontHeight,
    c.pixels (x * fontWidth + dx) (y * fontHeight + dy) =
      if c.Underlined x y dy then c.display.native (~~~c.bgColor) else c.cellPixel cell dx dy

instance : Decidable (c.CellShown x y) := by unfold CellShown; infer_instance

/-- The screen shows the shadow, when there is one and the screen is not behind it. -/
def Shown : Prop :=
  c.cellsValid = true → c.pending = false → ∀ x < c.cols, ∀ y < c.rows, c.CellShown x y

instance : Decidable c.Shown := by unfold Shown; infer_instance

def ShownAlone : Prop :=
  c.cellsValid = true → c.pending = false ∧ c.cursorPainted = false ∧
    ∀ x < c.cols, ∀ y < c.rows, c.CellShown x y

def Plain : Prop :=
  ∀ x < c.cols, ∀ y < c.rows, ∀ dx < fontWidth, ∀ dy < fontHeight, ¬ c.Underlined x y dy →
    c.pixels (x * fontWidth + dx) (y * fontHeight + dy) = c.display.native c.bgColor

instance : Decidable c.Plain := by unfold Plain; infer_instance

/-- What holds between calls, with the cells that the screen shows. -/
structure SoundAt (good : Nat → Nat → Prop) : Prop where
  width : c.cols = c.width / fontWidth
  height : c.rows = c.height / fontHeight
  cells : c.cellsValid = true → c.cells.length = c.cols * c.rows
  /-- Below the grid nothing is ever drawn. -/
  below : ∀ px py, c.rows * fontHeight ≤ py → py < c.height →
    c.pixels px py = c.display.native c.bgColor
  inside : c.cursorPainted = true →
    c.cursorPaintedAt.1 < c.cols ∧ c.cursorPaintedAt.2 < c.rows
  line : ∀ x y dx dy, dx < fontWidth → dy < fontHeight → c.Underlined x y dy →
    c.pixels (x * fontWidth + dx) (y * fontHeight + dy) = c.display.native (~~~c.bgColor)
  /-- The next redraw goes over the whole grid. -/
  pending : c.pending = true → 0 < c.rows ∧ c.rows ≤ c.paintedMax + 1
  shown : c.cellsValid = true → c.pending = false → ∀ x < c.cols, ∀ y < c.rows, good x y →
    ∀ cell, c.cells[y * c.cols + x]? = some cell → ∀ dx < fontWidth, ∀ dy < fontHeight,
      ¬ c.Underlined x y dy →
        c.pixels (x * fontWidth + dx) (y * fontHeight + dy) = c.cellPixel cell dx dy

def Sound : Prop := c.SoundAt fun _ _ => True

end Screen

theorem Sound.shown_all (h : c.Sound) : c.Shown := by
  intro hvalid hpending x hx y hy
  have hlt : y * c.cols + x < c.cells.length := h.cells hvalid ▸ index_lt hx hy
  refine ⟨_, List.getElem?_eq_getElem hlt, fun dx hdx dy hdy => ?_⟩
  split
  · exact h.line x y dx dy hdx hdy ‹_›
  · exact h.shown hvalid hpending x hx y hy trivial _ (List.getElem?_eq_getElem hlt) dx hdx dy hdy ‹_›

theorem Sound.other (h : c.Sound) (col row blink flush : Nat) (fg : UInt32) (staging heap : Bool) :
    { c with
      cursorCol := col, cursorRow := row, lastBlinkMs := blink, lastFlushMs := flush, fgColor := fg
      staging := staging, heap := heap }.Sound :=
  ⟨h.width, h.height, h.cells, h.below, h.inside, h.line, h.pending, h.shown⟩

theorem paint_pixels {good : Nat → Nat → Prop} (h : c.SoundAt good) (col row top high : Nat)
    (f : Nat → Nat → UInt32) (htop : top + high ≤ fontHeight) (hx : x < c.cols) (hy : y < c.rows)
    (hdx : dx < fontWidth) (hdy : dy < fontHeight) :
    (c.paint (col * fontWidth) (row * fontHeight + top) fontWidth high f).pixels
        (x * fontWidth + dx) (y * fontHeight + dy) =
      if (x = col ∧ y = row) ∧ top ≤ dy ∧ dy < top + high then f dx (dy - top)
      else c.pixels (x * fontWidth + dx) (y * fontHeight + dy) := by
  have hwidth := h.width
  have hheight := h.height
  simp only [fontWidth, fontHeight] at *
  unfold paint
  dsimp only
  by_cases hat : (x = col ∧ y = row) ∧ top ≤ dy ∧ dy < top + high
  · obtain ⟨⟨rfl, rfl⟩, hlow, hhigh⟩ := hat
    rw [if_pos (by omega), if_pos ⟨⟨rfl, rfl⟩, hlow, hhigh⟩]
    congr 1 <;> omega
  · rw [if_neg hat, if_neg (by omega)]

theorem drawCellPixels_pixels {good : Nat → Nat → Prop} (h : c.SoundAt good) (hx : x < c.cols)
    (hy : y < c.rows) (hdx : dx < fontWidth) (hdy : dy < fontHeight) :
    (c.drawCellPixels cell col row).pixels (x * fontWidth + dx) (y * fontHeight + dy) =
      if x = col ∧ y = row then c.cellPixel cell dx dy
      else c.pixels (x * fontWidth + dx) (y * fontHeight + dy) := by
  have hpaint := paint_pixels h col row 0 fontHeight (c.cellPixel cell) (Nat.le_of_eq (Nat.zero_add _))
    hx hy hdx hdy
  simp only [Nat.add_zero, Nat.zero_add, Nat.sub_zero, Nat.zero_le, hdy, and_true] at hpaint
  exact hpaint

theorem paint_below (left top wide high : Nat) (f : Nat → Nat → UInt32) {px py : Nat}
    (htop : top + high ≤ c.rows * fontHeight) (hpy : c.rows * fontHeight ≤ py) :
    (c.paint left top wide high f).pixels px py = c.pixels px py := by
  unfold paint
  dsimp only
  rw [if_neg (by omega)]

theorem row_le (hrow : row < c.rows) :
    row * fontHeight + fontHeight ≤ c.rows * fontHeight := by
  rw [← Nat.succ_mul]
  exact Nat.mul_le_mul_right fontHeight hrow

theorem SoundAt.draw (h : c.SoundAt fun x y => ¬ (x = col ∧ y = row)) (hrow : row < c.rows)
    (hcursor : ¬ (c.cursorPainted = true ∧ c.cursorPaintedAt = (col, row)))
    (hcell : c.cellsValid = true → c.cells[row * c.cols + col]? = some cell) :
    (c.drawCellPixels cell col row).Sound where
  width := h.width
  height := h.height
  cells := h.cells
  below px py hpy hheight := (paint_below (col * fontWidth) (row * fontHeight) fontWidth fontHeight
    (c.cellPixel cell) (row_le hrow) hpy).trans (h.below px py hpy hheight)
  inside := h.inside
  line x y dx dy hdx hdy hline := by
    have hat : ¬ (x = col ∧ y = row) := by
      rintro ⟨rfl, rfl⟩
      exact hcursor ⟨hline.1, hline.2.1⟩
    obtain ⟨hx, hy⟩ := h.inside hline.1
    rw [show c.cursorPaintedAt = (x, y) from hline.2.1] at hx hy
    rw [drawCellPixels_pixels h hx hy hdx hdy, if_neg hat]
    exact h.line x y dx dy hdx hdy hline
  pending := h.pending
  shown hvalid hpending x hx y hy _ cell' hcell' dx hdx dy hdy hline := by
    rw [drawCellPixels_pixels h hx hy hdx hdy]
    by_cases hat : x = col ∧ y = row
    · obtain ⟨rfl, rfl⟩ := hat
      have hsame : cell = cell' := Option.some.inj ((hcell hvalid).symm.trans hcell')
      rw [if_pos ⟨rfl, rfl⟩, hsame]
      rfl
    · rw [if_neg hat]
      exact h.shown hvalid hpending x hx y hy hat cell' hcell' dx hdx dy hdy hline

theorem undrawCursor_eq (hpainted : c.cursorPainted = true) (hat : c.cursorPaintedAt = (col, row))
    (hcol : col < c.cols) (hrow : row < c.rows) :
    c.undrawCursor = { c with cursorPainted := false }.drawCellPixels
      (c.cells.getD (row * c.cols + col) c.blank) col row := by
  unfold undrawCursor
  rw [if_neg (by simp [hpainted]), hat]
  dsimp only
  rw [if_neg (by omega)]
  rfl

theorem Sound.undrawCursor (h : c.Sound) :
    c.undrawCursor.Sound ∧ c.undrawCursor.cursorPainted = false := by
  by_cases hpainted : c.cursorPainted = true
  · obtain ⟨⟨col, row⟩, hplace⟩ : ∃ place, c.cursorPaintedAt = place := ⟨_, rfl⟩
    obtain ⟨hcol, hrow⟩ := h.inside hpainted
    rw [hplace] at hcol hrow
    rw [undrawCursor_eq hpainted hplace hcol hrow]
    refine ⟨SoundAt.draw ?_ hrow (fun hboth => Bool.false_ne_true hboth.1) fun hvalid => ?_, rfl⟩
    · refine ⟨h.width, h.height, h.cells, h.below, fun hfalse => absurd hfalse Bool.false_ne_true,
        fun _ _ _ _ _ _ hline => absurd hline.1 Bool.false_ne_true, h.pending, ?_⟩
      intro hvalid hpending x hx y hy hat cell hcell dx hdx dy hdy _
      refine h.shown hvalid hpending x hx y hy trivial cell hcell dx hdx dy hdy fun hline => hat ?_
      obtain ⟨rfl, rfl⟩ := Prod.mk.inj (hplace.symm.trans hline.2.1)
      exact ⟨rfl, rfl⟩
    · have hlt := index_lt hcol hrow
      rw [← h.cells hvalid] at hlt
      show c.cells[_]? = some (c.cells.getD _ _)
      rw [List.getD_eq_getElem?_getD, List.getElem?_eq_getElem hlt]
      rfl
  · unfold Console.undrawCursor
    rw [if_pos (by simpa using hpainted)]
    exact ⟨h, by simpa using hpainted⟩

theorem Sound.drawCursor (h : c.Sound) : c.drawCursor.Sound := by
  have hstart : (if c.cursorPainted then c.undrawCursor else c).Sound ∧
      (if c.cursorPainted then c.undrawCursor else c).cursorPainted = false := by
    split
    · exact h.undrawCursor
    · exact ⟨h, by simpa using ‹¬ c.cursorPainted = true›⟩
  unfold Console.drawCursor
  dsimp only
  generalize (if c.cursorPainted then c.undrawCursor else c) = b at hstart
  obtain ⟨hsound, hpainted⟩ := hstart
  split
  · exact hsound
  · have hcol : b.cursorCol < b.cols := by omega
    have hrow : b.cursorRow < b.rows := by omega
    have hpixels {x y dx dy : Nat} (hx : x < b.cols) (hy : y < b.rows) (hdx : dx < fontWidth)
        (hdy : dy < fontHeight) := paint_pixels hsound b.cursorCol b.cursorRow (fontHeight - 2) 2
      (fun _ _ => b.display.native (~~~b.bgColor)) (by decide) hx hy hdx hdy
    have hline {x y dx dy : Nat} (hx : x < b.cols) (hy : y < b.rows) (hdx : dx < fontWidth)
        (hdy : dy < fontHeight) (hpos : x = b.cursorCol ∧ y = b.cursorRow)
        (hlow : fontHeight - 2 ≤ dy) := (hpixels hx hy hdx hdy).trans
          (if_pos ⟨hpos, hlow, by simp only [fontHeight] at *; omega⟩)
    have htop : b.cursorRow * fontHeight + (fontHeight - 2) + 2 ≤ b.rows * fontHeight := by
      have hle := row_le hrow
      simp only [fontHeight] at *
      omega
    have hbelow (px py : Nat) (hpy : b.rows * fontHeight ≤ py) (hheight : py < b.height) :=
      (paint_below (b.cursorCol * fontWidth) (b.cursorRow * fontHeight + (fontHeight - 2)) fontWidth 2
        (fun _ _ => b.display.native (~~~b.bgColor)) htop hpy).trans (hsound.below px py hpy hheight)
    refine ⟨hsound.width, hsound.height, hsound.cells, hbelow, fun _ => ⟨hcol, hrow⟩,
      fun x y dx dy hdx hdy hunder => ?_, hsound.pending, ?_⟩
    · obtain ⟨rfl, rfl⟩ := Prod.mk.inj hunder.2.1
      exact hline hcol hrow hdx hdy ⟨rfl, rfl⟩ hunder.2.2
    · intro hvalid hpending x hx y hy _ cell hcell dx hdx dy hdy hunder
      have hoff : ¬ ((x = b.cursorCol ∧ y = b.cursorRow) ∧ fontHeight - 2 ≤ dy ∧
          dy < fontHeight - 2 + 2) := by
        rintro ⟨⟨rfl, rfl⟩, hlow, _⟩
        exact hunder ⟨rfl, rfl, hlow⟩
      refine ((hpixels hx hy hdx hdy).trans (if_neg hoff)).trans ?_
      refine hsound.shown hvalid hpending x hx y hy trivial cell hcell dx hdx dy hdy fun hwas => ?_
      exact Bool.false_ne_true (hpainted.symm.trans hwas.1)

theorem Sound.updateCursorBlink (h : c.Sound) (now : Nat) : (c.updateCursorBlink now).Sound := by
  have hblink : { c with lastBlinkMs := now }.Sound :=
    h.other c.cursorCol c.cursorRow now c.lastFlushMs c.fgColor c.staging c.heap
  unfold Console.updateCursorBlink
  split
  · exact h
  split
  · exact hblink.drawCursor
  split
  · dsimp only
    split
    · exact hblink.undrawCursor.1
    · exact hblink.drawCursor
  · exact h

theorem Sound.drawCharAt (h : c.Sound) (ch : Char) (col row : Nat) (fg bg : UInt32) :
    (c.drawCharAt ch col row fg bg).Sound := by
  have hstart : (if c.cursorPainted ∧ c.cursorPaintedAt = (col, row) then c.undrawCursor
        else c).Sound ∧
      ¬ ((if c.cursorPainted ∧ c.cursorPaintedAt = (col, row) then c.undrawCursor
          else c).cursorPainted = true ∧
        (if c.cursorPainted ∧ c.cursorPaintedAt = (col, row) then c.undrawCursor
          else c).cursorPaintedAt = (col, row)) := by
    split
    · obtain ⟨hsound, hpainted⟩ := h.undrawCursor
      exact ⟨hsound, fun hboth => Bool.false_ne_true (hpainted.symm.trans hboth.1)⟩
    · exact ⟨h, ‹_›⟩
  unfold Console.drawCharAt
  dsimp only
  generalize (if c.cursorPainted ∧ c.cursorPaintedAt = (col, row) then c.undrawCursor else c) = b
    at hstart
  obtain ⟨hsound, hcursor⟩ := hstart
  split
  · exact hsound
  rename_i hin
  have hcol : col < b.cols := by omega
  have hrow : row < b.rows := by omega
  split
  · rename_i hvalid
    split
    · exact hsound
    · have hset : { b with cells := b.cells.set (row * b.cols + col) ⟨fontIndex ch, fg, bg⟩ }.SoundAt
          fun x y => ¬ (x = col ∧ y = row) := by
        refine ⟨hsound.width, hsound.height, fun hvalid => ?_, hsound.below, hsound.inside,
          hsound.line, hsound.pending, ?_⟩
        · rw [List.length_set]
          exact hsound.cells hvalid
        · intro hvalid hpending x hx y hy hat cell hcell dx hdx dy hdy hline
          rw [List.getElem?_set_ne] at hcell
          · exact hsound.shown hvalid hpending x hx y hy trivial cell hcell dx hdx dy hdy hline
          · intro heq
            exact hat (((index_inj hcol hx).mp heq).imp Eq.symm Eq.symm)
      split
      · rename_i hpending
        exact ⟨hset.width, hset.height, hset.cells, hset.below, hset.inside, hset.line, hset.pending,
          fun _ hfalse => absurd (hfalse.symm.trans hpending) Bool.false_ne_true⟩
      · refine hset.draw hrow hcursor fun hvalid => ?_
        have hlt := index_lt hcol hrow
        rw [← hsound.cells hvalid] at hlt
        exact List.getElem?_set_self hlt
  · rename_i hinvalid
    refine SoundAt.draw ?_ hrow hcursor fun hvalid => absurd hvalid hinvalid
    exact ⟨hsound.width, hsound.height, hsound.cells, hsound.below, hsound.inside, hsound.line,
      hsound.pending, fun hvalid => absurd hvalid hinvalid⟩

/-! ## The screen drawn again -/

def BlanksPlain (c : Console) : Prop :=
  ∀ cell ∈ c.cells, cell.ch = 32 ∨ cell.ch = 0 →
    c.display.native cell.bg = c.display.native c.bgColor

instance (c : Console) : Decidable c.BlanksPlain := by unfold BlanksPlain; infer_instance

theorem cellPixel_blank (hblank : cell.ch = 32 ∨ cell.ch = 0) :
    c.cellPixel cell dx dy = c.display.native cell.bg := by
  unfold cellPixel
  split
  · rfl
  · rw [hblank.resolve_left ‹_›, c.display.null, expandLine, Nat.zero_testBit, if_neg Bool.false_ne_true]

theorem place_div (hdx : dx < fontWidth) (hdy : dy < fontHeight) :
    ((x * fontWidth + dx) / fontWidth = x ∧ (y * fontHeight + dy) / fontHeight = y) ∧
      (x * fontWidth + dx) % fontWidth = dx ∧ (y * fontHeight + dy) % fontHeight = dy := by
  simp only [fontWidth, fontHeight] at *
  omega

theorem stagedPixel_eq (hcell : c.cells[y * c.cols + x]? = some cell) (hx : x < c.cols)
    (hdx : dx < fontWidth) (hdy : dy < fontHeight) (hplain : c.BlanksPlain) :
    c.stagedPixel (x * fontWidth + dx) (y * fontHeight + dy) = c.cellPixel cell dx dy := by
  obtain ⟨⟨hcol, hrow⟩, hleft, htop⟩ := @place_div x y dx dy hdx hdy
  unfold stagedPixel
  dsimp only
  rw [hcol, hrow, hleft, htop, List.getD_eq_getElem?_getD, hcell, Option.getD_some]
  by_cases hblank : cell.ch = 32 ∨ cell.ch = 0
  · rw [if_pos (Or.inr hblank), cellPixel_blank hblank]
    exact (hplain cell (List.mem_of_getElem? hcell) hblank).symm
  · rw [if_neg (not_or.mpr ⟨by omega, hblank⟩), cellPixel, if_neg fun h => hblank (Or.inl h)]

theorem singlePixel_eq (hcell : c.cells[y * c.cols + x]? = some cell) (hx : x < c.cols)
    (hdx : dx < fontWidth) (hdy : dy < fontHeight) :
    c.singlePixel (x * fontWidth + dx) (y * fontHeight + dy) = c.cellPixel cell dx dy := by
  obtain ⟨⟨hcol, hrow⟩, hleft, htop⟩ := @place_div x y dx dy hdx hdy
  unfold singlePixel
  dsimp only
  rw [hcol, hrow, hleft, htop, List.getD_eq_getElem?_getD, hcell, Option.getD_some,
    if_neg (by omega)]

theorem SoundAt.redraw (h : c.SoundAt fun _ _ => False) (hrows : 0 < c.rows)
    (hmax : c.rows ≤ c.paintedMax + 1) (hpending : c.pending = false)
    (hplain : c.cellsValid = true → c.useStaging = true → c.BlanksPlain) :
    c.redrawFromCells.Sound := by
  have hlast : min (max c.lastUsedRow c.paintedMax) (c.rows - 1) + 1 = c.rows := by omega
  unfold redrawFromCells
  split
  · rename_i hskipped
    refine ⟨h.width, h.height, h.cells, h.below, h.inside, h.line, h.pending, fun hvalid => ?_⟩
    exact absurd hskipped (by simp [hvalid, h.cells hvalid])
  rename_i hdrawn
  have hvalid : c.cellsValid = true := by
    by_contra hinvalid
    exact hdrawn (Or.inl (by simpa using hinvalid))
  dsimp only
  rw [hlast]
  refine ⟨h.width, h.height, h.cells, fun px py hpy hheight => ?_,
    fun hfalse => absurd hfalse Bool.false_ne_true,
    fun _ _ _ _ _ _ hline => absurd hline.1 Bool.false_ne_true,
    fun hfalse => absurd (hpending.symm.trans hfalse) Bool.false_ne_true, ?_⟩
  · exact (paint_below 0 0 c.width (c.rows * fontHeight) _ (Nat.le_of_eq (Nat.zero_add _)) hpy).trans
      (h.below px py hpy hheight)
  · intro _ _ x hx y hy _ cell hcell dx hdx dy hdy _
    replace hx : x < c.cols := hx
    replace hy : y < c.rows := hy
    have hwide : x * fontWidth + dx < c.width := by
      have hwidth := h.width
      simp only [fontWidth] at *
      omega
    have hhigh : y * fontHeight + dy < c.rows * fontHeight ∧ y * fontHeight + dy < c.height := by
      have hheight := h.height
      simp only [fontHeight] at *
      omega
    have hinside : 0 ≤ x * fontWidth + dx ∧ x * fontWidth + dx < 0 + c.width ∧
        0 ≤ y * fontHeight + dy ∧ y * fontHeight + dy < 0 + c.rows * fontHeight ∧
        x * fontWidth + dx < c.width ∧ y * fontHeight + dy < c.height := by omega
    show (c.paint 0 0 c.width (c.rows * fontHeight) _).pixels _ _ = _
    unfold paint
    dsimp only
    rw [if_pos hinside, Nat.sub_zero, Nat.sub_zero]
    split
    · exact stagedPixel_eq hcell hx hdx hdy (hplain hvalid ‹_›)
    · exact singlePixel_eq hcell hx hdx hdy

def Due (c : Console) (force : Bool) (now : Nat) : Prop :=
  force = true ∨ 40 ≤ now - c.lastFlushMs

instance (c : Console) (force : Bool) (now : Nat) : Decidable (c.Due force now) :=
  inferInstanceAs (Decidable (_ ∨ _))

def FlushFits (c : Console) (force : Bool) (now : Nat) : Prop :=
  c.cellsValid = true → c.pending = true → c.Due force now → c.useStaging = true → c.BlanksPlain

instance (c : Console) (force : Bool) (now : Nat) : Decidable (c.FlushFits force now) := by
  unfold FlushFits; infer_instance

theorem Sound.flushIfDue (h : c.Sound) {force : Bool} (hfits : c.FlushFits force now) :
    (c.flushIfDue force now).Sound := by
  unfold Console.flushIfDue
  split
  · exact h
  rename_i hpending
  replace hpending : c.pending = true := by simpa using hpending
  split
  · exact h
  rename_i hdue
  have hdue' : c.Due force now := by
    unfold Due
    cases force <;> simp at hdue ⊢
    exact hdue
  obtain ⟨hrows, hmax⟩ := h.pending hpending
  refine SoundAt.redraw ?_ hrows hmax rfl fun hvalid hstaging => hfits hvalid hpending hdue' hstaging
  exact ⟨h.width, h.height, h.cells, h.below, h.inside, h.line,
    fun hfalse => absurd hfalse Bool.false_ne_true, fun _ _ _ _ _ _ hfalse => hfalse.elim⟩

/-- What a scroll needs of the console that it finds. One that is put off needs what the redraw
needs, if that is due; one at once takes the pixels of a cursor with it. -/
def ScrollFits (c : Console) (now : Nat) : Prop :=
  c.cellsValid = true → c.rows ≠ 0 → c.cols ≠ 0 →
    if c.fbIsRam = true then
      c.pending = false →
        (c.cursorPainted = true → fontHeight < c.height ∧ c.cursorPaintedAt.2 = 0) ∧
          (fontHeight < c.height ∨ c.Plain)
    else c.Due false now → c.useStaging = true → c.shiftCells.BlanksPlain

instance (c : Console) (now : Nat) : Decidable (c.ScrollFits now) := by
  unfold ScrollFits; infer_instance

theorem length_shiftCells (hlength : c.cells.length = c.cols * c.rows) (hrows : 0 < c.rows) :
    c.shiftCells.cells.length = c.cols * c.rows := by
  have hle := Nat.le_mul_of_pos_right c.cols hrows
  show (c.cells.drop c.cols ++ List.replicate c.cols c.blank).length = _
  rw [List.length_append, List.length_drop, List.length_replicate]
  omega

theorem scroll_now (hrows : 0 < c.rows) (hcols : 0 < c.cols)
    (hram : ¬ (c.cellsValid = true ∧ c.cells.length = c.cols * c.rows ∧ (!c.fbIsRam) = true)) :
    c.scroll now = { c with
      cursorPainted := false
      paintedMax := c.rows - 1
      cursorRow := c.rows - 1
      pixels := fun px py =>
        if fontHeight < c.height then
          if py + fontHeight < c.height then c.pixels px (py + fontHeight)
          else c.display.native c.bgColor
        else c.pixels px py
      cells := if c.cells.length = c.cols * c.rows then c.shiftCells.cells else c.cells } := by
  unfold Console.scroll
  rw [if_neg (by omega), if_neg hram]
  dsimp only
  by_cases hhigh : fontHeight < c.height <;> by_cases hlength : c.cells.length = c.cols * c.rows <;>
    simp [hhigh, hlength, shiftCells, blank]

theorem Sound.scroll (h : c.Sound) (hfits : c.ScrollFits now) : (c.scroll now).Sound := by
  unfold Console.scroll
  split
  · exact h
  rename_i hgrid
  have hrows : 0 < c.rows := by omega
  have hcells (hvalid : c.cellsValid = true) := length_shiftCells (h.cells hvalid) hrows
  split
  · rename_i hlater
    obtain ⟨hvalid, _, hram⟩ := hlater
    replace hfits := hfits hvalid (by omega) (by omega)
    rw [if_neg (by simpa using hram)] at hfits
    have hshifted : { c.shiftCells with
        cursorPainted := false, paintedMax := c.rows - 1, pending := true }.Sound :=
      ⟨h.width, h.height, hcells, h.below, fun hfalse => absurd hfalse Bool.false_ne_true,
        fun _ _ _ _ _ _ hline => absurd hline.1 Bool.false_ne_true, fun _ => ⟨hrows, by
          show c.rows ≤ c.rows - 1 + 1
          omega⟩, fun _ hfalse => absurd hfalse.symm Bool.false_ne_true⟩
    have hflushed := @Sound.flushIfDue _ now hshifted false
      fun _ _ hdue hstaging => hfits hdue hstaging
    exact hflushed.other _ _ _ _ _ _ _
  · rename_i hnow
    have hram (hvalid : c.cellsValid = true) : c.fbIsRam = true := by
      by_contra hmmio
      exact hnow ⟨hvalid, h.cells hvalid, by simpa using hmmio⟩
    have hheight := h.height
    have hscroll := @scroll_now c now hrows (by omega) hnow
    unfold Console.scroll at hscroll
    rw [if_neg hgrid, if_neg hnow] at hscroll
    rw [hscroll]
    refine ⟨h.width, h.height, fun hvalid => ?_, fun px py hpy hlt => ?_,
      fun hfalse => absurd hfalse Bool.false_ne_true,
      fun _ _ _ _ _ _ hline => absurd hline.1 Bool.false_ne_true, fun _ => ⟨hrows, ?_⟩, ?_⟩
    · dsimp only
      rw [if_pos (h.cells hvalid)]
      exact hcells hvalid
    · dsimp only
      split
      · split
        · exact h.below px (py + fontHeight) (Nat.le_add_right_of_le hpy) ‹_›
        · rfl
      · exact h.below px py hpy hlt
    · show c.rows ≤ c.rows - 1 + 1
      omega
    intro hvalid hpending x hx y hy _ cell hcell dx hdx dy hdy _
    obtain ⟨hcursor, hplain⟩ : _ ∧ _ := by
      have hneeds := hfits hvalid (by omega) (by omega)
      rw [if_pos (hram hvalid)] at hneeds
      exact hneeds hpending
    dsimp only at hx hy hcell ⊢
    rw [if_pos (h.cells hvalid), shiftCells, getElem?_shift (h.cells hvalid) hx hy] at hcell
    have hnext : y * fontHeight + dy + fontHeight = (y + 1) * fontHeight + dy := by
      rw [Nat.succ_mul]
      omega
    by_cases hlast : y + 1 < c.rows
    · rw [if_pos hlast] at hcell
      have hmoves : fontHeight < c.height ∧ (y + 1) * fontHeight + dy < c.height := by
        simp only [fontHeight] at *
        omega
      rw [if_pos hmoves.1, hnext, if_pos hmoves.2]
      refine h.shown hvalid hpending x hx (y + 1) hlast trivial cell hcell dx hdx dy hdy fun hline => ?_
      have htop := (hcursor hline.1).2
      rw [hline.2.1] at htop
      exact Nat.succ_ne_zero y htop
    · rw [if_neg hlast] at hcell
      have hblank : c.cellPixel cell dx dy = c.display.native c.bgColor := by
        rw [← Option.some.inj hcell]
        exact cellPixel_blank (Or.inl rfl)
      refine Eq.trans ?_ hblank.symm
      split
      · split
        · refine h.below _ _ ?_ ‹_›
          rw [hnext, show y + 1 = c.rows by omega]
          exact Nat.le_add_right ..
        · rfl
      · rename_i hlow
        exact hplain.resolve_left hlow x hx y hy dx hdx dy hdy fun hline =>
          hlow (hcursor hline.1).1

/-! ## The calls -/

/-- The time at each character of a string, and at each redraw. -/
inductive Op where
  | putChar (ch : Char) (now : Nat)
  | printColored (s : List (Char × Nat)) (fg : UInt32)
  | setFg (fg : UInt32)
  | drawCharAt (ch : Char) (col row : Nat) (fg bg : UInt32)
  | clear
  | clearRange (col row endCol endRow : Nat)
  | setCursorPosition (col row : Nat)
  | rebuildCells
  | scroll (now : Nat)
  | flushIfDue (force : Bool) (now : Nat)
  | drawCursor
  | undrawCursor
  | updateCursorBlink (now : Nat)
  | resetCursorBlink
  | drawBlockCursor
  | allocStaging
  /-- `memory::init`. -/
  | heapInit

def op (c : Console) : Op → Console
  | .putChar ch now => c.putChar ch now
  | .printColored s fg => c.printColored s fg
  | .setFg fg => c.setFg fg
  | .drawCharAt ch col row fg bg => c.drawCharAt ch col row fg bg
  | .clear => c.clear
  | .clearRange col row endCol endRow => c.clearRange col row endCol endRow
  | .setCursorPosition col row => c.setCursorPosition col row
  | .rebuildCells => c.rebuildCells
  | .scroll now => c.scroll now
  | .flushIfDue force now => c.flushIfDue force now
  | .drawCursor => c.drawCursor
  | .undrawCursor => c.undrawCursor
  | .updateCursorBlink now => c.updateCursorBlink now
  | .resetCursorBlink => c.resetCursorBlink
  | .drawBlockCursor => c.drawBlockCursor
  | .allocStaging => c.allocStaging
  | .heapInit => { c with heap := true }

def PutFits (c : Console) (ch : Char) (now : Nat) : Prop :=
  (c.advance ch).rows ≤ (c.advance ch).cursorRow → (c.advance ch).ScrollFits now

instance (c : Console) (ch : Char) (now : Nat) : Decidable (c.PutFits ch now) := by
  unfold PutFits; infer_instance

/-- The calls that keep the screen and the shadow together. -/
def Keeps (c : Console) : Op → Prop
  | .putChar ch now => c.PutFits ch now
  | .printColored s fg =>
    Along (fun c x => c.putChar x.1 x.2) (fun c x => c.PutFits x.1 x.2) (c.setFg fg) s
  | .rebuildCells => c.heap = true → c.pending = false → c.Plain
  | .scroll now => c.ScrollFits now
  | .flushIfDue force now => c.FlushFits force now
  | .resetCursorBlink => c.cellsValid = true → c.pending = false → c.cursorPainted = false
  | .drawBlockCursor =>
    c.cellsValid = true → c.pending = false → c.cols ≤ c.cursorCol ∨ c.rows ≤ c.cursorRow
  | _ => True

instance (c : Console) : DecidablePred c.Keeps := fun call => by
  cases call <;> unfold Keeps <;> infer_instance

theorem Sound.putChar (h : c.Sound) {ch : Char} (hfits : c.PutFits ch now) :
    (c.putChar ch now).Sound := by
  have hadvance : (c.advance ch).Sound := by
    unfold Console.advance
    split
    · exact h.other _ _ _ _ _ _ _
    split
    · exact h.other _ _ _ _ _ _ _
    split
    · exact h.other _ _ _ _ _ _ _
    split
    · exact h.other _ _ _ _ _ _ _
    · have hdrawn := h.drawCharAt ch c.cursorCol c.cursorRow c.fgColor c.bgColor
      dsimp only
      split <;> exact hdrawn.other _ _ _ _ _ _ _
  unfold Console.putChar
  dsimp only
  split
  · exact hadvance.scroll (hfits ‹_›)
  · exact hadvance

theorem Sound.print (h : c.Sound) {s : List (Char × Nat)}
    (hfits : Along (fun c x => c.putChar x.1 x.2) (fun c x => c.PutFits x.1 x.2) c s) :
    (c.print s).Sound := by
  induction s generalizing c with
  | nil => exact h
  | cons x s ih => exact ih (h.putChar hfits.1) hfits.2

theorem Sound.eraseRange (endCol endRow : Nat) (h : c.Sound) (col row : Nat) :
    (eraseRange endCol endRow c col row).Sound := by
  induction c, col, row using Console.eraseRange.induct endCol endRow with
  | case1 c col row hin next hlast =>
    rw [Console.eraseRange, if_pos hin]
    dsimp only
    rw [dif_pos hlast]
    exact h.drawCharAt ' ' col row c.fgColor c.bgColor
  | case2 c col row hin c' next hmore ih =>
    rw [Console.eraseRange, if_pos hin]
    dsimp only
    rw [dif_neg hmore]
    exact ih (h.drawCharAt ' ' col row c.fgColor c.bgColor)
  | case3 c col row hout =>
    rw [Console.eraseRange, if_neg hout]
    exact h

theorem Sound.resetCells (h : c.Sound) (hplain : c.heap = true → c.pending = false → c.Plain) :
    c.resetCells.Sound := by
  unfold Console.resetCells
  split
  · exact ⟨h.width, h.height, fun hfalse => absurd hfalse Bool.false_ne_true, h.below, h.inside,
      h.line, h.pending, fun hfalse => absurd hfalse Bool.false_ne_true⟩
  · rename_i hheap
    refine ⟨h.width, h.height, fun _ => List.length_replicate, h.below, h.inside, h.line, h.pending, ?_⟩
    intro _ hpending x hx y hy _ cell hcell dx hdx dy hdy hline
    refine (hplain (by simpa using hheap) hpending x hx y hy dx hdx dy hdy hline).trans ?_
    have hblank : cell = c.blank := List.eq_of_mem_replicate (List.mem_of_getElem? hcell)
    rw [hblank]
    exact (@cellPixel_blank c dx dy c.blank (Or.inl rfl)).symm

theorem sound_clear (hwidth : c.cols = c.width / fontWidth) (hheight : c.rows = c.height / fontHeight) :
    c.clear.Sound := by
  unfold Console.clear Console.resetCells
  dsimp only
  split
  · exact ⟨hwidth, hheight, fun hfalse => absurd hfalse Bool.false_ne_true, fun _ _ _ _ => rfl,
      fun hfalse => absurd hfalse Bool.false_ne_true,
      fun _ _ _ _ _ _ hline => absurd hline.1 Bool.false_ne_true,
      fun hfalse => absurd hfalse Bool.false_ne_true,
      fun hfalse => absurd hfalse Bool.false_ne_true⟩
  · refine ⟨hwidth, hheight, fun _ => List.length_replicate, fun _ _ _ _ => rfl,
      fun hfalse => absurd hfalse Bool.false_ne_true,
      fun _ _ _ _ _ _ hline => absurd hline.1 Bool.false_ne_true,
      fun hfalse => absurd hfalse Bool.false_ne_true, ?_⟩
    intro _ _ x hx y hy _ cell hcell dx hdx dy hdy _
    have hblank : cell = c.blank := List.eq_of_mem_replicate (List.mem_of_getElem? hcell)
    rw [hblank]
    exact (@cellPixel_blank c dx dy c.blank (Or.inl rfl)).symm

theorem Sound.resetCursorBlink (h : c.Sound)
    (hbare : c.cellsValid = true → c.pending = false → c.cursorPainted = false) :
    c.resetCursorBlink.Sound := by
  refine ⟨h.width, h.height, h.cells, h.below, fun hfalse => absurd hfalse Bool.false_ne_true,
    fun _ _ _ _ _ _ hline => absurd hline.1 Bool.false_ne_true, h.pending, ?_⟩
  intro hvalid hpending x hx y hy _ cell hcell dx hdx dy hdy _
  refine h.shown hvalid hpending x hx y hy trivial cell hcell dx hdx dy hdy fun hline => ?_
  exact Bool.false_ne_true ((hbare hvalid hpending).symm.trans hline.1)

theorem Sound.drawBlockCursor (h : c.Sound)
    (hnone : c.cellsValid = true → c.pending = false →
      c.cols ≤ c.cursorCol ∨ c.rows ≤ c.cursorRow) : c.drawBlockCursor.Sound := by
  unfold Console.drawBlockCursor
  dsimp only
  split
  · exact h
  rename_i hin
  split
  · exact h
  · rename_i cell _
    have hrow : c.cursorRow < c.rows := by omega
    have hle := row_le hrow
    refine ⟨h.width, h.height, h.cells, fun px py hpy hheight => ?_,
      fun hfalse => absurd hfalse Bool.false_ne_true,
      fun _ _ _ _ _ _ hline => absurd hline.1 Bool.false_ne_true, h.pending,
      fun hvalid hpending => absurd (hnone hvalid hpending) hin⟩
    replace hpy : c.rows * fontHeight ≤ py := hpy
    unfold drawCellPixels paint
    dsimp only
    exact (if_neg (by omega)).trans ((if_neg (by omega)).trans (h.below px py hpy hheight))

theorem Sound.op (h : c.Sound) (call : Op) (hkeeps : c.Keeps call) : (c.op call).Sound := by
  cases call with
  | putChar ch now => exact h.putChar hkeeps
  | printColored s fg =>
    exact (Sound.print (h.other _ _ _ _ fg _ _) hkeeps).other _ _ _ _ _ _ _
  | setFg fg => exact h.other _ _ _ _ _ _ _
  | drawCharAt ch col row fg bg => exact h.drawCharAt ch col row fg bg
  | clear => exact sound_clear h.width h.height
  | clearRange col row endCol endRow =>
    have herased := Sound.eraseRange endCol endRow (c := c.setCursorPosition col row)
      (h.other _ _ _ _ _ _ _) col row
    exact herased.other _ _ _ _ _ _ _
  | setCursorPosition col row => exact h.other _ _ _ _ _ _ _
  | rebuildCells => exact h.resetCells hkeeps
  | scroll now => exact h.scroll hkeeps
  | flushIfDue force now => exact h.flushIfDue hkeeps
  | drawCursor => exact h.drawCursor
  | undrawCursor => exact h.undrawCursor.1
  | updateCursorBlink now => exact h.updateCursorBlink now
  | resetCursorBlink => exact h.resetCursorBlink hkeeps
  | drawBlockCursor => exact h.drawBlockCursor hkeeps
  | allocStaging =>
    show (c.allocStaging).Sound
    unfold allocStaging
    split
    · exact h
    · exact h.other _ _ _ _ _ _ _
  | heapInit => exact h.other _ _ _ _ _ _ _
theorem pending_flushIfDue (c : Console) (now : Nat) : (c.flushIfDue true now).pending = false := by
  unfold Console.flushIfDue
  split
  · simpa using ‹(!c.pending) = true›
  · rw [if_neg (by simp)]
    unfold redrawFromCells
    split <;> rfl

theorem pending_undrawCursor (c : Console) : c.undrawCursor.pending = c.pending := by
  unfold Console.undrawCursor
  dsimp only
  split
  · rfl
  · split <;> rfl

theorem Sound.flush_undraw (h : c.Sound) (hfits : c.FlushFits true now) :
    (c.flushIfDue true now).undrawCursor.ShownAlone := by
  obtain ⟨hsound, hcursor⟩ := (h.flushIfDue hfits).undrawCursor
  have hpending : (c.flushIfDue true now).undrawCursor.pending = false :=
    (pending_undrawCursor _).trans (pending_flushIfDue c now)
  exact fun hvalid => ⟨hpending, hcursor, hsound.shown_all hvalid hpending⟩

theorem sound_new (display : Display) (width height : Nat) (pixels : Nat → Nat → UInt32)
    (fbIsRam heap : Bool) : (new display width height pixels fbIsRam heap).Sound := by
  unfold new resetCells
  dsimp only
  split <;> exact sound_clear rfl rfl

/-- In a run whose calls all keep the screen and the shadow together, the screen shows the shadow
after each of them, and nothing else once it has been flushed and the cursor taken back. -/
theorem shown_of_keeps (display : Display) (width height : Nat) (pixels : Nat → Nat → UInt32)
    (fbIsRam heap : Bool) (calls : List Op)
    (hkeeps : Along op Keeps (new display width height pixels fbIsRam heap) calls) (before : List Op)
    (hinit : before <+: calls) :
    (before.foldl op (new display width height pixels fbIsRam heap)).Shown ∧
      ∀ now, (before.foldl op (new display width height pixels fbIsRam heap)).FlushFits true now →
        ((before.foldl op (new display width height pixels fbIsRam heap)).flushIfDue true
          now).undrawCursor.ShownAlone := by
  have hsound : (before.foldl op (new display width height pixels fbIsRam heap)).Sound :=
    @Along.invariant _ _ op Keeps _ before (fun _ c => c.Sound) (hkeeps.before hinit)
      (sound_new display width height pixels fbIsRam heap) fun _ _ call h hcall => h.op call hcall
  exact ⟨hsound.shown_all, fun now hfits => hsound.flush_undraw hfits⟩

def narrow (fbIsRam heap : Bool) : Console := new underscores 8 32 (fun _ _ => 0) fbIsRam heap

/-- Text, a cursor that blinks, and scrolls of both kinds. -/
def quietCalls : List Op :=
  [.heapInit, .rebuildCells, .allocStaging, .putChar '_' 1, .updateCursorBlink 2,
    .printColored [('_', 3), ('_', 3)] 0xFF, .flushIfDue true 4, .drawCursor, .undrawCursor,
    .resetCursorBlink, .scroll 60]

theorem shown_of_keeps_narrow :
    Along op Keeps (narrow false false) quietCalls ∧
      (quietCalls.foldl op (narrow false false)).Shown := by
  have hkeeps : Along op Keeps (narrow false false) quietCalls := by decide
  exact ⟨hkeeps, (shown_of_keeps underscores 8 32 (fun _ _ => 0) false false quietCalls hkeeps
    quietCalls (List.prefix_refl quietCalls)).1⟩

/-- The boot log is on the screen when the shadow is made; a redraw loses the background of a blank;
a scroll at once takes the cursor with it; a cursor is forgotten; and a block is not recorded. -/
theorem shown_fails :
    ¬ ([.putChar '_' 1, .heapInit, .rebuildCells].foldl op (narrow true false)).Shown ∧
    ¬ ([.allocStaging, .drawCharAt ' ' 0 1 0 0xFF, .scroll 1, .flushIfDue true 2].foldl op
      (narrow false true)).Shown ∧
    ¬ ([.setCursorPosition 0 1, .drawCursor, .putChar '\n' 1].foldl op (narrow true true)).Shown ∧
    ¬ ([.drawCursor, .resetCursorBlink].foldl op (narrow true true)).Shown ∧
    ¬ ([.drawBlockCursor].foldl op (narrow true true)).Shown := by
  decide

end Vibra.Console
