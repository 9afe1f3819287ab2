import Mathlib.Data.Nat.Basic
import Mathlib.Logic.Function.Basic

/-! # Terminals

A grid of cells of any kind and a cursor in it.
-/

namespace Vibra.Lib

theorem index_lt {cols rows x y : Nat} (hx : x < cols) (hy : y < rows) :
    y * cols + x < cols * rows := by
  calc y * cols + x < y * cols + cols := by omega
    _ = (y + 1) * cols := (Nat.succ_mul y cols).symm
    _ ≤ rows * cols := Nat.mul_le_mul_right cols hy
    _ = cols * rows := Nat.mul_comm rows cols

theorem index_inj {cols x y x' y' : Nat} (hx : x < cols) (hx' : x' < cols) :
    y * cols + x = y' * cols + x' ↔ x = x' ∧ y = y' := by
  constructor
  · intro heq
    have hmod := congrArg (· % cols) heq
    have hdiv := congrArg (· / cols) heq
    simp only [Nat.mul_comm _ cols, Nat.mul_add_mod, Nat.mod_eq_of_lt hx, Nat.mod_eq_of_lt hx'] at hmod
    simp only [Nat.mul_comm _ cols, Nat.mul_add_div (Nat.zero_lt_of_lt hx), Nat.div_eq_of_lt hx,
      Nat.div_eq_of_lt hx', Nat.add_zero] at hdiv
    exact ⟨hmod, hdiv⟩
  · rintro ⟨rfl, rfl⟩
    rfl

/-- The cell in column `x` and row `y` is `grid x y`. -/
structure Terminal (α : Type) where
  cols : Nat
  rows : Nat
  col : Nat
  row : Nat
  grid : Nat → Nat → α

namespace Terminal

variable {α : Type} (t : Terminal α) (blank : α)

def Inside : Prop := t.col < t.cols ∧ t.row < t.rows

instance : Decidable t.Inside := inferInstanceAs (Decidable (_ ∧ _))

def scrollUp : Terminal α :=
  { t with grid := fun x y => if y + 1 < t.rows then t.grid x (y + 1) else blank }

def down : Terminal α :=
  if t.row + 1 < t.rows then { t with row := t.row + 1 } else t.scrollUp blank

def carriageReturn : Terminal α := { t with col := 0 }

def newline : Terminal α := t.carriageReturn.down blank

def backspace : Terminal α := { t with col := t.col - 1 }

/-- On to the next multiple of `width`, at most to the last column. -/
def tab (width : Nat) : Terminal α :=
  { t with col := min ((t.col / width + 1) * width) (t.cols - 1) }

def put (a : α) : Terminal α :=
  { t with grid := fun x y => if x = t.col ∧ y = t.row then a else t.grid x y }

def write (a : α) : Terminal α :=
  let t := t.put a
  if t.col + 1 < t.cols then { t with col := t.col + 1 } else t.newline blank

def move (col row : Nat) : Terminal α :=
  { t with col := min col (t.cols - 1), row := min row (t.rows - 1) }

def clear : Terminal α := { t with col := 0, row := 0, grid := fun _ _ => blank }

variable {t blank}

theorem Inside.down (h : t.Inside) : (t.down blank).Inside := by
  unfold Terminal.down
  split
  · exact ⟨h.1, ‹_›⟩
  · exact h

theorem Inside.carriageReturn (h : t.Inside) : t.carriageReturn.Inside :=
  ⟨Nat.zero_lt_of_lt h.1, h.2⟩

theorem Inside.newline (h : t.Inside) : (t.newline blank).Inside := h.carriageReturn.down

theorem Inside.backspace (h : t.Inside) : t.backspace.Inside :=
  ⟨Nat.lt_of_le_of_lt (Nat.sub_le ..) h.1, h.2⟩

theorem Inside.tab (h : t.Inside) (width : Nat) : (t.tab width).Inside := by
  refine ⟨?_, h.2⟩
  have hcols := h.1
  simp only [Terminal.tab]
  omega

theorem Inside.write (h : t.Inside) (a : α) : (t.write blank a).Inside := by
  have hput : (t.put a).Inside := h
  unfold Terminal.write
  dsimp only
  split
  · exact ⟨‹_›, h.2⟩
  · exact hput.newline

theorem Inside.move (h : t.Inside) (col row : Nat) : (t.move col row).Inside := by
  obtain ⟨hcols, hrows⟩ := h
  refine ⟨?_, ?_⟩ <;> simp only [Terminal.move] <;> omega

theorem Inside.clear (h : t.Inside) : (t.clear blank).Inside :=
  ⟨Nat.zero_lt_of_lt h.1, Nat.zero_lt_of_lt h.2⟩

end Terminal

end Vibra.Lib
