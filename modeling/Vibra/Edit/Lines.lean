import Mathlib.Data.List.GetD
import Vibra.Lib.Lines

/-! # What the editor does to lines

The lines of a text are what stands between its newlines.
-/

/-! ## The text editor

The text is one run of bytes, the cursor an offset into it. Where lines start is found anew for
every operation.
-/

namespace Vibra.Edit

def maxFile : Nat := 256 * 1024

def newline : UInt8 := 0x0A

structure Editor where
  text : List UInt8
  cursor : Nat
  modified : Bool
  status : String
deriving DecidableEq, Repr

/-- `binary_search` in a list in order: where the number is, or where it would be. -/
def binarySearch (xs : List Nat) (x : Nat) : Except Nat Nat :=
  if x ∈ xs then .ok (xs.idxOf x) else .error (xs.countP fun y => decide (y < x))

def isAsciiAlphanumeric (b : UInt8) : Bool :=
  (0x30 ≤ b && b ≤ 0x39) || (0x41 ≤ b && b ≤ 0x5A) || (0x61 ≤ b && b ≤ 0x7A)

def isWord (b : UInt8) : Bool := isAsciiAlphanumeric b || b == 0x5F

/-- The loops of `word_left`: the column as long as the byte before it is of the kind. -/
def backWhile (kind : UInt8 → Bool) (text : List UInt8) : Nat → Nat
  | 0 => 0
  | col + 1 => if kind (text.getD col 0) then backWhile kind text col else col + 1

/-- The loops of `word_right`: the column behind the bytes of the kind. -/
def forwardWhile (kind : UInt8 → Bool) (text : List UInt8) (col : Nat) : Nat :=
  col + ((text.drop col).takeWhile kind).length

namespace Editor

def setText (e : Editor) (text : List UInt8) : Editor := { e with text, cursor := 0 }

def lineStarts (e : Editor) : List Nat :=
  0 :: (e.text.zipIdx.filter fun entry =>
    decide (entry.1 = newline) && decide (entry.2 + 1 ≤ e.text.length)).map fun entry => entry.2 + 1

def cursorLine (e : Editor) (starts : List Nat) : Nat :=
  match binarySearch starts e.cursor with
  | .ok index => index
  | .error index => index - 1

def lineLen (e : Editor) (starts : List Nat) (line : Nat) : Nat :=
  let start := starts.getD line 0
  let finish := if line + 1 < starts.length then starts.getD (line + 1) 0 - 1 else e.text.length
  finish - start

def cursorCol (e : Editor) (starts : List Nat) (line : Nat) : Nat := e.cursor - starts.getD line 0

def placeCursor (e : Editor) (starts : List Nat) (line col : Nat) : Editor :=
  let line := min line (starts.length - 1)
  { e with cursor := starts.getD line 0 + min col (e.lineLen starts line) }

def insertByte (e : Editor) (byte : UInt8) : Editor :=
  if maxFile ≤ e.text.length then { e with status := "buffer is full" }
  else
    { e with
      text := e.text.insertIdx e.cursor byte
      cursor := e.cursor + 1
      modified := true }

def insertStr (e : Editor) (text : List UInt8) : Editor := text.foldl insertByte e

def deleteBefore (e : Editor) : Editor :=
  if e.cursor = 0 then e
  else
    { e with
      text := e.text.eraseIdx (e.cursor - 1)
      cursor := e.cursor - 1
      modified := true }

def deleteAt (e : Editor) : Editor :=
  if e.cursor < e.text.length then
    { e with text := e.text.eraseIdx e.cursor, modified := true }
  else e

def deleteLine (e : Editor) : Editor :=
  let starts := e.lineStarts
  let line := e.cursorLine starts
  let start := starts.getD line 0
  let finish :=
    if line + 1 < starts.length then starts.getD (line + 1) 0
    else if 0 < start then start - 1
    else e.text.length
  if start < finish then
    let text := e.text.take start ++ e.text.drop (min finish e.text.length)
    { e with text, cursor := min start text.length, modified := true }
  else e

def moveUp (e : Editor) : Editor :=
  let starts := e.lineStarts
  let line := e.cursorLine starts
  if 0 < line then e.placeCursor starts (line - 1) (e.cursorCol starts line) else e

def moveDown (e : Editor) : Editor :=
  let starts := e.lineStarts
  let line := e.cursorLine starts
  if line + 1 < starts.length then e.placeCursor starts (line + 1) (e.cursorCol starts line)
  else e

def moveHome (e : Editor) : Editor :=
  let starts := e.lineStarts
  e.placeCursor starts (e.cursorLine starts) 0

def moveEnd (e : Editor) : Editor :=
  let starts := e.lineStarts
  let line := e.cursorLine starts
  e.placeCursor starts line (e.lineLen starts line)

def moveLines (e : Editor) (delta : Int) : Editor :=
  let starts := e.lineStarts
  let line := e.cursorLine starts
  let target := max 0 (min (line + delta) (starts.length - 1 : Nat))
  e.placeCursor starts target.toNat (e.cursorCol starts line)

def wordLeft (e : Editor) : Editor :=
  let starts := e.lineStarts
  let line := e.cursorLine starts
  let text := (e.text.drop (starts.getD line 0)).take (e.lineLen starts line)
  let col := backWhile (fun b => !isWord b) text (e.cursorCol starts line)
  e.placeCursor starts line (backWhile isWord text col)

def wordRight (e : Editor) : Editor :=
  let starts := e.lineStarts
  let line := e.cursorLine starts
  let text := (e.text.drop (starts.getD line 0)).take (e.lineLen starts line)
  let col := forwardWhile isWord text (e.cursorCol starts line)
  e.placeCursor starts line (forwardWhile (fun b => !isWord b) text col)

/-- The arms of `run_loop` for Left, Right, Ctrl+Y and Ctrl+V. -/
def left (e : Editor) : Editor := if 0 < e.cursor then { e with cursor := e.cursor - 1 } else e

def right (e : Editor) : Editor :=
  if e.cursor < e.text.length then { e with cursor := e.cursor + 1 } else e

def pageBack (e : Editor) (rows : Nat) : Editor :=
  let starts := e.lineStarts
  let line := e.cursorLine starts
  e.placeCursor starts (line - rows) (e.cursorCol starts line)

def pageOn (e : Editor) (rows : Nat) : Editor :=
  let starts := e.lineStarts
  let line := e.cursorLine starts
  e.placeCursor starts (min (line + rows) (starts.length - 1)) (e.cursorCol starts line)

end Editor

/-- What a key can do to the text and the cursor. -/
inductive Op where
  | insertByte (byte : UInt8)
  | insertStr (text : List UInt8)
  | deleteBefore
  | deleteAt
  | deleteLine
  | moveUp
  | moveDown
  | moveHome
  | moveEnd
  | moveLines (delta : Int)
  | wordLeft
  | wordRight
  | left
  | right
  | pageBack (rows : Nat)
  | pageOn (rows : Nat)
deriving DecidableEq, Repr

namespace Op

def Moves : Op → Prop
  | .insertByte _ | .insertStr _ | .deleteBefore | .deleteAt | .deleteLine => False
  | _ => True

def step (e : Editor) : Op → Editor
  | .insertByte byte => e.insertByte byte
  | .insertStr text => e.insertStr text
  | .deleteBefore => e.deleteBefore
  | .deleteAt => e.deleteAt
  | .deleteLine => e.deleteLine
  | .moveUp => e.moveUp
  | .moveDown => e.moveDown
  | .moveHome => e.moveHome
  | .moveEnd => e.moveEnd
  | .moveLines delta => e.moveLines delta
  | .wordLeft => e.wordLeft
  | .wordRight => e.wordRight
  | .left => e.left
  | .right => e.right
  | .pageBack rows => e.pageBack rows
  | .pageOn rows => e.pageOn rows

def run (e : Editor) (ops : List Op) : Editor := ops.foldl step e

end Op

end Vibra.Edit

namespace Vibra.Edit

open Lib

variable {e : Editor}

def lines (text : List UInt8) : List (List UInt8) := text.splitOn newline

def Editor.lineNumber (e : Editor) : Nat := (e.text.take e.cursor).count newline

/-- The line of the cursor is gone with one newline, and the others are there in order. -/
def Editor.LosesLine (e e' : Editor) : Prop :=
  lines e'.text =
    if (lines e.text).length = 1 then [[]] else (lines e.text).eraseIdx e.lineNumber

def Editor.LineGoes (e : Editor) : Prop :=
  newline ∈ e.text.drop e.cursor ∨ newline ∉ e.text

/-- The text around the line of the cursor: the line's two parts, and what stands above and
below it. -/
structure Around (e : Editor) (above before after below : List UInt8) : Prop where
  text : e.text = above ++ (before ++ (after ++ below))
  cursor : e.cursor = above.length + before.length
  above : above = [] ∨ ∃ more, above = more ++ [newline]
  before : newline ∉ before
  after : newline ∉ after
  below : below = [] ∨ ∃ more, below = newline :: more

theorem exists_around (h : e.cursor ≤ e.text.length) :
    ∃ above before after below, Around e above before after below := by
  have hlen : (e.text.take e.cursor).length = e.cursor := by
    rw [List.length_take]
    omega
  have hsplit := List.take_append_drop e.cursor e.text
  have hbefore : ∃ above before, e.text.take e.cursor = above ++ before ∧
      (above = [] ∨ ∃ more, above = more ++ [newline]) ∧ newline ∉ before := by
    rcases split_before newline (e.text.take e.cursor) with hnone | ⟨more, start, heq, hstart⟩
    · exact ⟨[], _, rfl, .inl rfl, hnone⟩
    · refine ⟨more ++ [newline], start, ?_, .inr ⟨more, rfl⟩, hstart⟩
      rw [heq, List.append_assoc]
      rfl
  have hafter : ∃ after below, e.text.drop e.cursor = after ++ below ∧
      (below = [] ∨ ∃ more, below = newline :: more) ∧ newline ∉ after := by
    rcases split_after newline (e.text.drop e.cursor) with hnone | ⟨rest, more, heq, hrest⟩
    · exact ⟨_, [], (List.append_nil _).symm, .inl rfl, hnone⟩
    · exact ⟨rest, newline :: more, heq, .inr ⟨more, rfl⟩, hrest⟩
  obtain ⟨above, before, htake, habove, hbefore⟩ := hbefore
  obtain ⟨after, below, hdrop, hbelow, hafter⟩ := hafter
  refine ⟨above, before, after, below, ?_, ?_, habove, hbefore, hafter, hbelow⟩
  · rw [← hsplit, htake, hdrop, List.append_assoc]
  · rw [← hlen, htake, List.length_append]

/-! ## Where lines start -/

theorem lineStarts_eq (e : Editor) : e.lineStarts = 0 :: breaks newline e.text := by
  rw [Editor.lineStarts, breaks]
  congr 2
  apply List.filter_congr
  intro entry hentry
  have hlt := List.snd_lt_of_mem_zipIdx hentry
  have hle : entry.2 + 1 ≤ e.text.length := by omega
  rw [decide_eq_true hle, Bool.and_true]

theorem lineStarts_le {i : Nat} (h : i ∈ e.lineStarts) : i ≤ e.text.length := by
  rw [lineStarts_eq, List.mem_cons] at h
  rcases h with rfl | h
  · exact Nat.zero_le _
  · exact (breaks_le h).2

theorem start_le (e : Editor) (line : Nat) : e.lineStarts.getD line 0 ≤ e.text.length := by
  rw [List.getD_eq_getElem?_getD]
  cases hget : e.lineStarts[line]? with
  | none => exact Nat.zero_le _
  | some start => exact lineStarts_le (List.mem_of_getElem? hget)

theorem cursorLine_eq {above below : List Nat} {start : Nat} (habove : ∀ i ∈ above, i < start)
    (hstart : start ≤ e.cursor) (hbelow : ∀ i ∈ below, e.cursor < i) :
    e.cursorLine (above ++ start :: below) = above.length := by
  rw [Editor.cursorLine, binarySearch]
  by_cases heq : start = e.cursor
  · have hnot : e.cursor ∉ above := by
      intro hmem
      exact absurd (habove _ hmem) (by omega)
    have hmem : e.cursor ∈ above ++ start :: below := by simp [heq]
    rw [if_pos hmem, List.idxOf_append_of_notMem hnot, heq, List.idxOf_cons_self]
    rfl
  · have hmem : e.cursor ∉ above ++ start :: below := by
      rw [List.mem_append, List.mem_cons]
      rintro (hmem | hmem | hmem)
      · have := habove _ hmem
        omega
      · exact heq hmem.symm
      · exact absurd (hbelow _ hmem) (Nat.lt_irrefl _)
    have hcount : (above ++ start :: below).countP (fun y => decide (y < e.cursor)) =
        above.length + 1 := by
      have hall : above.countP (fun y => decide (y < e.cursor)) = above.length := by
        rw [List.countP_eq_length]
        intro i hi
        have := habove i hi
        exact decide_eq_true (by omega)
      have hnone : below.countP (fun y => decide (y < e.cursor)) = 0 := by
        rw [List.countP_eq_zero]
        intro i hi
        have := hbelow i hi
        simp only [decide_eq_true_eq]
        omega
      rw [List.countP_append, List.countP_cons, hall, hnone,
        if_pos (decide_eq_true (by omega))]
    rw [if_neg hmem, hcount]
    rfl

variable {above before after below : List UInt8}

namespace Around

theorem lineStarts (h : Around e above before after below) :
    ∃ starts, e.lineStarts = starts ++ above.length ::
        (breaks newline below).map (· + (above.length + before.length + after.length)) ∧
      starts.length = above.count newline ∧ ∀ i ∈ starts, i < above.length := by
  have hline : breaks newline e.text = breaks newline above ++
      (breaks newline below).map (· + (above.length + before.length + after.length)) := by
    rw [h.text, breaks_append, breaks_append, breaks_append, breaks_of_notMem h.before,
      breaks_of_notMem h.after, List.nil_append, List.nil_append, List.map_map, List.map_map]
    congr 1
    apply List.map_congr_left
    intro i _
    show i + after.length + before.length + above.length = _
    omega
  rw [lineStarts_eq, hline]
  rcases h.above with rfl | ⟨more, rfl⟩
  · exact ⟨[], rfl, rfl, fun i hi => absurd hi List.not_mem_nil⟩
  · have hone : breaks newline [newline] = [1] := by decide
    refine ⟨0 :: breaks newline more, ?_, ?_, ?_⟩
    · rw [breaks_append, hone, List.length_append, List.length_singleton, List.map_singleton,
        List.cons_append, List.append_assoc, Nat.add_comm 1]
      rfl
    · rw [List.length_cons, length_breaks, List.count_append, List.count_singleton_self]
    · intro i hi
      rw [List.length_append, List.length_singleton]
      rcases List.mem_cons.mp hi with rfl | hi
      · omega
      · have := (breaks_le hi).2
        omega

theorem cursorLine (h : Around e above before after below) :
    e.cursorLine e.lineStarts = above.count newline := by
  obtain ⟨starts, hstarts, hlength, hlt⟩ := h.lineStarts
  rw [hstarts, cursorLine_eq hlt (by rw [h.cursor]; omega), hlength]
  intro i hi
  obtain ⟨k, hk, rfl⟩ := List.mem_map.mp hi
  have := (breaks_le hk).1
  rw [h.cursor]
  omega

theorem lineNumber (h : Around e above before after below) :
    e.lineNumber = above.count newline := by
  have htake : e.text.take e.cursor = above ++ before := by
    rw [h.text, h.cursor, ← List.append_assoc, ← List.length_append, List.take_left]
  rw [Editor.lineNumber, htake, List.count_append, List.count_eq_zero.mpr h.before, Nat.add_zero]

theorem start (h : Around e above before after below) :
    e.lineStarts.getD (above.count newline) 0 = above.length := by
  obtain ⟨starts, hstarts, hlength, -⟩ := h.lineStarts
  rw [hstarts, ← hlength, List.getD_append_right _ _ _ _ (Nat.le_refl _), Nat.sub_self]
  rfl

theorem linesAbove (h : Around e above before after below) :
    ∃ top : List (List UInt8), top.length = above.count newline ∧
      ∀ rest, lines (above ++ rest) = top ++ lines rest := by
  rcases h.above with rfl | ⟨more, rfl⟩
  · exact ⟨[], rfl, fun _ => rfl⟩
  · refine ⟨lines more, ?_, fun rest => ?_⟩
    · rw [lines, length_splitOn, List.count_append, List.count_singleton_self]
    · rw [List.append_assoc]
      exact List.splitOn_append_cons_self more rest

theorem newline_notMem (h : Around e above before after below) : newline ∉ before ++ after := by
  rw [List.mem_append]
  exact fun hmem => hmem.elim h.before h.after

theorem lineGoes_iff (h : Around e above before after below) :
    e.LineGoes ↔ below ≠ [] ∨ above = [] := by
  have hdrop : e.text.drop e.cursor = after ++ below := by
    rw [h.text, h.cursor, ← List.append_assoc, ← List.length_append, List.drop_left]
  rw [Editor.LineGoes, hdrop, List.mem_append, h.text, List.mem_append, List.mem_append,
    List.mem_append]
  have habove : newline ∈ above ↔ above ≠ [] := by
    rcases h.above with rfl | ⟨more, rfl⟩ <;> simp
  have hbelow : newline ∈ below ↔ below ≠ [] := by
    rcases h.below with rfl | ⟨more, rfl⟩ <;> simp
  have hbefore := h.before
  have hafter := h.after
  rw [habove, hbelow]
  tauto

theorem deleteLine_cons {more : List UInt8} (h : Around e above before after (newline :: more)) :
    e.deleteLine.text = above ++ more ∧ e.deleteLine.cursor = above.length := by
  obtain ⟨starts, hstarts, hlength, -⟩ := h.lineStarts
  have hlen : e.text.length =
      above.length + before.length + after.length + (more.length + 1) := by
    rw [h.text]
    simp only [List.length_append, List.length_cons]
    omega
  have hnext : above.count newline + 1 < e.lineStarts.length := by
    rw [hstarts, breaks_cons_self, List.length_append, List.length_cons, List.map_cons,
      List.length_cons, hlength]
    omega
  have hfinish : e.lineStarts.getD (above.count newline + 1) 0 =
      above.length + before.length + after.length + 1 := by
    rw [hstarts, breaks_cons_self, ← hlength, List.getD_append_right _ _ _ _ (Nat.le_succ _),
      Nat.succ_sub (Nat.le_refl _), Nat.sub_self, List.map_cons, List.getD_cons_succ,
      List.getD_cons_zero]
    omega
  have htake : e.text.take above.length = above := by
    rw [h.text, List.take_left]
  have hdrop : e.text.drop (above.length + before.length + after.length + 1) = more := by
    have hsplit : e.text = (above ++ before ++ after ++ [newline]) ++ more := by
      rw [h.text]
      simp
    have hskip : above.length + before.length + after.length + 1 =
        (above ++ before ++ after ++ [newline]).length := by
      simp only [List.length_append, List.length_singleton]
    rw [hskip, hsplit, List.drop_left]
  rw [Editor.deleteLine, h.cursorLine, h.start, if_pos hnext, hfinish]
  dsimp only
  rw [if_pos (by omega), Nat.min_eq_left (by omega), htake, hdrop]
  exact ⟨rfl, Nat.min_eq_left (by rw [List.length_append]; omega)⟩

theorem deleteLine_last (h : Around e above before after []) (habove : above ≠ []) :
    e.deleteLine = e := by
  obtain ⟨starts, hstarts, hlength, -⟩ := h.lineStarts
  have hnext : ¬ above.count newline + 1 < e.lineStarts.length := by
    rw [hstarts, breaks_nil, List.map_nil, List.length_append, List.length_singleton, hlength]
    omega
  have hpos := List.length_pos_iff.mpr habove
  rw [Editor.deleteLine, h.cursorLine, h.start, if_neg hnext, if_pos hpos]
  exact if_neg (by omega)

theorem deleteLine_only (h : Around e [] before after []) : e.deleteLine.text = [] := by
  obtain ⟨starts, hstarts, hlength, -⟩ := h.lineStarts
  have hnext : ¬ ([] : List UInt8).count newline + 1 < e.lineStarts.length := by
    rw [hstarts, breaks_nil, List.map_nil, List.length_append, List.length_singleton, hlength]
    omega
  have hstart : ¬ 0 < ([] : List UInt8).length := Nat.not_lt_zero _
  rw [Editor.deleteLine, h.cursorLine, h.start, if_neg hnext, if_neg hstart]
  dsimp only
  rw [List.length_nil]
  split
  · rw [Nat.min_self, List.drop_length]
    rfl
  · next hempty => exact List.length_eq_zero_iff.mp (by omega)

theorem deleteLine_iff (h : Around e above before after below) :
    e.LosesLine e.deleteLine ↔ e.LineGoes := by
  obtain ⟨top, htop, hlines⟩ := h.linesAbove
  have hmid := h.newline_notMem
  have hall : lines e.text = top ++ lines (before ++ after ++ below) := by
    rw [h.text, hlines, List.append_assoc]
  rw [h.lineGoes_iff, Editor.LosesLine, h.lineNumber]
  rcases h.below with rfl | ⟨more, rfl⟩
  · have hone : lines (before ++ after ++ []) = [before ++ after] := by
      rw [List.append_nil]
      exact List.splitOn_eq_singleton hmid
    rw [hall, hone, List.length_append, List.length_singleton]
    by_cases habove : above = []
    · subst habove
      rw [h.deleteLine_only, htop]
      exact ⟨fun _ => .inr rfl, fun _ => rfl⟩
    · -- the text is as it was, with a line too many
      have hcount : 0 < above.count newline := by
        rw [List.count_pos_iff]
        rcases h.above with heq | ⟨more, heq⟩
        · exact absurd heq habove
        · rw [heq]
          simp
      rw [h.deleteLine_last habove, hall, hone, if_neg (by omega), ← htop,
        List.eraseIdx_append_of_length_le (Nat.le_refl _), Nat.sub_self]
      constructor
      · intro heq
        have hlength := congrArg List.length heq
        simp at hlength
      · intro hgoes
        exact (hgoes.elim (fun hne => hne rfl) habove).elim
  · have hcons : lines (before ++ after ++ newline :: more) =
        (before ++ after) :: lines more :=
      List.splitOn_append_cons_self_of_not_mem hmid more
    have hpos : 0 < (lines more).length := by
      rw [lines, length_splitOn]
      omega
    rw [h.deleteLine_cons.1, hlines, hall, hcons, if_neg (by simp; omega), ← htop,
      List.eraseIdx_append_of_length_le (Nat.le_refl _), Nat.sub_self]
    exact ⟨fun _ => .inl (List.cons_ne_nil _ _), fun _ => rfl⟩

end Around

theorem placeCursor_le (e : Editor) (line col : Nat) :
    (e.placeCursor e.lineStarts line col).cursor ≤ e.text.length := by
  have hstart := start_le e (min line (e.lineStarts.length - 1))
  have hnext := start_le e (min line (e.lineStarts.length - 1) + 1)
  rw [Editor.placeCursor, Editor.lineLen]
  dsimp only
  split <;> omega

theorem insertByte_cursor_le (h : e.cursor ≤ e.text.length) (byte : UInt8) :
    (e.insertByte byte).cursor ≤ (e.insertByte byte).text.length := by
  rw [Editor.insertByte]
  split
  · exact h
  · show e.cursor + 1 ≤ (e.text.insertIdx e.cursor byte).length
    rw [List.length_insertIdx_of_le_length h]
    omega

theorem insertStr_cursor_le (h : e.cursor ≤ e.text.length) (text : List UInt8) :
    (e.insertStr text).cursor ≤ (e.insertStr text).text.length := by
  induction text generalizing e with
  | nil => exact h
  | cons byte text ih => exact ih (insertByte_cursor_le h byte)

theorem deleteLine_cursor_le (h : e.cursor ≤ e.text.length) :
    e.deleteLine.cursor ≤ e.deleteLine.text.length := by
  rw [Editor.deleteLine]
  split_ifs
  all_goals first
    | exact h
    | exact Nat.min_le_right _ _

theorem step_text {op : Op} (h : op.Moves) (e : Editor) : (op.step e).text = e.text := by
  cases op with
  | insertByte | insertStr | deleteBefore | deleteAt | deleteLine => exact h.elim
  | moveHome | moveEnd | moveLines | wordLeft | wordRight | pageBack | pageOn => rfl
  | moveUp =>
    show e.moveUp.text = e.text
    rw [Editor.moveUp]
    split <;> rfl
  | moveDown =>
    show e.moveDown.text = e.text
    rw [Editor.moveDown]
    split <;> rfl
  | left =>
    show e.left.text = e.text
    rw [Editor.left]
    split <;> rfl
  | right =>
    show e.right.text = e.text
    rw [Editor.right]
    split <;> rfl

theorem step_cursor_le (h : e.cursor ≤ e.text.length) (op : Op) :
    (op.step e).cursor ≤ (op.step e).text.length := by
  cases op with
  | insertByte byte => exact insertByte_cursor_le h byte
  | insertStr text => exact insertStr_cursor_le h text
  | deleteLine => exact deleteLine_cursor_le h
  | moveHome | moveEnd | moveLines | wordLeft | wordRight | pageBack | pageOn =>
    exact placeCursor_le e _ _
  | deleteBefore =>
    show e.deleteBefore.cursor ≤ e.deleteBefore.text.length
    rw [Editor.deleteBefore]
    split
    · exact h
    · show e.cursor - 1 ≤ (e.text.eraseIdx (e.cursor - 1)).length
      rw [List.length_eraseIdx_of_lt (by omega)]
      omega
  | deleteAt =>
    show e.deleteAt.cursor ≤ e.deleteAt.text.length
    rw [Editor.deleteAt]
    split
    · show e.cursor ≤ (e.text.eraseIdx e.cursor).length
      rw [List.length_eraseIdx_of_lt ‹_›]
      omega
    · exact h
  | moveUp =>
    rw [@step_text .moveUp trivial]
    show e.moveUp.cursor ≤ e.text.length
    rw [Editor.moveUp]
    split
    · exact placeCursor_le e _ _
    · exact h
  | moveDown =>
    rw [@step_text .moveDown trivial]
    show e.moveDown.cursor ≤ e.text.length
    rw [Editor.moveDown]
    split
    · exact placeCursor_le e _ _
    · exact h
  | left =>
    rw [@step_text .left trivial]
    show e.left.cursor ≤ e.text.length
    rw [Editor.left]
    split
    · exact Nat.le_trans (Nat.sub_le _ _) h
    · exact h
  | right =>
    rw [@step_text .right trivial]
    show e.right.cursor ≤ e.text.length
    rw [Editor.right]
    split
    · exact Nat.succ_le_of_lt ‹_›
    · exact h

theorem run_cursor_le (h : e.cursor ≤ e.text.length) (ops : List Op) :
    (Op.run e ops).cursor ≤ (Op.run e ops).text.length := by
  induction ops generalizing e with
  | nil => exact h
  | cons op ops ih => exact ih (step_cursor_le h op)

/-- Whatever has been done to a text, the cursor is in it, moving the cursor does not change it,
and Ctrl+K takes away the line of the cursor exactly when there is a line below it or no other
one. -/
theorem run_lines (e : Editor) (h : e.cursor ≤ e.text.length) (ops : List Op) :
    (Op.run e ops).cursor ≤ (Op.run e ops).text.length ∧
      (∀ op : Op, op.Moves → (op.step (Op.run e ops)).text = (Op.run e ops).text) ∧
      ((Op.run e ops).LosesLine (Op.run e ops).deleteLine ↔ (Op.run e ops).LineGoes) := by
  have hcursor := run_cursor_le h ops
  refine ⟨hcursor, fun op hop => step_text hop _, ?_⟩
  obtain ⟨above, before, after, below, haround⟩ := exists_around hcursor
  exact haround.deleteLine_iff

/-- Two lines, with the cursor in the first one. -/
theorem run_lines_two :
    (Op.run ⟨[0x61, 0x0A, 0x62], 0, false, ""⟩ [.moveEnd]).LosesLine
      (Op.run ⟨[0x61, 0x0A, 0x62], 0, false, ""⟩ [.moveEnd]).deleteLine :=
  (run_lines ⟨[0x61, 0x0A, 0x62], 0, false, ""⟩ (by decide) [.moveEnd]).2.2.mpr
    (.inl (by decide))

/-- With the cursor in the second one Ctrl+K does nothing. -/
theorem deleteLine_second :
    ¬ Editor.LosesLine ⟨[0x61, 0x0A, 0x62], 2, false, ""⟩
      (Editor.deleteLine ⟨[0x61, 0x0A, 0x62], 2, false, ""⟩) := by
  intro h
  obtain ⟨above, before, after, below, haround⟩ :=
    exists_around (show (⟨[0x61, 0x0A, 0x62], 2, false, ""⟩ : Editor).cursor ≤ _ by decide)
  rcases haround.deleteLine_iff.mp h with hbelow | hnone
  · exact absurd hbelow (by decide)
  · exact hnone (by decide)

end Vibra.Edit
