import Vibra.Ext.Utf8
import Vibra.Input.Keyboard
import Vibra.Lib.Lines
import Vibra.Lib.Runs

/-! # The line editor of the shell

A line is kept as bytes in an array of `maxLine` cells, and the last lines in `historySize` arrays
of the same size.
-/

namespace Vibra.Shell

open Ext (fromUtf8)
open Input (Key)
open Lib (CursorLine shiftDown shiftUp backWhile forwardWhile Along)

def maxLine : Nat := 256

def historySize : Nat := 16

abbrev EditKey : Type := {key : Key // key ≠ .tab}

/-- `ch as u8` -/
def toByte (ch : Char) : UInt8 := UInt8.ofNat ch.toNat

structure LineEditor where
  buffer : List UInt8
  len : Nat
  cursor : Nat
  history : List (List UInt8)
  historyLens : List Nat
  historyCount : Nat
  historyIdx : Nat

namespace LineEditor

def new : LineEditor where
  buffer := List.replicate maxLine 0
  len := 0
  cursor := 0
  history := List.replicate historySize (List.replicate maxLine 0)
  historyLens := List.replicate historySize 0
  historyCount := 0
  historyIdx := 0

/-- `read_line` up to its loop. -/
def startLine (e : LineEditor) : LineEditor :=
  { e with len := 0, cursor := 0, historyIdx := e.historyCount }

def asStr (e : LineEditor) : List Char := (fromUtf8 (e.buffer.take e.len)).getD []

/-- `slot[..len].copy_from_slice(text)` -/
def store (text slot : List UInt8) : List UInt8 := text ++ slot.drop text.length

def saveToHistory (e : LineEditor) : LineEditor :=
  if e.len = 0 then e
  else
    let text := e.buffer.take e.len
    if e.historyCount < historySize then
      { e with
        history := e.history.set e.historyCount (store text (e.history.getD e.historyCount []))
        historyLens := e.historyLens.set e.historyCount e.len
        historyCount := e.historyCount + 1
        historyIdx := e.historyCount + 1 }
    else
      let history := shiftDown 1 (historySize - 1) 1 e.history
      { e with
        history := history.set (historySize - 1) (store text (history.getD (historySize - 1) []))
        historyLens :=
          (shiftDown 1 (historySize - 1) 1 e.historyLens).set (historySize - 1) e.len
        historyIdx := e.historyCount }

def loadFromHistory (e : LineEditor) (idx : Nat) : LineEditor :=
  let srcLen := e.historyLens.getD idx 0
  { e with
    buffer := store ((e.history.getD idx []).take srcLen) e.buffer
    len := srcLen
    cursor := srcLen }

def historyEntry (e : LineEditor) (idx : Nat) : Option (List Char) :=
  if e.historyCount ≤ idx then none
  else fromUtf8 ((e.history.getD idx []).take (e.historyLens.getD idx 0))

/-- Up and PageUp. -/
def historyBack (e : LineEditor) : LineEditor :=
  if 0 < e.historyCount ∧ 0 < e.historyIdx then
    ({ e with historyIdx := e.historyIdx - 1 }).loadFromHistory (e.historyIdx - 1)
  else e

/-- Down and PageDown. -/
def historyForward (e : LineEditor) : LineEditor :=
  if e.historyIdx < e.historyCount then
    let e := { e with historyIdx := e.historyIdx + 1 }
    if e.historyIdx = e.historyCount then { e with len := 0, cursor := 0 }
    else e.loadFromHistory e.historyIdx
  else e

def insertChar (e : LineEditor) (ch : Char) : LineEditor :=
  if e.len < maxLine - 1 then
    { e with
      buffer := (shiftUp e.cursor (e.len - e.cursor) e.buffer).set e.cursor (toByte ch)
      len := e.len + 1
      cursor := e.cursor + 1 }
  else e

/-- The arm of a character: what is left, and whether the line is given up. -/
def handleChar (e : LineEditor) (ch : Char) : LineEditor × Option (List Char) :=
  match ch with
  | '\x01' => ({ e with cursor := 0 }, none)
  | '\x05' => ({ e with cursor := e.len }, none)
  | '\x0B' => ({ e with len := e.cursor }, none)
  | '\x15' =>
    (if 0 < e.cursor then
      { e with
        buffer := shiftDown e.cursor (e.len - e.cursor) e.cursor e.buffer
        len := e.len - e.cursor
        cursor := 0 }
    else e, none)
  | '\x0C' => (e, none)
  | '\x03' => ({ e with len := 0, cursor := 0 }, some [])
  | '\x1A' => ({ e with len := 0, cursor := 0 }, some [])
  | ch => (e.insertChar ch, none)

/-- One turn of the loop of `read_line`, and the line that it returns. -/
def handleKey (e : LineEditor) : EditKey → LineEditor × Option (List Char)
  | ⟨.enter, _⟩ => (e.saveToHistory, some e.saveToHistory.asStr)
  | ⟨.backspace, _⟩ =>
    (if 0 < e.cursor then
      { e with
        buffer := shiftDown 1 (e.len - e.cursor) e.cursor e.buffer
        len := e.len - 1
        cursor := e.cursor - 1 }
    else e, none)
  | ⟨.left, _⟩ => (if 0 < e.cursor then { e with cursor := e.cursor - 1 } else e, none)
  | ⟨.right, _⟩ => (if e.cursor < e.len then { e with cursor := e.cursor + 1 } else e, none)
  | ⟨.home, _⟩ => ({ e with cursor := 0 }, none)
  | ⟨.end, _⟩ => ({ e with cursor := e.len }, none)
  | ⟨.delete, _⟩ =>
    (if e.cursor < e.len then
      { e with
        buffer := shiftDown 1 (e.len - (e.cursor + 1)) (e.cursor + 1) e.buffer
        len := e.len - 1 }
    else e, none)
  | ⟨.insert, _⟩ => (e, none)
  | ⟨.wordLeft, _⟩ =>
    let cursor := backWhile (· == 0x20) e.buffer e.cursor
    ({ e with cursor := backWhile (· != 0x20) e.buffer cursor }, none)
  | ⟨.wordRight, _⟩ =>
    let cursor := forwardWhile (· != 0x20) e.buffer (e.len - e.cursor) e.cursor
    ({ e with cursor := forwardWhile (· == 0x20) e.buffer (e.len - cursor) cursor }, none)
  | ⟨.pageUp, _⟩ => (e.historyBack, none)
  | ⟨.pageDown, _⟩ => (e.historyForward, none)
  | ⟨.up, _⟩ => (e.historyBack, none)
  | ⟨.down, _⟩ => (e.historyForward, none)
  | ⟨.char ch, _⟩ => e.handleChar ch
  | ⟨.unknown, _⟩ => (e, none)
  | ⟨.tab, h⟩ => absurd rfl h

end LineEditor

/-- A line of characters, all the lines that were entered and had any, and the place in the
history. -/
structure Reference where
  line : CursorLine Char
  entered : List (List Char)
  idx : Nat

namespace Reference

def new : Reference := ⟨.empty, [], 0⟩

def lastLines (entered : List (List Char)) : List (List Char) :=
  entered.drop (entered.length - historySize)

def history (r : Reference) : List (List Char) := lastLines r.entered

def startLine (r : Reference) : Reference :=
  { r with line := .empty, idx := r.history.length }

def enter (r : Reference) : Reference :=
  if r.line.items = [] then r
  else
    let r := { r with entered := r.entered ++ [r.line.items] }
    { r with idx := r.history.length }

def back (r : Reference) : Reference :=
  if 0 < r.idx then
    { r with idx := r.idx - 1, line := .atEnd (r.history.getD (r.idx - 1) []) }
  else r

/-- Behind the last line of the history is an empty one. -/
def forward (r : Reference) : Reference :=
  if r.idx < r.history.length then
    { r with idx := r.idx + 1, line := .atEnd (r.history.getD (r.idx + 1) []) }
  else r

def handleChar (r : Reference) (ch : Char) : Reference × Option (List Char) :=
  match ch with
  | '\x01' => ({ r with line := r.line.home }, none)
  | '\x05' => ({ r with line := r.line.toEnd }, none)
  | '\x0B' => ({ r with line := r.line.killAfter }, none)
  | '\x15' => ({ r with line := r.line.killBefore }, none)
  | '\x0C' => (r, none)
  | '\x03' => ({ r with line := .empty }, some [])
  | '\x1A' => ({ r with line := .empty }, some [])
  | ch =>
    (if r.line.items.length < maxLine - 1 then { r with line := r.line.insert ch } else r, none)

def handleKey (r : Reference) : EditKey → Reference × Option (List Char)
  | ⟨.enter, _⟩ => (r.enter, some r.line.items)
  | ⟨.backspace, _⟩ => ({ r with line := r.line.backspace }, none)
  | ⟨.left, _⟩ => ({ r with line := r.line.left }, none)
  | ⟨.right, _⟩ => ({ r with line := r.line.right }, none)
  | ⟨.home, _⟩ => ({ r with line := r.line.home }, none)
  | ⟨.end, _⟩ => ({ r with line := r.line.toEnd }, none)
  | ⟨.delete, _⟩ => ({ r with line := r.line.delete }, none)
  | ⟨.wordLeft, _⟩ =>
    ({ r with line := (r.line.backOver (· == ' ')).backOver (· != ' ') }, none)
  | ⟨.wordRight, _⟩ =>
    ({ r with line := (r.line.forwardOver (· != ' ')).forwardOver (· == ' ') }, none)
  | ⟨.pageUp, _⟩ | ⟨.up, _⟩ => (r.back, none)
  | ⟨.pageDown, _⟩ | ⟨.down, _⟩ => (r.forward, none)
  | ⟨.char ch, _⟩ => r.handleChar ch
  | ⟨.insert, _⟩ | ⟨.unknown, _⟩ => (r, none)
  | ⟨.tab, h⟩ => absurd rfl h

end Reference

/-- An editor, the lines that the calls of `read_line` returned, and whether one is going on. -/
structure Session (σ : Type) where
  editor : σ
  returned : List (List Char)
  reading : Bool

namespace Session

variable {σ : Type}

def begin (start : σ → σ) (s : Session σ) : Session σ :=
  if s.reading then s else { s with editor := start s.editor, reading := true }

def key (start : σ → σ) (handle : σ → EditKey → σ × Option (List Char)) (s : Session σ)
    (k : EditKey) : Session σ :=
  let s := s.begin start
  let (editor, line) := handle s.editor k
  ⟨editor, s.returned ++ line.toList, line.isNone⟩

end Session

def Ascii (text : List Char) : Prop := ∀ ch ∈ text, ch.toNat < 0x80

theorem toByte_toNat {ch : Char} (h : ch.toNat < 0x80) : (toByte ch).toNat = ch.toNat := by
  rw [toByte, UInt8.toNat_ofNat_of_lt' (Nat.lt_trans h (by decide))]

theorem fromUtf8_ascii {text : List Char} (h : Ascii text) (rest : List UInt8) :
    fromUtf8 (text.map toByte ++ rest) = (text ++ ·) <$> fromUtf8 rest := by
  induction text with
  | nil => exact (id_map (f := Option) (fromUtf8 rest)).symm
  | cons ch text ih =>
    have hch := h ch (List.mem_cons_self ..)
    have hbyte := toByte_toNat hch
    rw [List.map_cons, List.cons_append, Ext.fromUtf8_one _ (by omega), hbyte, Char.ofNat_toNat,
      ih fun c hc => h c (List.mem_cons_of_mem _ hc), Functor.map_map]
    rfl

theorem fromUtf8_map {text : List Char} (h : Ascii text) :
    fromUtf8 (text.map toByte) = some text := by
  have htext := fromUtf8_ascii h []
  rw [List.append_nil] at htext
  rw [htext]
  simp [fromUtf8]

theorem high_of_secondOk {lead byte : UInt8} (h : Ext.secondOk lead byte = true) :
    0x80 ≤ byte.toNat := by
  have hrange (low high : UInt8) (hlow : 0x80 ≤ low.toNat)
      (hb : (decide (low ≤ byte) && decide (byte ≤ high)) = true) : 0x80 ≤ byte.toNat := by
    have hle := of_decide_eq_true (Bool.and_eq_true_iff.mp hb).1
    exact Nat.le_trans hlow (UInt8.le_iff_toNat_le.mp hle)
  unfold Ext.secondOk at h
  split at h
  · exact hrange 0xA0 0xBF (by decide) h
  · split at h
    · exact hrange 0x80 0x9F (by decide) h
    · split at h
      · exact hrange 0x90 0xBF (by decide) h
      · split at h
        · exact hrange 0x80 0x8F (by decide) h
        · exact hrange 0x80 0xBF (by decide) h

theorem fromUtf8_stray {byte : UInt8} (hbyte : ¬byte < 0x80) {text : List Char}
    (h : Ascii text) : fromUtf8 (byte :: text.map toByte) = none := by
  cases text with
  | nil =>
    unfold fromUtf8
    rw [if_neg hbyte]
    rfl
  | cons ch text =>
    have hch := toByte_toNat (h ch (List.mem_cons_self ..))
    have hlow := h ch (List.mem_cons_self ..)
    have hsecond : Ext.secondOk byte (toByte ch) = false := by
      apply Bool.eq_false_iff.mpr
      intro htrue
      have hhigh := high_of_secondOk htrue
      omega
    have hcont : Ext.isCont (toByte ch) = false := by
      apply Bool.eq_false_iff.mpr
      intro htrue
      have hhigh := UInt8.le_iff_toNat_le.mp (of_decide_eq_true (Bool.and_eq_true_iff.mp htrue).1)
      rw [hch] at hhigh
      exact absurd hhigh (Nat.not_le.mpr hlow)
    rw [List.map_cons]
    unfold fromUtf8
    simp only [if_neg hbyte, hcont, hsecond, Bool.false_eq_true, if_false, false_and, and_false]
    split
    · rfl
    · split
      · rfl
      · split
        · rfl
        · split <;> rfl

structure ShowsLine (buffer : List UInt8) (len cursor : Nat) (l : CursorLine Char) : Prop where
  size : buffer.length = maxLine
  cells : l.items.map toByte <+: buffer
  len : len = l.items.length
  cursor : cursor = l.before.length
  room : l.items.length < maxLine
  ascii : Ascii l.items

namespace ShowsLine

variable {buffer : List UInt8} {len cursor : Nat} {l l' : CursorLine Char}

theorem take (h : ShowsLine buffer len cursor l) : buffer.take len = l.items.map toByte := by
  have hprefix := List.prefix_iff_eq_take.mp h.cells
  rw [List.length_map, ← h.len] at hprefix
  exact hprefix.symm

theorem text (h : ShowsLine buffer len cursor l) : fromUtf8 (buffer.take len) = some l.items := by
  rw [h.take, fromUtf8_map h.ascii]

theorem after (h : ShowsLine buffer len cursor l) : len - cursor = l.after.length := by
  rw [h.len, h.cursor, CursorLine.items, List.length_append, Nat.add_sub_cancel_left]

theorem cursor_le (h : ShowsLine buffer len cursor l) : cursor ≤ len := by
  rw [h.len, h.cursor, CursorLine.items, List.length_append]
  exact Nat.le_add_right _ _

theorem empty (h : buffer.length = maxLine) : ShowsLine buffer 0 0 .empty where
  size := h
  cells := List.nil_prefix
  len := rfl
  cursor := rfl
  room := by decide
  ascii := fun _ hch => absurd hch List.not_mem_nil

theorem move (h : ShowsLine buffer len cursor l) (hitems : l'.items = l.items) {cursor' : Nat}
    (hcursor : cursor' = l'.before.length) : ShowsLine buffer len cursor' l' where
  size := h.size
  cells := hitems ▸ h.cells
  len := hitems ▸ h.len
  cursor := hcursor
  room := hitems ▸ h.room
  ascii := hitems ▸ h.ascii

theorem shrink (h : ShowsLine buffer len cursor l) {buffer' : List UInt8}
    (hsize : buffer'.length = buffer.length) (hcells : l'.items.map toByte <+: buffer')
    (hsub : l'.items.Sublist l.items) :
    ShowsLine buffer' l'.items.length l'.before.length l' where
  size := hsize.trans h.size
  cells := hcells
  len := rfl
  cursor := rfl
  room := Nat.lt_of_le_of_lt hsub.length_le h.room
  ascii := fun ch hch => h.ascii ch (hsub.subset hch)

theorem before_ne_nil (h : ShowsLine buffer len cursor l) : 0 < cursor ↔ l.before ≠ [] := by
  rw [h.cursor, List.length_pos_iff]

theorem after_ne_nil (h : ShowsLine buffer len cursor l) : cursor < len ↔ l.after ≠ [] := by
  have hafter := h.after
  rw [← List.length_pos_iff]
  omega

theorem isSpace (h : ShowsLine buffer len cursor l) :
    ∀ ch ∈ l.items, (toByte ch == 0x20) = (ch == ' ') := by
  intro ch hch
  have hbyte := toByte_toNat (h.ascii ch hch)
  have hiff : toByte ch = 0x20 ↔ ch = ' ' := by
    rw [← UInt8.toNat_inj, hbyte, ← Char.toNat_inj]
    rfl
  exact Bool.eq_iff_iff.mpr (by simpa using hiff)

end ShowsLine

structure ShowsHistory (history : List (List UInt8)) (lens : List Nat) (count : Nat)
    (lines : List (List Char)) : Prop where
  slots : history.length = historySize
  sizes : lens.length = historySize
  total : count = lines.length
  le : lines.length ≤ historySize
  stored : ∀ (i : Nat) (line : List Char), lines[i]? = some line →
    ∃ slot, history[i]? = some slot ∧ line.map toByte <+: slot ∧ lens[i]? = some line.length

namespace ShowsHistory

variable {history : List (List UInt8)} {lens : List Nat} {count : Nat}
  {lines : List (List Char)} {text : List Char}

theorem append (h : ShowsHistory history lens count lines) (hroom : count < historySize)
    {slot : List UInt8} (hslot : text.map toByte <+: slot) :
    ShowsHistory (history.set count slot) (lens.set count text.length) (count + 1)
      (lines ++ [text]) where
  slots := (List.length_set ..).trans h.slots
  sizes := (List.length_set ..).trans h.sizes
  total := by rw [h.total, List.length_append, List.length_singleton]
  le := by
    rw [List.length_append, List.length_singleton, ← h.total]
    exact hroom
  stored := by
    intro i line hi
    by_cases hlt : i < lines.length
    · have hne : count ≠ i := by
        rw [h.total]
        omega
      rw [List.getElem?_append_left hlt] at hi
      rw [List.getElem?_set_ne hne, List.getElem?_set_ne hne]
      exact h.stored i line hi
    · have hieq : i = count ∧ line = text := by
        obtain ⟨hbound, hget⟩ := List.getElem?_eq_some_iff.mp hi
        rw [List.length_append, List.length_singleton] at hbound
        have hi' : i = lines.length := by omega
        subst hi'
        rw [List.getElem_concat_length rfl] at hget
        exact ⟨h.total.symm, hget.symm⟩
      obtain ⟨rfl, rfl⟩ := hieq
      refine ⟨slot, ?_, hslot, ?_⟩
      · rw [List.getElem?_set_self (by rw [h.slots]; exact hroom)]
      · rw [List.getElem?_set_self (by rw [h.sizes]; exact hroom)]

theorem rotate (h : ShowsHistory history lens count lines) (hfull : lines.length = historySize)
    {slot : List UInt8} (hslot : text.map toByte <+: slot) :
    ShowsHistory (history.tail ++ [slot]) (lens.tail ++ [text.length]) count
      (lines.tail ++ [text]) where
  slots := by rw [List.length_append, List.length_tail, h.slots]; rfl
  sizes := by rw [List.length_append, List.length_tail, h.sizes]; rfl
  total := by rw [h.total, List.length_append, List.length_tail, hfull]; rfl
  le := by
    rw [List.length_append, List.length_tail, hfull]
    exact Nat.le_refl historySize
  stored := by
    intro i line hi
    have hlines : lines.tail.length = historySize - 1 := by rw [List.length_tail, hfull]
    have hslots : history.tail.length = historySize - 1 := by rw [List.length_tail, h.slots]
    have hlens : lens.tail.length = historySize - 1 := by rw [List.length_tail, h.sizes]
    by_cases hlt : i < historySize - 1
    · rw [List.getElem?_append_left (hlines ▸ hlt), List.getElem?_tail] at hi
      rw [List.getElem?_append_left (hslots ▸ hlt), List.getElem?_append_left (hlens ▸ hlt),
        List.getElem?_tail, List.getElem?_tail]
      exact h.stored (i + 1) line hi
    · obtain ⟨hbound, hget⟩ := List.getElem?_eq_some_iff.mp hi
      rw [List.length_append, List.length_singleton, hlines] at hbound
      have hi' : i = historySize - 1 := by omega
      subst hi'
      have hline : line = text := by
        rw [List.getElem_append_right (Nat.le_of_eq hlines)] at hget
        simpa using hget.symm
      subst hline
      refine ⟨slot, ?_, hslot, ?_⟩
      · rw [List.getElem?_append_right (Nat.le_of_eq hslots), hslots, Nat.sub_self]
        rfl
      · rw [List.getElem?_append_right (Nat.le_of_eq hlens), hlens, Nat.sub_self]
        rfl

theorem line (h : ShowsHistory history lens count lines) {i : Nat} (hi : i < lines.length) :
    (history.getD i []).take (lens.getD i 0) = (lines.getD i []).map toByte ∧
      lens.getD i 0 = (lines.getD i []).length := by
  obtain ⟨slot, hslot, hprefix, hlen⟩ := h.stored i lines[i] (List.getElem?_eq_getElem hi)
  have htake := List.prefix_iff_eq_take.mp hprefix
  rw [List.length_map] at htake
  simp only [List.getD_eq_getElem?_getD, hslot, hlen, List.getElem?_eq_getElem hi,
    Option.getD_some]
  exact ⟨htake.symm, trivial⟩

end ShowsHistory

namespace Reference

variable {r : Reference}

theorem history_length (r : Reference) : r.history.length = min r.entered.length historySize := by
  rw [history, lastLines, List.length_drop]
  omega

theorem mem_entered {line : List Char} (h : line ∈ r.history) : line ∈ r.entered :=
  List.mem_of_mem_drop h

theorem lastLines_append (h : r.history.length < historySize) (text : List Char) :
    lastLines (r.entered ++ [text]) = r.history ++ [text] := by
  rw [history_length] at h
  have hsmall : r.entered.length < historySize := by omega
  rw [history, lastLines, lastLines, List.length_append, List.length_singleton,
    Nat.sub_eq_zero_of_le (Nat.le_of_lt hsmall), Nat.sub_eq_zero_of_le hsmall, List.drop_zero,
    List.drop_zero]

theorem lastLines_rotate (h : r.history.length = historySize) (text : List Char) :
    lastLines (r.entered ++ [text]) = r.history.tail ++ [text] := by
  rw [history_length] at h
  have hlarge : historySize ≤ r.entered.length := by omega
  have hsucc : r.entered.length + 1 - historySize = r.entered.length - historySize + 1 := by omega
  have hpos : 0 < historySize := by decide
  rw [history, lastLines, lastLines, List.length_append, List.length_singleton, hsucc,
    List.tail_drop, List.drop_append_of_le_length (by omega)]

end Reference

/-! ## One key -/

structure Shows (e : LineEditor) (r : Reference) : Prop where
  line : ShowsLine e.buffer e.len e.cursor r.line
  history : ShowsHistory e.history e.historyLens e.historyCount r.history
  idx : e.historyIdx = r.idx
  idx_le : r.idx ≤ r.history.length
  entered : ∀ line ∈ r.entered, line.length < maxLine ∧ Ascii line

namespace Shows

variable {e : LineEditor} {r : Reference}

theorem new : Shows .new .new where
  line := .empty (List.length_replicate ..)
  history :=
    { slots := List.length_replicate ..
      sizes := List.length_replicate ..
      total := rfl
      le := Nat.zero_le _
      stored := fun _ _ hline => by
        simp [Reference.history, Reference.lastLines, Reference.new] at hline }
  idx := rfl
  idx_le := Nat.le_refl 0
  entered := fun _ hline => absurd hline List.not_mem_nil

theorem withLine (h : Shows e r) {buffer : List UInt8} {len cursor : Nat} {l : CursorLine Char}
    (hline : ShowsLine buffer len cursor l) :
    Shows { e with buffer, len, cursor } { r with line := l } :=
  ⟨hline, h.history, h.idx, h.idx_le, h.entered⟩

theorem startLine (h : Shows e r) : Shows e.startLine r.startLine :=
  ⟨.empty h.line.size, h.history, h.history.total, Nat.le_refl _, h.entered⟩

theorem asStr (h : Shows e r) : e.asStr = r.line.items := by
  rw [LineEditor.asStr, h.line.text, Option.getD_some]

theorem backspace (h : Shows e r) :
    Shows (if 0 < e.cursor then
        { e with
          buffer := shiftDown 1 (e.len - e.cursor) e.cursor e.buffer
          len := e.len - 1
          cursor := e.cursor - 1 }
      else e) { r with line := r.line.backspace } := by
  have hline := h.line
  by_cases hpos : 0 < e.cursor
  · have hbefore := hline.before_ne_nil.mp hpos
    have hcells := CursorLine.backspace_cells hline.cells hbefore
    rw [← hline.after, ← hline.cursor] at hcells
    have hshrunk := hline.shrink (Lib.length_shiftDown ..) hcells
      ((List.dropLast_sublist r.line.before).append_right r.line.after)
    have hbeforeLen : r.line.backspace.before.length = e.cursor - 1 := by
      rw [hline.cursor, CursorLine.backspace, List.length_dropLast]
    have hitemsLen : r.line.backspace.items.length = e.len - 1 := by
      have hafter := hline.after
      have hle := hline.cursor_le
      rw [CursorLine.items, List.length_append, hbeforeLen]
      show e.cursor - 1 + r.line.after.length = _
      omega
    rw [hbeforeLen, hitemsLen] at hshrunk
    rw [if_pos hpos]
    exact h.withLine hshrunk
  · have hnil : r.line.before = [] := not_not.mp (mt hline.before_ne_nil.mpr hpos)
    have hsame : r.line.backspace = r.line := by
      rw [CursorLine.backspace, hnil]
      exact congrArg (CursorLine.mk · r.line.after) hnil.symm
    rw [if_neg hpos, hsame]
    exact h

theorem delete (h : Shows e r) :
    Shows (if e.cursor < e.len then
        { e with
          buffer := shiftDown 1 (e.len - (e.cursor + 1)) (e.cursor + 1) e.buffer
          len := e.len - 1 }
      else e) { r with line := r.line.delete } := by
  have hline := h.line
  by_cases hlt : e.cursor < e.len
  · have hafterNil := hline.after_ne_nil.mp hlt
    have hcells := CursorLine.delete_cells hline.cells hafterNil
    rw [← hline.after, ← hline.cursor, Nat.sub_sub] at hcells
    have hshrunk := hline.shrink (Lib.length_shiftDown ..) hcells
      ((List.drop_sublist 1 r.line.after).append_left r.line.before)
    have hitemsLen : r.line.delete.items.length = e.len - 1 := by
      have hafter := hline.after
      have hcursor := hline.cursor
      rw [CursorLine.items, List.length_append]
      show r.line.before.length + (r.line.after.drop 1).length = _
      rw [List.length_drop]
      omega
    rw [hitemsLen] at hshrunk
    rw [if_pos hlt]
    exact h.withLine (hline.cursor ▸ hshrunk)
  · have hnil : r.line.after = [] := not_not.mp (mt hline.after_ne_nil.mpr hlt)
    have hsame : r.line.delete = r.line := by
      rw [CursorLine.delete, hnil]
      exact congrArg (CursorLine.mk r.line.before) hnil.symm
    rw [if_neg hlt, hsame]
    exact h

theorem killBefore (h : Shows e r) :
    Shows (if 0 < e.cursor then
        { e with
          buffer := shiftDown e.cursor (e.len - e.cursor) e.cursor e.buffer
          len := e.len - e.cursor
          cursor := 0 }
      else e) { r with line := r.line.killBefore } := by
  have hline := h.line
  by_cases hpos : 0 < e.cursor
  · have hbefore := hline.before_ne_nil.mp hpos
    have hcells := CursorLine.killBefore_cells hline.cells hbefore
    rw [← hline.after, ← hline.cursor] at hcells
    have hshrunk := hline.shrink (Lib.length_shiftDown ..) hcells
      (List.sublist_append_right r.line.before r.line.after)
    have hitemsLen : r.line.killBefore.items.length = e.len - e.cursor := hline.after.symm
    rw [hitemsLen] at hshrunk
    rw [if_pos hpos]
    exact h.withLine hshrunk
  · have hnil : r.line.before = [] := not_not.mp (mt hline.before_ne_nil.mpr hpos)
    have hsame : r.line.killBefore = r.line :=
      congrArg (CursorLine.mk · r.line.after) hnil.symm
    rw [if_neg hpos, hsame]
    exact h

theorem killAfter (h : Shows e r) :
    Shows { e with len := e.cursor } { r with line := r.line.killAfter } := by
  have hshrunk := h.line.shrink rfl (CursorLine.killAfter_cells h.line.cells)
    ((List.nil_sublist r.line.after).append_left r.line.before)
  have hitemsLen : r.line.killAfter.items.length = e.cursor := by
    rw [h.line.cursor, CursorLine.items, CursorLine.killAfter, List.append_nil]
  rw [hitemsLen] at hshrunk
  exact h.withLine (h.line.cursor ▸ hshrunk)

theorem insertChar (h : Shows e r) {ch : Char}
    (hch : ch.toNat < 0x80 ∨ e.len = maxLine - 1) :
    Shows (e.insertChar ch)
      (if r.line.items.length < maxLine - 1 then { r with line := r.line.insert ch } else r) := by
  have hline := h.line
  rw [LineEditor.insertChar, ← hline.len]
  by_cases hroom : e.len < maxLine - 1
  · have hascii : ch.toNat < 0x80 := hch.resolve_right (Nat.ne_of_lt hroom)
    have hfits : r.line.items.length < e.buffer.length := by
      rw [hline.size]
      exact hline.room
    have hcells := CursorLine.insert_cells hline.cells hfits ch
    rw [← hline.after, ← hline.cursor] at hcells
    have hitems : (r.line.insert ch).items.length = e.len + 1 := by
      rw [hline.len]
      simp [CursorLine.items, CursorLine.insert]
      omega
    have hinserted : ShowsLine ((shiftUp e.cursor (e.len - e.cursor) e.buffer).set e.cursor
        (toByte ch)) (e.len + 1) (e.cursor + 1) (r.line.insert ch) :=
      { size := by rw [List.length_set, Lib.length_shiftUp, hline.size]
        cells := hcells
        len := hitems.symm
        cursor := by rw [hline.cursor, CursorLine.insert, List.length_append]; rfl
        room := by rw [hitems]; exact Nat.add_lt_of_lt_sub hroom
        ascii := by
          intro c hc
          simp only [CursorLine.items, CursorLine.insert, List.mem_append,
            List.mem_singleton] at hc
          rcases hc with (hc | rfl) | hc
          · exact hline.ascii c (List.mem_append_left _ hc)
          · exact hascii
          · exact hline.ascii c (List.mem_append_right _ hc) }
    rw [if_pos hroom, if_pos hroom]
    exact h.withLine hinserted
  · rw [if_neg hroom, if_neg hroom]
    exact h

theorem left (h : Shows e r) :
    Shows (if 0 < e.cursor then { e with cursor := e.cursor - 1 } else e)
      { r with line := r.line.left } := by
  have hlength : r.line.left.before.length = e.cursor - 1 := by
    rw [h.line.cursor, CursorLine.left, List.length_dropLast]
  by_cases hpos : 0 < e.cursor
  · rw [if_pos hpos]
    exact h.withLine (h.line.move (CursorLine.items_left r.line) hlength.symm)
  · have hzero : e.cursor = r.line.left.before.length := by omega
    rw [if_neg hpos]
    exact h.withLine (h.line.move (CursorLine.items_left r.line) hzero)

theorem right (h : Shows e r) :
    Shows (if e.cursor < e.len then { e with cursor := e.cursor + 1 } else e)
      { r with line := r.line.right } := by
  have hafter := h.line.after
  have hle := h.line.cursor_le
  have hlength : r.line.right.before.length = e.cursor + min 1 (e.len - e.cursor) := by
    rw [hafter, h.line.cursor, CursorLine.right, List.length_append, List.length_take]
  by_cases hlt : e.cursor < e.len
  · have hnext : e.cursor + 1 = r.line.right.before.length := by omega
    rw [if_pos hlt]
    exact h.withLine (h.line.move (CursorLine.items_right r.line) hnext)
  · have hsame : e.cursor = r.line.right.before.length := by omega
    rw [if_neg hlt]
    exact h.withLine (h.line.move (CursorLine.items_right r.line) hsame)

theorem home (h : Shows e r) :
    Shows { e with cursor := 0 } { r with line := r.line.home } :=
  h.withLine (h.line.move (CursorLine.items_home r.line) rfl)

theorem toEnd (h : Shows e r) :
    Shows { e with cursor := e.len } { r with line := r.line.toEnd } :=
  h.withLine (h.line.move (CursorLine.items_toEnd r.line) h.line.len)

theorem backOver (h : Shows e r) (kind : UInt8 → Bool) (kind' : Char → Bool)
    (hkind : ∀ ch ∈ r.line.items, kind (toByte ch) = kind' ch) :
    Shows { e with cursor := backWhile kind e.buffer e.cursor }
      { r with line := r.line.backOver kind' } := by
  have hcursor := CursorLine.backWhile_cells h.line.cells hkind
  rw [← h.line.cursor] at hcursor
  exact h.withLine (h.line.move (CursorLine.items_backOver kind' r.line) hcursor)

theorem forwardOver (h : Shows e r) (kind : UInt8 → Bool) (kind' : Char → Bool)
    (hkind : ∀ ch ∈ r.line.items, kind (toByte ch) = kind' ch) :
    Shows { e with cursor := forwardWhile kind e.buffer (e.len - e.cursor) e.cursor }
      { r with line := r.line.forwardOver kind' } := by
  have hcursor := CursorLine.forwardWhile_cells h.line.cells hkind
  rw [← h.line.cursor, ← h.line.after] at hcursor
  exact h.withLine (h.line.move (CursorLine.items_forwardOver kind' r.line) hcursor)

theorem isSpace (h : Shows e r) :
    (∀ ch ∈ r.line.items, (toByte ch == 0x20) = (ch == ' ')) ∧
      ∀ ch ∈ r.line.items, (toByte ch != 0x20) = (ch != ' ') :=
  ⟨h.line.isSpace, fun ch hch => congrArg (!·) (h.line.isSpace ch hch)⟩

/-! ## The history -/

theorem load (h : Shows e r) {idx : Nat} (hidx : idx < r.history.length) :
    Shows (({ e with historyIdx := idx }).loadFromHistory idx)
      { r with idx := idx, line := .atEnd (r.history.getD idx []) } := by
  obtain ⟨hslot, hlen⟩ := h.history.line hidx
  have hmem : r.history.getD idx [] ∈ r.entered := by
    rw [List.getD_eq_getElem _ _ hidx]
    exact Reference.mem_entered (List.getElem_mem hidx)
  obtain ⟨hshort, hascii⟩ := h.entered _ hmem
  refine ⟨?_, h.history, rfl, Nat.le_of_lt hidx, h.entered⟩
  have hitems : (CursorLine.atEnd (r.history.getD idx [])).items = r.history.getD idx [] :=
    List.append_nil _
  refine ⟨?_, ?_, ?_, ?_, ?_, ?_⟩
  · have hsize := h.line.size
    show (LineEditor.store ((e.history.getD idx []).take (e.historyLens.getD idx 0))
      e.buffer).length = maxLine
    rw [hslot, LineEditor.store, List.length_append, List.length_drop, List.length_map, hsize]
    omega
  · show _ <+: LineEditor.store ((e.history.getD idx []).take (e.historyLens.getD idx 0)) e.buffer
    rw [hitems, hslot]
    exact List.prefix_append _ _
  · rw [hitems]
    exact hlen
  · exact hlen
  · rw [hitems]
    exact hshort
  · rw [hitems]
    exact hascii

theorem historyBack (h : Shows e r) : Shows e.historyBack r.back := by
  have hidx := h.idx
  have htotal := h.history.total
  have hle := h.idx_le
  rw [LineEditor.historyBack, Reference.back, ← hidx]
  by_cases hpos : 0 < e.historyIdx
  · rw [if_pos ⟨by omega, hpos⟩, if_pos hpos]
    exact h.load (by omega)
  · rw [if_neg fun hand => hpos hand.2, if_neg hpos]
    exact h

theorem historyForward (h : Shows e r) : Shows e.historyForward r.forward := by
  have hidx := h.idx
  have htotal := h.history.total
  rw [LineEditor.historyForward, Reference.forward, ← hidx, ← htotal]
  by_cases hlt : e.historyIdx < e.historyCount
  · rw [if_pos hlt, if_pos hlt]
    by_cases hlast : e.historyIdx + 1 = e.historyCount
    · have hnone : r.history.getD (e.historyIdx + 1) [] = [] :=
        List.getD_eq_default _ _ (by omega)
      simp only [hlast, if_true]
      rw [hlast] at hnone
      rw [hnone]
      exact ⟨.empty h.line.size, h.history, rfl, Nat.le_of_eq htotal, h.entered⟩
    · simp only [if_neg hlast]
      exact h.load (by omega)
  · rw [if_neg hlt, if_neg hlt]
    exact h

theorem enter (h : Shows e r) : Shows e.saveToHistory r.enter := by
  have hlen := h.line.len
  have hsize : historySize = (historySize - 1) + 1 := rfl
  rw [LineEditor.saveToHistory, Reference.enter]
  by_cases hempty : r.line.items = []
  · rw [if_pos (by rw [hlen, hempty]; rfl), if_pos hempty]
    exact h
  · have hne : ¬e.len = 0 := by
      rw [hlen]
      exact mt List.length_eq_zero_iff.mp hempty
    have hentered : ∀ line ∈ r.entered ++ [r.line.items], line.length < maxLine ∧ Ascii line := by
      intro line hmem
      rcases List.mem_append.mp hmem with hold | hnew
      · exact h.entered line hold
      · rw [List.mem_singleton.mp hnew]
        exact ⟨h.line.room, h.line.ascii⟩
    have hstore (slot : List UInt8) :
        r.line.items.map toByte <+: LineEditor.store (e.buffer.take e.len) slot :=
      h.line.take ▸ List.prefix_append _ _
    rw [if_neg hne, if_neg hempty]
    have htotal := h.history.total
    by_cases hroom : e.historyCount < historySize
    · have happend := Reference.lastLines_append (htotal ▸ hroom) r.line.items
      have hsaved := h.history.append hroom (hstore (e.history.getD e.historyCount []))
      rw [← hlen, ← happend] at hsaved
      have hidx : e.historyCount + 1 =
          (Reference.lastLines (r.entered ++ [r.line.items])).length := by
        rw [happend, List.length_append, htotal, List.length_singleton]
      simp only [if_pos hroom]
      exact ⟨h.line, hsaved, hidx, Nat.le_refl _, hentered⟩
    · have hfull : r.history.length = historySize := by
        have hle := h.history.le
        omega
      have hrotate := Reference.lastLines_rotate hfull r.line.items
      have hsaved := h.history.rotate hfull (hstore ((shiftDown 1 (historySize - 1) 1
        e.history).getD (historySize - 1) []))
      rw [← hlen, ← hrotate, ← Lib.shiftDown_rotate (h.history.slots.trans hsize),
        ← Lib.shiftDown_rotate (h.history.sizes.trans hsize)] at hsaved
      have hidx : e.historyCount = (Reference.lastLines (r.entered ++ [r.line.items])).length := by
        rw [hrotate, List.length_append, List.length_tail, hfull, htotal, hfull]
        rfl
      rw [if_neg hroom]
      refine ⟨h.line, ?_, hidx, Nat.le_refl _, hentered⟩
      dsimp only [Reference.history]
      exact hsaved

end Shows

def commandChars : List Char := ['\x01', '\x05', '\x0B', '\x15', '\x0C', '\x03', '\x1A']

theorem LineEditor.handleChar_of_notMem {ch : Char} (h : ch ∉ commandChars) (e : LineEditor) :
    e.handleChar ch = (e.insertChar ch, none) := by
  unfold LineEditor.handleChar
  split
  case h_8 => rfl
  all_goals exact absurd (by decide) h

theorem Reference.handleChar_of_notMem {ch : Char} (h : ch ∉ commandChars) (r : Reference) :
    r.handleChar ch =
      (if r.line.items.length < maxLine - 1 then { r with line := r.line.insert ch } else r,
        none) := by
  unfold Reference.handleChar
  split
  case h_8 => rfl
  all_goals exact absurd (by decide) h

def Typeable (e : LineEditor) (k : EditKey) : Prop :=
  ∀ ch, k.1 = .char ch → ch.toNat < 0x80 ∨ e.len = maxLine - 1

namespace Shows

variable {e : LineEditor} {r : Reference}

theorem handleChar (h : Shows e r) {ch : Char} (hch : ch.toNat < 0x80 ∨ e.len = maxLine - 1) :
    Shows (e.handleChar ch).1 (r.handleChar ch).1 ∧
      (e.handleChar ch).2 = (r.handleChar ch).2 := by
  have hcancel : Shows { e with len := 0, cursor := 0 } { r with line := .empty } :=
    h.withLine (.empty h.line.size)
  by_cases hcommand : ch ∈ commandChars
  · simp only [commandChars, List.mem_cons, List.not_mem_nil, or_false] at hcommand
    rcases hcommand with rfl | rfl | rfl | rfl | rfl | rfl | rfl
    · exact ⟨h.home, rfl⟩
    · exact ⟨h.toEnd, rfl⟩
    · exact ⟨h.killAfter, rfl⟩
    · exact ⟨h.killBefore, rfl⟩
    · exact ⟨h, rfl⟩
    · exact ⟨hcancel, rfl⟩
    · exact ⟨hcancel, rfl⟩
  · rw [LineEditor.handleChar_of_notMem hcommand, Reference.handleChar_of_notMem hcommand]
    exact ⟨h.insertChar hch, rfl⟩

theorem handleKey (h : Shows e r) {k : EditKey} (hk : Typeable e k) :
    Shows (e.handleKey k).1 (r.handleKey k).1 ∧ (e.handleKey k).2 = (r.handleKey k).2 := by
  obtain ⟨key, htab⟩ := k
  cases key with
  | enter =>
    have hsaved : e.saveToHistory.asStr = r.line.items := by
      have hline : r.enter.line = r.line := by
        unfold Reference.enter
        split <;> rfl
      rw [h.enter.asStr, hline]
    exact ⟨h.enter, congrArg some hsaved⟩
  | backspace => exact ⟨h.backspace, rfl⟩
  | left => exact ⟨h.left, rfl⟩
  | right => exact ⟨h.right, rfl⟩
  | home => exact ⟨h.home, rfl⟩
  | «end» => exact ⟨h.toEnd, rfl⟩
  | delete => exact ⟨h.delete, rfl⟩
  | wordLeft =>
    have hspaces := h.backOver (· == 0x20) (· == ' ') h.isSpace.1
    exact ⟨hspaces.backOver (· != 0x20) (· != ' ') hspaces.isSpace.2, rfl⟩
  | wordRight =>
    have hword := h.forwardOver (· != 0x20) (· != ' ') h.isSpace.2
    exact ⟨hword.forwardOver (· == 0x20) (· == ' ') hword.isSpace.1, rfl⟩
  | pageUp => exact ⟨h.historyBack, rfl⟩
  | pageDown => exact ⟨h.historyForward, rfl⟩
  | up => exact ⟨h.historyBack, rfl⟩
  | down => exact ⟨h.historyForward, rfl⟩
  | char ch => exact h.handleChar (hk ch rfl)
  | insert => exact ⟨h, rfl⟩
  | unknown => exact ⟨h, rfl⟩
  | tab => exact absurd rfl htab

end Shows

/-! ## Runs -/

abbrev Pair : Type := Session LineEditor × Session Reference

namespace Pair

def start : Pair := (⟨.new, [], false⟩, ⟨.new, [], false⟩)

def key (s : Pair) (k : EditKey) : Pair :=
  (s.1.key LineEditor.startLine LineEditor.handleKey k,
    s.2.key Reference.startLine Reference.handleKey k)

/-- The editor is an editor: the bounds, the lines that were returned, the line that Enter would
return, the cursor, and the history. -/
structure Agrees (s : Pair) : Prop where
  cursor_le : s.1.editor.cursor ≤ s.1.editor.len
  len_le : s.1.editor.len ≤ maxLine - 1
  idx_le : s.1.editor.historyIdx ≤ s.1.editor.historyCount
  count_le : s.1.editor.historyCount ≤ historySize
  returned : s.1.returned = s.2.returned
  line : s.1.editor.asStr = s.2.editor.line.items
  cursor : s.1.editor.cursor = s.2.editor.line.before.length
  idx : s.1.editor.historyIdx = s.2.editor.idx
  history : (List.range s.1.editor.historyCount).map s.1.editor.historyEntry =
    s.2.editor.history.map some

def Types (s : Pair) (k : EditKey) : Prop :=
  Typeable (s.1.begin LineEditor.startLine).editor k

structure InStep (s : Pair) : Prop where
  shows : Shows s.1.editor s.2.editor
  returned : s.1.returned = s.2.returned
  reading : s.1.reading = s.2.reading

variable {s : Pair} {k : EditKey}

theorem InStep.agrees (h : InStep s) : Agrees s where
  cursor_le := h.shows.line.cursor_le
  len_le := h.shows.line.len ▸ Nat.le_sub_one_of_lt h.shows.line.room
  idx_le := by
    rw [h.shows.idx, h.shows.history.total]
    exact h.shows.idx_le
  count_le := h.shows.history.total ▸ h.shows.history.le
  returned := h.returned
  line := h.shows.asStr
  cursor := h.shows.line.cursor
  idx := h.shows.idx
  history := by
    apply List.ext_getElem
    · rw [List.length_map, List.length_map, List.length_range, h.shows.history.total]
    · intro i hi hi'
      rw [List.length_map] at hi'
      obtain ⟨hslot, -⟩ := h.shows.history.line hi'
      have hmem := List.getElem_mem hi'
      have hcount : ¬s.1.editor.historyCount ≤ i := by
        rw [h.shows.history.total]
        omega
      rw [List.getElem_map, List.getElem_map, List.getElem_range, LineEditor.historyEntry,
        if_neg hcount, hslot, List.getD_eq_getElem _ _ hi',
        fromUtf8_map (h.shows.entered _ (Reference.mem_entered hmem)).2]

theorem InStep.begin (h : InStep s) :
    Shows (s.1.begin LineEditor.startLine).editor (s.2.begin Reference.startLine).editor ∧
      (s.1.begin LineEditor.startLine).returned = (s.2.begin Reference.startLine).returned := by
  unfold Session.begin
  rw [← h.reading]
  by_cases hreading : s.1.reading = true
  · rw [if_pos hreading, if_pos hreading]
    exact ⟨h.shows, h.returned⟩
  · rw [if_neg hreading, if_neg hreading]
    exact ⟨h.shows.startLine, h.returned⟩

theorem InStep.key (h : InStep s) (hk : Types s k) : InStep (s.key k) := by
  obtain ⟨hshows, hreturned⟩ := h.begin
  obtain ⟨heditor, hline⟩ := hshows.handleKey hk
  refine ⟨heditor, ?_, ?_⟩
  · exact congrArg₂ (fun before line => before ++ Option.toList line) hreturned hline
  · exact congrArg Option.isNone hline

theorem asStr_insertChar_ne {e : LineEditor} {r : Reference} (h : Shows e r) {ch : Char}
    (hwide : ¬ch.toNat < 0x80) (hroom : e.len < maxLine - 1) :
    (e.insertChar ch).asStr ≠ (r.line.insert ch).items := by
  have hline := h.line
  have hfits : r.line.items.length < e.buffer.length := by
    rw [hline.size]
    exact hline.room
  have hcells := CursorLine.insert_cells hline.cells hfits ch
  rw [← hline.after, ← hline.cursor] at hcells
  have htake := List.prefix_iff_eq_take.mp hcells
  have hitems : (r.line.insert ch).items = r.line.before ++ ch :: r.line.after := by
    simp [CursorLine.items, CursorLine.insert]
  have hlength : (r.line.insert ch).items.length = e.len + 1 := by
    rw [hitems, hline.len, CursorLine.items]
    simp
    omega
  have hbefore : Ascii r.line.before := fun c hc => hline.ascii c (List.mem_append_left _ hc)
  have hafter : Ascii r.line.after := fun c hc => hline.ascii c (List.mem_append_right _ hc)
  rw [List.length_map, hlength, hitems, List.map_append, List.map_cons] at htake
  have hstr : (e.insertChar ch).asStr =
      (fromUtf8 (r.line.before.map toByte ++ toByte ch :: r.line.after.map toByte)).getD [] := by
    rw [LineEditor.asStr, LineEditor.insertChar, if_pos hroom, htake]
  rw [hstr, hitems, fromUtf8_ascii hbefore]
  by_cases hbyte : toByte ch < 0x80
  · have hnat : (toByte ch).toNat < 0x80 := UInt8.lt_iff_toNat_lt.mp hbyte
    have hrest := fromUtf8_map hafter
    rw [Ext.fromUtf8_one _ (by omega), hrest]
    intro heq
    have hch : Char.ofNat (toByte ch).toNat = ch := (List.cons.inj (List.append_cancel_left heq)).1
    have hall : ∀ i : Fin 0x80, (Char.ofNat i.val).toNat = i.val := by decide
    have hsame := hall ⟨(toByte ch).toNat, hnat⟩
    rw [hch] at hsame
    exact hwide (hsame ▸ hnat)
  · rw [fromUtf8_stray hbyte hafter]
    exact (List.append_ne_nil_of_right_ne_nil _ (List.cons_ne_nil _ _)).symm

theorem InStep.not_agrees (h : InStep s) (hk : ¬Types s k) : ¬Agrees (s.key k) := by
  intro hagrees
  obtain ⟨hshows, -⟩ := h.begin
  simp only [Types, Typeable, not_forall, not_or] at hk
  obtain ⟨ch, hch, hwide, hfull⟩ := hk
  obtain ⟨key, htab⟩ := k
  subst hch
  have hroom : (s.1.begin LineEditor.startLine).editor.len < maxLine - 1 := by
    have hline := hshows.line.len
    have hlt := hshows.line.room
    omega
  have hcommand : ch ∉ commandChars := by
    intro hmem
    have hall : ∀ c ∈ commandChars, c.toNat < 0x80 := by simp [commandChars]
    exact hwide (hall ch hmem)
  have hcode := LineEditor.handleChar_of_notMem hcommand (s.1.begin LineEditor.startLine).editor
  have href := Reference.handleChar_of_notMem hcommand (s.2.begin Reference.startLine).editor
  rw [if_pos (hshows.line.len ▸ hroom)] at href
  have hline : ((s.1.begin LineEditor.startLine).editor.handleChar ch).1.asStr =
      ((s.2.begin Reference.startLine).editor.handleChar ch).1.line.items := hagrees.line
  rw [hcode, href] at hline
  exact asStr_insertChar_ne hshows hwide hroom hline

/-- The editor agrees with its reference at every moment of a run exactly when no character is
typed that the array cannot hold. -/
theorem agrees_iff (keys : List EditKey) :
    (∀ before, before <+: keys → Agrees (before.foldl key start)) ↔
      Along key Types start keys := by
  have hstart : InStep start := ⟨.new, rfl, rfl⟩
  have hall : Along key (fun _ _ => True) start keys := Lib.along_true
  refine (hall.iff_good (fun s k h _ => h.key) (fun s k h _ => ?_) hstart hstart.agrees).symm
  exact ⟨fun hagrees => by_contra fun hk => h.not_agrees hk hagrees, fun hk => (h.key hk).agrees⟩

/-- One letter outside ASCII makes the whole line disappear. -/
theorem accent_loses_line :
    ¬ ∀ keys : List EditKey,
      (keys.foldl key start).1.returned = (keys.foldl key start).2.returned := by
  intro h
  have hrun := h [⟨.char 'l', by decide⟩, ⟨.char 's', by decide⟩, ⟨.char 'é', by decide⟩,
    ⟨.enter, by decide⟩]
  exact absurd hrun (by decide)

end Pair

end Vibra.Shell
