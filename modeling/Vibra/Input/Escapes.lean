import Vibra.Input.Queues
import Vibra.Lib.Runs

/-! # The key presses of a terminal

A terminal sends a byte for a character, and a sequence behind ESC for a key without one. The
decoder of the serial port keeps one digit of a sequence.
-/

namespace Vibra.Input

open Lib

structure Letter where
  byte : UInt8
  range : (0x41 ≤ byte ∧ byte ≤ 0x5A) ∨ (0x61 ≤ byte ∧ byte ≤ 0x7A)
deriving DecidableEq

structure Digit where
  byte : UInt8
  range : 0x30 ≤ byte ∧ byte ≤ 0x39
deriving DecidableEq

/-- A parameter has at least one digit. -/
structure Param where
  first : Digit
  rest : List Digit
deriving DecidableEq

namespace Param

def bytes (p : Param) : List UInt8 := p.first.byte :: p.rest.map Digit.byte

def value (p : Param) : Nat := p.bytes.foldl (fun n byte => 10 * n + (byte.toNat - 0x30)) 0

end Param

/-- A printable byte or a control byte, the ESC key, ESC [ or ESC O with a letter, and ESC [ with
parameters and a letter or else a tilde. -/
inductive Stroke where
  | plain (byte : UInt8) (range : byte < 0x80 ∧ byte ≠ 0x1B)
  | escape
  | cursor (application : Bool) (final : Letter)
  | numbered (first : Param) (more : List Param) (final : Option Letter)
deriving DecidableEq

namespace Stroke

def paramBytes (first : Param) (more : List Param) : List UInt8 :=
  first.bytes ++ more.flatMap fun p => 0x3B :: p.bytes

def finalByte : Option Letter → UInt8
  | none => 0x7E
  | some letter => letter.byte

def bytes : Stroke → List UInt8
  | plain byte _ => [byte]
  | escape => [0x1B]
  | cursor application final => [0x1B, if application then 0x4F else 0x5B, final.byte]
  | numbered first more final => 0x1B :: 0x5B :: (paramBytes first more ++ [finalByte final])

def plainKey (byte : UInt8) : Key :=
  if byte = 0x0D ∨ byte = 0x0A then .enter
  else if byte = 0x08 ∨ byte = 0x7F then .backspace
  else if byte = 0x09 then .tab
  else .char (Char.ofNat byte.toNat)

/-- The arrows, Home and End. -/
def letterKey (final : Letter) : Option Key :=
  if final.byte = 0x41 then some .up
  else if final.byte = 0x42 then some .down
  else if final.byte = 0x43 then some .right
  else if final.byte = 0x44 then some .left
  else if final.byte = 0x48 then some .home
  else if final.byte = 0x46 then some .end
  else none

def numberKey (number : Nat) : Option Key :=
  if number = 1 then some .home
  else if number = 2 then some .insert
  else if number = 3 then some .delete
  else if number = 4 then some .end
  else if number = 5 then some .pageUp
  else if number = 6 then some .pageDown
  else none

/-- A second parameter says which modifiers are held. -/
def key : Stroke → Option Key
  | plain byte _ => some (plainKey byte)
  | escape => none
  | cursor _ final => letterKey final
  | numbered first _ none => numberKey first.value
  | numbered _ _ (some final) => letterKey final

def isSequence : Stroke → Bool
  | plain .. => false
  | escape => false
  | cursor .. => true
  | numbered .. => true

end Stroke

def Key.isChar : Key → Bool
  | .char _ => true
  | _ => false

def feed (st : SerialDecoder) (p : Stroke) : List Key × SerialDecoder :=
  scanAll decodeSerialByte p.bytes st

def feedAll (st : SerialDecoder) (presses : List Stroke) : List Key × SerialDecoder :=
  scanAll decodeSerialByte (presses.flatMap Stroke.bytes) st

def Quiet (st : SerialDecoder) (p : Stroke) : Prop :=
  p.isSequence → ∀ key ∈ (feed st p).1, key.isChar = false

/-- The keys are those of the presses, and no sequence gives a character. -/
structure Decoded (st : SerialDecoder) (presses : List Stroke) : Prop where
  keys : (feedAll st presses).1 = presses.filterMap Stroke.key
  quiet : Along (fun st p => (feed st p).2) Quiet st presses

def droppedControls : List UInt8 :=
  [0x00, 0x02, 0x06, 0x07, 0x0E, 0x10, 0x11, 0x12, 0x13, 0x14, 0x1C, 0x1D, 0x1E, 0x1F]

namespace Stroke

/-- A press that is decoded, where `pending` tells that ESC alone was pressed before. -/
def Clean (pending : Bool) : Stroke → Prop
  | plain byte _ => byte ∉ droppedControls ∧ (pending → byte ≠ 0x5B ∧ byte ≠ 0x4F)
  | escape => True
  | cursor _ _ => pending = false
  | numbered first more final =>
    pending = false ∧ first.rest = [] ∧ more = [] ∧
      (0x31 ≤ first.first.byte ∧ first.first.byte ≤ 0x38) ∧
      match final with
      | none => first.first.byte ≠ 0x31 ∧ first.first.byte ≠ 0x34
      | some letter => letterKey letter = none

def pendingAfter (pending : Bool) (p : Stroke) : Bool := decide (p = escape) && !pending

end Stroke

/-! ## The decoder on one press -/

theorem decodePlainByte_eq : ∀ i : Fin 256, i.val < 0x80 → i.val ≠ 0x1B →
    decodePlainByte (UInt8.ofNat i.val) =
      if UInt8.ofNat i.val ∈ droppedControls then none
      else some (Stroke.plainKey (UInt8.ofNat i.val)) := by
  decide +kernel

namespace SerialDecoder

def Idle (st : SerialDecoder) : Prop := st.escapeState = 0 ∨ 4 < st.escapeState

theorem idle_or (st : SerialDecoder) : st.Idle ∨ st.escapeState = 1 ∨ st.escapeState = 2 ∨
    st.escapeState = 3 ∨ st.escapeState = 4 := by
  unfold Idle
  omega

variable {st : SerialDecoder} {byte : UInt8}

theorem Idle.decode (h : st.Idle) (hbyte : byte ≠ 0x1B) :
    decodeSerialByte st byte = (decodePlainByte byte, { st with escapeState := 0 }) := by
  unfold Idle at h
  rw [decodeSerialByte, if_neg (by omega), if_neg (by omega), if_neg (by omega), if_neg hbyte]

theorem Idle.decode_escape (h : st.Idle) :
    decodeSerialByte st 0x1B = (none, { st with escapeState := 1 }) := by
  unfold Idle at h
  rw [decodeSerialByte, if_neg (by omega), if_neg (by omega), if_neg (by omega), if_pos rfl]

theorem decode_escape_inside (h : ¬st.Idle) :
    (decodeSerialByte st 0x1B).1 = none ∧ (decodeSerialByte st 0x1B).2.escapeState = 0 := by
  rcases (st.idle_or).resolve_left h with h1 | h2 | h3 | h4
  · simp [decodeSerialByte, h1, decodePlainByte]
  · simp [decodeSerialByte, h2, escapeKey]
  · simp [decodeSerialByte, h3, escapeKey]
  · simp [decodeSerialByte, h4]

end SerialDecoder

def Printable (byte : UInt8) : Prop := 0x20 ≤ byte ∧ byte ≤ 0x7E

theorem Printable.toNat {byte : UInt8} (h : Printable byte) :
    0x20 ≤ byte.toNat ∧ byte.toNat ≤ 0x7E :=
  ⟨UInt8.le_iff_toNat_le.mp h.1, UInt8.le_iff_toNat_le.mp h.2⟩

theorem Printable.decode {byte : UInt8} (h : Printable byte) :
    decodePlainByte byte = some (.char (Char.ofNat byte.toNat)) := by
  have hrange := h.toNat
  have hne {n : UInt8} (hn : n.toNat < 0x20 ∨ n.toNat = 0x7F) : byte ≠ n := by
    rintro rfl
    omega
  rw [decodePlainByte, if_neg (not_or.mpr ⟨hne (by decide), hne (by decide)⟩),
    if_neg (not_or.mpr ⟨hne (by decide), hne (by decide)⟩), if_neg (hne (by decide)),
    if_pos (show 0x20 ≤ byte ∧ byte ≤ 0x7E from h), ite_self]

theorem Printable.ne_escape {byte : UInt8} (h : Printable byte) : byte ≠ 0x1B := by
  rintro rfl
  exact absurd h.1 (by decide)

theorem Letter.printable (letter : Letter) : Printable letter.byte := by
  rcases letter.range with h | h
  · exact ⟨UInt8.le_trans (by decide) h.1, UInt8.le_trans h.2 (by decide)⟩
  · exact ⟨UInt8.le_trans (by decide) h.1, UInt8.le_trans h.2 (by decide)⟩

theorem Digit.printable (digit : Digit) : Printable digit.byte :=
  ⟨UInt8.le_trans (by decide) digit.range.1, UInt8.le_trans digit.range.2 (by decide)⟩

theorem scan_text {st : SerialDecoder} (h : st.Idle) (bytes : List UInt8)
    (hbytes : ∀ byte ∈ bytes, Printable byte) :
    (scanAll decodeSerialByte bytes st).1 =
      bytes.map fun byte => .char (Char.ofNat byte.toNat) := by
  induction bytes generalizing st with
  | nil => rfl
  | cons byte bytes ih =>
    have hbyte := hbytes byte (List.mem_cons_self ..)
    have hidle : SerialDecoder.Idle { st with escapeState := 0 } := .inl rfl
    have hrest := ih hidle fun b hb => hbytes b (List.mem_cons_of_mem _ hb)
    rw [scanAll, h.decode hbyte.ne_escape, hbyte.decode, hrest]
    rfl

namespace Stroke

def moreBytes (first : Param) (more : List Param) : List UInt8 :=
  first.rest.map Digit.byte ++ more.flatMap fun p => 0x3B :: p.bytes

theorem paramBytes_eq (first : Param) (more : List Param) :
    paramBytes first more = first.first.byte :: moreBytes first more := rfl

theorem moreBytes_eq_nil {first : Param} {more : List Param} :
    moreBytes first more = [] ↔ first.rest = [] ∧ more = [] := by
  cases more <;> simp [moreBytes]

theorem moreBytes_lt {first : Param} {more : List Param} {byte : UInt8}
    (h : byte ∈ moreBytes first more) : Printable byte ∧ byte ≠ 0x7E := by
  have hdigit (digit : Digit) : Printable digit.byte ∧ digit.byte ≠ 0x7E := by
    refine ⟨digit.printable, fun heq => absurd digit.range.2 ?_⟩
    rw [heq]
    decide
  simp only [moreBytes, Param.bytes, List.mem_append, List.mem_map, List.mem_flatMap,
    List.mem_cons] at h
  rcases h with ⟨digit, -, rfl⟩ | ⟨p, -, rfl | rfl | ⟨digit, -, rfl⟩⟩
  · exact hdigit digit
  · exact ⟨⟨by decide, by decide⟩, by decide⟩
  · exact hdigit p.first
  · exact hdigit digit

theorem finalByte_printable (final : Option Letter) : Printable (finalByte final) := by
  cases final with
  | none => exact ⟨by decide, by decide⟩
  | some letter => exact letter.printable

theorem bytes_of_isSequence {p : Stroke} (h : p.isSequence) :
    ∃ byte tail, p.bytes = 0x1B :: byte :: tail ∧ ∀ b ∈ byte :: tail, Printable b := by
  cases p with
  | plain => exact Bool.noConfusion h
  | escape => exact Bool.noConfusion h
  | cursor application final =>
    refine ⟨_, _, rfl, fun b hb => ?_⟩
    rcases List.mem_cons.mp hb with rfl | hb
    · cases application <;> exact ⟨by decide, by decide⟩
    · exact List.mem_singleton.mp hb ▸ final.printable
  | numbered first more final =>
    refine ⟨_, _, rfl, fun b hb => ?_⟩
    rcases List.mem_cons.mp hb with rfl | hb
    · exact ⟨by decide, by decide⟩
    · rw [paramBytes_eq, List.cons_append, List.mem_cons, List.mem_append,
        List.mem_singleton] at hb
      rcases hb with rfl | hb | rfl
      · exact first.first.printable
      · exact (moreBytes_lt hb).1
      · exact finalByte_printable final

end Stroke

def Leaks (st : SerialDecoder) (p : Stroke) : Prop := ∃ key ∈ (feed st p).1, key.isChar = true

theorem leaks_inside {st : SerialDecoder} {p : Stroke} (h : ¬st.Idle) (hp : p.isSequence) :
    Leaks st p := by
  obtain ⟨byte, tail, hbytes, hprintable⟩ := Stroke.bytes_of_isSequence hp
  obtain ⟨hnone, hidle⟩ := st.decode_escape_inside h
  refine ⟨.char (Char.ofNat byte.toNat), ?_, rfl⟩
  rw [feed, hbytes, scanAll, hnone, scan_text (.inl hidle) _ hprintable]
  exact List.mem_cons_self ..

theorem escapeKey_letter (final : Letter) : escapeKey final.byte = Stroke.letterKey final := by
  unfold escapeKey Stroke.letterKey
  split <;> simp_all

theorem Digit.escapeKey (digit : Digit) : escapeKey digit.byte = none := by
  have hrange := digit.range
  unfold Input.escapeKey
  split <;> simp_all

theorem feed_cursor {st : SerialDecoder} (h : st.Idle) (application : Bool) (final : Letter) :
    feed st (.cursor application final) =
      ((Stroke.letterKey final).toList, { st with escapeState := 0 }) := by
  have hdigit : ¬(0x31 ≤ final.byte ∧ final.byte ≤ 0x38) := by
    have hrange := final.range
    simp only [UInt8.le_iff_toNat_le, UInt8.reduceToNat] at hrange ⊢
    omega
  rw [feed, Stroke.bytes, scanAll, h.decode_escape]
  cases application <;>
    simp [scanAll, decodeSerialByte, hdigit, escapeKey_letter]

def Stroke.Short (first : Param) (more : List Param) : Prop :=
  first.rest = [] ∧ more = [] ∧ 0x31 ≤ first.first.byte ∧ first.first.byte ≤ 0x38

theorem feed_short {st : SerialDecoder} {first : Param} {more : List Param} (h : st.Idle)
    (hshort : Stroke.Short first more) (final : Option Letter) :
    feed st (.numbered first more final) =
      ((match final with
        | none => tildeKey (first.first.byte.toNat - 0x30)
        | some _ => none).toList, ⟨0, first.first.byte.toNat - 0x30⟩) := by
  obtain ⟨hrest, hmore, hdigit⟩ := hshort
  have hnil := Stroke.moreBytes_eq_nil.mpr ⟨hrest, hmore⟩
  rw [feed, Stroke.bytes, Stroke.paramBytes_eq, hnil, scanAll, h.decode_escape]
  cases final with
  | none => simp [scanAll, decodeSerialByte, hdigit, Stroke.finalByte]
  | some letter =>
    have hletter : letter.byte ≠ 0x7E := by
      have hrange := letter.range
      rintro heq
      rw [heq] at hrange
      exact absurd hrange (by decide)
    simp [scanAll, decodeSerialByte, hdigit, Stroke.finalByte, hletter]

theorem leaks_long {st : SerialDecoder} {first : Param} {more : List Param} (h : st.Idle)
    (hlong : ¬Stroke.Short first more) (final : Option Letter) :
    Leaks st (.numbered first more final) := by
  have hfinal := Stroke.finalByte_printable final
  refine ⟨.char (Char.ofNat (Stroke.finalByte final).toNat), ?_, rfl⟩
  rw [feed, Stroke.bytes, Stroke.paramBytes_eq, scanAll, h.decode_escape]
  by_cases hdigit : 0x31 ≤ first.first.byte ∧ first.first.byte ≤ 0x38
  · have hne : Stroke.moreBytes first more ≠ [] := by
      intro hnil
      obtain ⟨hrest, hmore⟩ := Stroke.moreBytes_eq_nil.mp hnil
      exact hlong ⟨hrest, hmore, hdigit⟩
    obtain ⟨byte, tail, htail⟩ := List.exists_cons_of_ne_nil hne
    have hmem (b : UInt8) (hb : b ∈ byte :: tail) := Stroke.moreBytes_lt (htail ▸ hb)
    have hbyte : byte ≠ 0x7E := (hmem byte (List.mem_cons_self ..)).2
    have hidle : SerialDecoder.Idle ⟨0, first.first.byte.toNat - 0x30⟩ := .inl rfl
    have htext := scan_text hidle (tail ++ [Stroke.finalByte final]) ?_
    · simp [htail, scanAll, decodeSerialByte, hdigit, hbyte, htext]
    · intro b hb
      rcases List.mem_append.mp hb with hb | hb
      · exact (hmem b (List.mem_cons_of_mem _ hb)).1
      · exact List.mem_singleton.mp hb ▸ hfinal
  · have hescape : escapeKey first.first.byte = none := first.first.escapeKey
    have hidle : SerialDecoder.Idle { st with escapeState := 0 } := .inl rfl
    have htext :=
      scan_text hidle (Stroke.moreBytes first more ++ [Stroke.finalByte final]) ?_
    · simp [scanAll, decodeSerialByte, hdigit, hescape, htext]
    · intro b hb
      rcases List.mem_append.mp hb with hb | hb
      · exact (Stroke.moreBytes_lt hb).1
      · exact List.mem_singleton.mp hb ▸ hfinal

/-! ## One press after the others -/

theorem Stroke.isChar_letterKey {final : Letter} {key : Key} (h : letterKey final = some key) :
    key.isChar = false := by
  unfold letterKey at h
  repeat (split at h; · exact Option.some.inj h ▸ rfl)
  exact absurd h (by simp)

theorem Stroke.isChar_numberKey {number : Nat} {key : Key} (h : numberKey number = some key) :
    key.isChar = false := by
  unfold numberKey at h
  repeat (split at h; · exact Option.some.inj h ▸ rfl)
  exact absurd h (by simp)

theorem Stroke.isChar_key {p : Stroke} (hp : p.isSequence) {key : Key} (hkey : p.key = some key) :
    key.isChar = false := by
  cases p with
  | plain => exact Bool.noConfusion hp
  | escape => exact Bool.noConfusion hp
  | cursor => exact isChar_letterKey hkey
  | numbered first more final =>
    cases final with
    | some => exact isChar_letterKey hkey
    | none => exact isChar_numberKey hkey

theorem Leaks.ne_key {st : SerialDecoder} {p : Stroke} (h : Leaks st p) (hp : p.isSequence) :
    (feed st p).1 ≠ p.key.toList := by
  intro heq
  obtain ⟨key, hkey, hchar⟩ := h
  rw [heq, Option.mem_toList] at hkey
  rw [Stroke.isChar_key hp hkey] at hchar
  exact absurd hchar (by decide)

def Follows (pending : Bool) (st : SerialDecoder) : Prop :=
  if pending then st.escapeState = 1 else st.Idle

theorem Follows.not_idle {st : SerialDecoder} (h : Follows true st) : ¬st.Idle := by
  have h1 : st.escapeState = 1 := h
  unfold SerialDecoder.Idle
  omega

theorem plain_eq (byte : UInt8) (hrange : byte < 0x80 ∧ byte ≠ 0x1B) :
    decodePlainByte byte =
      if byte ∈ droppedControls then none else some (Stroke.plainKey byte) := by
  have hbyte := decodePlainByte_eq ⟨byte.toNat, byte.toNat_lt⟩ (UInt8.lt_iff_toNat_lt.mp hrange.1)
    fun h => hrange.2 (UInt8.toNat_inj.mp h)
  rwa [UInt8.ofNat_toNat] at hbyte

theorem plainKeys_iff (byte : UInt8) (hrange : byte < 0x80 ∧ byte ≠ 0x1B) :
    (decodePlainByte byte).toList = [Stroke.plainKey byte] ↔ byte ∉ droppedControls := by
  rw [plain_eq byte hrange]
  split <;> simp_all

theorem short_iff {first : Param} {more : List Param} (h : Stroke.Short first more) :
    (tildeKey (first.first.byte.toNat - 0x30)).toList = (Stroke.numberKey first.value).toList ↔
      first.first.byte ≠ 0x31 ∧ first.first.byte ≠ 0x34 := by
  obtain ⟨hrest, -, hlow, hhigh⟩ := h
  have hvalue : first.value = first.first.byte.toNat - 0x30 := by
    simp [Param.value, Param.bytes, hrest]
  have hall : ∀ i < 9, 0 < i →
      ((tildeKey i).toList = (Stroke.numberKey i).toList ↔ i ≠ 1 ∧ i ≠ 4) := by
    decide
  have hlo : 0x31 ≤ first.first.byte.toNat := UInt8.le_iff_toNat_le.mp hlow
  have hhi : first.first.byte.toNat ≤ 0x38 := UInt8.le_iff_toNat_le.mp hhigh
  rw [hvalue, hall _ (by omega) (by omega)]
  simp only [ne_eq, ← UInt8.toNat_inj, UInt8.reduceToNat]
  omega

variable {st : SerialDecoder} {pending : Bool} {p : Stroke}

theorem feed_plain (h : Follows pending st) (byte : UInt8) (hrange : byte < 0x80 ∧ byte ≠ 0x1B) :
    ((feed st (.plain byte hrange)).1 = [Stroke.plainKey byte] ↔
        Stroke.Clean pending (.plain byte hrange)) ∧
      (Stroke.Clean pending (.plain byte hrange) → (feed st (.plain byte hrange)).2.Idle) := by
  have hfeed : feed st (.plain byte hrange) =
      ((decodeSerialByte st byte).1.toList, (decodeSerialByte st byte).2) :=
    scanAll_singleton byte st
  rw [hfeed, Stroke.Clean]
  cases pending with
  | false =>
    have hidle : st.Idle := h
    rw [hidle.decode hrange.2]
    simp only [plainKeys_iff byte hrange, Bool.false_eq_true, false_imp_iff, and_true]
    exact ⟨trivial, fun _ => .inl rfl⟩
  | true =>
    have hstate : st.escapeState = 1 := h
    by_cases hbracket : byte = 0x5B
    · simp [decodeSerialByte, hstate, hbracket]
    · by_cases hletter : byte = 0x4F
      · simp [decodeSerialByte, hstate, hletter]
      · have hdecode : decodeSerialByte st byte =
            (decodePlainByte byte, { st with escapeState := 0 }) := by
          simp [decodeSerialByte, hstate, hbracket, hletter]
        rw [hdecode, plainKeys_iff byte hrange]
        simp only [hbracket, hletter, ne_eq, not_false_eq_true, and_self, imp_true_iff, and_true]
        exact ⟨trivial, fun _ => .inl rfl⟩

theorem feed_escape (h : Follows pending st) :
    (feed st .escape).1 = [] ∧
      Follows (Stroke.pendingAfter pending .escape) (feed st .escape).2 := by
  have hfeed : feed st .escape = ((decodeSerialByte st 0x1B).1.toList,
      (decodeSerialByte st 0x1B).2) := scanAll_singleton 0x1B st
  rw [hfeed]
  cases pending with
  | false =>
    have hidle : st.Idle := h
    rw [hidle.decode_escape]
    exact ⟨rfl, rfl⟩
  | true =>
    obtain ⟨hnone, hstate⟩ := st.decode_escape_inside h.not_idle
    rw [hnone]
    exact ⟨rfl, .inl hstate⟩

theorem feed_numbered (h : st.Idle) (first : Param) (more : List Param) (final : Option Letter) :
    ((feed st (.numbered first more final)).1 = (Stroke.numbered first more final).key.toList ↔
        Stroke.Clean false (.numbered first more final)) ∧
      (Stroke.Clean false (.numbered first more final) →
        (feed st (.numbered first more final)).2.Idle) := by
  by_cases hshort : Stroke.Short first more
  · rw [feed_short h hshort]
    refine ⟨?_, fun _ => .inl rfl⟩
    have hmark (P : Prop) : P ↔ (false = false ∧ first.rest = [] ∧ more = [] ∧
        (0x31 ≤ first.first.byte ∧ first.first.byte ≤ 0x38) ∧ P) := by
      simp [hshort.1, hshort.2.1, hshort.2.2]
    cases final with
    | none => exact (short_iff hshort).trans (hmark _)
    | some letter =>
      refine Iff.trans ?_ (hmark _)
      show [] = (Stroke.letterKey letter).toList ↔ Stroke.letterKey letter = none
      cases Stroke.letterKey letter <;> simp
  · have hleaks := (leaks_long h hshort final).ne_key rfl
    have hclean : ¬Stroke.Clean false (.numbered first more final) :=
      fun hclean => hshort ⟨hclean.2.1, hclean.2.2.1, hclean.2.2.2.1⟩
    exact ⟨iff_of_false hleaks hclean, fun hc => absurd hc hclean⟩

theorem feed_iff (h : Follows pending st) :
    ((feed st p).1 = p.key.toList ↔ p.Clean pending) ∧
      (p.Clean pending → Follows (Stroke.pendingAfter pending p) (feed st p).2) := by
  have hinside (hp : p.isSequence) (hpending : pending = true) : (feed st p).1 ≠ p.key.toList :=
    (leaks_inside (hpending ▸ h : Follows true st).not_idle hp).ne_key hp
  cases p with
  | plain byte hrange => exact feed_plain h byte hrange
  | escape =>
    obtain ⟨hkeys, hnext⟩ := feed_escape h
    exact ⟨iff_of_true hkeys trivial, fun _ => hnext⟩
  | cursor application final =>
    cases pending with
    | true => exact ⟨iff_of_false (hinside rfl rfl) Bool.noConfusion, Bool.noConfusion⟩
    | false =>
      rw [feed_cursor h]
      exact ⟨iff_of_true rfl rfl, fun _ => .inl rfl⟩
  | numbered first more final =>
    cases pending with
    | true =>
      exact ⟨iff_of_false (hinside rfl rfl) fun hc => Bool.noConfusion hc.1,
        fun hc => Bool.noConfusion hc.1⟩
    | false => exact feed_numbered h first more final

theorem Leaks.not_quiet (h : Leaks st p) (hp : p.isSequence) : ¬Quiet st p := by
  intro hquiet
  obtain ⟨key, hkey, hchar⟩ := h
  rw [hquiet hp key hkey] at hchar
  exact absurd hchar (by decide)

theorem feed_escape_keys : (feed st .escape).1 = [] := by
  by_cases hidle : st.Idle
  · have hfollows : Follows false st := hidle
    exact (feed_escape hfollows).1
  · have hfeed : (feed st .escape).1 = (decodeSerialByte st 0x1B).1.toList := by
      rw [feed, Stroke.bytes, scanAll_singleton]
    rw [hfeed, (st.decode_escape_inside hidle).1]
    rfl

theorem short_length {first : Param} {more : List Param} (h : Stroke.Short first more) :
    (tildeKey (first.first.byte.toNat - 0x30)).toList.length ≤
      (Stroke.numberKey first.value).toList.length := by
  by_cases hclean : first.first.byte ≠ 0x31 ∧ first.first.byte ≠ 0x34
  · exact Nat.le_of_eq (congrArg List.length ((short_iff h).mpr hclean))
  · have hnone : tildeKey (first.first.byte.toNat - 0x30) = none := by
      rcases not_and_or.mp hclean with hdigit | hdigit <;> rw [not_not.mp hdigit] <;> rfl
    rw [hnone]
    exact Nat.zero_le _

theorem Quiet.length (h : Quiet st p) : (feed st p).1.length ≤ p.key.toList.length := by
  by_cases hidle : st.Idle
  · cases p with
    | plain byte hrange =>
      rw [feed, Stroke.bytes, scanAll_singleton]
      exact Option.length_toList_le
    | escape => exact feed_escape_keys ▸ Nat.le_refl 0
    | cursor application final => exact feed_cursor hidle application final ▸ Nat.le_refl _
    | numbered first more final =>
      by_cases hshort : Stroke.Short first more
      · rw [feed_short hidle hshort]
        cases final with
        | none => exact short_length hshort
        | some letter => exact Nat.zero_le _
      · exact absurd h ((leaks_long hidle hshort final).not_quiet rfl)
  · cases p with
    | plain byte hrange =>
      rw [feed, Stroke.bytes, scanAll_singleton]
      exact Option.length_toList_le
    | escape => exact feed_escape_keys ▸ Nat.le_refl 0
    | cursor => exact absurd h ((leaks_inside hidle rfl).not_quiet rfl)
    | numbered => exact absurd h ((leaks_inside hidle rfl).not_quiet rfl)

variable {presses : List Stroke}

theorem feedAll_cons : (feedAll st (p :: presses)).1 =
    (feed st p).1 ++ (feedAll (feed st p).2 presses).1 := by
  rw [feedAll, List.flatMap_cons, scanAll_append]
  rfl

theorem filterMap_key_cons : (p :: presses).filterMap Stroke.key =
    p.key.toList ++ presses.filterMap Stroke.key := by
  rw [List.filterMap_cons]
  cases p.key <;> rfl

theorem quiet_length (h : Along (fun st p => (feed st p).2) Quiet st presses) :
    (feedAll st presses).1.length ≤ (presses.filterMap Stroke.key).length := by
  induction presses generalizing st with
  | nil => exact Nat.le_refl 0
  | cons p presses ih =>
    rw [feedAll_cons, filterMap_key_cons, List.length_append, List.length_append]
    exact Nat.add_le_add h.1.length (ih h.2)

theorem decoded_iff_each : Decoded st presses ↔
    Along (fun st p => (feed st p).2) (fun st p => (feed st p).1 = p.key.toList) st presses := by
  induction presses generalizing st with
  | nil => exact ⟨fun _ => trivial, fun _ => ⟨rfl, trivial⟩⟩
  | cons p presses ih =>
    constructor
    · rintro ⟨hkeys, hquiet⟩
      have hfirst := hquiet.1.length
      have hrest : (feedAll (feed st p).2 presses).1.length ≤
          (presses.filterMap Stroke.key).length := quiet_length hquiet.2
      rw [feedAll_cons, filterMap_key_cons] at hkeys
      have hlength := congrArg List.length hkeys
      rw [List.length_append, List.length_append] at hlength
      obtain ⟨hp, hpresses⟩ := List.append_inj hkeys (by omega)
      exact ⟨hp, ih.mp ⟨hpresses, hquiet.2⟩⟩
    · rintro ⟨hp, hpresses⟩
      obtain ⟨hkeys, hquiet⟩ := ih.mpr hpresses
      refine ⟨?_, ?_, hquiet⟩
      · rw [feedAll_cons, filterMap_key_cons, hp, hkeys]
      · intro hsequence key hkey
        rw [hp, Option.mem_toList] at hkey
        exact Stroke.isChar_key hsequence hkey

theorem each_iff (h : Follows pending st) :
    Along (fun st p => (feed st p).2) (fun st p => (feed st p).1 = p.key.toList) st presses ↔
      Along Stroke.pendingAfter Stroke.Clean pending presses := by
  induction presses generalizing st pending with
  | nil => exact Iff.rfl
  | cons p presses ih =>
    obtain ⟨hiff, hnext⟩ := feed_iff h (p := p)
    rw [Along, Along, hiff]
    exact and_congr_right fun hclean => ih (hnext hclean)

end Vibra.Input
