import Mathlib.Algebra.Ring.Nat
import Vibra.Lib.Scan

/-! # The PS/2 keyboard

Bytes of the keyboard controller wait in a queue. `nextKey` takes them off until one completes a
key.
-/

namespace Vibra.Input

inductive Key where
  | char (ch : Char)
  | enter
  | backspace
  | tab
  | left
  | right
  | up
  | down
  | insert
  | delete
  | home
  | end
  | pageUp
  | pageDown
  | wordLeft
  | wordRight
  | unknown
deriving DecidableEq

def Key.isCancel : Key → Bool
  | .char ch => ch == '\x03' || ch == '\x1A'
  | _ => false

def kbdAck : UInt8 := 0xFA

def kbdResend : UInt8 := 0xFE

def kbdEcho : UInt8 := 0xEE

def kbdSelfTestOk : UInt8 := 0xAA

def kbdOverrun : UInt8 := 0xFF

def kbdError : UInt8 := 0x00

def queueLen : Nat := 64

/-- The fields of `KeyboardState` that decoding reads. -/
structure Decoder where
  shift : Bool
  ctrl : Bool
  alt : Bool
  caps : Bool
  extended : Bool
  release : Bool
  scanSet2 : Bool

/-- `KeyboardState`, its ring as the list of bytes that wait. -/
structure KeyboardState extends Decoder where
  queue : List UInt8
  present : Bool
  dropped : Nat

/-- `KeyboardState::new`, once `init` has found the scan code set. -/
def Decoder.new (scanSet2 : Bool) : Decoder :=
  ⟨false, false, false, false, false, false, scanSet2⟩

namespace KeyboardState

def new (scanSet2 : Bool) : KeyboardState := ⟨Decoder.new scanSet2, [], true, 0⟩

/-- One slot of the ring stays empty. A byte that finds no room takes the modifiers with it. -/
def pushScancode (st : KeyboardState) (scancode : UInt8) : KeyboardState :=
  if st.queue.length + 1 < queueLen then { st with queue := st.queue ++ [scancode] }
  else
    { st with
      dropped := (st.dropped + 1) % 2 ^ 64
      shift := false
      ctrl := false
      alt := false }

end KeyboardState

def shiftSymbol (ch : Char) : Char :=
  match ch with
  | '1' => '!' | '2' => '@' | '3' => '#' | '4' => '$' | '5' => '%'
  | '6' => '^' | '7' => '&' | '8' => '*' | '9' => '(' | '0' => ')'
  | '-' => '_' | '=' => '+' | '[' => '\x7b' | ']' => '\x7d' | '\x5c' => '|'
  | ';' => ':' | '\x27' => '\x22' | '\x60' => '~' | ',' => '<' | '.' => '>'
  | '/' => '?'
  | other => other

def set1Char (code : UInt8) : Option Char :=
  match code with
  | 0x01 => some '\x1B'
  | 0x02 => some '1' | 0x03 => some '2' | 0x04 => some '3' | 0x05 => some '4'
  | 0x06 => some '5' | 0x07 => some '6' | 0x08 => some '7' | 0x09 => some '8'
  | 0x0A => some '9' | 0x0B => some '0' | 0x0C => some '-' | 0x0D => some '='
  | 0x0E => some '\x08'
  | 0x0F => some '\t'
  | 0x10 => some 'q' | 0x11 => some 'w' | 0x12 => some 'e' | 0x13 => some 'r'
  | 0x14 => some 't' | 0x15 => some 'y' | 0x16 => some 'u' | 0x17 => some 'i'
  | 0x18 => some 'o' | 0x19 => some 'p' | 0x1A => some '[' | 0x1B => some ']'
  | 0x1C => some '\n'
  | 0x1E => some 'a' | 0x1F => some 's' | 0x20 => some 'd' | 0x21 => some 'f'
  | 0x22 => some 'g' | 0x23 => some 'h' | 0x24 => some 'j' | 0x25 => some 'k'
  | 0x26 => some 'l' | 0x27 => some ';' | 0x28 => some '\x27' | 0x29 => some '\x60'
  | 0x2B => some '\x5c'
  | 0x2C => some 'z' | 0x2D => some 'x' | 0x2E => some 'c' | 0x2F => some 'v'
  | 0x30 => some 'b' | 0x31 => some 'n' | 0x32 => some 'm' | 0x33 => some ','
  | 0x34 => some '.' | 0x35 => some '/'
  | 0x39 => some ' '
  | _ => none

def set2Char (code : UInt8) : Option Char :=
  match code with
  | 0x76 => some '\x1B'
  | 0x16 => some '1' | 0x1E => some '2' | 0x26 => some '3' | 0x25 => some '4'
  | 0x2E => some '5' | 0x36 => some '6' | 0x3D => some '7' | 0x3E => some '8'
  | 0x46 => some '9' | 0x45 => some '0' | 0x4E => some '-' | 0x55 => some '='
  | 0x66 => some '\x08'
  | 0x0D => some '\t'
  | 0x15 => some 'q' | 0x1D => some 'w' | 0x24 => some 'e' | 0x2D => some 'r'
  | 0x2C => some 't' | 0x35 => some 'y' | 0x3C => some 'u' | 0x43 => some 'i'
  | 0x44 => some 'o' | 0x4D => some 'p' | 0x54 => some '[' | 0x5B => some ']'
  | 0x5A => some '\n'
  | 0x1C => some 'a' | 0x1B => some 's' | 0x23 => some 'd' | 0x2B => some 'f'
  | 0x34 => some 'g' | 0x33 => some 'h' | 0x3B => some 'j' | 0x42 => some 'k'
  | 0x4B => some 'l' | 0x4C => some ';' | 0x52 => some '\x27' | 0x0E => some '\x60'
  | 0x5D => some '\x5c'
  | 0x1A => some 'z' | 0x22 => some 'x' | 0x21 => some 'c' | 0x2A => some 'v'
  | 0x32 => some 'b' | 0x31 => some 'n' | 0x3A => some 'm' | 0x41 => some ','
  | 0x49 => some '.' | 0x4A => some '/'
  | 0x29 => some ' '
  | _ => none

def controlCode (ch : Char) : Char := Char.ofNat (ch.toLower.toNat - 'a'.toNat + 1)

/-- The keys that have a name are not characters. -/
def keyOf (ch : Char) : Key :=
  match ch with
  | '\n' => .enter
  | '\x08' => .backspace
  | '\t' => .tab
  | _ => .char ch

namespace Decoder

/-- The key, and whether `request_cancel` is called: Ctrl with a letter is a control code, and
Ctrl+C and Ctrl+Z raise the flag at once. -/
def translate (st : Decoder) (ch : Char) : Key × Bool :=
  if st.ctrl && ch.isAlpha then
    (.char (controlCode ch), (Key.char (controlCode ch)).isCancel)
  else
    let ch :=
      if ch.isAlpha then if st.caps ^^ st.shift then ch.toUpper else ch.toLower
      else if st.shift then shiftSymbol ch
      else ch
    (keyOf ch, false)

/-- A make code of `decode_set1` behind the prefix E0. -/
def extendedSet1 (st : Decoder) (code : UInt8) : Option Key :=
  match code with
  | 0x4B => some (if st.ctrl then .wordLeft else .left)
  | 0x4D => some (if st.ctrl then .wordRight else .right)
  | 0x48 => some .up
  | 0x50 => some .down
  | 0x47 => some .home
  | 0x4F => some .end
  | 0x49 => some .pageUp
  | 0x51 => some .pageDown
  | 0x52 => some .insert
  | 0x53 => some .delete
  | 0x1C => some .enter
  | _ => none

/-- A make code of `decode_set2` behind the prefix E0. -/
def extendedSet2 (st : Decoder) (code : UInt8) : Option Key :=
  match code with
  | 0x6B => some (if st.ctrl then .wordLeft else .left)
  | 0x74 => some (if st.ctrl then .wordRight else .right)
  | 0x75 => some .up
  | 0x72 => some .down
  | 0x6C => some .home
  | 0x69 => some .end
  | 0x7D => some .pageUp
  | 0x7A => some .pageDown
  | 0x70 => some .insert
  | 0x71 => some .delete
  | 0x5A => some .enter
  | _ => none

def decodeSet1 (st : Decoder) (sc : UInt8) : Option (Key × Bool) × Decoder :=
  if sc = 0xE0 then (none, { st with extended := true })
  else
    let released := sc &&& 0x80 ≠ 0
    let code := sc &&& 0x7F
    if st.extended then
      let st := { st with extended := false }
      if released then (none, st) else ((extendedSet1 st code).map (·, false), st)
    else if code = 0x2A ∨ code = 0x36 then (none, { st with shift := ¬ released })
    else if code = 0x1D then (none, { st with ctrl := ¬ released })
    else if code = 0x38 then (none, { st with alt := ¬ released })
    else if code = 0x3A then (none, if released then st else { st with caps := !st.caps })
    else if released then (none, st)
    else ((set1Char code).map st.translate, st)

def decodeSet2 (st : Decoder) (sc : UInt8) : Option (Key × Bool) × Decoder :=
  if sc = 0xE0 then (none, { st with extended := true })
  else if sc = 0xF0 then (none, { st with release := true })
  else
    let released := st.release = true
    let st := { st with release := false }
    if st.extended then
      let st := { st with extended := false }
      if released then (none, st) else ((extendedSet2 st sc).map (·, false), st)
    else if sc = 0x12 ∨ sc = 0x59 then (none, { st with shift := ¬ released })
    else if sc = 0x14 then (none, { st with ctrl := ¬ released })
    else if sc = 0x11 then (none, { st with alt := ¬ released })
    else if sc = 0x58 then (none, if released then st else { st with caps := !st.caps })
    else if released then (none, st)
    else ((set2Char sc).map st.translate, st)

/-- Replies of the keyboard that are no scan codes. In Set 1 the byte AA is the release of the
left Shift. -/
def isService (st : Decoder) (sc : UInt8) : Bool :=
  sc == kbdAck || sc == kbdResend || sc == kbdEcho || sc == kbdOverrun || sc == kbdError ||
    (sc == kbdSelfTestOk && st.scanSet2)

/-- One turn of `next_key` with the byte that it took. -/
def decode (st : Decoder) (sc : UInt8) : Option (Key × Bool) × Decoder :=
  if st.isService sc then (none, st)
  else if st.scanSet2 then st.decodeSet2 sc
  else st.decodeSet1 sc

/-- The turns of `next_key` over the bytes that wait: the key, and what is left. -/
def nextKey (bytes : List UInt8) (st : Decoder) : Option (Key × Bool) × List UInt8 × Decoder :=
  Lib.scanFirst decode bytes st

def decodeAll (bytes : List UInt8) (st : Decoder) : List (Key × Bool) × Decoder :=
  Lib.scanAll decode bytes st

end Decoder

def KeyboardState.nextKey (st : KeyboardState) : Option (Key × Bool) × KeyboardState :=
  let (key, queue, decoder) := Decoder.nextKey st.queue st.toDecoder
  (key, { st with toDecoder := decoder, queue })

end Vibra.Input
