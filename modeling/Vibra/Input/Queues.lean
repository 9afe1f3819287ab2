import Vibra.Input.Keyboard

/-! # The queues of the input

Keys come from the serial port, the PS/2 keyboard and USB keyboards.
-/

namespace Vibra.Input

/-- `SERIAL_ESCAPE_STATE` and `SERIAL_NUMBER`. -/
structure SerialDecoder where
  escapeState : Nat
  number : Nat

def decodePlainByte (byte : UInt8) : Option Key :=
  if byte = 0x0D ∨ byte = 0x0A then some .enter
  else if byte = 0x08 ∨ byte = 0x7F then some .backspace
  else if byte = 0x09 then some .tab
  else if byte ∈ ([0x03, 0x01, 0x05, 0x0B, 0x0C, 0x15, 0x1A, 0x04, 0x0F, 0x18, 0x16, 0x19, 0x17] :
      List UInt8) then some (.char (Char.ofNat byte.toNat))
  else if 0x20 ≤ byte ∧ byte ≤ 0x7E then some (.char (Char.ofNat byte.toNat))
  else none

/-- The letters that end an escape sequence. -/
def escapeKey (byte : UInt8) : Option Key :=
  match byte with
  | 0x41 => some .up
  | 0x42 => some .down
  | 0x43 => some .right
  | 0x44 => some .left
  | 0x48 => some .home
  | 0x46 => some .end
  | _ => none

/-- The numbers of an escape sequence that a tilde ends. -/
def tildeKey (number : Nat) : Option Key :=
  match number with
  | 2 => some .insert
  | 3 => some .delete
  | 5 => some .pageUp
  | 6 => some .pageDown
  | _ => none

def decodeSerialByte (st : SerialDecoder) (byte : UInt8) : Option Key × SerialDecoder :=
  if st.escapeState = 1 then
    if byte = 0x5B then (none, { st with escapeState := 2 })
    else if byte = 0x4F then (none, { st with escapeState := 3 })
    else (decodePlainByte byte, { st with escapeState := 0 })
  else if st.escapeState = 2 ∨ st.escapeState = 3 then
    if 0x31 ≤ byte ∧ byte ≤ 0x38 then (none, ⟨4, byte.toNat - 0x30⟩)
    else (escapeKey byte, { st with escapeState := 0 })
  else if st.escapeState = 4 then
    (if byte = 0x7E then tildeKey st.number else none, { st with escapeState := 0 })
  else if byte = 0x1B then (none, { st with escapeState := 1 })
  else (decodePlainByte byte, { st with escapeState := 0 })

def serialBufSize : Nat := 256

def rxPollBudget : Nat := 64

/-- The ring, the decoder, `SERIAL_PRESENT`, and the bytes that the UART has received. A UART
that is present stays. -/
structure SerialPort where
  ring : List UInt8
  decoder : SerialDecoder
  present : Bool
  uart : List UInt8

namespace SerialPort

def pushByte (port : SerialPort) (b : UInt8) : SerialPort :=
  if port.ring.length + 1 < serialBufSize then { port with ring := port.ring ++ [b] } else port

/-- The loop of `handle_interrupt`. -/
def drainUart : Nat → SerialPort → SerialPort
  | 0, port => port
  | budget + 1, port =>
    match port.uart with
    | [] => port
    | b :: rest => drainUart budget (({ port with uart := rest }).pushByte b)

def handleInterrupt (port : SerialPort) : SerialPort := drainUart rxPollBudget port

def tryReadByte (port : SerialPort) : Option (UInt8 × SerialPort) :=
  match port.ring with
  | b :: rest => some (b, { port with ring := rest })
  | [] =>
    if port.present then
      match port.uart with
      | b :: rest => some (b, { port with uart := rest })
      | [] => none
    else none

/-- The loop of `poll_key`. -/
def pollKeyFor : Nat → SerialPort → Option Key × SerialPort
  | 0, port => (none, port)
  | budget + 1, port =>
    match port.tryReadByte with
    | none => (none, port)
    | some (b, port) =>
      match decodeSerialByte port.decoder b with
      | (some key, decoder) => (some key, { port with decoder })
      | (none, decoder) => pollKeyFor budget { port with decoder }

def pollKey (port : SerialPort) : Option Key × SerialPort := pollKeyFor rxPollBudget port

end SerialPort

def typeaheadMax : Nat := 64

def controllerRoom : Nat := 16

/-- The bytes of the controller, each with whether it is the mouse's, the keys in the reports
that the USB controllers hold, the queues of the kernel and `CANCEL_FLAG`. -/
structure Queues where
  serial : SerialPort
  typeahead : List Key
  hidQueue : List Key
  usb : List Key
  keyboard : KeyboardState
  controller : List (UInt8 × Bool)
  cancelFlag : Bool

namespace Queues

/-- `handle_interrupt` of the keyboard: up to 32 bytes, until one is the mouse's. -/
def drainInterrupt : Nat → Queues → Queues
  | 0, q => q
  | budget + 1, q =>
    match q.controller with
    | (b, false) :: rest =>
      drainInterrupt budget
        { q with controller := rest, keyboard := q.keyboard.pushScancode b }
    | _ => q

def handleInterrupt (q : Queues) : Queues := drainInterrupt 32 q

/-- `drain_controller`: bytes of the mouse are read and dropped. -/
def drainController : Nat → Queues → Queues
  | 0, q => q
  | budget + 1, q =>
    match q.controller with
    | [] => q
    | (b, aux) :: rest =>
      drainController budget
        { q with
          controller := rest
          keyboard := if aux then q.keyboard else q.keyboard.pushScancode b }

def popHid (q : Queues) : Option Key × Queues :=
  match q.hidQueue with
  | key :: rest => (some key, { q with hidQueue := rest })
  | [] => (none, q)

/-- `xhci::poll_keyboard` and `uhci::poll_keyboard`: every key of a report is injected. -/
def pollUsb (q : Queues) : Queues := { q with hidQueue := q.hidQueue ++ q.usb, usb := [] }

/-- `keyboard::poll_key` behind `pop_back` and the HID queue: the bytes of the PS/2 keyboard. -/
def pollPs2 (q : Queues) : Option Key × Queues :=
  if q.keyboard.present = false then (none, q)
  else
    let q := drainController queueLen q
    match q.keyboard.nextKey with
    | (some (key, cancel), keyboard) =>
      (some key, { q with keyboard, cancelFlag := q.cancelFlag || cancel })
    | (none, keyboard) => (none, { q with keyboard })

def pollKey (q : Queues) : Option Key × Queues :=
  match q.typeahead with
  | key :: rest => (some key, { q with typeahead := rest })
  | [] =>
    match q.hidQueue with
    | key :: rest => (some key, { q with hidQueue := rest })
    | [] =>
      match q.pollPs2 with
      | (some key, q) => (some key, q)
      | (none, q) => q.pollUsb.popHid

/-- `serial::poll_key().or_else(keyboard::poll_key)` -/
def poll (q : Queues) : Option Key × Queues :=
  match q.serial.pollKey with
  | (some key, serial) => (some key, { q with serial })
  | (none, serial) => ({ q with serial }).pollKey

def pushBack (q : Queues) (key : Key) : Queues :=
  if q.typeahead.length < typeaheadMax then { q with typeahead := q.typeahead ++ [key] } else q

def requestCancel (q : Queues) : Queues := { q with cancelFlag := true }

def isCancelled (q : Queues) : Bool := q.cancelFlag

def pollCancel (q : Queues) : Queues :=
  match q.poll with
  | (some key, q) => if key.isCancel then q.requestCancel else q.pushBack key
  | (none, q) => q

/-- The keys that `k` polls of the input loop return. -/
def later : Nat → Queues → List Key
  | 0, _ => []
  | k + 1, q => q.poll.1.toList ++ later k q.poll.2

end Queues

end Vibra.Input
