import Vibra.Input.Queues
import Vibra.Lib.Runs
import Mathlib.Data.Fintype.Basic

/-! # Arrivals and polls

What arrives is a byte of the serial port, a byte of the PS/2 keyboard or a key of a USB
keyboard. A key waits at its source until a poll takes it.
-/

namespace Vibra.Input

open Lib (Along scanAll scanFirst)

inductive Source where
  | serial
  | hid
  | ps2
  | held
deriving DecidableEq

instance : Fintype Source := ⟨{.serial, .hid, .ps2, .held}, fun s => by cases s <;> decide⟩

/-- An arrival, an interrupt of the serial port or the keyboard, a poll of the USB controllers
by something else than a key poll, and the poll of a command. -/
inductive Event where
  | serialByte (b : UInt8)
  | serialIrq
  | ps2Byte (b : UInt8) (aux : Bool)
  | ps2Irq
  | usbKey (key : Key)
  | usbPoll
  | pollCancel
deriving DecidableEq

namespace Event

def serialBytes : Event → List UInt8
  | serialByte b => [b]
  | _ => []

def ps2Bytes : Event → List UInt8
  | ps2Byte b false => [b]
  | _ => []

def usbKeys : Event → List Key
  | usbKey key => [key]
  | _ => []

end Event

namespace SerialPort

variable {port : SerialPort}

def bytes (port : SerialPort) : List UInt8 := port.ring ++ port.uart

def scan (port : SerialPort) : List Key × SerialDecoder :=
  scanAll decodeSerialByte port.bytes port.decoder

end SerialPort

namespace Queues

def step (q : Queues) : Event → Queues
  | .serialByte b => { q with serial := { q.serial with uart := q.serial.uart ++ [b] } }
  | .serialIrq => { q with serial := q.serial.handleInterrupt }
  | .ps2Byte b aux => { q with controller := q.controller ++ [(b, aux)] }
  | .ps2Irq => q.handleInterrupt
  | .usbKey key => { q with usb := q.usb ++ [key] }
  | .usbPoll => q.pollUsb
  | .pollCancel => q.pollCancel

def run (q : Queues) (events : List Event) : Queues := events.foldl step q

def ps2Bytes (q : Queues) : List UInt8 :=
  q.keyboard.queue ++ (q.controller.filter fun x => !x.2).map Prod.fst

def ps2Scan (q : Queues) : List (Key × Bool) × Decoder :=
  Decoder.decodeAll q.ps2Bytes q.keyboard.toDecoder

/-- The keys that wait at their sources. -/
def pending (q : Queues) : Source → List Key
  | .serial => q.serial.scan.1
  | .hid => q.hidQueue ++ q.usb
  | .ps2 => q.ps2Scan.1.map Prod.fst
  | .held => []

/-- The bytes that arrive at the serial port, those that wait at the start among them. -/
def serialStream (q : Queues) (events : List Event) : List UInt8 :=
  q.serial.bytes ++ events.flatMap Event.serialBytes

def ps2Stream (q : Queues) (events : List Event) : List UInt8 :=
  q.ps2Bytes ++ events.flatMap Event.ps2Bytes

/-- The keys of each source in the order of their arrival. Those that the type-ahead holds at
the start are a source of their own. -/
def arrived (q : Queues) (events : List Event) : Source → List Key
  | .serial => (scanAll decodeSerialByte (q.serialStream events) q.serial.decoder).1
  | .hid => q.hidQueue ++ q.usb ++ events.flatMap Event.usbKeys
  | .ps2 => (Decoder.decodeAll (q.ps2Stream events) q.keyboard.toDecoder).1.map Prod.fst
  | .held => q.typeahead

/-- The keys that an event completes behind the bytes that came before it. -/
def brought (serial : SerialDecoder) (ps2 : Decoder) (e : Event) : Source → List Key
  | .serial => (scanAll decodeSerialByte e.serialBytes serial).1
  | .hid => e.usbKeys
  | .ps2 => (Decoder.decodeAll e.ps2Bytes ps2).1.map Prod.fst
  | .held => []

/-- The queues at boot, of a machine with a serial port and a PS/2 keyboard. -/
def start (scanSet2 : Bool) : Queues :=
  ⟨⟨[], ⟨0, 0⟩, true, []⟩, [], [], [], .new scanSet2, [], false⟩

/-- What holds between any two events. -/
structure Valid (q : Queues) : Prop where
  uart : q.serial.present = false → q.serial.uart = []
  ps2 : q.keyboard.present = false → q.ps2Bytes = []
  controller : q.controller.length ≤ controllerRoom
  typeahead : ∀ key ∈ q.typeahead, key.isCancel = false

/-- A byte comes from a port that is there, and one of the PS/2 ports when the controller has
room. -/
def Possible (q : Queues) : Event → Prop
  | .serialByte _ => q.serial.present = true
  | .ps2Byte _ _ => q.keyboard.present = true ∧ q.controller.length < controllerRoom
  | _ => True

def Fits (q : Queues) : Prop :=
  q.serial.bytes.length < serialBufSize ∧ q.ps2Bytes.length < queueLen

instance (q : Queues) (e : Event) : Decidable (q.Possible e) :=
  match e with
  | .serialByte _ => inferInstanceAs (Decidable (_ = _))
  | .ps2Byte _ _ => inferInstanceAs (Decidable (_ ∧ _))
  | .serialIrq | .ps2Irq | .usbKey _ | .usbPoll | .pollCancel => instDecidableTrue

instance (q : Queues) : Decidable q.Fits := inferInstanceAs (Decidable (_ ∧ _))

/-- The key that a poll takes: of the serial port, of the type-ahead, of the HID queue, of the
PS/2 keyboard, of a USB report. -/
def next (q : Queues) : Option Key :=
  ((scanAll decodeSerialByte (q.serial.bytes.take rxPollBudget) q.serial.decoder).1 ++
    q.typeahead ++ q.hidQueue ++ q.ps2Scan.1.map Prod.fst ++ q.usb).head?

end Queues

namespace SerialPort

variable {port : SerialPort}

theorem drainUart_spec (budget : Nat) (h : port.bytes.length < serialBufSize) :
    (drainUart budget port).bytes = port.bytes ∧
      (drainUart budget port).decoder = port.decoder ∧
      (drainUart budget port).present = port.present ∧
      (port.uart = [] → (drainUart budget port).uart = []) := by
  induction budget generalizing port with
  | zero => exact ⟨rfl, rfl, rfl, id⟩
  | succ budget ih =>
    rw [drainUart]
    cases huart : port.uart with
    | nil => exact ⟨rfl, rfl, rfl, fun _ => huart⟩
    | cons b rest =>
      have hroom : port.ring.length + 1 < serialBufSize := by
        have := h
        rw [bytes, huart, List.length_append, List.length_cons] at this
        omega
      have hpush : ({ port with uart := rest }).pushByte b =
          { port with ring := port.ring ++ [b], uart := rest } := if_pos hroom
      have hbytes : ({ port with ring := port.ring ++ [b], uart := rest } :
          SerialPort).bytes = port.bytes := by
        rw [bytes, bytes, huart, List.append_assoc]
        rfl
      simp only [hpush]
      obtain ⟨h1, h2, h3, -⟩ := ih (hbytes ▸ h)
      exact ⟨h1.trans hbytes, h2, h3, fun h => nomatch h⟩

end SerialPort

namespace Queues

variable {q : Queues}

theorem pushScancode_spec {b : UInt8} {rest : List (UInt8 × Bool)}
    (hcontroller : q.controller = (b, false) :: rest) (h : q.ps2Bytes.length < queueLen) :
    q.keyboard.pushScancode b = { q.keyboard with queue := q.keyboard.queue ++ [b] } ∧
      ({ q with controller := rest, keyboard := q.keyboard.pushScancode b } : Queues).ps2Bytes =
        q.ps2Bytes := by
  have hroom : q.keyboard.queue.length + 1 < queueLen := by
    have := h
    rw [ps2Bytes, hcontroller, List.length_append, List.filter_cons_of_pos rfl, List.map_cons,
      List.length_cons] at this
    omega
  have hpush : q.keyboard.pushScancode b =
      { q.keyboard with queue := q.keyboard.queue ++ [b] } := if_pos hroom
  refine ⟨hpush, ?_⟩
  rw [ps2Bytes, ps2Bytes, hcontroller, List.filter_cons_of_pos rfl, List.map_cons, hpush,
    List.append_assoc]
  rfl

theorem drainInterrupt_spec (budget : Nat) (h : q.ps2Bytes.length < queueLen) :
    (drainInterrupt budget q).ps2Bytes = q.ps2Bytes ∧
      (drainInterrupt budget q).controller.length ≤ q.controller.length ∧
      ∃ keyboard controller, drainInterrupt budget q = { q with keyboard, controller } ∧
        keyboard.toDecoder = q.keyboard.toDecoder ∧ keyboard.present = q.keyboard.present := by
  induction budget generalizing q with
  | zero => exact ⟨rfl, Nat.le_refl _, _, _, rfl, rfl, rfl⟩
  | succ budget ih =>
    rw [drainInterrupt]
    split
    case h_1 b rest hcontroller =>
        obtain ⟨hpush, hbytes⟩ := pushScancode_spec hcontroller h
        obtain ⟨h1, h2, keyboard, controller, heq, h3, h4⟩ := ih (hbytes ▸ h)
        refine ⟨h1.trans hbytes, Nat.le_trans h2 ?_, keyboard, controller, heq, ?_, ?_⟩
        · show rest.length ≤ q.controller.length
          rw [hcontroller]
          exact Nat.le_succ _
        · rw [h3, hpush]
        · rw [h4, hpush]
    case h_2 => exact ⟨rfl, Nat.le_refl _, _, _, rfl, rfl, rfl⟩

/-! ## Polls -/

theorem eq_of_drained (hnil : q.controller = []) :
    q = { q with keyboard := { q.keyboard with queue := q.ps2Bytes }, controller := [] } := by
  have hbytes : q.ps2Bytes = q.keyboard.queue := by
    rw [ps2Bytes, hnil]
    exact List.append_nil _
  rw [hbytes, ← hnil]

theorem drainController_eq (budget : Nat) (h : q.ps2Bytes.length < queueLen)
    (hbudget : q.controller.length ≤ budget) :
    drainController budget q =
      { q with keyboard := { q.keyboard with queue := q.ps2Bytes }, controller := [] } := by
  induction budget generalizing q with
  | zero => exact eq_of_drained (List.length_eq_zero_iff.mp (Nat.le_zero.mp hbudget))
  | succ budget ih =>
    rw [drainController]
    split
    case h_1 hnil => exact eq_of_drained hnil
    case h_2 b aux rest hcontroller =>
        have hrest : rest.length ≤ budget := by
          rw [hcontroller, List.length_cons] at hbudget
          omega
        cases aux with
        | true =>
          have hbytes : ({ q with controller := rest } : Queues).ps2Bytes = q.ps2Bytes := by
            rw [ps2Bytes, ps2Bytes, hcontroller, List.filter_cons_of_neg (by simp)]
          have heq := ih (q := { q with controller := rest }) (hbytes ▸ h) hrest
          rwa [hbytes] at heq
        | false =>
          obtain ⟨hpush, hbytes⟩ := pushScancode_spec hcontroller h
          have heq := ih (hbytes ▸ h) hrest
          rw [hbytes] at heq
          simp only [hpush] at heq
          show drainController budget
            { q with controller := rest, keyboard := q.keyboard.pushScancode b } = _
          simpa only [hpush] using heq

end Queues

namespace SerialPort

variable {port : SerialPort} {b : UInt8} {rest : List UInt8}

theorem tryReadByte_cons (h : port.bytes = b :: rest)
    (huart : port.present = false → port.uart = []) :
    ∃ port', port.tryReadByte = some (b, port') ∧ port'.bytes = rest ∧
      port'.decoder = port.decoder ∧ port'.present = port.present ∧
      (port.uart = [] → port'.uart = []) := by
  rw [bytes] at h
  cases hring : port.ring with
  | cons c ring =>
    rw [hring] at h
    obtain ⟨rfl, hrest⟩ := List.cons.inj h
    exact ⟨{ port with ring }, by rw [tryReadByte, hring], hrest, rfl, rfl, id⟩
  | nil =>
    rw [hring, List.nil_append] at h
    have hpresent : port.present = true := by
      cases hp : port.present with
      | true => rfl
      | false => rw [huart hp] at h; contradiction
    refine ⟨{ port with uart := rest }, ?_, ?_, rfl, rfl, ?_⟩
    · rw [tryReadByte, hring]
      simp only [hpresent, h, if_true, ← hring]
    · rw [bytes, hring, List.nil_append]
    · rw [h]
      exact fun h => nomatch h

theorem tryReadByte_nil (h : port.bytes = []) : port.tryReadByte = none := by
  obtain ⟨hring, huart⟩ := List.append_eq_nil_iff.mp h
  rw [tryReadByte, hring, huart]
  simp

theorem pollKeyFor_spec (budget : Nat) (huart : port.present = false → port.uart = []) :
    (pollKeyFor budget port).1 =
        (scanFirst decodeSerialByte (port.bytes.take budget) port.decoder).1 ∧
      (pollKeyFor budget port).2.bytes =
        (scanFirst decodeSerialByte (port.bytes.take budget) port.decoder).2.1 ++
          port.bytes.drop budget ∧
      (pollKeyFor budget port).2.decoder =
        (scanFirst decodeSerialByte (port.bytes.take budget) port.decoder).2.2 ∧
      (pollKeyFor budget port).2.present = port.present ∧
      (port.uart = [] → (pollKeyFor budget port).2.uart = []) := by
  induction budget generalizing port with
  | zero => exact ⟨rfl, rfl, rfl, rfl, id⟩
  | succ budget ih =>
    rw [pollKeyFor]
    cases hbytes : port.bytes with
    | nil =>
      rw [tryReadByte_nil hbytes]
      exact ⟨rfl, hbytes, rfl, rfl, id⟩
    | cons b rest =>
      obtain ⟨port', hread, hrest, hdecoder, hpresent, huart'⟩ := tryReadByte_cons hbytes huart
      simp only [hread]
      rw [List.take_succ_cons, List.drop_succ_cons, scanFirst, hdecoder]
      cases hkey : decodeSerialByte port.decoder b with
      | mk key decoder =>
        cases key with
        | some key =>
          refine ⟨rfl, ?_, rfl, hpresent, huart'⟩
          show port'.bytes = _
          rw [hrest, List.take_append_drop]
        | none =>
          have hport : ({ port' with decoder } : SerialPort).bytes = rest := hrest
          obtain ⟨h1, h2, h3, h4, h5⟩ := @ih { port' with decoder } (by
            intro h
            exact huart' (huart (hpresent ▸ h)))
          rw [hport] at h1 h2 h3
          exact ⟨h1, h2, h3, h4.trans hpresent, fun h => h5 (huart' h)⟩

theorem scan_pollKey (huart : port.present = false → port.uart = []) :
    port.scan = (port.pollKey.1.toList ++ port.pollKey.2.scan.1, port.pollKey.2.scan.2) := by
  obtain ⟨h1, h2, h3, -⟩ := pollKeyFor_spec rxPollBudget huart
  rw [scan, scan, pollKey, h1, h2, h3, Lib.scanAll_append]
  conv_lhs => rw [← List.take_append_drop rxPollBudget port.bytes, Lib.scanAll_append,
    Lib.scanAll_first (port.bytes.take rxPollBudget)]
  rw [List.append_assoc]

theorem bytes_pollKey (huart : port.present = false → port.uart = []) :
    port.pollKey.2.bytes.length ≤ port.bytes.length ∧
      (port.bytes ≠ [] → port.pollKey.2.bytes.length < port.bytes.length) := by
  obtain ⟨h1, h2, -⟩ := pollKeyFor_spec rxPollBudget huart
  have hlen := @Lib.scanFirst_length _ _ _ decodeSerialByte (port.bytes.take rxPollBudget)
    port.decoder
  have hsum : (port.bytes.take rxPollBudget).length + (port.bytes.drop rxPollBudget).length =
      port.bytes.length := by rw [← List.length_append, List.take_append_drop]
  rw [pollKey, h2, List.length_append]
  refine ⟨by omega, fun hne => ?_⟩
  have hpos : 0 < (port.bytes.take rxPollBudget).length := by
    rw [List.length_take]
    exact Nat.lt_min.mpr ⟨by decide, List.length_pos_iff.mpr hne⟩
  cases hkey : (scanFirst decodeSerialByte (port.bytes.take rxPollBudget) port.decoder).1 with
  | none =>
    rw [Lib.scanFirst_none hkey, List.length_nil]
    omega
  | some key =>
    rw [hkey] at hlen
    simp only [Option.toList_some, List.length_singleton] at hlen
    omega

end SerialPort

namespace Queues

variable {q q' : Queues} {key : Option Key}

def work (q : Queues) : Nat :=
  q.serial.bytes.length + q.typeahead.length + q.hidQueue.length + q.ps2Bytes.length +
    q.usb.length

structure Steady (q q' : Queues) : Prop where
  serial : q'.serial.scan.2 = q.serial.scan.2
  ps2 : q'.ps2Scan.2 = q.ps2Scan.2
  valid : q'.Valid
  fits : q'.Fits
  cancelFlag : q.cancelFlag = true → q'.cancelFlag = true

/-- A poll finds nothing, takes the first key that waits at a source, or takes a key back from
the type-ahead. -/
inductive Polled (q : Queues) : Option Key → Queues → Prop
  | idle {q' : Queues} (hheld : q.typeahead = []) (hheld' : q'.typeahead = [])
      (hpending : ∀ s, q'.pending s = q.pending s)
      (hempty : ∀ s, s ≠ .serial → q.pending s = []) : Polled q none q'
  | taken {q' : Queues} {key : Key} (s : Source) (hheld : q'.typeahead = q.typeahead)
      (hkey : q.pending s = key :: q'.pending s)
      (hother : ∀ s', s' ≠ s → q'.pending s' = q.pending s')
      (hfirst : s ≠ .serial → q.typeahead = []) : Polled q (some key) q'
  | back {q' : Queues} {key : Key} (hheld : q.typeahead = key :: q'.typeahead)
      (hpending : ∀ s, q'.pending s = q.pending s) : Polled q (some key) q'

theorem pollPs2_spec (hvalid : q.Valid) (hfits : q.Fits) :
    ∃ keyboard controller cancelFlag,
      q.pollPs2.2 = { q with keyboard, controller, cancelFlag } ∧
      (q.cancelFlag = true → cancelFlag = true) ∧
      (keyboard.present = false → q.pollPs2.2.ps2Bytes = []) ∧
      controller.length ≤ controllerRoom ∧
      q.ps2Scan.1.map Prod.fst = q.pollPs2.1.toList ++ q.pollPs2.2.ps2Scan.1.map Prod.fst ∧
      q.pollPs2.2.ps2Scan.2 = q.ps2Scan.2 ∧
      q.pollPs2.2.ps2Bytes.length + q.pollPs2.1.toList.length ≤ q.ps2Bytes.length ∧
      (q.pollPs2.1 = none → q.pollPs2.2.ps2Bytes = []) := by
  rw [pollPs2]
  split
  case isTrue habsent =>
      exact ⟨q.keyboard, q.controller, q.cancelFlag, rfl, id, hvalid.ps2, hvalid.controller, rfl,
        rfl, Nat.le_refl _, fun _ => hvalid.ps2 habsent⟩
  case isFalse hpresent =>
      have hroom : q.controller.length ≤ queueLen :=
        Nat.le_trans hvalid.controller (by decide)
      rw [drainController_eq queueLen hfits.2 hroom]
      simp only [KeyboardState.nextKey, Decoder.nextKey]
      have hlen := @Lib.scanFirst_length _ _ _ Decoder.decode q.ps2Bytes q.keyboard.toDecoder
      have hscan : q.ps2Scan = _ := @Lib.scanAll_first _ _ _ Decoder.decode q.ps2Bytes
        q.keyboard.toDecoder
      cases hkey : scanFirst Decoder.decode q.ps2Bytes q.keyboard.toDecoder with
      | mk key left =>
        obtain ⟨left, decoder⟩ := left
        rw [hkey] at hscan hlen
        have hbytes : ∀ flag, ({ q with
            keyboard := { q.keyboard with toDecoder := decoder, queue := left },
            controller := [], cancelFlag := flag } : Queues).ps2Bytes = left :=
          fun _ => List.append_nil left
        cases key with
        | none =>
          have hleft : left = [] := by
            have := Lib.scanFirst_none (congrArg Prod.fst hkey)
            rwa [hkey] at this
          refine ⟨_, _, _, rfl, id, fun h => absurd h hpresent, Nat.zero_le _, ?_, ?_, ?_, ?_⟩
          · rw [hscan, ps2Scan, hbytes]
            rfl
          · rw [hscan, ps2Scan, hbytes]
            rfl
          · rw [hbytes]
            exact hlen
          · exact fun _ => (hbytes _).trans hleft
        | some key =>
          refine ⟨_, _, _, rfl, fun h => by rw [h, Bool.true_or],
            fun h => absurd h hpresent, Nat.zero_le _, ?_, ?_, ?_, fun h => nomatch h⟩
          · rw [hscan, ps2Scan, hbytes]
            rfl
          · rw [hscan, ps2Scan, hbytes]
            rfl
          · rw [hbytes]
            exact hlen

/-- What `keyboard::poll_key` does: it leaves the serial port as it is. -/
structure KeyPoll (q : Queues) (key : Option Key) (q' : Queues) : Prop where
  steady : Steady q q'
  polled : Polled q key q'
  serial : q'.serial = q.serial
  work : q'.work + key.toList.length ≤ q.work
  idle : key = none → q'.work = q.serial.bytes.length
  first : key = (q.typeahead ++ q.hidQueue ++ q.ps2Scan.1.map Prod.fst ++ q.usb).head?

variable {k : Key} {rest : List Key}

theorem keyPoll_held (hvalid : q.Valid) (hfits : q.Fits) (h : q.typeahead = k :: rest) :
    KeyPoll q (some k) { q with typeahead := rest } where
  steady := ⟨rfl, rfl, ⟨hvalid.uart, hvalid.ps2, hvalid.controller,
    fun k' hk => hvalid.typeahead k' (h ▸ List.mem_cons_of_mem k hk)⟩, hfits, id⟩
  polled := .back h fun s => by cases s <;> rfl
  serial := rfl
  work := by
    have hbytes : ({ q with typeahead := rest } : Queues).ps2Bytes = q.ps2Bytes := rfl
    simp only [Queues.work, h, hbytes, List.length_cons, Option.toList_some, List.length_nil]
    omega
  idle h := nomatch h
  first := by rw [h]; rfl

theorem keyPoll_hid (hvalid : q.Valid) (hfits : q.Fits) (hheld : q.typeahead = [])
    (h : q.hidQueue = k :: rest) : KeyPoll q (some k) { q with hidQueue := rest } where
  steady := ⟨rfl, rfl, ⟨hvalid.uart, hvalid.ps2, hvalid.controller, hvalid.typeahead⟩, hfits, id⟩
  polled := by
    refine .taken .hid rfl ?_ (fun s hs => ?_) fun _ => hheld
    · show q.hidQueue ++ q.usb = k :: (rest ++ q.usb)
      rw [h]
      rfl
    · cases s <;> first | rfl | contradiction
  serial := rfl
  work := by
    have hbytes : ({ q with hidQueue := rest } : Queues).ps2Bytes = q.ps2Bytes := rfl
    simp only [Queues.work, h, hbytes, List.length_cons, Option.toList_some, List.length_nil]
    omega
  idle h := nomatch h
  first := by rw [hheld, h]; rfl

theorem keyPoll_ps2 (hvalid : q.Valid) (hfits : q.Fits) (hheld : q.typeahead = [])
    (hhid : q.hidQueue = []) (h : q.pollPs2.1 = some k) : KeyPoll q (some k) q.pollPs2.2 := by
  obtain ⟨keyboard, controller, flag, heq, hflag, habsent, hroom, hkeys, hfinal, hlen, -⟩ :=
    pollPs2_spec hvalid hfits
  rw [h] at hkeys hlen
  generalize q.pollPs2.2 = q' at *
  have hbytes : q'.ps2Bytes.length < q.ps2Bytes.length := hlen
  have hvalid' : q'.Valid := by
    subst heq
    exact ⟨hvalid.uart, habsent, hroom, hvalid.typeahead⟩
  subst heq
  exact
    { steady := ⟨rfl, hfinal, hvalid', ⟨hfits.1, Nat.lt_trans hbytes hfits.2⟩, hflag⟩
      polled := .taken .ps2 rfl hkeys (fun s hs => by cases s <;> first | rfl | contradiction)
        fun _ => hheld
      serial := rfl
      work := by
        simp only [Queues.work, Option.toList_some, List.length_singleton]
        omega
      idle := fun h => nomatch h
      first := by rw [hheld, hhid, hkeys]; rfl }

theorem keyPoll_usb (hvalid : q.Valid) (hfits : q.Fits) (hheld : q.typeahead = [])
    (hhid : q.hidQueue = []) (h : q.pollPs2.1 = none) :
    KeyPoll q q.usb.head? { q.pollPs2.2 with hidQueue := q.usb.tail, usb := [] } := by
  obtain ⟨keyboard, controller, flag, heq, hflag, habsent, hroom, hkeys, hfinal, -, hnone⟩ :=
    pollPs2_spec hvalid hfits
  have hleft := hnone h
  rw [h] at hkeys
  rw [heq] at habsent hkeys hfinal hleft ⊢
  have hbytes : ({ q with
      keyboard, controller, cancelFlag := flag, hidQueue := q.usb.tail, usb := [] } :
      Queues).ps2Bytes = [] := hleft
  have hps2 : q.ps2Scan.1.map Prod.fst = [] := by
    rw [hkeys, ps2Scan, hleft]
    rfl
  refine
    { steady := ⟨rfl, hfinal, ⟨hvalid.uart, fun _ => hleft, hroom, hvalid.typeahead⟩,
        ⟨hfits.1, by rw [hbytes]; decide⟩, hflag⟩
      polled := ?_
      serial := rfl
      work := ?_
      idle := fun h => ?_
      first := by rw [hheld, hhid, hps2]; rfl }
  · have hpending : ∀ s, s ≠ .hid → ({ q with
        keyboard, controller, cancelFlag := flag, hidQueue := q.usb.tail, usb := [] } :
        Queues).pending s = q.pending s := by
      intro s hs
      cases s with
      | hid => contradiction
      | ps2 => exact hkeys.symm
      | serial => rfl
      | held => rfl
    have hwait : q.pending .hid = q.usb := by rw [pending, hhid, List.nil_append]
    cases husb : q.usb with
    | nil =>
      rw [husb] at hpending
      refine .idle hheld hheld (fun s => ?_) fun s hs => ?_
      · by_cases hs : s = .hid
        · rw [hs, hwait, husb]
          rfl
        · exact hpending s hs
      · cases s with
        | serial => contradiction
        | hid => exact hwait.trans husb
        | ps2 => exact hps2
        | held => rfl
    | cons k rest =>
      rw [husb] at hpending
      refine .taken .hid rfl ?_ hpending fun _ => hheld
      rw [hwait, husb, pending, List.tail_cons, List.append_nil]
  · have hlen : q.usb.tail.length + q.usb.head?.toList.length = q.usb.length := by
      cases q.usb <;> rfl
    simp only [Queues.work, hbytes, List.length_nil]
    omega
  · rw [List.head?_eq_none_iff] at h
    rw [Queues.work, hbytes]
    show q.serial.bytes.length + q.typeahead.length + q.usb.tail.length + 0 + 0 = _
    rw [h, hheld]
    rfl

theorem pollKey_spec (hvalid : q.Valid) (hfits : q.Fits) :
    KeyPoll q q.pollKey.1 q.pollKey.2 := by
  cases hheld : q.typeahead with
  | cons k rest =>
    rw [show q.pollKey = (some k, { q with typeahead := rest }) by rw [pollKey, hheld]]
    exact keyPoll_held hvalid hfits hheld
  | nil =>
  cases hhid : q.hidQueue with
  | cons k rest =>
    rw [show q.pollKey = (some k, { q with hidQueue := rest }) by rw [pollKey, hheld, hhid]]
    exact keyPoll_hid hvalid hfits hheld hhid
  | nil =>
  cases hps2 : q.pollPs2.1 with
  | some k =>
    have hpoll : q.pollPs2 = (some k, q.pollPs2.2) := Prod.ext hps2 rfl
    have hkey : q.pollKey = (some k, q.pollPs2.2) := by
      rw [pollKey, hheld, hhid]
      dsimp only
      rw [hpoll]
    rw [hkey]
    exact keyPoll_ps2 hvalid hfits hheld hhid hps2
  | none =>
    obtain ⟨keyboard, controller, flag, heq, -⟩ := pollPs2_spec hvalid hfits
    have hpoll : q.pollPs2 = (none, q.pollPs2.2) := Prod.ext hps2 rfl
    have hpop : q.pollPs2.2.pollUsb.popHid =
        (q.usb.head?, { q.pollPs2.2 with hidQueue := q.usb.tail, usb := [] }) := by
      rw [heq, pollUsb, popHid, hhid, List.nil_append]
      cases q.usb <;> rfl
    have hkey : q.pollKey = q.pollPs2.2.pollUsb.popHid := by
      rw [pollKey, hheld, hhid]
      dsimp only
      rw [hpoll]
    rw [hkey, hpop]
    exact keyPoll_usb hvalid hfits hheld hhid hps2

structure Poll (q : Queues) (key : Option Key) (q' : Queues) : Prop where
  steady : Steady q q'
  polled : Polled q key q'
  work : q'.work ≤ q.work - 1
  first : key = q.next

theorem polled_congr {q₁ : Queues} (h : Polled q₁ key q') (hheld : q₁.typeahead = q.typeahead)
    (hpending : ∀ s, q₁.pending s = q.pending s) : Polled q key q' := by
  cases h with
  | idle h1 h2 h3 h4 =>
    exact .idle (hheld ▸ h1) h2 (fun s => (h3 s).trans (hpending s))
      fun s hs => (hpending s).symm.trans (h4 s hs)
  | taken s h1 h2 h3 h4 =>
    exact .taken s (h1.trans hheld) ((hpending s).symm.trans h2)
      (fun s' hs => (h3 s' hs).trans (hpending s')) fun hs => hheld ▸ h4 hs
  | back h1 h2 => exact .back (hheld ▸ h1) fun s => (h2 s).trans (hpending s)

theorem poll_spec (hvalid : q.Valid) (hfits : q.Fits) : Poll q q.poll.1 q.poll.2 := by
  have hscan := SerialPort.scan_pollKey hvalid.uart
  obtain ⟨hle, hlt⟩ := SerialPort.bytes_pollKey hvalid.uart
  obtain ⟨hkey, -, -, hpresent, huart⟩ := SerialPort.pollKeyFor_spec rxPollBudget hvalid.uart
  have hnext : q.next = (q.serial.pollKey.1.toList ++
      (q.typeahead ++ q.hidQueue ++ q.ps2Scan.1.map Prod.fst ++ q.usb)).head? := by
    rw [SerialPort.pollKey, hkey, Lib.scanFirst_head, next]
    cases (scanAll decodeSerialByte (q.serial.bytes.take rxPollBudget) q.serial.decoder).1 with
    | nil => rfl
    | cons k rest => rfl
  rw [poll]
  cases hpoll : q.serial.pollKey with
  | mk key serial =>
  rw [hpoll] at hscan hle hlt hnext
  dsimp only at hle hlt
  have hvalid' : ({ q with serial } : Queues).Valid := by
    refine ⟨fun h => ?_, hvalid.ps2, hvalid.controller, hvalid.typeahead⟩
    have hserial : serial = (SerialPort.pollKeyFor rxPollBudget q.serial).2 :=
      (congrArg Prod.snd hpoll).symm
    show serial.uart = []
    rw [hserial] at h ⊢
    exact huart (hvalid.uart (hpresent ▸ h))
  have hfits' : ({ q with serial } : Queues).Fits := ⟨Nat.lt_of_le_of_lt hle hfits.1, hfits.2⟩
  have hfinal : serial.scan.2 = q.serial.scan.2 := (congrArg Prod.snd hscan).symm
  have hkeys : q.serial.scan.1 = key.toList ++ serial.scan.1 := congrArg Prod.fst hscan
  have hbytes : ({ q with serial } : Queues).ps2Bytes = q.ps2Bytes := rfl
  cases key with
  | some k =>
    refine ⟨⟨hfinal, rfl, hvalid', hfits', id⟩, .taken .serial rfl hkeys (fun s hs => ?_)
      fun h => absurd rfl h, ?_, hnext.symm⟩
    · cases s <;> first | rfl | contradiction
    · have hne : q.serial.bytes ≠ [] := by
        intro h
        rw [SerialPort.scan, h] at hkeys
        contradiction
      have := hlt hne
      simp only [work, hbytes]
      omega
  | none =>
    have hsame : ∀ s, ({ q with serial } : Queues).pending s = q.pending s := by
      intro s
      cases s with
      | serial => exact hkeys.symm
      | hid => rfl
      | ps2 => rfl
      | held => rfl
    obtain ⟨hsteady, hpolled, -, hwork, hidle, hfirst⟩ := pollKey_spec hvalid' hfits'
    refine ⟨⟨hsteady.serial.trans hfinal, hsteady.ps2, hsteady.valid, hsteady.fits,
      hsteady.cancelFlag⟩, polled_congr hpolled rfl hsame, ?_, hfirst.trans hnext.symm⟩
    have hq : ({ q with serial } : Queues).work + (q.serial.bytes.length - serial.bytes.length) =
        q.work := by
      simp only [work, hbytes]
      omega
    cases hk : ({ q with serial } : Queues).pollKey.1 with
    | some k =>
      rw [hk] at hwork
      simp only [Option.toList_some, List.length_singleton] at hwork
      show ({ q with serial } : Queues).pollKey.2.work ≤ _
      omega
    | none =>
      have hwork' := hidle hk
      show ({ q with serial } : Queues).pollKey.2.work ≤ _
      rw [hwork']
      show serial.bytes.length ≤ _
      by_cases hne : q.serial.bytes = []
      · have : serial.bytes.length ≤ 0 := by rwa [hne] at hle
        omega
      · have := hlt hne
        rw [work]
        omega

end Queues

/-! ## Runs -/

namespace Queues

variable {q q' : Queues} {e : Event} {events : List Event}

theorem run_snoc (q : Queues) (events : List Event) (e : Event) :
    q.run (events ++ [e]) = (q.run events).step e := List.foldl_concat ..

def serialBehind (q : Queues) (events : List Event) : SerialDecoder :=
  (scanAll decodeSerialByte (q.serialStream events) q.serial.decoder).2

def ps2Behind (q : Queues) (events : List Event) : Decoder :=
  (Decoder.decodeAll (q.ps2Stream events) q.keyboard.toDecoder).2

theorem serialStream_snoc :
    q.serialStream (events ++ [e]) = q.serialStream events ++ e.serialBytes := by
  rw [serialStream, serialStream, List.flatMap_append, List.flatMap_singleton, List.append_assoc]

theorem ps2Stream_snoc : q.ps2Stream (events ++ [e]) = q.ps2Stream events ++ e.ps2Bytes := by
  rw [ps2Stream, ps2Stream, List.flatMap_append, List.flatMap_singleton, List.append_assoc]

theorem serialBehind_snoc : q.serialBehind (events ++ [e]) =
    (scanAll decodeSerialByte e.serialBytes (q.serialBehind events)).2 := by
  rw [serialBehind, serialStream_snoc, Lib.scanAll_append, serialBehind]

theorem ps2Behind_snoc :
    q.ps2Behind (events ++ [e]) = (Decoder.decodeAll e.ps2Bytes (q.ps2Behind events)).2 := by
  rw [ps2Behind, ps2Stream_snoc, Decoder.decodeAll, Lib.scanAll_append]
  rfl

theorem arrived_snoc (q : Queues) (events : List Event) (e : Event) (s : Source) :
    q.arrived (events ++ [e]) s =
      q.arrived events s ++ brought (q.serialBehind events) (q.ps2Behind events) e s := by
  cases s with
  | serial =>
    rw [arrived, serialStream_snoc, Lib.scanAll_append]
    rfl
  | hid =>
    rw [arrived, List.flatMap_append, List.flatMap_singleton, ← List.append_assoc]
    rfl
  | ps2 =>
    rw [arrived, ps2Stream_snoc, Decoder.decodeAll, Lib.scanAll_append, List.map_append]
    rfl
  | held => exact (List.append_nil _).symm

theorem arrived_nil (q : Queues) : q.arrived [] .held = q.typeahead ∧
    ∀ s, s ≠ .held → q.arrived [] s = q.pending s := by
  refine ⟨rfl, fun s hs => ?_⟩
  cases s with
  | serial =>
    rw [arrived, serialStream, List.flatMap_nil, List.append_nil]
    rfl
  | hid => exact List.append_nil _
  | ps2 =>
    rw [arrived, ps2Stream, List.flatMap_nil, List.append_nil]
    rfl
  | held => contradiction

theorem valid_start (scanSet2 : Bool) : (start scanSet2).Valid :=
  ⟨fun _ => rfl, fun _ => rfl, Nat.zero_le _, fun _ h => nomatch h⟩

/-- What an event that is no poll does: its keys wait behind those of their source. -/
structure Arrival (q : Queues) (e : Event) (q' : Queues) : Prop where
  pending : ∀ s, q'.pending s = q.pending s ++ brought q.serial.scan.2 q.ps2Scan.2 e s
  serial : q'.serial.scan.2 = (scanAll decodeSerialByte e.serialBytes q.serial.scan.2).2
  ps2 : q'.ps2Scan.2 = (Decoder.decodeAll e.ps2Bytes q.ps2Scan.2).2
  typeahead : q'.typeahead = q.typeahead
  cancelFlag : q'.cancelFlag = q.cancelFlag
  valid : q'.Valid

theorem arrival_of_same (hserial : q'.serial.scan = q.serial.scan) (hps2 : q'.ps2Scan = q.ps2Scan)
    (hhid : q'.pending .hid = q.pending .hid) (htypeahead : q'.typeahead = q.typeahead)
    (hflag : q'.cancelFlag = q.cancelFlag) (hvalid : q'.Valid)
    (h1 : e.serialBytes = []) (h2 : e.ps2Bytes = []) (h3 : e.usbKeys = []) :
    Arrival q e q' where
  pending s := by
    cases s with
    | serial =>
      rw [pending, hserial, brought, h1, Lib.scanAll_nil, List.append_nil]
      rfl
    | hid => rw [hhid, brought, h3, List.append_nil]
    | ps2 =>
      rw [pending, hps2, brought, h2]
      exact (List.append_nil _).symm
    | held => rfl
  serial := by rw [hserial, h1, Lib.scanAll_nil]
  ps2 := by rw [hps2, h2]; rfl
  typeahead := htypeahead
  cancelFlag := hflag
  valid := hvalid

theorem arrival (hvalid : q.Valid) (hfits : q.Fits) (hpossible : q.Possible e)
    (hpoll : e ≠ .pollCancel) : Arrival q e (q.step e) := by
  cases e with
  | pollCancel => contradiction
  | serialByte b =>
    have hscan : (q.step (.serialByte b)).serial.scan =
        (q.serial.scan.1 ++ (scanAll decodeSerialByte [b] q.serial.scan.2).1,
          (scanAll decodeSerialByte [b] q.serial.scan.2).2) := by
      rw [SerialPort.scan, SerialPort.scan, ← Lib.scanAll_append]
      show scanAll _ (q.serial.ring ++ (q.serial.uart ++ [b])) _ = _
      rw [← List.append_assoc]
      rfl
    refine ⟨fun s => ?_, by rw [hscan]; rfl, rfl, rfl, rfl,
      ⟨fun h => ?_, hvalid.ps2, hvalid.controller, hvalid.typeahead⟩⟩
    · cases s with
      | serial => exact congrArg Prod.fst hscan
      | hid => exact (List.append_nil _).symm
      | ps2 => exact (List.append_nil _).symm
      | held => rfl
    · exact absurd h (ne_of_eq_of_ne hpossible (by decide))
  | serialIrq =>
    obtain ⟨h1, h2, h3, h4⟩ := SerialPort.drainUart_spec rxPollBudget hfits.1
    refine arrival_of_same ?_ rfl rfl rfl rfl ⟨fun h => ?_, hvalid.ps2, hvalid.controller,
      hvalid.typeahead⟩ rfl rfl rfl
    · show scanAll _ (SerialPort.drainUart rxPollBudget q.serial).bytes
        (SerialPort.drainUart rxPollBudget q.serial).decoder = _
      rw [h1, h2]
      rfl
    · exact h4 (hvalid.uart (h3 ▸ h))
  | ps2Byte b aux =>
    have hbytes : (q.step (.ps2Byte b aux)).ps2Bytes =
        q.ps2Bytes ++ (Event.ps2Byte b aux).ps2Bytes := by
      show q.keyboard.queue ++ ((q.controller ++ [(b, aux)]).filter _).map _ = _
      rw [List.filter_append, List.map_append, ← List.append_assoc]
      cases aux <;> rfl
    have hscan : (q.step (.ps2Byte b aux)).ps2Scan =
        (q.ps2Scan.1 ++ (Decoder.decodeAll (Event.ps2Byte b aux).ps2Bytes q.ps2Scan.2).1,
          (Decoder.decodeAll (Event.ps2Byte b aux).ps2Bytes q.ps2Scan.2).2) := by
      rw [ps2Scan, hbytes]
      exact Lib.scanAll_append ..
    refine ⟨fun s => ?_, rfl, by rw [hscan], rfl, rfl, ⟨hvalid.uart, fun h => ?_, ?_,
      hvalid.typeahead⟩⟩
    · cases s with
      | serial => exact (List.append_nil _).symm
      | hid => exact (List.append_nil _).symm
      | ps2 =>
        rw [pending, hscan, List.map_append]
        rfl
      | held => rfl
    · exact absurd h (ne_of_eq_of_ne hpossible.1 (by decide))
    · show (q.controller ++ [(b, aux)]).length ≤ controllerRoom
      rw [List.length_append]
      exact hpossible.2
  | ps2Irq =>
    obtain ⟨h1, h2, keyboard, controller, heq, h3, h4⟩ := drainInterrupt_spec 32 hfits.2
    have hstep : q.step .ps2Irq = { q with keyboard, controller } := heq
    rw [heq] at h1 h2
    rw [hstep]
    refine arrival_of_same rfl ?_ rfl rfl rfl ⟨hvalid.uart, fun h => ?_,
      Nat.le_trans h2 hvalid.controller, hvalid.typeahead⟩ rfl rfl rfl
    · rw [ps2Scan, h1, h3]
      rfl
    · rw [h1]
      exact hvalid.ps2 (h4 ▸ h)
  | usbKey key =>
    refine ⟨fun s => ?_, rfl, rfl, rfl, rfl, ⟨hvalid.uart, hvalid.ps2, hvalid.controller,
      hvalid.typeahead⟩⟩
    cases s with
    | serial => exact (List.append_nil _).symm
    | hid => exact (List.append_assoc ..).symm
    | ps2 => exact (List.append_nil _).symm
    | held => rfl
  | usbPoll =>
    refine arrival_of_same rfl rfl ?_ rfl rfl ⟨hvalid.uart, hvalid.ps2, hvalid.controller,
      hvalid.typeahead⟩ rfl rfl rfl
    exact List.append_nil _

theorem brought_pollCancel (serial : SerialDecoder) (ps2 : Decoder) (s : Source) :
    brought serial ps2 .pollCancel s = [] := by
  cases s <;> rfl

theorem pollCancel_cases (q : Queues) :
    q.pollCancel = q.poll.2 ∨ q.pollCancel = q.poll.2.requestCancel ∨
      ∃ key : Key, key.isCancel = false ∧
        q.pollCancel = { q.poll.2 with typeahead := q.poll.2.typeahead ++ [key] } := by
  rw [pollCancel]
  cases q.poll with
  | mk key q' =>
    cases key with
    | none => exact .inl rfl
    | some key =>
      cases hcancel : key.isCancel with
      | true => exact .inr (.inl (by simp only [hcancel, if_true]))
      | false =>
        simp only [hcancel, Bool.false_eq_true, if_false, pushBack]
        split
        · exact .inr (.inr ⟨key, hcancel, rfl⟩)
        · exact .inl rfl

structure Follows (q : Queues) (events : List Event) (q' : Queues) : Prop where
  valid : q'.Valid
  serial : q'.serial.scan.2 = q.serialBehind events
  ps2 : q'.ps2Scan.2 = q.ps2Behind events

theorem follows_nil (hvalid : q.Valid) : Follows q [] q where
  valid := hvalid
  serial := by rw [serialBehind, serialStream, List.flatMap_nil, List.append_nil]; rfl
  ps2 := by rw [ps2Behind, ps2Stream, List.flatMap_nil, List.append_nil]; rfl

theorem follows_arrival (h : Follows q events q') (hfits : q'.Fits) (hpossible : q'.Possible e)
    (hpoll : e ≠ .pollCancel) : Follows q (events ++ [e]) (q'.step e) := by
  obtain ⟨-, hserial, hps2, -, -, hvalid⟩ := arrival h.valid hfits hpossible hpoll
  refine ⟨hvalid, ?_, ?_⟩
  · rw [hserial, serialBehind_snoc, h.serial]
  · rw [hps2, ps2Behind_snoc, h.ps2]

theorem follows_pollCancel (h : Follows q events q') (hfits : q'.Fits) :
    Follows q (events ++ [.pollCancel]) q'.pollCancel := by
  obtain ⟨hserial, hps2, hvalid, -⟩ := (poll_spec h.valid hfits).steady
  rw [h.serial] at hserial
  rw [h.ps2] at hps2
  have hserial' : q.serialBehind (events ++ [.pollCancel]) = q.serialBehind events :=
    serialBehind_snoc
  have hps2' : q.ps2Behind (events ++ [.pollCancel]) = q.ps2Behind events := ps2Behind_snoc
  rw [← hserial'] at hserial
  rw [← hps2'] at hps2
  rcases pollCancel_cases q' with heq | heq | ⟨key, hkey, heq⟩
  · rw [heq]
    exact ⟨hvalid, hserial, hps2⟩
  · rw [heq]
    exact ⟨⟨hvalid.uart, hvalid.ps2, hvalid.controller, hvalid.typeahead⟩, hserial, hps2⟩
  · rw [heq]
    refine ⟨⟨hvalid.uart, hvalid.ps2, hvalid.controller, fun k hk => ?_⟩, hserial, hps2⟩
    rcases List.mem_append.mp hk with hk | hk
    · exact hvalid.typeahead k hk
    · rw [List.mem_singleton.mp hk, hkey]

theorem follows_run (hvalid : q.Valid)
    (hrun : Along step (fun q e => q.Possible e ∧ q.Fits) q events) :
    Follows q events (q.run events) := by
  refine hrun.invariant (follows_nil hvalid) fun before q' e h he => ?_
  by_cases hpoll : e = .pollCancel
  · subst hpoll
    exact follows_pollCancel h he.2
  · exact follows_arrival h he.2 he.1 hpoll

end Queues

end Vibra.Input
