import Mathlib.Data.Nat.Bitwise
import Vibra.Disk.BulkOnly
import Vibra.Dma.Drivers
import Vibra.Lib.Toggle

/-! # Transfers and their data toggles

The bit that a driver gives to the first packet of a transfer: an EHCI qTD has one, which counts
only if the queue head says so, and a UHCI TD has one in its token.
-/

namespace Vibra.Usb

open Lib (Dialog Traffic)
open Lib.Dialog (question)

/-! ## EHCI -/

/-- The words of a queue head that bear on the data toggle: the second one, and the token of the
overlay. -/
structure Qh where
  info : Nat
  token : Nat

namespace Qh

/-- `configure` sets all words. -/
def configure (address endpoint maxPacket : Nat) (highSpeed head : Bool) : Qh :=
  let eps := if highSpeed then 2 else 0
  let word := (maxPacket &&& 0x7FF) <<< 16 ||| eps <<< 12 ||| (endpoint &&& 0x0F) <<< 8 |||
    (address &&& 0x7F) ||| 8 <<< 28
  let word := if head then word ||| 1 <<< 15 else word
  let word := if endpoint = 0 ∧ !highSpeed then word ||| 1 <<< 27 else word
  ⟨word, 0⟩

def start (qh : Qh) : Qh := { qh with token := 0 }

/-- The bit of the first packet. The queue head says with its bit 14 whether that of the qTD
counts, or else that of the overlay. -/
def firstToggle (qh : Qh) (token : Nat) : Bool :=
  if qh.info.testBit 14 then token.testBit 31 else qh.token.testBit 31

theorem configure_info (address endpoint maxPacket : Nat) (highSpeed head : Bool) :
    (configure address endpoint maxPacket highSpeed head).info.testBit 14 = false := by
  have hsmall (n k i : Nat) (hk : k < 2 ^ i) : (n &&& k).testBit i = false := by
    rw [Nat.testBit_and, Nat.testBit_lt_two_pow hk, Bool.and_false]
  have heps : (if highSpeed = true then 2 else 0).testBit 2 = false := by
    cases highSpeed <;> decide
  have hword : ((maxPacket &&& 0x7FF) <<< 16 ||| (if highSpeed then 2 else 0) <<< 12 |||
      (endpoint &&& 0x0F) <<< 8 ||| (address &&& 0x7F) ||| 8 <<< 28).testBit 14 = false := by
    have hpacket : ((maxPacket &&& 0x7FF) <<< 16).testBit 14 = false := by
      simp [Nat.testBit_shiftLeft]
    have hspeed : ((if highSpeed then 2 else 0) <<< 12).testBit 14 = false := by
      rw [Nat.testBit_shiftLeft, heps]
      rfl
    have hendpoint : ((endpoint &&& 0x0F) <<< 8).testBit 14 = false := by
      rw [Nat.testBit_shiftLeft, hsmall _ _ _ (by decide)]
      rfl
    have haddress : (address &&& 0x7F).testBit 14 = false := hsmall _ _ _ (by decide)
    rw [Nat.testBit_or, Nat.testBit_or, Nat.testBit_or, Nat.testBit_or, hpacket, hspeed, hendpoint,
      haddress]
    decide
  have hflag (word flag : Nat) (hword : word.testBit 14 = false) (hflag : flag.testBit 14 = false) :
      (word ||| flag).testBit 14 = false := by
    rw [Nat.testBit_or, hword, hflag]
    rfl
  unfold configure
  dsimp only
  split <;> split
  · exact hflag _ _ (hflag _ _ hword (by decide)) (by decide)
  · exact hflag _ _ hword (by decide)
  · exact hflag _ _ hword (by decide)
  · exact hword

theorem firstToggle_start (address endpoint maxPacket : Nat) (highSpeed head : Bool)
    (token : Nat) :
    (configure address endpoint maxPacket highSpeed head).start.firstToggle token = false := by
  have hinfo := configure_info address endpoint maxPacket highSpeed head
  unfold firstToggle start
  dsimp only
  rw [hinfo]
  exact Nat.zero_testBit 31

end Qh

def pidOut : Nat := 0
def pidIn : Nat := 1

/-- The token of `Qtd::build`. -/
def qtdToken (pid total dt : Nat) (ioc : Bool) : Nat :=
  1 <<< 7 ||| pid <<< 8 ||| 3 <<< 10 ||| (total &&& 0x7FFF) <<< 16 ||| dt <<< 31 |||
    if ioc then 1 <<< 15 else 0

/-- A `StorageState`. -/
structure BulkPipe where
  address : Nat
  inAddress : Nat
  outAddress : Nat
  inMaxPacket : Nat
  outMaxPacket : Nat
  highSpeed : Bool
  interface : Nat
  maxTransfer : Nat
  positive : 0 < maxTransfer

/-- What the driver puts before the host: a qTD for an endpoint, with the bytes that go out, or a
control transfer. -/
inductive BusRequest where
  | qtd (dirIn : Bool) (qh : Qh) (token : Nat) (out : List UInt8)
  | control (bm request value index : Nat)

/-- What comes of it, with the number of packets that were exchanged; for a control transfer,
whether the device has carried it out. -/
inductive BusReply where
  | noMemory
  | timeout (packets : Nat)
  | ended (packets token : Nat) (data : List UInt8)
  | control (done : Bool)

def BusReply.packets : BusReply → Nat
  | timeout packets | ended packets _ _ => packets
  | noMemory | control _ => 0

def BusReply.data : BusReply → List UInt8
  | ended _ _ data => data
  | _ => []

/-- How many bytes of the chunk have been transferred. -/
def BusReply.transferred (dirIn : Bool) (chunk : Nat) : BusReply → Except UsbError Nat
  | noMemory => .error .noMemory
  | timeout _ | control _ => .error .timeout
  | ended _ token _ =>
    match Dma.tokenError token with
    | some e => .error e
    | none =>
      let transferred := chunk - Dma.tdResidual token
      if dirIn = false ∧ transferred ≠ chunk then .error .transferFailed else .ok transferred

abbrev BusDialog := Dialog BusRequest BusReply

namespace BulkPipe

variable (pipe : BulkPipe)

def endpoint (dirIn : Bool) : Nat := (if dirIn then pipe.inAddress else pipe.outAddress) &&& 0x0F

def maxPacket (dirIn : Bool) : Nat := if dirIn then pipe.inMaxPacket else pipe.outMaxPacket

/-- The loop of `bulk_inner`: the buffer is what has been done and the rest. -/
def bulkInner (dirIn : Bool) (done rest : List UInt8) (dt : Nat) :
    BusDialog (Except UsbError Nat × List UInt8) :=
  if _ : rest = [] then pure (.ok done.length, done)
  else do
    let chunk := rest.take pipe.maxTransfer
    let qh := Qh.configure pipe.address (pipe.endpoint dirIn) (pipe.maxPacket dirIn) pipe.highSpeed
      false
    let token := qtdToken (if dirIn then pidIn else pidOut) chunk.length dt true
    let reply ← question (.qtd dirIn qh.start token (if dirIn then [] else chunk))
    match reply.transferred dirIn chunk.length with
    | .error e => pure (.error e, done ++ rest)
    | .ok transferred =>
      let moved := if dirIn then reply.data.takeD transferred 0 else chunk
      if transferred < chunk.length then
        pure (.ok (done.length + transferred), done ++ moved ++ rest.drop transferred)
      else
        let packets := (transferred + pipe.maxPacket dirIn - 1) / pipe.maxPacket dirIn
        bulkInner dirIn (done ++ moved) (rest.drop chunk.length) ((dt + packets) % 2)
termination_by rest.length
decreasing_by
  have hpositive := pipe.positive
  have hrest := List.length_pos_iff.mpr ‹rest ≠ []›
  simp only [List.length_drop, List.length_take]
  omega

/-- `usb::bulk` on the device. -/
def bulk (dirIn : Bool) (data : List UInt8) (toggle : Nat) :
    BusDialog (Except UsbError Nat × List UInt8) :=
  if data = [] then pure (.ok 0, data) else pipe.bulkInner dirIn [] data (toggle % 2)

/-- A Bulk-Only Reset, and ClearFeature for either endpoint; what comes of them is not looked
at. -/
def resolveStall : BusDialog Unit := do
  let _ ← question (.control 0x21 0xFF 0 pipe.interface)
  let _ ← question (.control 0x02 1 0 pipe.inAddress)
  let _ ← question (.control 0x02 1 0 pipe.outAddress)

/-- The toggle that `bot` asks for. -/
def stageToggle : Disk.Stage → Nat
  | .command => 0
  | .data | .status => 1

/-- What the transport asks for, carried out on the device. -/
def carry : Disk.UsbRequest → BusDialog Disk.UsbReply
  | .bulk stage dirIn data => do
      let (result, data) ← pipe.bulk dirIn data (stageToggle stage)
      pure ⟨result.toOption, data, 0⟩
  | .resolveStall => do
      pipe.resolveStall
      pure ⟨none, [], 0⟩

/-- What an exchange means for the endpoints, in and out. -/
def trafficOf : BusRequest × BusReply → Option (Traffic Bool)
  | (.qtd dirIn qh token _, reply) =>
    some (.packets dirIn dirIn (qh.firstToggle token) reply.packets)
  | (.control bm request value index, .control true) =>
    if bm = 0x02 ∧ request = 1 ∧ value = 0 then
      if index = pipe.inAddress then some (.clear true)
      else if index = pipe.outAddress then some (.clear false)
      else none
    else none
  | _ => none

def traffic (log : List (BusRequest × BusReply)) : List (Traffic Bool) :=
  log.filterMap pipe.trafficOf

end BulkPipe

/-- A cycle of the transport, a command with its retries, or a reset of the transport. -/
inductive BotCommand where
  | bot (cdb data : List UInt8) (dirIn : Bool)
  | execute (cdb data : List UInt8) (dirIn : Bool)
  | resolveStall

/-- The commands, one after the other, whatever they return. -/
def performBot : List BotCommand → UInt32 → Disk.UsbDialog Unit
  | [], _ => pure ()
  | .bot cdb data dirIn :: commands, tag => do
      let outcome ← Disk.UsbDisk.bot tag cdb data dirIn
      performBot commands outcome.tag
  | .execute cdb data dirIn :: commands, tag => do
      let outcome ← Disk.UsbDisk.execute tag cdb data dirIn
      performBot commands outcome.tag
  | .resolveStall :: commands, tag => do
      let _ ← question .resolveStall
      performBot commands tag

namespace UhciTd

def pidIn : Nat := 0x69
def pidOut : Nat := 0xE1

def maxLenField (len : Nat) : Nat := if len = 0 then 0 else (len - 1) <<< 21

/-- The token that `setup_keyboard` makes; nothing writes it after that. -/
def keyboardToken (address endpoint maxPacket : Nat) : Nat :=
  pidIn ||| (address &&& 0x7F) <<< 8 ||| (endpoint &&& 0x0F) <<< 15 ||| maxLenField maxPacket

def bulkToken (pid address endpoint len : Nat) (toggle : Bool) : Nat :=
  pid ||| (address &&& 0x7F) <<< 8 ||| (endpoint &&& 0x0F) <<< 15 |||
    (if toggle then 1 <<< 19 else 0) ||| maxLenField len

def toggle (token : Nat) : Bool := token.testBit 19

section Toggle

variable (address endpoint len : Nat)

theorem testBit_maxLenField : (maxLenField len).testBit 19 = false := by
  unfold maxLenField
  split
  · exact Nat.zero_testBit 19
  · simp [Nat.testBit_shiftLeft]

theorem toggle_keyboardToken : toggle (keyboardToken address endpoint len) = false := by
  have hsmall (n k i : Nat) (hk : k < 2 ^ i) : (n &&& k).testBit i = false := by
    rw [Nat.testBit_and, Nat.testBit_lt_two_pow hk, Bool.and_false]
  have hpid : pidIn.testBit 19 = false := by decide
  simp [toggle, keyboardToken, Nat.testBit_or, Nat.testBit_shiftLeft, hsmall, hpid,
    testBit_maxLenField]

theorem toggle_bulkToken (dirIn bit : Bool) :
    toggle (bulkToken (if dirIn then pidIn else pidOut) address endpoint len bit) = bit := by
  have hsmall (n k i : Nat) (hk : k < 2 ^ i) : (n &&& k).testBit i = false := by
    rw [Nat.testBit_and, Nat.testBit_lt_two_pow hk, Bool.and_false]
  have hpid : (if dirIn then pidIn else pidOut).testBit 19 = false := by
    cases dirIn <;> decide
  have hbit : (if bit then 1 <<< 19 else 0).testBit 19 = bit := by cases bit <;> decide
  simp only [toggle, bulkToken, Nat.testBit_or, Nat.testBit_shiftLeft, hpid, hbit,
    testBit_maxLenField]
  simp [hsmall]

end Toggle

end UhciTd

inductive UhciEndpoint where
  | keyboard (index : Nat)
  | bulk (address endpoint : Nat) (dirIn : Bool)
deriving DecidableEq

/-- A `KeyboardSlot`: what its token is made of, and the state of its TD. -/
structure KeyboardTd where
  address : Nat
  endpoint : Nat
  maxPacket : Nat
  active : Bool
  failed : Bool

/-- The keyboards, and the toggle that the callers of `bulk` hold for an endpoint. -/
structure UhciQueues where
  keyboards : Nat → KeyboardTd
  toggles : UhciEndpoint → Bool

namespace UhciQueues

open Function (update)

/-- A keyboard answers the host with a report, which the host keeps or not; its TD fails; the
keyboards are polled; or `bulk` is called, which may move its one packet and may fail. -/
inductive Event where
  | report (keyboard : Nat) (kept : Bool)
  | fail (keyboard : Nat)
  | pollKeyboard
  | bulk (address endpoint : Nat) (dirIn : Bool) (len : Nat) (moved ok : Bool)

def setKeyboard (u : UhciQueues) (index : Nat) (td : KeyboardTd) : UhciQueues :=
  { u with keyboards := update u.keyboards index td }

def token (u : UhciQueues) (index : Nat) : Nat :=
  let td := u.keyboards index
  UhciTd.keyboardToken td.address td.endpoint td.maxPacket

def restart (td : KeyboardTd) : KeyboardTd :=
  if td.active then td else { td with active := true, failed := false }

def bufLen : Nat := 4096

def bulkToken (u : UhciQueues) (address endpoint : Nat) (dirIn : Bool) (len : Nat) : Nat :=
  UhciTd.bulkToken (if dirIn then UhciTd.pidIn else UhciTd.pidOut) address endpoint
    (min len bufLen) (u.toggles (.bulk address endpoint dirIn))

def step (u : UhciQueues) : Event → UhciQueues
  | .report index kept =>
    let td := u.keyboards index
    u.setKeyboard index { td with active := td.active && !kept }
  | .fail index =>
    let td := u.keyboards index
    if td.active then u.setKeyboard index { td with active := false, failed := true } else u
  | .pollKeyboard => { u with keyboards := fun index => restart (u.keyboards index) }
  | .bulk address endpoint dirIn len _ ok =>
    if len = 0 ∨ ok = false then u
    else
      let toggle := UhciTd.toggle (u.bulkToken address endpoint dirIn len)
      { u with toggles := update u.toggles (.bulk address endpoint dirIn) toggle }

/-- What an event means for the endpoints. -/
def traffic (u : UhciQueues) : Event → List (Traffic UhciEndpoint)
  | .report index _ =>
    if (u.keyboards index).active then
      [.packets (.keyboard index) true (UhciTd.toggle (u.token index)) 1]
    else []
  | .bulk address endpoint dirIn len moved _ =>
    if len ≠ 0 ∧ moved then
      [.packets (.bulk address endpoint dirIn) dirIn
        (UhciTd.toggle (u.bulkToken address endpoint dirIn len)) 1]
    else []
  | .fail _ | .pollKeyboard => []

def trafficAll : UhciQueues → List Event → List (Traffic UhciEndpoint)
  | _, [] => []
  | u, e :: events => u.traffic e ++ trafficAll (u.step e) events

/-- The keyboards are set up, and the callers begin with the toggle of a configured endpoint. -/
def start (keyboards : Nat → KeyboardTd) : UhciQueues := ⟨keyboards, fun _ => false⟩

end UhciQueues

end Vibra.Usb
