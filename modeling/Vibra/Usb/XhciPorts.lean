import Vibra.Usb.Ports

/-! # Ports of an xHCI host

A change of a port sets a bit of the port and puts an event on the ring. Whoever takes the event
clears the bit, and leaves a note that the ports want another look.
-/

namespace Vibra.Usb

/-- An entry of the driver; the port and the device it was made of are on record, also for a
`HidKeyboard`, which names its slot alone. -/
structure SlotEntry where
  slot : Nat
  port : Nat
  serial : Nat
deriving DecidableEq

/-- What an enumerated device is to the driver. -/
inductive Kind where
  | keyboard | storage | other
deriving DecidableEq

/-- How far `reset_port` and `enumerate_device` get. A device that has been addressed has a
slot. -/
inductive SlotEnumeration where
  | noReset
  | noSlot
  | noDescriptor (slot : Nat)
  | done (slot : Nat) (kind : Kind)

def SlotEnumeration.ok : SlotEnumeration → Bool
  | done _ _ => true
  | _ => false

def SlotEnumeration.slot : SlotEnumeration → Option Nat
  | noReset | noSlot => none
  | noDescriptor slot | done slot _ => some slot

/-- What the driver knows of the devices. -/
structure Books where
  devices : List SlotEntry
  storage : List SlotEntry
  slots : List SlotEntry
  keys : List SlotEntry

namespace Books

def known (b : Books) (port : Nat) : Bool := b.devices.any (·.port == port)

/-- The entries that `enumerate_device` makes. -/
def add (b : Books) (port serial : Nat) : SlotEnumeration → Books
  | .noReset | .noSlot => b
  | .noDescriptor slot => { b with slots := b.slots ++ [⟨slot, port, serial⟩] }
  | .done slot kind =>
    let entry := ⟨slot, port, serial⟩
    { slots := b.slots ++ [entry]
      keys := if kind = .keyboard then b.keys ++ [entry] else b.keys
      storage := if kind = .storage then b.storage ++ [entry] else b.storage
      devices := b.devices ++ [entry] }

def removePortDevices (b : Books) (port : Nat) : Books :=
  let slots := (b.devices.filter (·.port = port)).map (·.slot)
  { devices := b.devices.filter (·.port ≠ port)
    storage := b.storage.filter (·.port ≠ port)
    slots := b.slots.filter (·.port ≠ port)
    keys := b.keys.filter (·.slot ∉ slots) }

end Books

structure XhciPorts extends Books where
  maxPorts : Nat
  sockets : Nat → Socket
  /-- The event ring: the port of a change, or nothing for another event. -/
  events : List (Option Nat)
  rescan : Bool
  portFail : Nat → Nat

namespace XhciPorts

open Function (update)

def setSocket (c : XhciPorts) (port : Nat) (s : Socket) : XhciPorts :=
  { c with sockets := update c.sockets port s }

def setFail (c : XhciPorts) (index failures : Nat) : XhciPorts :=
  { c with portFail := update c.portFail index failures }

def portClearChanges (c : XhciPorts) (port : Nat) : XhciPorts :=
  c.setSocket port { c.sockets port with changed := false }

def announce (c : XhciPorts) (port : Nat) : XhciPorts :=
  { c with events := c.events ++ [some port] }

/-- The port comes to look like this. A change bit that is set already makes no event. -/
def turn (c : XhciPorts) (port : Nat) (s : Socket) : XhciPorts :=
  let c' := c.setSocket port s
  if s.changed ∧ !(c.sockets port).changed then c'.announce port else c'

def dispatchEvent (c : XhciPorts) : Option Nat → XhciPorts
  | some port =>
    if 1 ≤ port ∧ port ≤ c.maxPorts then { c.portClearChanges port with rescan := true } else c
  | none => c

def pollEvents (c : XhciPorts) : XhciPorts :=
  { (c.events.take 64).foldl dispatchEvent c with events := c.events.drop 65 }

def awaitCommand (c : XhciPorts) : XhciPorts :=
  { c.events.foldl dispatchEvent c with events := [] }

/-- `reset_port`, which changes the port when it succeeds, and `enumerate_device`. -/
def enumerateDevice (c : XhciPorts) (port : Nat) (e : SlotEnumeration) : XhciPorts :=
  match e with
  | .noReset => c
  | e =>
    let c := ((c.announce port).portClearChanges port).awaitCommand
    { c with toBooks := c.toBooks.add port (c.sockets port).serial e }

/-- A turn of the loop in `poll_hotplug`. -/
def look (c : XhciPorts) (rescan : Bool) (port : Nat) (e : SlotEnumeration) : XhciPorts :=
  let s := c.sockets port
  let known := c.known port
  if !s.changed ∧ !rescan ∧ s.connected = known then c
  else
    let c := c.portClearChanges port
    let c := if s.changed then c.setFail (port % 32) 0 else c
    if s.connected ∧ !known then
      if 0 < c.portFail (port % 32) then c
      else
        let c := c.enumerateDevice port e
        if c.known port then c
        else c.setFail (port % 32) (min 255 (c.portFail (port % 32) + 1))
    else if !s.connected ∧ known then { c with toBooks := c.toBooks.removePortDevices port }
    else c

/-- A turn of the loop in `enumerate_ports`. -/
def firstLook (c : XhciPorts) (port : Nat) (e : SlotEnumeration) : XhciPorts :=
  if !(c.sockets port).connected then c
  else if c.known port then c
  else (c.portClearChanges port).enumerateDevice port e

def Enumerates (c : XhciPorts) (port : Nat) : Prop :=
  (c.sockets port).connected = true ∧ c.known port = false ∧
    ((c.sockets port).changed = true ∨ c.portFail (port % 32) = 0)

instance (c : XhciPorts) (port : Nat) : Decidable (c.Enumerates port) :=
  inferInstanceAs (Decidable (_ ∧ _))

/-! ## What a turn does -/

structure Unmoved (c c' : XhciPorts) : Prop where
  maxPorts : c'.maxPorts = c.maxPorts
  connected : ∀ p, (c'.sockets p).connected = (c.sockets p).connected
  serial : ∀ p, (c'.sockets p).serial = (c.sockets p).serial

variable {c c' c'' : XhciPorts} {port : Nat} {e : SlotEnumeration} {rescan : Bool}

theorem Unmoved.refl (c : XhciPorts) : c.Unmoved c := ⟨rfl, fun _ => rfl, fun _ => rfl⟩

theorem Unmoved.trans (h : c.Unmoved c') (h' : c'.Unmoved c'') : c.Unmoved c'' :=
  ⟨h'.maxPorts.trans h.maxPorts, fun p => (h'.connected p).trans (h.connected p),
    fun p => (h'.serial p).trans (h.serial p)⟩

theorem unmoved_portClearChanges (c : XhciPorts) (port : Nat) :
    c.Unmoved (c.portClearChanges port) := by
  refine ⟨rfl, fun p => ?_, fun p => ?_⟩ <;>
  · unfold portClearChanges setSocket
    rcases eq_or_ne p port with rfl | hne
    · simp
    · simp [hne]

theorem dispatch_spec (c : XhciPorts) (events : List (Option Nat)) :
    c.Unmoved (events.foldl dispatchEvent c) ∧
      (events.foldl dispatchEvent c).toBooks = c.toBooks := by
  induction events generalizing c with
  | nil => exact ⟨.refl c, rfl⟩
  | cons event events ih =>
    have hone : c.Unmoved (c.dispatchEvent event) ∧ (c.dispatchEvent event).toBooks = c.toBooks := by
      cases event with
      | none => exact ⟨.refl c, rfl⟩
      | some port =>
        unfold dispatchEvent
        dsimp only
        split
        · obtain ⟨hmax, hconnected, hserial⟩ := c.unmoved_portClearChanges port
          exact ⟨⟨hmax, hconnected, hserial⟩, rfl⟩
        · exact ⟨.refl c, rfl⟩
    obtain ⟨hmoved, hbooks⟩ := ih (c.dispatchEvent event)
    exact ⟨hone.1.trans hmoved, hbooks.trans hone.2⟩

theorem pollEvents_spec (c : XhciPorts) :
    c.Unmoved c.pollEvents ∧ c.pollEvents.toBooks = c.toBooks := by
  obtain ⟨⟨hmax, hconnected, hserial⟩, hbooks⟩ := c.dispatch_spec (c.events.take 64)
  exact ⟨⟨hmax, hconnected, hserial⟩, hbooks⟩

theorem awaitCommand_spec (c : XhciPorts) :
    c.Unmoved c.awaitCommand ∧ c.awaitCommand.toBooks = c.toBooks := by
  obtain ⟨⟨hmax, hconnected, hserial⟩, hbooks⟩ := c.dispatch_spec c.events
  exact ⟨⟨hmax, hconnected, hserial⟩, hbooks⟩

theorem enumerateDevice_spec (c : XhciPorts) (port : Nat) (e : SlotEnumeration) :
    c.Unmoved (c.enumerateDevice port e) ∧
      (c.enumerateDevice port e).toBooks = c.toBooks.add port (c.sockets port).serial e := by
  have hcleared := (c.announce port).unmoved_portClearChanges port
  obtain ⟨hmoved, hbooks⟩ := ((c.announce port).portClearChanges port).awaitCommand_spec
  obtain ⟨hmax, hconnected, hserial⟩ := hcleared.trans hmoved
  have hentry := congrArg₂ (fun b n => Books.add b port n e) hbooks (hserial port)
  cases e with
  | noReset => exact ⟨.refl c, rfl⟩
  | noSlot => exact ⟨⟨hmax, hconnected, hserial⟩, hentry⟩
  | noDescriptor slot => exact ⟨⟨hmax, hconnected, hserial⟩, hentry⟩
  | done slot kind => exact ⟨⟨hmax, hconnected, hserial⟩, hentry⟩

def acknowledged (c : XhciPorts) (port : Nat) : XhciPorts :=
  if (c.sockets port).changed then (c.portClearChanges port).setFail (port % 32) 0
  else c.portClearChanges port

theorem acknowledged_spec (c : XhciPorts) (port : Nat) :
    c.Unmoved (c.acknowledged port) ∧ (c.acknowledged port).toBooks = c.toBooks := by
  obtain ⟨hmax, hconnected, hserial⟩ := c.unmoved_portClearChanges port
  unfold acknowledged
  split <;> exact ⟨⟨hmax, hconnected, hserial⟩, rfl⟩

theorem look_spec (c : XhciPorts) (rescan : Bool) (port : Nat) (e : SlotEnumeration) :
    c.Unmoved (c.look rescan port e) ∧
      (c.look rescan port e).toBooks =
        if c.Enumerates port then c.toBooks.add port (c.sockets port).serial e
        else if (c.sockets port).connected = false ∧ c.known port = true then
          c.toBooks.removePortDevices port
        else c.toBooks := by
  obtain ⟨hmoved, hbooks⟩ := c.acknowledged_spec port
  obtain ⟨hmoved', hbooks'⟩ := (c.acknowledged port).enumerateDevice_spec port e
  rw [hbooks, hmoved.serial] at hbooks'
  have hopen : (c.acknowledged port).portFail (port % 32) = 0 ↔
      (c.sockets port).changed = true ∨ c.portFail (port % 32) = 0 := by
    unfold acknowledged
    cases (c.sockets port).changed <;> simp [setFail, portClearChanges, setSocket]
  have hlook : c.look rescan port e =
      if !(c.sockets port).changed ∧ !rescan ∧ (c.sockets port).connected = c.known port then c
      else if (c.sockets port).connected ∧ !c.known port then
        if 0 < (c.acknowledged port).portFail (port % 32) then c.acknowledged port
        else
          let c := (c.acknowledged port).enumerateDevice port e
          if c.known port then c
          else c.setFail (port % 32) (min 255 (c.portFail (port % 32) + 1))
      else if !(c.sockets port).connected ∧ c.known port then
        { c.acknowledged port with toBooks := (c.acknowledged port).removePortDevices port }
      else c.acknowledged port := rfl
  rw [hlook]
  by_cases henumerates : c.Enumerates port
  · rw [if_pos henumerates]
    obtain ⟨hconnected, hknown, hfail⟩ := henumerates
    have hdone := hmoved.trans hmoved'
    simp only [hconnected, hknown, hopen.mpr hfail, Bool.true_eq_false, and_false, if_false,
      Bool.not_false, and_self, if_true, lt_irrefl]
    split
    · exact ⟨hdone, hbooks'⟩
    · exact ⟨⟨hdone.maxPorts, hdone.connected, hdone.serial⟩, hbooks'⟩
  · rw [if_neg henumerates]
    cases hconnected : (c.sockets port).connected <;> cases hknown : c.known port
    · simp only [Bool.false_eq_true, false_and, and_false, if_false]
      split
      · exact ⟨.refl c, rfl⟩
      · exact ⟨hmoved, hbooks⟩
    · simp only [Bool.false_eq_true, false_and, and_false, if_false, Bool.not_false, and_self,
        if_true]
      exact ⟨⟨hmoved.maxPorts, hmoved.connected, hmoved.serial⟩,
        congrArg (Books.removePortDevices · port) hbooks⟩
    · have hfail : (c.acknowledged port).portFail (port % 32) ≠ 0 := fun hzero =>
        henumerates ⟨hconnected, hknown, hopen.mp hzero⟩
      simp only [Nat.pos_of_ne_zero hfail, Bool.true_eq_false, and_false, false_and, if_false,
        Bool.not_false, and_self, if_true]
      exact ⟨hmoved, hbooks⟩
    · simp only [Bool.not_true, Bool.false_eq_true, Bool.true_eq_false, false_and, and_false,
        if_false]
      split
      · exact ⟨.refl c, rfl⟩
      · exact ⟨hmoved, hbooks⟩

theorem firstLook_spec (c : XhciPorts) (port : Nat) (e : SlotEnumeration) :
    c.Unmoved (c.firstLook port e) ∧
      (c.firstLook port e).toBooks =
        if (c.sockets port).connected = true ∧ c.known port = false then
          c.toBooks.add port (c.sockets port).serial e
        else c.toBooks := by
  have hcleared := c.unmoved_portClearChanges port
  obtain ⟨hmoved, hbooks⟩ := (c.portClearChanges port).enumerateDevice_spec port e
  rw [hcleared.serial] at hbooks
  unfold firstLook
  cases hconnected : (c.sockets port).connected <;> cases hknown : c.known port <;>
    simp only [Bool.not_true, Bool.not_false, Bool.false_eq_true, Bool.true_eq_false, false_and,
      and_false, and_self, if_false, if_true]
  · exact ⟨.refl c, trivial⟩
  · exact ⟨.refl c, trivial⟩
  · exact ⟨hcleared.trans hmoved, hbooks⟩
  · exact ⟨.refl c, trivial⟩

end XhciPorts

end Vibra.Usb
