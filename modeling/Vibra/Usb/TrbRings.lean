import Vibra.Lib.PhaseRing
import Vibra.Usb.Xhci

/-! # TRB rings in memory

A ring is a run of TRBs of four words. The driver writes a TRB word by word, the one with the cycle
bit last, and behind the last TRB of a lap the cycle bit of the link.
-/

namespace Vibra.Usb

open Lib (PhaseRing)

def trbLink : Nat := 6

structure TrbWords where
  lo : Nat
  hi : Nat
  status : Nat
  control : Nat

/-- What a TRB says; its cycle bit is not part of that. -/
structure TrbEntry where
  param : Nat
  status : Nat
  control : Nat

def TrbEntry.kind (t : TrbEntry) : Nat := t.control >>> 10 &&& 0x3F

namespace TrbWords

def cycle (w : TrbWords) : Bool := w.control.testBit 0

def kind (w : TrbWords) : Nat := w.control >>> 10 &&& 0x3F

def toggles (w : TrbWords) : Bool := w.control.testBit 1

def param (w : TrbWords) : Nat := w.hi <<< 32 ||| w.lo

def entry (w : TrbWords) : TrbEntry := ⟨w.param, w.status, w.control >>> 1 <<< 1⟩

end TrbWords

abbrev TrbMemory : Type := Nat → TrbWords

/-- A store of the driver; that to a link reads the word first. -/
inductive Store where
  | lo (address value : Nat)
  | hi (address value : Nat)
  | status (address value : Nat)
  | control (address value : Nat)
  | link (address : Nat) (cycle : Bool)

def Store.apply (m : TrbMemory) : Store → TrbMemory
  | .lo a v => Function.update m a { m a with lo := v }
  | .hi a v => Function.update m a { m a with hi := v }
  | .status a v => Function.update m a { m a with status := v }
  | .control a v => Function.update m a { m a with control := v }
  | .link a c =>
    Function.update m a { m a with control := (m a).control &&& 0xFFFFFFFE ||| c.toNat }

namespace Ring

def new (phys : Nat) : Ring := ⟨phys, 0, true⟩

def writeTrb (ring : Ring) (index param status control : Nat) : List Store :=
  let base := ring.phys + index * trbSize
  [.lo base (param % 2 ^ 32), .hi base (param >>> 32 % 2 ^ 32), .status base status,
    .control base control]

def initLink (ring : Ring) : List Store :=
  ring.writeTrb (ringTrbs - 1) ring.phys 0 (trbLink <<< 10 ||| 1 <<< 1 ||| ring.cycle.toNat)

/-- The stores of `push`, which leaves the ring as `Ring.push` says. -/
def pushStores (ring : Ring) (t : TrbEntry) : List Store :=
  ring.writeTrb ring.index t.param t.status (t.control ||| ring.cycle.toNat) ++
    if ringTrbs - 1 ≤ ring.index + 1 then
      [.link (ring.phys + (ringTrbs - 1) * trbSize) ring.cycle]
    else []

end Ring

/-- A TRB before it gets its cycle bit. -/
structure TrbData extends TrbEntry where
  param_lt : param < 2 ^ 64
  no_cycle : control.testBit 0 = false

/-- What the driver puts on a ring is no link. -/
structure PushedTrb extends TrbData where
  no_link : toTrbEntry.kind ≠ trbLink

def TrbData.words (t : TrbData) (c : Bool) : TrbWords :=
  ⟨t.param % 2 ^ 32, t.param >>> 32 % 2 ^ 32, t.status, t.control ||| c.toNat⟩

structure Dequeue where
  pointer : Nat
  cycle : Bool

/-- It stops at a TRB with the other cycle bit and goes on where a link says. -/
def Dequeue.step (m : TrbMemory) (d : Dequeue) : Option TrbEntry × Dequeue :=
  let w := m d.pointer
  if w.cycle ≠ d.cycle then (none, d)
  else if w.kind = trbLink then (none, ⟨w.param, if w.toggles then !d.cycle else d.cycle⟩)
  else (some w.entry, ⟨d.pointer + trbSize, d.cycle⟩)

/-- A ring, the stores of a `push` that are still to be made, and what has been put on it and
read from it. -/
structure Pipe where
  ring : Ring
  memory : TrbMemory
  stores : List Store
  controller : Dequeue
  pushed : List TrbEntry
  consumed : List TrbEntry

namespace Pipe

inductive Action where
  | push (trb : PushedTrb)
  | store
  | consume

def maxWaiting : Nat := 254

/-- A `push` begins when the one before has ended and the controller is not too far behind;
a step that does not apply changes nothing. -/
def step (s : Pipe) : Action → Pipe
  | .push trb =>
    if s.stores = [] ∧ s.pushed.length < s.consumed.length + maxWaiting then
      { s with
        stores := s.ring.pushStores trb.toTrbEntry
        ring := s.ring.push
        pushed := s.pushed ++ [trb.toTrbEntry] }
    else s
  | .store =>
    match s.stores with
    | [] => s
    | store :: rest => { s with memory := store.apply s.memory, stores := rest }
  | .consume =>
    let (entry, controller) := s.controller.step s.memory
    { s with controller, consumed := s.consumed ++ entry.toList }

def run (s : Pipe) (actions : List Action) : Pipe := actions.foldl step s

/-- A ring of zeroes with its link, and the controller told where it begins. -/
def start (phys : Nat) : Pipe where
  ring := Ring.new phys
  memory := (Ring.new phys).initLink.foldl Store.apply fun _ => ⟨0, 0, 0, 0⟩
  stores := []
  controller := ⟨phys, true⟩
  pushed := []
  consumed := []

end Pipe

end Vibra.Usb
