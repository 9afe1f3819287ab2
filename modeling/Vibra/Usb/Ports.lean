import Mathlib.Logic.Function.Basic
import Mathlib.Data.Nat.Basic

/-! # Root ports

What is on a root port, and what an enumeration of it comes to.
-/

namespace Vibra.Usb

structure Socket where
  connected : Bool
  changed : Bool
  /-- How often a device has been plugged in here. -/
  serial : Nat
  /-- What the device answers to, once it has taken an address. -/
  address : Option Nat
  /-- The address was given out as this one of its host. -/
  stamp : Nat

namespace Socket

def plug (s : Socket) : Socket :=
  if s.connected then s
  else { s with connected := true, changed := true, serial := s.serial + 1, address := none }

def unplug (s : Socket) : Socket :=
  if s.connected then { s with connected := false, changed := true, address := none } else s

theorem plug_cases (s : Socket) : s.plug = s ∨ s.plug.address = none := by
  unfold plug
  split
  · exact Or.inl rfl
  · exact Or.inr rfl

theorem unplug_cases (s : Socket) : s.unplug = s ∨ s.unplug.address = none := by
  unfold unplug
  split
  · exact Or.inr rfl
  · exact Or.inl rfl

def reset (s : Socket) : Socket := { s with changed := false, address := none }

def take (s : Socket) (address stamp : Nat) : Socket := { s with address := some address, stamp }

end Socket

/-- How far an enumeration gets. The status of SET_ADDRESS may be lost after the device has taken
the address. -/
inductive Enumeration where
  | noReset
  | noDescriptor
  | noAddress (taken : Bool)
  | noConfiguration
  | done (storage : Bool)
deriving DecidableEq

namespace Enumeration

def Asks : Enumeration → Prop
  | noReset | noDescriptor => False
  | _ => True

def Gives : Enumeration → Prop
  | noReset | noDescriptor | noAddress false => False
  | _ => True

def ok : Enumeration → Bool
  | done _ => true
  | _ => false

instance : DecidablePred Asks := fun e => by cases e <;> unfold Asks <;> infer_instance

instance : DecidablePred Gives := fun e => by
  rcases e with _ | _ | (_ | _) | _ | _ <;> unfold Gives <;> infer_instance

end Enumeration

def Socket.enumerate (s : Socket) (e : Enumeration) (address stamp : Nat) : Socket :=
  if e.Gives then s.reset.take address stamp else s.reset

end Vibra.Usb
