import Vibra.Usb.Ports

/-! # Ports of an EHCI host

`service_port` compares what is on a port with what the driver knows, and enumerates or forgets.
-/

namespace Vibra.Usb

/-- A `DeviceState` or a `StorageState`; the device it was made of is on record. -/
structure DeviceEntry where
  port : Nat
  address : Nat
  serial : Nat
deriving DecidableEq

structure Ehci where
  ports : Nat
  sockets : Nat → Socket
  nextAddress : Nat
  portFailures : Nat → Nat
  devices : List DeviceEntry
  storage : List DeviceEntry
  /-- How many addresses have been given out. -/
  allocated : Nat

namespace Ehci

open Function (update)

def setSocket (c : Ehci) (port : Nat) (s : Socket) : Ehci :=
  { c with sockets := update c.sockets port s }

def setFailures (c : Ehci) (port failures : Nat) : Ehci :=
  { c with portFailures := update c.portFailures port failures }

def known (c : Ehci) (port : Nat) : Bool := c.devices.any (·.port == port)

/-- The address that `alloc_address` gives out. -/
def nextAddressOf (next : Nat) : Nat := if next = 0 ∨ 127 ≤ next then 1 else next + 1

def allocAddress (c : Ehci) : Ehci :=
  { c with nextAddress := nextAddressOf c.nextAddress, allocated := c.allocated + 1 }

/-- `enumerate_port`, and whether it returns `Ok`. -/
def enumeratePort (c : Ehci) (port : Nat) (e : Enumeration) : Ehci × Bool :=
  let s := c.sockets port
  let c := if e.Asks then c.allocAddress else c
  let c := c.setSocket port (s.enumerate e c.nextAddress c.allocated)
  match e with
  | .done storage =>
    let entry := ⟨port, c.nextAddress, s.serial⟩
    ({ c with
      devices := c.devices ++ [entry]
      storage := if storage then c.storage ++ [entry] else c.storage }, true)
  | _ => (c, false)

def removePort (c : Ehci) (port : Nat) : Ehci :=
  { c with
    storage := c.storage.filter (·.port ≠ port)
    devices := c.devices.filter (·.port ≠ port) }

def clearPortChanges (c : Ehci) (port : Nat) : Ehci :=
  c.setSocket port { c.sockets port with changed := false }

/-- `service_port`; `e` is how far an enumeration gets, if there is one. -/
def servicePort (c : Ehci) (port : Nat) (force : Bool) (e : Enumeration) : Ehci :=
  let s := c.sockets port
  let known := c.known port
  if !s.changed ∧ s.connected = known then c
  else
    let c := c.clearPortChanges port
    let c := if s.changed then c.setFailures port 0 else c
    if s.connected ∧ !known then
      if 0 < c.portFailures port ∧ !force then c
      else
        match c.enumeratePort port e with
        | (c, true) => c.setFailures port 0
        | (c, false) => c.setFailures port (min 255 (c.portFailures port + 1))
    else if !s.connected ∧ known then c.removePort port
    else c

/-- What happens at a host, one port at a time. -/
inductive Event where
  | plug (port : Nat)
  | unplug (port : Nat)
  | service (port : Nat) (force : Bool) (e : Enumeration)
  /-- `retry_failed` forgets that the port has failed. -/
  | forgive (port : Nat)

def step (c : Ehci) : Event → Ehci
  | .plug port => c.setSocket port (c.sockets port).plug
  | .unplug port => c.setSocket port (c.sockets port).unplug
  | .service port force e => c.servicePort port force e
  | .forgive port => c.setFailures port 0

/-- `poll_hotplug` and `enumerate_now` service the ports one after the other. -/
def pollHotplug (c : Ehci) (e : Nat → Enumeration) : List Event :=
  (List.range' 1 c.ports).map fun port => .service port false (e port)

def Enumerates (c : Ehci) (port : Nat) (force : Bool) : Prop :=
  (c.sockets port).connected = true ∧ c.known port = false ∧
    ((c.sockets port).changed = true ∨ c.portFailures port = 0 ∨ force = true)

instance (c : Ehci) (port : Nat) (force : Bool) : Decidable (c.Enumerates port force) :=
  inferInstanceAs (Decidable (_ ∧ _))

/-! ## What a service does -/

variable {c : Ehci} {port : Nat} {force : Bool} {e : Enumeration}

theorem enumeratePort_addresses (c : Ehci) (port : Nat) (e : Enumeration) :
    (c.enumeratePort port e).1.sockets = update c.sockets port
        ((c.sockets port).enumerate e (nextAddressOf c.nextAddress) (c.allocated + 1)) ∧
      ((c.enumeratePort port e).1.nextAddress, (c.enumeratePort port e).1.allocated) =
        if e.Asks then (nextAddressOf c.nextAddress, c.allocated + 1)
        else (c.nextAddress, c.allocated) := by
  rcases e with _ | _ | (_ | _) | _ | _ <;> exact ⟨rfl, rfl⟩

def acknowledged (c : Ehci) (port : Nat) : Ehci :=
  if (c.sockets port).changed then (c.clearPortChanges port).setFailures port 0
  else c.clearPortChanges port

theorem acknowledged_eq (c : Ehci) (port : Nat) :
    (c.acknowledged port).sockets =
        update c.sockets port { c.sockets port with changed := false } ∧
      (c.acknowledged port).nextAddress = c.nextAddress ∧
      (c.acknowledged port).allocated = c.allocated := by
  unfold acknowledged
  split <;> exact ⟨rfl, rfl, rfl⟩

theorem servicePort_enumerates (h : c.Enumerates port force) : ∃ failures,
    c.servicePort port force e =
      ((c.acknowledged port).enumeratePort port e).1.setFailures port failures := by
  obtain ⟨hconnected, hknown, hfailures⟩ := h
  have hblocked : ¬(0 < (c.acknowledged port).portFailures port ∧ (!force) = true) := by
    unfold acknowledged
    rcases hfailures with hchanged | hzero | hforce
    · rw [if_pos hchanged]
      simp [setFailures]
    · split <;> simp [setFailures, clearPortChanges, setSocket, hzero]
    · simp [hforce]
  have hservice : c.servicePort port force e =
      match (c.acknowledged port).enumeratePort port e with
      | (c, true) => c.setFailures port 0
      | (c, false) => c.setFailures port (min 255 (c.portFailures port + 1)) := by
    unfold servicePort
    dsimp only
    rw [if_neg (by simp [hconnected, hknown]), if_pos (by simp [hconnected, hknown])]
    exact if_neg hblocked
  rw [hservice]
  rcases (c.acknowledged port).enumeratePort port e with ⟨c', _ | _⟩
  · exact ⟨_, rfl⟩
  · exact ⟨_, rfl⟩

theorem servicePort_addresses (h : c.Enumerates port force) :
    (c.servicePort port force e).sockets = update c.sockets port
        ((c.sockets port).enumerate e (nextAddressOf c.nextAddress) (c.allocated + 1)) ∧
      ((c.servicePort port force e).nextAddress, (c.servicePort port force e).allocated) =
        if e.Asks then (nextAddressOf c.nextAddress, c.allocated + 1)
        else (c.nextAddress, c.allocated) := by
  obtain ⟨failures, hservice⟩ := servicePort_enumerates (e := e) h
  obtain ⟨hsockets, hnext, hallocated⟩ := c.acknowledged_eq port
  obtain ⟨hsockets', hcounters⟩ := (c.acknowledged port).enumeratePort_addresses port e
  rw [hnext, hallocated] at hcounters
  rw [hnext, hallocated, hsockets, Function.update_self, Function.update_idem] at hsockets'
  rw [hservice]
  exact ⟨hsockets', hcounters⟩

theorem servicePort_cases (h : ¬ c.Enumerates port force) :
    ((c.sockets port).connected = false ∧ c.known port = true ∧
        c.servicePort port force e = (c.acknowledged port).removePort port) ∨
      (¬((c.sockets port).connected = false ∧ c.known port = true) ∧
        (c.servicePort port force e = c ∨ c.servicePort port force e = c.acknowledged port)) := by
  have hservice : c.servicePort port force e =
      if !(c.sockets port).changed ∧ (c.sockets port).connected = c.known port then c
      else if (c.sockets port).connected ∧ !c.known port then
        if 0 < (c.acknowledged port).portFailures port ∧ !force then c.acknowledged port
        else
          match (c.acknowledged port).enumeratePort port e with
          | (c, true) => c.setFailures port 0
          | (c, false) => c.setFailures port (min 255 (c.portFailures port + 1))
      else if !(c.sockets port).connected ∧ c.known port then (c.acknowledged port).removePort port
      else c.acknowledged port := rfl
  rw [hservice]
  cases hconnected : (c.sockets port).connected <;> cases hknown : c.known port
  · simp only [Bool.false_eq_true, false_and, and_false, if_false, not_false_eq_true, true_and,
      false_or]
    split
    · exact Or.inl rfl
    · exact Or.inr rfl
  · simp
  · have hblocked : 0 < (c.acknowledged port).portFailures port ∧ (!force) = true := by
      by_contra hopen
      refine h ⟨hconnected, hknown, ?_⟩
      unfold acknowledged at hopen
      cases hchanged : (c.sockets port).changed with
      | true => exact Or.inl rfl
      | false =>
        refine Or.inr ?_
        cases force with
        | true => exact Or.inr rfl
        | false =>
          simp [hchanged, clearPortChanges, setSocket] at hopen
          exact Or.inl hopen
    rw [if_pos hblocked]
    simp
  · simp only [Bool.not_true, Bool.false_eq_true, Bool.true_eq_false, false_and, and_false,
      if_false, not_false_eq_true, true_and, false_or]
    split
    · exact Or.inl rfl
    · exact Or.inr rfl

theorem enumeratePort_entries (c : Ehci) (port : Nat) (e : Enumeration) :
    let entry := ⟨port, nextAddressOf c.nextAddress, (c.sockets port).serial⟩
    (c.enumeratePort port e).1.devices = c.devices ++ (if e.ok then [entry] else []) ∧
      (c.enumeratePort port e).1.storage =
        c.storage ++ (if e = .done true then [entry] else []) := by
  rcases e with _ | _ | (_ | _) | _ | (_ | _) <;>
    simp [enumeratePort, setSocket, allocAddress, Enumeration.Asks, Enumeration.ok]

theorem servicePort_entries (c : Ehci) (port : Nat) (force : Bool) (e : Enumeration) :
    let c' := c.servicePort port force e
    let entry := ⟨port, nextAddressOf c.nextAddress, (c.sockets port).serial⟩
    if c.Enumerates port force then
      c'.devices = c.devices ++ (if e.ok then [entry] else []) ∧
        c'.storage = c.storage ++ (if e = .done true then [entry] else [])
    else if (c.sockets port).connected = false ∧ c.known port = true then
      c'.devices = c.devices.filter (·.port ≠ port) ∧
        c'.storage = c.storage.filter (·.port ≠ port)
    else c'.devices = c.devices ∧ c'.storage = c.storage := by
  have hlists : (c.acknowledged port).devices = c.devices ∧
      (c.acknowledged port).storage = c.storage ∧
      (c.acknowledged port).nextAddress = c.nextAddress ∧
      ((c.acknowledged port).sockets port).serial = (c.sockets port).serial := by
    unfold acknowledged
    split <;> exact ⟨rfl, rfl, rfl, by simp [setFailures, clearPortChanges, setSocket]⟩
  obtain ⟨hdevices, hstorage, hnext, hserial⟩ := hlists
  dsimp only
  split
  · rename_i henumerates
    obtain ⟨failures, hservice⟩ := servicePort_enumerates (e := e) henumerates
    have hmade := (c.acknowledged port).enumeratePort_entries port e
    rw [hdevices, hstorage, hnext, hserial] at hmade
    rw [hservice]
    exact hmade
  · rename_i hidle
    rcases servicePort_cases (e := e) hidle with ⟨hgone, hknown, hservice⟩ | ⟨hstays, hservice⟩
    · rw [if_pos ⟨hgone, hknown⟩, hservice, ← hdevices, ← hstorage]
      exact ⟨rfl, rfl⟩
    · rw [if_neg hstays]
      rcases hservice with hservice | hservice
      · rw [hservice]
        exact ⟨rfl, rfl⟩
      · rw [hservice]
        exact ⟨hdevices, hstorage⟩

theorem servicePort_sockets (c : Ehci) (port : Nat) (force : Bool) (e : Enumeration) :
    (c.servicePort port force e).ports = c.ports ∧
      ∀ p, ((c.servicePort port force e).sockets p).connected = (c.sockets p).connected ∧
        ((c.servicePort port force e).sockets p).serial = (c.sockets p).serial ∧
        (p ≠ port → (c.servicePort port force e).sockets p = c.sockets p) := by
  have hupdate (s : Socket) (hconnected : s.connected = (c.sockets port).connected)
      (hserial : s.serial = (c.sockets port).serial) (p : Nat) :
      (update c.sockets port s p).connected = (c.sockets p).connected ∧
        (update c.sockets port s p).serial = (c.sockets p).serial ∧
        (p ≠ port → update c.sockets port s p = c.sockets p) := by
    rcases eq_or_ne p port with rfl | hne
    · rw [Function.update_self]
      exact ⟨hconnected, hserial, fun h => absurd rfl h⟩
    · rw [Function.update_of_ne hne]
      exact ⟨rfl, rfl, fun _ => rfl⟩
  have hports : (c.acknowledged port).ports = c.ports := by
    unfold acknowledged
    split <;> rfl
  by_cases henumerates : c.Enumerates port force
  · refine ⟨?_, ?_⟩
    · obtain ⟨failures, hservice⟩ := servicePort_enumerates (e := e) henumerates
      rw [hservice]
      rcases e with _ | _ | (_ | _) | _ | _ <;> exact hports
    · rw [(servicePort_addresses henumerates).1]
      unfold Socket.enumerate
      split <;> exact hupdate _ rfl rfl
  · have hkept : (c.acknowledged port).sockets =
        update c.sockets port { c.sockets port with changed := false } := (c.acknowledged_eq port).1
    rcases servicePort_cases (e := e) henumerates with ⟨_, _, hservice⟩ | ⟨_, hservice | hservice⟩
    · have hremoved : ((c.acknowledged port).removePort port).sockets = _ := hkept
      rw [hservice, hremoved]
      exact ⟨hports, hupdate _ rfl rfl⟩
    · rw [hservice]
      exact ⟨rfl, fun p => ⟨rfl, rfl, fun _ => rfl⟩⟩
    · rw [hservice, hkept]
      exact ⟨hports, hupdate _ rfl rfl⟩

end Ehci

end Vibra.Usb
