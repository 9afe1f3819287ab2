import Vibra.Lib.Runs
import Vibra.Usb.Ehci

/-! # USB addresses

An EHCI host counts its addresses round from 1 to 127, and a UHCI host takes the number of
entries in the list of all UHCI devices. Neither looks at what is in use.
-/

namespace Vibra.Usb

open Function (update)
open Lib (Along)

def Unique (sockets : Nat → Socket) : Prop :=
  ∀ p q a, (sockets p).address = some a → (sockets q).address = some a → p = q

section Sockets

variable {sockets : Nat → Socket} {port : Nat} {s : Socket} {a : Nat}

theorem Unique.update_none (h : Unique sockets) (hs : s.address = none) :
    Unique (update sockets port s) := by
  intro p q a hp hq
  rcases eq_or_ne p port with rfl | hne
  · rw [Function.update_self, hs] at hp
    cases hp
  rcases eq_or_ne q port with rfl | hne'
  · rw [Function.update_self, hs] at hq
    cases hq
  rw [Function.update_of_ne hne] at hp
  rw [Function.update_of_ne hne'] at hq
  exact h p q a hp hq

theorem Unique.update_same (h : Unique sockets) (hs : s.address = (sockets port).address) :
    Unique (update sockets port s) := by
  have haddress (p : Nat) : (update sockets port s p).address = (sockets p).address := by
    rcases eq_or_ne p port with rfl | hne
    · rw [Function.update_self, hs]
    · rw [Function.update_of_ne hne]
  intro p q a hp hq
  rw [haddress] at hp hq
  exact h p q a hp hq

theorem Unique.update_cases (h : Unique sockets) (hs : s = sockets port ∨ s.address = none) :
    Unique (update sockets port s) :=
  hs.elim (fun heq => h.update_same (congrArg _ heq)) h.update_none

theorem Unique.update_some_iff (h : Unique sockets) (hs : s.address = some a) :
    Unique (update sockets port s) ↔ ∀ q ≠ port, (sockets q).address ≠ some a := by
  constructor
  · intro hunique q hne hq
    refine hne (hunique q port a ?_ ?_)
    · rwa [Function.update_of_ne hne]
    · rwa [Function.update_self]
  · intro hfree p q b hp hq
    rcases eq_or_ne p port with rfl | hp'
    · rcases eq_or_ne q p with rfl | hq'
      · rfl
      · rw [Function.update_self, hs] at hp
        rw [Function.update_of_ne hq'] at hq
        exact absurd (hq.trans hp.symm) (hfree q hq')
    · rw [Function.update_of_ne hp'] at hp
      rcases eq_or_ne q port with rfl | hq'
      · rw [Function.update_self, hs] at hq
        exact absurd (hp.trans hq.symm) (hfree p hp')
      · rw [Function.update_of_ne hq'] at hq
        exact h p q b hp hq

end Sockets

/-! ## EHCI -/

namespace Ehci

variable {c : Ehci} {port : Nat} {force : Bool} {e : Enumeration}

def addressOf (n : Nat) : Nat := (n - 1) % 127 + 1

structure Counted (c : Ehci) : Prop where
  next : c.nextAddress = if c.allocated = 0 then 0 else addressOf c.allocated
  given : ∀ p a, (c.sockets p).address = some a →
    a = addressOf (c.sockets p).stamp ∧ 0 < (c.sockets p).stamp ∧ (c.sockets p).stamp ≤ c.allocated

theorem Counted.nextAddressOf (h : c.Counted) :
    nextAddressOf c.nextAddress = addressOf (c.allocated + 1) := by
  rw [h.next]
  unfold Ehci.nextAddressOf addressOf
  split <;> split <;> omega

theorem servicePort_keeps (h : ¬ c.Enumerates port force) :
    (c.servicePort port force e).nextAddress = c.nextAddress ∧
      (c.servicePort port force e).allocated = c.allocated ∧
      ∀ p, ((c.servicePort port force e).sockets p).address = (c.sockets p).address ∧
        ((c.servicePort port force e).sockets p).stamp = (c.sockets p).stamp := by
  obtain ⟨hsockets, hnext, hallocated⟩ := c.acknowledged_eq port
  have hkept : (c.acknowledged port).nextAddress = c.nextAddress ∧
      (c.acknowledged port).allocated = c.allocated ∧
      ∀ p, ((c.acknowledged port).sockets p).address = (c.sockets p).address ∧
        ((c.acknowledged port).sockets p).stamp = (c.sockets p).stamp := by
    refine ⟨hnext, hallocated, fun p => ?_⟩
    rw [hsockets]
    rcases eq_or_ne p port with rfl | hne
    · rw [Function.update_self]
      exact ⟨rfl, rfl⟩
    · rw [Function.update_of_ne hne]
      exact ⟨rfl, rfl⟩
  rcases servicePort_cases (e := e) h with ⟨_, _, hservice⟩ | ⟨_, hservice | hservice⟩
  · rw [hservice]
    exact hkept
  · rw [hservice]
    exact ⟨rfl, rfl, fun _ => ⟨rfl, rfl⟩⟩
  · rw [hservice]
    exact hkept

/-- The device that is given an address has not been given that of another one. -/
def Spares (c : Ehci) : Event → Prop
  | .service port force e => c.Enumerates port force → e.Gives →
      ∀ q ≠ port, (c.sockets q).address ≠ none →
        (c.allocated + 1 - (c.sockets q).stamp) % 127 ≠ 0
  | _ => True

theorem Counted.of_same {c' : Ehci} (h : c.Counted) (hnext : c'.nextAddress = c.nextAddress)
    (hallocated : c'.allocated = c.allocated)
    (hsockets : ∀ p a, (c'.sockets p).address = some a →
      (c.sockets p).address = some a ∧ (c'.sockets p).stamp = (c.sockets p).stamp) :
    c'.Counted := by
  refine ⟨by rw [hnext, hallocated, h.next], fun p a ha => ?_⟩
  obtain ⟨hold, hstamp⟩ := hsockets p a ha
  rw [hstamp, hallocated]
  exact h.given p a hold

theorem counted_step (h : c.Counted) (event : Event) : (c.step event).Counted := by
  have hset (port : Nat) (s : Socket) (hs : s = c.sockets port ∨ s.address = none) :
      (c.setSocket port s).Counted := by
    refine h.of_same rfl rfl fun p a ha => ?_
    change (update c.sockets port s p).address = some a at ha
    show _ ∧ (update c.sockets port s p).stamp = _
    rcases eq_or_ne p port with rfl | hne
    · rw [Function.update_self] at ha ⊢
      rcases hs with rfl | hnone
      · exact ⟨ha, rfl⟩
      · rw [hnone] at ha
        cases ha
    · rw [Function.update_of_ne hne] at ha ⊢
      exact ⟨ha, rfl⟩
  cases event with
  | plug port => exact hset port _ (c.sockets port).plug_cases
  | unplug port => exact hset port _ (c.sockets port).unplug_cases
  | forgive port => exact h.of_same rfl rfl fun p a ha => ⟨ha, rfl⟩
  | service port force e =>
    by_cases hruns : c.Enumerates port force
    · obtain ⟨hsockets, hcounters⟩ := servicePort_addresses (e := e) hruns
      have hother (p : Nat) (a : Nat) (ha : (c.sockets p).address = some a) (n : Nat)
          (hn : c.allocated ≤ n) : a = addressOf (c.sockets p).stamp ∧
            0 < (c.sockets p).stamp ∧ (c.sockets p).stamp ≤ n := by
        obtain ⟨haddress, hpos, hle⟩ := h.given p a ha
        exact ⟨haddress, hpos, Nat.le_trans hle hn⟩
      by_cases hasks : e.Asks
      · rw [if_pos hasks] at hcounters
        obtain ⟨hnext, hallocated⟩ := Prod.mk.inj hcounters
        refine ⟨?_, fun p a ha => ?_⟩
        · show (c.servicePort port force e).nextAddress = _
          rw [hnext, h.nextAddressOf]
          show _ = if (c.servicePort port force e).allocated = 0 then _ else addressOf
            (c.servicePort port force e).allocated
          rw [hallocated, if_neg (Nat.succ_ne_zero _)]
        · change ((c.servicePort port force e).sockets p).address = some a at ha
          show a = addressOf ((c.servicePort port force e).sockets p).stamp ∧
            0 < ((c.servicePort port force e).sockets p).stamp ∧
            ((c.servicePort port force e).sockets p).stamp ≤
              (c.servicePort port force e).allocated
          rw [hallocated]
          rw [hsockets] at ha ⊢
          rcases eq_or_ne p port with rfl | hne
          · rw [Function.update_self] at ha ⊢
            unfold Socket.enumerate at ha ⊢
            split
            · rename_i hgives
              rw [if_pos hgives] at ha
              obtain rfl := Option.some.inj ha
              exact ⟨h.nextAddressOf, Nat.succ_pos _, Nat.le_refl _⟩
            · rename_i hgives
              rw [if_neg hgives] at ha
              cases ha
          · rw [Function.update_of_ne hne] at ha ⊢
            exact hother p a ha _ (Nat.le_succ _)
      · rw [if_neg hasks] at hcounters
        obtain ⟨hnext, hallocated⟩ := Prod.mk.inj hcounters
        have hgives : ¬ e.Gives := by
          rcases e with _ | _ | (_ | _) | _ | _ <;> simp_all [Enumeration.Asks, Enumeration.Gives]
        refine h.of_same hnext hallocated fun p a ha => ?_
        change ((c.servicePort port force e).sockets p).address = some a at ha
        show _ ∧ ((c.servicePort port force e).sockets p).stamp = _
        rw [hsockets] at ha ⊢
        rcases eq_or_ne p port with rfl | hne
        · rw [Function.update_self, Socket.enumerate, if_neg hgives] at ha
          cases ha
        · rw [Function.update_of_ne hne] at ha ⊢
          exact ⟨ha, rfl⟩
    · obtain ⟨hnext, hallocated, hsockets⟩ := servicePort_keeps (e := e) hruns
      exact h.of_same hnext hallocated fun p a ha => ⟨(hsockets p).1 ▸ ha, (hsockets p).2⟩

theorem unique_step_iff (h : c.Counted) (hunique : Unique c.sockets) (event : Event) :
    Unique (c.step event).sockets ↔ c.Spares event := by
  cases event with
  | plug port => exact iff_of_true (hunique.update_cases (c.sockets port).plug_cases) trivial
  | unplug port => exact iff_of_true (hunique.update_cases (c.sockets port).unplug_cases) trivial
  | forgive port => exact iff_of_true hunique trivial
  | service port force e =>
    by_cases hruns : c.Enumerates port force
    · show Unique (c.servicePort port force e).sockets ↔ (c.Enumerates port force → _)
      rw [(servicePort_addresses hruns).1]
      by_cases hgives : e.Gives
      · rw [Socket.enumerate, if_pos hgives, hunique.update_some_iff rfl, h.nextAddressOf]
        constructor
        · intro hfree _ _ q hne hq hmod
          obtain ⟨a, ha⟩ := Option.ne_none_iff_exists'.mp hq
          obtain ⟨haddress, hpos, hle⟩ := h.given q a ha
          refine hfree q hne (ha.trans (congrArg some ?_))
          rw [haddress]
          unfold addressOf
          omega
        · intro hspares q hne hq
          obtain ⟨haddress, hpos, hle⟩ := h.given q _ hq
          refine hspares hruns hgives q hne (by rw [hq]; exact nofun) ?_
          unfold addressOf at haddress
          omega
      · refine iff_of_true ?_ fun _ hgives' => absurd hgives' hgives
        rw [Socket.enumerate, if_neg hgives]
        exact hunique.update_none rfl
    · refine iff_of_true ?_ fun hruns' => absurd hruns' hruns
      obtain ⟨-, -, hsockets⟩ := servicePort_keeps (e := e) hruns
      intro p q a hp hq
      change ((c.servicePort port force e).sockets p).address = some a at hp
      change ((c.servicePort port force e).sockets q).address = some a at hq
      rw [(hsockets p).1] at hp
      rw [(hsockets q).1] at hq
      exact hunique p q a hp hq

end Ehci

/-! ## UHCI -/

structure UhciDevice where
  controller : Nat
  port : Nat
  address : Nat

/-- All UHCI controllers, with the list of their devices and what a pass over the ports has
found so far. -/
structure Uhci where
  sockets : Nat → Nat → Socket
  devices : List UhciDevice
  found : List UhciDevice

namespace Uhci

def setSocket (u : Uhci) (i port : Nat) (s : Socket) : Uhci :=
  { u with sockets := update u.sockets i (update (u.sockets i) port s) }

def known (u : Uhci) (i port : Nat) : Bool :=
  u.devices.any fun d => d.controller == i && d.port == port

/-- The address that `configure_device` takes: `len() as u8` has 8 bits. -/
def nextAddress (u : Uhci) : Nat := 1 + u.devices.length % 256 % 100

/-- A turn of the loop over the ports in `enumerate`. -/
def look (u : Uhci) (i port : Nat) (e : Enumeration) : Uhci :=
  let s := u.sockets i port
  if !s.connected then u
  else if u.known i port then u
  else
    let u' := u.setSocket i port (s.enumerate e u.nextAddress u.devices.length)
    match e with
    | .done _ => { u' with found := u.found ++ [⟨i, port, u.nextAddress⟩] }
    | _ => u'

inductive Event where
  | plug (i port : Nat)
  | unplug (i port : Nat)
  | look (i port : Nat) (e : Enumeration)
  /-- The end of `enumerate`. -/
  | extend

def step (u : Uhci) : Event → Uhci
  | .plug i port => u.setSocket i port (u.sockets i port).plug
  | .unplug i port => u.setSocket i port (u.sockets i port).unplug
  | .look i port e => u.look i port e
  | .extend => { u with devices := u.devices ++ u.found, found := [] }

/-- `enumerate` of controllers with so many ports. -/
def enumerate (ports : List Nat) (e : Nat → Nat → Enumeration) : List Event :=
  (ports.zipIdx.flatMap fun (n, i) => (List.range' 1 n).map fun port => .look i port (e i port)) ++
    [.extend]

structure Counted (u : Uhci) : Prop where
  given : ∀ i p a, (u.sockets i p).address = some a → a = 1 + (u.sockets i p).stamp % 256 % 100

def Unique (u : Uhci) : Prop := ∀ i, Usb.Unique (u.sockets i)

/-- The list has not the length, up to a multiple of 100, that it had when another device of the
controller was given its address. -/
def Spares (u : Uhci) : Event → Prop
  | .look i port e => (u.sockets i port).connected = true → u.known i port = false → e.Gives →
      ∀ q ≠ port, (u.sockets i q).address ≠ none →
        (u.sockets i q).stamp % 256 % 100 ≠ u.devices.length % 256 % 100
  | _ => True

variable {u : Uhci} {i port : Nat} {e : Enumeration} {s : Socket}

theorem look_sockets (u : Uhci) (i port : Nat) (e : Enumeration) :
    (u.look i port e).sockets =
      if (u.sockets i port).connected = true ∧ u.known i port = false then
        (u.setSocket i port ((u.sockets i port).enumerate e u.nextAddress u.devices.length)).sockets
      else u.sockets := by
  unfold look
  dsimp only
  cases hconnected : (u.sockets i port).connected with
  | false => simp
  | true =>
    cases hknown : u.known i port with
    | true => simp
    | false => cases e <;> simp

theorem sockets_setSocket (u : Uhci) (i port : Nat) (s : Socket) (j p : Nat) :
    (u.setSocket i port s).sockets j p =
      if j = i ∧ p = port then s else u.sockets j p := by
  unfold setSocket
  dsimp only
  rcases eq_or_ne j i with rfl | hj
  · rw [Function.update_self]
    rcases eq_or_ne p port with rfl | hp
    · rw [Function.update_self, if_pos ⟨rfl, rfl⟩]
    · rw [Function.update_of_ne hp, if_neg fun h => hp h.2]
  · rw [Function.update_of_ne hj, if_neg fun h => hj h.1]

theorem unique_setSocket_iff (h : u.Unique) :
    (u.setSocket i port s).Unique ↔ Usb.Unique (update (u.sockets i) port s) := by
  constructor
  · intro hall
    have hi := hall i
    change Usb.Unique (update u.sockets i (update (u.sockets i) port s) i) at hi
    rwa [Function.update_self] at hi
  · intro hi j
    show Usb.Unique (update u.sockets i (update (u.sockets i) port s) j)
    rcases eq_or_ne j i with rfl | hj
    · rwa [Function.update_self]
    · rw [Function.update_of_ne hj]
      exact h j

theorem Counted.setSocket (h : u.Counted)
    (hs : ∀ a, s.address = some a → a = 1 + s.stamp % 256 % 100) :
    (u.setSocket i port s).Counted := by
  refine ⟨fun j p a ha => ?_⟩
  rw [sockets_setSocket] at ha ⊢
  split at ha
  · rw [if_pos ‹_›]
    exact hs a ha
  · rw [if_neg ‹_›]
    exact h.given j p a ha

theorem Counted.of_cases (h : u.Counted) (hs : s = u.sockets i port ∨ s.address = none) :
    ∀ a, s.address = some a → a = 1 + s.stamp % 256 % 100 := by
  intro a ha
  rcases hs with rfl | hnone
  · exact h.given i port a ha
  · rw [hnone] at ha
    cases ha

theorem counted_step (h : u.Counted) (event : Event) : (u.step event).Counted := by
  cases event with
  | plug i port => exact h.setSocket (h.of_cases (u.sockets i port).plug_cases)
  | unplug i port => exact h.setSocket (h.of_cases (u.sockets i port).unplug_cases)
  | extend => exact ⟨h.given⟩
  | look i port e =>
    refine ⟨fun j p a ha => ?_⟩
    change ((u.look i port e).sockets j p).address = some a at ha
    show a = 1 + ((u.look i port e).sockets j p).stamp % 256 % 100
    rw [look_sockets] at ha ⊢
    split at ha
    · rw [if_pos ‹_›]
      refine (h.setSocket fun a ha => ?_).given j p a ha
      unfold Socket.enumerate at ha ⊢
      split
      · rename_i hgives
        rw [if_pos hgives] at ha
        exact (Option.some.inj ha).symm
      · rename_i hgives
        rw [if_neg hgives] at ha
        cases ha
    · rw [if_neg ‹_›]
      exact h.given j p a ha

theorem unique_step_iff (h : u.Counted) (hunique : u.Unique) (event : Event) :
    (u.step event).Unique ↔ u.Spares event := by
  cases event with
  | plug i port =>
    exact iff_of_true ((unique_setSocket_iff hunique).mpr
      ((hunique i).update_cases (u.sockets i port).plug_cases)) trivial
  | unplug i port =>
    exact iff_of_true ((unique_setSocket_iff hunique).mpr
      ((hunique i).update_cases (u.sockets i port).unplug_cases)) trivial
  | extend => exact iff_of_true hunique trivial
  | look i port e =>
    have hsockets := look_sockets u i port e
    by_cases hruns : (u.sockets i port).connected = true ∧ u.known i port = false
    · rw [if_pos hruns] at hsockets
      have hiff : (u.step (.look i port e)).Unique ↔
          (u.setSocket i port
            ((u.sockets i port).enumerate e u.nextAddress u.devices.length)).Unique := by
        unfold Unique
        rw [show (u.step (.look i port e)).sockets = _ from hsockets]
      rw [hiff, unique_setSocket_iff hunique]
      by_cases hgives : e.Gives
      · rw [Socket.enumerate, if_pos hgives, (hunique i).update_some_iff rfl]
        constructor
        · intro hfree _ _ _ q hne hq hsame
          obtain ⟨a, ha⟩ := Option.ne_none_iff_exists'.mp hq
          refine hfree q hne (ha.trans (congrArg some ?_))
          rw [h.given i q a ha, nextAddress, hsame]
        · intro hspares q hne hq
          have haddress := h.given i q _ hq
          unfold nextAddress at haddress
          exact hspares hruns.1 hruns.2 hgives q hne (by rw [hq]; exact nofun) (by omega)
      · refine iff_of_true ?_ fun _ _ hgives' => absurd hgives' hgives
        rw [Socket.enumerate, if_neg hgives]
        exact (hunique i).update_none rfl
    · rw [if_neg hruns] at hsockets
      refine iff_of_true (fun j => ?_) fun hc hk => absurd ⟨hc, hk⟩ hruns
      show Usb.Unique ((u.look i port e).sockets j)
      rw [hsockets]
      exact hunique j

end Uhci

/-- Any number of EHCI controllers, and the UHCI controllers. -/
structure Hosts where
  ehci : Nat → Ehci
  uhci : Uhci

namespace Hosts

inductive Event where
  | ehci (i : Nat) (event : Ehci.Event)
  | uhci (event : Uhci.Event)

def step (h : Hosts) : Event → Hosts
  | .ehci i event => { h with ehci := update h.ehci i ((h.ehci i).step event) }
  | .uhci event => { h with uhci := h.uhci.step event }

/-- The controllers are initialised, with anything on their ports; no address is given out. -/
def start (ports : Nat → Nat) (ehci uhci : Nat → Nat → Socket) : Hosts where
  ehci i :=
    { ports := ports i
      sockets := fun p => { ehci i p with address := none }
      nextAddress := 0
      portFailures := fun _ => 0
      devices := []
      storage := []
      allocated := 0 }
  uhci :=
    { sockets := fun i p => { uhci i p with address := none }
      devices := []
      found := [] }

def Unique (h : Hosts) : Prop := (∀ i, Usb.Unique (h.ehci i).sockets) ∧ h.uhci.Unique

def Spares (h : Hosts) : Event → Prop
  | .ehci i event => (h.ehci i).Spares event
  | .uhci event => h.uhci.Spares event

structure Counted (h : Hosts) : Prop where
  ehci : ∀ i, (h.ehci i).Counted
  uhci : h.uhci.Counted

variable {h : Hosts}

theorem counted_step (hc : h.Counted) (event : Event) : (h.step event).Counted := by
  cases event with
  | ehci i event =>
    refine ⟨fun j => ?_, hc.uhci⟩
    show (update h.ehci i ((h.ehci i).step event) j).Counted
    rcases eq_or_ne j i with rfl | hj
    · rw [Function.update_self]
      exact Ehci.counted_step (hc.ehci j) event
    · rw [Function.update_of_ne hj]
      exact hc.ehci j
  | uhci event => exact ⟨hc.ehci, Uhci.counted_step hc.uhci event⟩

theorem unique_step_iff (hc : h.Counted) (hunique : h.Unique) (event : Event) :
    (h.step event).Unique ↔ h.Spares event := by
  cases event with
  | ehci i event =>
    refine Iff.trans ?_ (Ehci.unique_step_iff (hc.ehci i) (hunique.1 i) event)
    constructor
    · intro hnext
      have hi := hnext.1 i
      change Usb.Unique (update h.ehci i ((h.ehci i).step event) i).sockets at hi
      rwa [Function.update_self] at hi
    · refine fun hi => ⟨fun j => ?_, hunique.2⟩
      show Usb.Unique (update h.ehci i ((h.ehci i).step event) j).sockets
      rcases eq_or_ne j i with rfl | hj
      · rwa [Function.update_self]
      · rw [Function.update_of_ne hj]
        exact hunique.1 j
  | uhci event =>
    exact ⟨fun hnext => (Uhci.unique_step_iff hc.uhci hunique.2 event).mp hnext.2, fun hspares =>
      ⟨hunique.1, (Uhci.unique_step_iff hc.uhci hunique.2 event).mpr hspares⟩⟩

/-- The addresses are unique in every state of a run exactly when no address is given out whose
place in the count another attached device of the controller holds. -/
theorem addresses_unique_iff (ports : Nat → Nat) (ehci uhci : Nat → Nat → Socket)
    (events : List Event) :
    (∀ before, before <+: events → (before.foldl step (start ports ehci uhci)).Unique) ↔
      Along step Spares (start ports ehci uhci) events := by
  have hcounted : (start ports ehci uhci).Counted :=
    ⟨fun i => ⟨rfl, fun p a ha => by cases ha⟩, ⟨fun i p a ha => by cases ha⟩⟩
  have hunique : (start ports ehci uhci).Unique := by
    constructor
    · intro i p q a hp
      cases hp
    · intro i p q a hp
      cases hp
  have hstep (h : Hosts) (e : Event) (hc : h.Counted) (hu : h.Unique) :
      (h.step e).Unique ↔ h.Spares e := unique_step_iff hc hu e
  exact (Lib.along_iff_good (fun h e hc => counted_step hc e) hstep hcounted hunique).symm

def plugged : Nat → Nat → Socket := fun _ _ => ⟨true, true, 1, none, 0⟩

def firstPass : List Event := (Uhci.enumerate [2] fun _ _ => .done false).map .uhci

/-- A device on port 2 of an EHCI controller is replaced 127 times, while that on port 1 stays. -/
def replugs : List Event :=
  (.service 1 false (.done false) :: (List.replicate 127 [Ehci.Event.unplug 2,
    .service 2 false .noReset, .plug 2, .service 2 false (.done true)]).flatten).map (.ehci 0)

theorem addresses_unique_fails :
    (¬ ∀ before, before <+: firstPass →
      (before.foldl step (start (fun _ => 2) plugged plugged)).Unique) ∧
    ¬ ∀ before, before <+: replugs →
      (before.foldl step (start (fun _ => 2) plugged plugged)).Unique := by
  constructor
  · intro h
    have haddresses : let u := (firstPass.foldl step (start (fun _ => 2) plugged plugged)).uhci
        (u.sockets 0 1).address = some 1 ∧ (u.sockets 0 2).address = some 1 := by
      decide
    exact absurd ((h firstPass (List.prefix_refl _)).2 0 1 2 1 haddresses.1 haddresses.2)
      (by decide)
  · intro h
    have haddresses : let c := (replugs.foldl step (start (fun _ => 2) plugged plugged)).ehci 0
        (c.sockets 1).address = some 1 ∧ (c.sockets 2).address = some 1 := by
      decide +kernel
    exact absurd ((h replugs (List.prefix_refl _)).1 0 1 2 1 haddresses.1 haddresses.2)
      (by decide)

end Hosts

end Vibra.Usb
