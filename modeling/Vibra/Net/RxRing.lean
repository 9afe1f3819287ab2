import Vibra.Lib.DoneRing
import Vibra.Net.Stack

/-! # The receive ring of the network controller

The controller writes a frame to the descriptor at its head register and goes on, until the head
meets the tail register.
-/

namespace Vibra.Net

open Lib (Bytes DoneRing)

def rxDescCount : Nat := 32

def Frame := { data : Bytes // data.length ≤ rxBufferSize }

/-- `RxDescriptor`: the length and the bit `RXD_STAT_DD` of the status. -/
structure RxDescriptor where
  length : Nat
  done : Bool

/-- The descriptors with their buffers, the registers `RDH` and `RDT`, and `rx_head`. -/
structure RxRing where
  descs : Nat → RxDescriptor
  buffers : Nat → Bytes
  rdh : Nat
  rdt : Nat
  rxHead : Nat

def setupRx : RxRing where
  descs _ := ⟨0, false⟩
  buffers _ := List.replicate rxBufferSize 0
  rdh := 0
  rdt := rxDescCount - 1
  rxHead := 0

namespace RxRing

/-- The controller receives a frame; at the tail register it drops it. -/
def arrive (ring : RxRing) (frame : Frame) : RxRing :=
  if ring.rdh = ring.rdt then ring
  else
    { ring with
      descs := Function.update ring.descs ring.rdh ⟨frame.1.length, true⟩
      buffers := Function.update ring.buffers ring.rdh
        (frame.1 ++ (ring.buffers ring.rdh).drop frame.1.length)
      rdh := (ring.rdh + 1) % rxDescCount }

/-- `recv_packet` into a buffer of `room` bytes. -/
def recvPacket (ring : RxRing) (room : Nat) : Option Bytes × RxRing :=
  let desc := ring.descs ring.rxHead
  if desc.done = false then (none, ring)
  else
    let copyLen := min desc.length room
    let head := (ring.rxHead + 1) % rxDescCount
    (some ((ring.buffers ring.rxHead).take copyLen),
      { ring with
        descs := Function.update ring.descs ring.rxHead ⟨0, false⟩
        rxHead := head
        rdh := head })

/-- The frames that up to `k` calls return, each into a buffer of the callers' size. -/
def received : Nat → RxRing → List Bytes
  | 0, _ => []
  | k + 1, ring =>
    match ring.recvPacket rxBufferSize with
    | (some data, ring) => data :: received k ring
    | (none, _) => []

def Ready (ring : RxRing) : Prop := ring.rdh ≠ ring.rdt ∧ (ring.descs ring.rdh).done = false

end RxRing

inductive RxEvent where
  | arrive (frame : Frame)
  | recv

/-- The ring, the frames that arrived and those that `recv_packet` returned. -/
structure Reception where
  ring : RxRing
  arrived : List Bytes
  returned : List Bytes

namespace Reception

def start : Reception := ⟨setupRx, [], []⟩

def step (s : Reception) : RxEvent → Reception
  | .arrive frame => { s with ring := s.ring.arrive frame, arrived := s.arrived ++ [frame.1] }
  | .recv =>
    match s.ring.recvPacket rxBufferSize with
    | (some data, ring) => { s with ring, returned := s.returned ++ [data] }
    | (none, ring) => { s with ring }

def run (events : List RxEvent) : Reception := events.foldl step start

/-- What was returned, followed by what further calls return, is what arrived. -/
def Exact (s : Reception) : Prop :=
  s.returned ++ s.ring.received rxDescCount = s.arrived

end Reception

namespace RxRing

def view (ring : RxRing) : DoneRing Bytes where
  done i := (ring.descs i).done
  item i := (ring.buffers i).take (ring.descs i).length
  head := ring.rxHead
  tail := ring.rdh

def Fits (ring : RxRing) : Prop := ∀ i, (ring.descs i).length ≤ rxBufferSize

variable {ring : RxRing} {frame : Frame}

theorem fits_setupRx : setupRx.Fits := fun _ => Nat.zero_le _

theorem Fits.update (h : ring.Fits) {desc : RxDescriptor} (hd : desc.length ≤ rxBufferSize)
    (i : Nat) {ring' : RxRing} (hring : ring'.descs = Function.update ring.descs i desc) :
    ring'.Fits := by
  intro j
  rw [hring, Function.update_apply]
  split
  · exact hd
  · exact h j

theorem Fits.arrive (h : ring.Fits) (frame : Frame) : (ring.arrive frame).Fits := by
  rw [RxRing.arrive]
  split
  · exact h
  · exact h.update frame.2 ring.rdh rfl

theorem Fits.recvPacket (h : ring.Fits) (room : Nat) : (ring.recvPacket room).2.Fits := by
  rw [RxRing.recvPacket]
  split
  · exact h
  · exact h.update (Nat.zero_le _) ring.rxHead rfl

theorem arrive_of_eq (h : ring.rdh = ring.rdt) : ring.arrive frame = ring := if_pos h

theorem view_arrive (h : ring.rdh ≠ ring.rdt) :
    (ring.arrive frame).view = ring.view.put rxDescCount frame.1 := by
  rw [arrive, if_neg h]
  simp only [view, DoneRing.put, DoneRing.mk.injEq, and_true]
  refine ⟨funext fun i => ?_, funext fun i => ?_⟩
  · simp only [Function.update_apply]
    split <;> rfl
  · by_cases hi : i = ring.rdh
    · subst hi
      simp only [Function.update_self, List.take_left]
    · simp only [Function.update_of_ne hi]

theorem recvPacket_none (h : ring.view.done ring.view.head = false) (room : Nat) :
    ring.recvPacket room = (none, ring) := if_pos h

theorem recvPacket_some (hfits : ring.Fits) (h : ring.view.done ring.view.head = true) :
    ∃ ring', ring.recvPacket rxBufferSize = (some (ring.view.item ring.view.head), ring') ∧
      DoneRing.Alike ring'.view (ring.view.pass rxDescCount) ∧ ring'.rdh = ring'.rxHead ∧
      ring'.rdt = ring.rdt := by
  have hdone : (ring.descs ring.rxHead).done = true := h
  rw [recvPacket, if_neg (by rw [hdone]; decide), min_eq_left (hfits ring.rxHead)]
  refine ⟨_, rfl, ⟨funext fun i => ?_, rfl, fun i hi => ?_⟩, rfl, rfl⟩
  · simp only [view, DoneRing.pass, Function.update_apply]
    split <;> rfl
  · by_cases hhead : i = ring.rxHead
    · simp only [view, hhead, Function.update_self] at hi
      contradiction
    · simp only [view, DoneRing.pass, Function.update_of_ne hhead]

theorem received_eq (hfits : ring.Fits) (k : Nat) :
    ring.received k = ring.view.drain rxDescCount k := by
  induction k generalizing ring with
  | zero => rfl
  | succ k ih =>
    rw [received, DoneRing.drain]
    by_cases hdone : ring.view.done ring.view.head = true
    · obtain ⟨ring', hrecv, hview, -, -⟩ := recvPacket_some hfits hdone
      have hfits' := hfits.recvPacket rxBufferSize
      rw [hrecv] at hfits'
      rw [hrecv, if_pos hdone, ← hview.drain]
      show _ :: received k ring' = _
      rw [ih hfits']
    · rw [recvPacket_none (Bool.not_eq_true _ ▸ hdone), if_neg hdone]

end RxRing

/-! ## What the driver returns -/

namespace Reception

variable {s : Reception} {frame : Frame}

/-- The frames between the driver's place and the controller's wait, and all before them have
been returned. After a call the controller's place is the driver's. -/
structure Sound (s : Reception) (queue : List Bytes) : Prop where
  fits : s.ring.Fits
  holds : s.ring.view.Holds rxDescCount queue
  place : s.ring.rdh = s.ring.rxHead ∨
    s.ring.rdh = (s.ring.rxHead + queue.length) % rxDescCount
  returned : s.returned ++ queue = s.arrived

theorem Sound.exact {queue : List Bytes} (h : s.Sound queue) : s.Exact := by
  rw [Exact, RxRing.received_eq h.fits, h.holds.drain h.holds.room, h.returned]

theorem sound_start : start.Sound [] where
  fits := RxRing.fits_setupRx
  holds := ⟨by decide, Nat.zero_le _, fun i hi => absurd hi (Nat.not_lt_zero i), fun _ _ _ => rfl⟩
  place := Or.inl rfl
  returned := rfl

theorem Sound.behind {queue : List Bytes} (h : s.Sound queue) (hready : s.ring.Ready) :
    s.ring.rdh = (s.ring.rxHead + queue.length) % rxDescCount := by
  rcases h.place with hplace | hplace
  · have hnil : queue = [] := by
      by_contra hne
      have hdone : (s.ring.descs s.ring.rxHead).done = true := h.holds.done_head.mpr hne
      rw [← hplace, hready.2] at hdone
      contradiction
    have hhead : s.ring.rxHead < rxDescCount := h.holds.head
    rw [hplace, hnil, List.length_nil, Nat.add_zero, Nat.mod_eq_of_lt hhead]
  · exact hplace

theorem Sound.arrive {queue : List Bytes} (h : s.Sound queue) (hready : s.ring.Ready) :
    (s.step (.arrive frame)).Sound (queue ++ [frame.1]) := by
  have hbehind := h.behind hready
  have hroom := h.holds.room_of_free hbehind hready.2
  have hview : (s.ring.arrive frame).view = _ := RxRing.view_arrive hready.1
  refine ⟨h.fits.arrive frame, ?_, Or.inr ?_, ?_⟩
  · show (s.ring.arrive frame).view.Holds _ _
    rw [hview]
    exact h.holds.put hbehind hroom frame.1
  · show (s.ring.arrive frame).rdh = ((s.ring.arrive frame).rxHead + _) % _
    rw [RxRing.arrive, if_neg hready.1, List.length_append, List.length_singleton, hbehind,
      Nat.mod_add_mod, Nat.add_assoc]
  · show s.returned ++ (queue ++ [frame.1]) = s.arrived ++ [frame.1]
    rw [← h.returned, List.append_assoc]

theorem Sound.recv {queue : List Bytes} (h : s.Sound queue) :
    ∃ rest, (s.step .recv).Sound rest := by
  cases queue with
  | nil =>
    have hidle : s.ring.view.done s.ring.view.head = false := by
      rw [← Bool.not_eq_true]
      exact fun hdone => h.holds.done_head.mp hdone rfl
    refine ⟨[], ?_⟩
    rw [step, RxRing.recvPacket_none hidle]
    exact h
  | cons data rest =>
    have hdone := h.holds.done_head.mpr (List.cons_ne_nil data rest)
    obtain ⟨ring', hrecv, hview, hplace, -⟩ := RxRing.recvPacket_some h.fits hdone
    have hfits := h.fits.recvPacket rxBufferSize
    rw [h.holds.item_head] at hrecv
    rw [hrecv] at hfits
    refine ⟨rest, ?_⟩
    rw [step, hrecv]
    refine ⟨hfits, ?_, Or.inl hplace, ?_⟩
    · exact hview.symm.holds h.holds.pass
    · show (s.returned ++ [data]) ++ rest = s.arrived
      rw [← h.returned, List.append_assoc, List.singleton_append]

theorem not_exact_arrive {queue : List Bytes} (h : s.Sound queue) (hready : ¬ s.ring.Ready) :
    ¬ (s.step (.arrive frame)).Exact := by
  intro hexact
  have hfits := h.fits.arrive frame
  have hlen : (s.ring.view.drain rxDescCount rxDescCount).length = queue.length :=
    congrArg List.length (h.holds.drain h.holds.room)
  have hsame : ((s.ring.arrive frame).view.drain rxDescCount rxDescCount).length =
      queue.length := by
    by_cases hstop : s.ring.rdh = s.ring.rdt
    · rw [RxRing.arrive_of_eq hstop]
      exact hlen
    · have hwritten : (s.ring.descs s.ring.rdh).done = true := by
        rw [← Bool.not_eq_false]
        exact fun hfree => hready ⟨hstop, hfree⟩
      have hmarks : (s.ring.view.put rxDescCount frame.1).done = s.ring.view.done :=
        Function.update_eq_self_iff.mpr hwritten.symm
      rw [← hlen, RxRing.view_arrive hstop, DoneRing.length_drain_congr hmarks rfl]
  have harrived : s.returned ++ (s.ring.arrive frame).received rxDescCount =
      s.arrived ++ [frame.1] := hexact
  rw [RxRing.received_eq hfits, ← h.returned, List.append_assoc] at harrived
  have := congrArg List.length (List.append_cancel_left harrived)
  rw [hsame, List.length_append, List.length_singleton] at this
  omega

theorem run_append (events : List RxEvent) (e : RxEvent) :
    run (events ++ [e]) = (run events).step e := by
  rw [run, List.foldl_append]
  rfl

theorem sound_run {events : List RxEvent}
    (h : ∀ pre frame suf, events = pre ++ .arrive frame :: suf → (run pre).ring.Ready) :
    ∃ queue, (run events).Sound queue := by
  induction events using List.reverseRecOn with
  | nil => exact ⟨[], sound_start⟩
  | append_singleton events e ih =>
    obtain ⟨queue, hs⟩ := ih fun pre frame suf hsplit => h pre frame (suf ++ [e]) (by
      rw [hsplit, List.append_assoc, List.cons_append])
    rw [run_append]
    cases e with
    | arrive frame => exact ⟨_, hs.arrive (h events frame [] rfl)⟩
    | recv => exact hs.recv

/-- In every state of a run the frames that were returned and those that wait are those that
arrived, exactly when every frame finds the head register away from the tail register and at a
descriptor that is not done. -/
theorem exact_iff (events : List RxEvent) :
    (∀ pre suf, events = pre ++ suf → (run pre).Exact) ↔
      ∀ pre frame suf, events = pre ++ .arrive frame :: suf → (run pre).ring.Ready := by
  constructor
  · intro h
    have hready : ∀ pre frame suf queue, events = pre ++ .arrive frame :: suf →
        (run pre).Sound queue → (run pre).ring.Ready := by
      intro pre frame suf queue hsplit hs
      by_contra hready
      have hexact := h (pre ++ [.arrive frame]) suf (by rw [hsplit, List.append_assoc]; rfl)
      rw [run_append] at hexact
      exact not_exact_arrive hs hready hexact
    have hsound : ∀ pre suf, events = pre ++ suf → ∃ queue, (run pre).Sound queue := by
      intro pre
      induction pre using List.reverseRecOn with
      | nil => exact fun _ _ => ⟨[], sound_start⟩
      | append_singleton pre e ih =>
        intro suf hsplit
        have hsplit' : events = pre ++ e :: suf := by
          rw [hsplit, List.append_assoc, List.singleton_append]
        obtain ⟨queue, hs⟩ := ih (e :: suf) hsplit'
        rw [run_append]
        cases e with
        | arrive frame => exact ⟨_, hs.arrive (hready pre frame suf queue hsplit' hs)⟩
        | recv => exact hs.recv
    intro pre frame suf hsplit
    obtain ⟨queue, hs⟩ := hsound pre (.arrive frame :: suf) hsplit
    exact hready pre frame suf queue hsplit hs
  · intro h pre suf hsplit
    have hpre : ∀ pre' frame suf', pre = pre' ++ .arrive frame :: suf' →
        (run pre').ring.Ready := fun pre' frame suf' hpre =>
      h pre' frame (suf' ++ suf) (by rw [hsplit, hpre, List.append_assoc, List.cons_append])
    obtain ⟨queue, hs⟩ := sound_run hpre
    exact hs.exact

/-- Two frames arrive, one is read, a third arrives, and two more calls are made. -/
def rewound : List RxEvent :=
  [.arrive ⟨[1], by decide⟩, .arrive ⟨[2], by decide⟩, .recv, .arrive ⟨[3], by decide⟩, .recv,
    .recv]

/-- The second frame is lost, with two frames unread at most. -/
theorem rewound_loses : (run rewound).arrived = [[1], [2], [3]] ∧
    (run rewound).returned = [[1], [3]] ∧ (run rewound).ring.received rxDescCount = [] ∧
      ¬ (run rewound).Exact := by
  have harrived : (run rewound).arrived = [[1], [2], [3]] := rfl
  have hreturned : (run rewound).returned = [[1], [3]] := by decide
  have hreceived : (run rewound).ring.received rxDescCount = [] := by decide
  refine ⟨harrived, hreturned, hreceived, ?_⟩
  rw [Exact, harrived, hreturned, hreceived]
  decide

end Reception

end Vibra.Net
