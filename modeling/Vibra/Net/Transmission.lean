import Vibra.Lib.Runs
import Vibra.Net.Stack

/-! # The transmit ring of the network controller

`send_packet` copies a frame to the buffer at its tail, fills in the descriptor there and moves the
tail register on; the controller sends what lies between its head and the tail.
-/

namespace Vibra.Net

open Lib (Along Bytes Memory)

/-- `TxDescriptor`, without the fields that stay zero. -/
structure TxDescriptor where
  addr : Nat
  length : Nat
  cmd : Nat
  status : Nat

def txCmd : Nat := 0x0B

/-- The buffers of `setup_tx`, which do not overlap. -/
structure TxBuffers where
  phys : Nat → Nat
  apart : ∀ i < txDescCount, ∀ j < txDescCount, i ≠ j →
    phys i + rxBufferSize ≤ phys j ∨ phys j + rxBufferSize ≤ phys i

/-- A call of `send_packet` that has made its first stores. -/
structure SendCall where
  data : Bytes
  stores : Nat

/-- A descriptor that the controller has read, and the bytes that it has read of the frame. -/
structure TxFetch where
  desc : TxDescriptor
  bytes : Bytes

/-- Driver and controller. `part` is a packet whose last descriptor has not been met; `accepted`
are the frames for which `send_packet` has returned `true`, each with its slot, and `wire` is
what was sent. -/
structure Transmission where
  buffers : TxBuffers
  memory : Memory
  descs : Nat → TxDescriptor
  txTail : Nat
  call : Option SendCall
  tdh : Nat
  tdt : Nat
  fetch : Option TxFetch
  part : Bytes
  accepted : List (Nat × Bytes)
  wire : List Bytes

namespace Transmission

/-- `setup_tx` -/
def start (buffers : TxBuffers) : Transmission where
  buffers := buffers
  memory _ := 0
  descs _ := ⟨0, 0, 0, 0⟩
  txTail := 0
  call := none
  tdh := 0
  tdt := 0
  fetch := none
  part := []
  accepted := []
  wire := []

def dataLen (data : Bytes) : Nat := min data.length rxBufferSize

def setDesc (s : Transmission) (f : TxDescriptor → TxDescriptor) : Transmission :=
  { s with descs := Function.update s.descs s.txTail (f (s.descs s.txTail)) }

/-- The last store of `send_packet`, which then returns `true`. -/
def advance (s : Transmission) (data : Bytes) : Transmission :=
  let tail := (s.txTail + 1) % txDescCount
  { s with txTail := tail, tdt := tail, call := none, accepted := s.accepted ++ [(s.txTail, data)] }

/-- The next store of `send_packet`: a byte of the frame, a field of the descriptor, the tail. -/
def store (s : Transmission) (c : SendCall) : Transmission :=
  let len := dataLen c.data
  let s' := { s with call := some { c with stores := c.stores + 1 } }
  if c.stores < len then
    { s' with
      memory := Function.update s.memory (s.buffers.phys s.txTail + c.stores)
        (c.data.getD c.stores 0) }
  else if c.stores = len then s'.setDesc fun d => { d with addr := s.buffers.phys s.txTail }
  else if c.stores = len + 1 then s'.setDesc fun d => { d with length := len % 2 ^ 16 }
  else if c.stores = len + 2 then s'.setDesc fun d => { d with cmd := txCmd }
  else if c.stores = len + 3 then s'.setDesc fun d => { d with status := 0 }
  else s.advance c.data

def driver (s : Transmission) : Transmission := s.call.elim s s.store

/-- The controller is done with a descriptor. Bit 0 of the command ends a packet, bit 3 asks for
the status. -/
def finish (s : Transmission) (f : TxFetch) : Transmission :=
  let packet := s.part ++ f.bytes
  { s with
    descs :=
      if f.desc.cmd.testBit 3 then
        Function.update s.descs s.tdh { s.descs s.tdh with status := 1 }
      else s.descs
    tdh := (s.tdh + 1) % txDescCount
    fetch := none
    part := if f.desc.cmd.testBit 0 then [] else packet
    wire := if f.desc.cmd.testBit 0 then s.wire ++ [packet] else s.wire }

/-- The next access of the controller: it reads a descriptor, then the frame byte by byte. -/
def device (s : Transmission) : Transmission :=
  match s.fetch with
  | none => if s.tdh = s.tdt then s else { s with fetch := some ⟨s.descs s.tdh, []⟩ }
  | some f =>
    if f.bytes.length < f.desc.length then
      { s with fetch := some { f with
          bytes := f.bytes ++ [s.memory (f.desc.addr + f.bytes.length)] } }
    else s.finish f

inductive Action where
  | send (data : Bytes)
  | driver
  | device

/-- A call waits for the lock until the one before it has returned. -/
def step (s : Transmission) : Action → Transmission
  | .send data => if s.call = none then { s with call := some ⟨data, 0⟩ } else s
  | .driver => s.driver
  | .device => s.device

def run (s : Transmission) (actions : List Action) : Transmission := actions.foldl step s

def frameAt (s : Transmission) (slot : Nat) : Bytes :=
  s.memory.slice (s.descs slot).addr (s.descs slot).length

def pending (s : Transmission) : List Bytes :=
  (List.range ((s.tdt + txDescCount - s.tdh) % txDescCount)).map fun i =>
    s.frameAt ((s.tdh + i) % txDescCount)

def unsent (s : Transmission) : List Nat := (s.accepted.drop s.wire.length).map Prod.fst

/-- What was sent and what lies in the ring is what was accepted; a call in progress works on no
slot that waits to be sent; and the controller, left alone, sends all that was accepted. -/
structure Exact (s : Transmission) : Prop where
  whole : s.wire ++ s.pending = s.accepted.map Prod.snd
  spares : s.call ≠ none → s.txTail ∉ s.unsent
  completes : ∃ n, (device^[n] s).wire = s.accepted.map Prod.snd

/-- The last store of a call leaves a descriptor between the tail and the head, and the frame
fits a buffer. -/
def Roomy (s : Transmission) (a : Action) : Prop :=
  ∀ data, a = .driver → s.call = some ⟨data, dataLen data + 4⟩ →
    (s.txTail + 1) % txDescCount ≠ s.tdh ∧ data.length ≤ rxBufferSize

structure Lies (s : Transmission) (x : Nat × Bytes) : Prop where
  addr : (s.descs x.1).addr = s.buffers.phys x.1
  length : (s.descs x.1).length = x.2.length
  cmd : (s.descs x.1).cmd = txCmd
  fits : x.2.length ≤ rxBufferSize
  bytes : ∀ i < x.2.length, s.memory (s.buffers.phys x.1 + i) = x.2.getD i 0

structure Stored (s : Transmission) (c : SendCall) : Prop where
  stores : c.stores ≤ dataLen c.data + 4
  bytes : ∀ i < dataLen c.data, i < c.stores →
    s.memory (s.buffers.phys s.txTail + i) = c.data.getD i 0
  addr : dataLen c.data < c.stores → (s.descs s.txTail).addr = s.buffers.phys s.txTail
  length : dataLen c.data + 1 < c.stores → (s.descs s.txTail).length = dataLen c.data
  cmd : dataLen c.data + 2 < c.stores → (s.descs s.txTail).cmd = txCmd

structure Reading (s : Transmission) (x : Nat × Bytes) (f : TxFetch) : Prop where
  addr : f.desc.addr = s.buffers.phys x.1
  length : f.desc.length = x.2.length
  cmd : f.desc.cmd = txCmd
  bytes : f.bytes <+: x.2

/-- The frames of `queue` lie in the slots from the head to the tail. -/
structure Sound (s : Transmission) (queue : List (Nat × Bytes)) : Prop where
  tdt : s.tdt = s.txTail
  tdh : s.tdh < txDescCount
  room : queue.length < txDescCount
  tail : s.txTail = (s.tdh + queue.length) % txDescCount
  slots : ∀ i, (h : i < queue.length) → queue[i].1 = (s.tdh + i) % txDescCount
  lies : ∀ x ∈ queue, s.Lies x
  part : s.part = []
  fetch : ∀ f, s.fetch = some f → ∃ x ∈ queue.head?, s.Reading x f
  call : ∀ c, s.call = some c → s.Stored c
  accepted : ∃ sent, s.accepted = sent ++ queue ∧ sent.map Prod.snd = s.wire

variable {s : Transmission} {queue : List (Nat × Bytes)}

theorem slot_ne {head i n : Nat} (hi : i < n) (hn : n < txDescCount) :
    (head + i) % txDescCount ≠ (head + n) % txDescCount := by
  unfold txDescCount at *
  omega

theorem dataLen_le (data : Bytes) : dataLen data ≤ rxBufferSize := min_le_right _ _

theorem sound_start (buffers : TxBuffers) : (start buffers).Sound [] where
  tdt := rfl
  tdh := Nat.zero_lt_succ _
  room := Nat.zero_lt_succ _
  tail := rfl
  slots _ h := absurd h (Nat.not_lt_zero _)
  lies := nofun
  part := rfl
  fetch := nofun
  call := nofun
  accepted := ⟨[], rfl, rfl⟩

namespace Sound

theorem tail_lt (h : s.Sound queue) : s.txTail < txDescCount := by
  rw [h.tail]
  exact Nat.mod_lt _ (by decide)

theorem slot_lt (h : s.Sound queue) {x : Nat × Bytes} (hx : x ∈ queue) : x.1 < txDescCount := by
  obtain ⟨i, hi, rfl⟩ := List.getElem_of_mem hx
  rw [h.slots i hi]
  exact Nat.mod_lt _ (by decide)

theorem slot_ne_tail (h : s.Sound queue) {x : Nat × Bytes} (hx : x ∈ queue) : x.1 ≠ s.txTail := by
  obtain ⟨i, hi, rfl⟩ := List.getElem_of_mem hx
  rw [h.slots i hi, h.tail]
  exact slot_ne hi h.room

theorem pending_eq (h : s.Sound queue) : s.pending = queue.map Prod.snd := by
  have hcount : (s.tdt + txDescCount - s.tdh) % txDescCount = queue.length := by
    have hhead := h.tdh
    have hroom := h.room
    rw [h.tdt, h.tail]
    unfold txDescCount at *
    omega
  apply List.ext_getElem
  · rw [pending, hcount, List.length_map, List.length_range, List.length_map]
  · intro i hi hi'
    rw [List.length_map] at hi'
    have hlies := h.lies _ (List.getElem_mem hi')
    simp only [pending, List.getElem_map, List.getElem_range]
    rw [← h.slots i hi', frameAt, hlies.addr, hlies.length]
    apply List.ext_getElem
    · rw [Memory.length_slice]
    · intro j hj hj'
      simp only [Memory.slice, List.getElem_map, List.getElem_range]
      rw [hlies.bytes j hj', List.getD_eq_getElem _ _ hj']

theorem whole (h : s.Sound queue) : s.wire ++ s.pending = s.accepted.map Prod.snd := by
  obtain ⟨sent, haccepted, hwire⟩ := h.accepted
  rw [h.pending_eq, haccepted, List.map_append, hwire]

theorem unsent_eq (h : s.Sound queue) : s.unsent = queue.map Prod.fst := by
  obtain ⟨sent, haccepted, hwire⟩ := h.accepted
  rw [unsent, haccepted, List.drop_left' (by rw [← hwire, List.length_map])]

theorem spares (h : s.Sound queue) : s.txTail ∉ s.unsent := by
  rw [h.unsent_eq]
  intro hmem
  obtain ⟨x, hx, hslot⟩ := List.mem_map.mp hmem
  exact h.slot_ne_tail hx hslot

theorem atTail (h : s.Sound queue) {memory : Memory} {descs : Nat → TxDescriptor}
    {call : Option SendCall} (hdescs : ∀ i, i ≠ s.txTail → descs i = s.descs i)
    (hmemory : ∀ i < txDescCount, i ≠ s.txTail → ∀ j < rxBufferSize,
      memory (s.buffers.phys i + j) = s.memory (s.buffers.phys i + j))
    (hcall : ∀ c, call = some c → ({ s with memory, descs, call } : Transmission).Stored c) :
    ({ s with memory, descs, call } : Transmission).Sound queue where
  tdt := h.tdt
  tdh := h.tdh
  room := h.room
  tail := h.tail
  slots := h.slots
  lies x hx := by
    have hlies := h.lies x hx
    have hne := h.slot_ne_tail hx
    refine ⟨?_, ?_, ?_, hlies.fits, fun i hi => ?_⟩
    · exact (congrArg TxDescriptor.addr (hdescs _ hne)).trans hlies.addr
    · exact (congrArg TxDescriptor.length (hdescs _ hne)).trans hlies.length
    · exact (congrArg TxDescriptor.cmd (hdescs _ hne)).trans hlies.cmd
    · have hi' : i < rxBufferSize := lt_of_lt_of_le hi hlies.fits
      exact (hmemory _ (h.slot_lt hx) hne i hi').trans (hlies.bytes i hi)
  part := h.part
  fetch f hf := by
    obtain ⟨x, hx, hreading⟩ := h.fetch f hf
    exact ⟨x, hx, hreading.addr, hreading.length, hreading.cmd, hreading.bytes⟩
  call := hcall
  accepted := h.accepted

theorem send (h : s.Sound queue) (data : Bytes) :
    ({ s with call := some ⟨data, 0⟩ } : Transmission).Sound queue := by
  apply h.atTail (fun _ _ => rfl) (fun _ _ _ _ _ => rfl)
  rintro c hc
  obtain rfl := Option.some.inj hc
  exact ⟨Nat.zero_le _, fun _ _ hi => absurd hi (Nat.not_lt_zero _),
    fun hi => absurd hi (Nat.not_lt_zero _), fun hi => absurd hi (Nat.not_lt_zero _),
    fun hi => absurd hi (Nat.not_lt_zero _)⟩

theorem setDesc (h : s.Sound queue) (f : TxDescriptor → TxDescriptor) {c : SendCall}
    (hstores : c.stores ≤ dataLen c.data + 4)
    (hbytes : ∀ i < dataLen c.data, s.memory (s.buffers.phys s.txTail + i) = c.data.getD i 0)
    (haddr : (f (s.descs s.txTail)).addr = s.buffers.phys s.txTail)
    (hlength : dataLen c.data + 1 < c.stores → (f (s.descs s.txTail)).length = dataLen c.data)
    (hcmd : dataLen c.data + 2 < c.stores → (f (s.descs s.txTail)).cmd = txCmd) :
    (({ s with call := some c } : Transmission).setDesc f).Sound queue := by
  have hdesc : Function.update s.descs s.txTail (f (s.descs s.txTail)) s.txTail =
      f (s.descs s.txTail) := Function.update_self ..
  apply h.atTail (fun _ hi => Function.update_of_ne hi _ _) (fun _ _ _ _ _ => rfl)
  rintro _ hc
  obtain rfl := Option.some.inj hc
  refine ⟨hstores, fun i hi _ => hbytes i hi, fun _ => ?_, fun hk => ?_, fun hk => ?_⟩
  · exact (congrArg TxDescriptor.addr hdesc).trans haddr
  · exact (congrArg TxDescriptor.length hdesc).trans (hlength hk)
  · exact (congrArg TxDescriptor.cmd hdesc).trans (hcmd hk)

theorem setByte (h : s.Sound queue) {k : Nat} (hk : k < rxBufferSize) (v : UInt8) (c : SendCall)
    (hstored : ({ s with
      memory := Function.update s.memory (s.buffers.phys s.txTail + k) v
      call := some c } : Transmission).Stored c) :
    ({ s with
      memory := Function.update s.memory (s.buffers.phys s.txTail + k) v
      call := some c } : Transmission).Sound queue := by
  refine h.atTail (fun _ _ => rfl) (fun i hi hne j hj => ?_) ?_
  · have hapart := s.buffers.apart i hi s.txTail h.tail_lt hne
    rw [Function.update_of_ne (by omega)]
  · rintro _ hc
    obtain rfl := Option.some.inj hc
    exact hstored

theorem store (h : s.Sound queue) {c : SendCall} (hc : s.Stored c)
    (hnext : c.stores ≠ dataLen c.data + 4) : (s.store c).Sound queue := by
  have hbound := hc.stores
  have hlen := dataLen_le c.data
  simp only [Transmission.store]
  split
  · rename_i hk
    apply h.setByte (by omega)
    refine ⟨by dsimp only; omega, fun i hi hi' => ?_, fun hi => absurd hi ?_,
      fun hi => absurd hi ?_, fun hi => absurd hi ?_⟩
    · by_cases hik : i = c.stores
      · rw [hik]
        exact Function.update_self ..
      · dsimp only at hi' ⊢
        rw [Function.update_of_ne (by omega)]
        exact hc.bytes i hi (by omega)
    all_goals
      dsimp only
      omega
  · rename_i hk
    have hbytes : ∀ i < dataLen c.data, s.memory (s.buffers.phys s.txTail + i) =
        c.data.getD i 0 := fun i hi => hc.bytes i hi (by omega)
    have hmod : dataLen c.data % 2 ^ 16 = dataLen c.data := by
      unfold rxBufferSize at hlen
      omega
    split
    · exact h.setDesc _ (by dsimp only; omega) hbytes rfl (fun hi => absurd hi (by
        dsimp only; omega)) fun hi => absurd hi (by dsimp only; omega)
    · split
      · exact h.setDesc _ (by dsimp only; omega) hbytes (hc.addr (by omega)) (fun _ => hmod)
          fun hi => absurd hi (by dsimp only; omega)
      · split
        · exact h.setDesc _ (by dsimp only; omega) hbytes (hc.addr (by omega))
            (fun _ => hc.length (by omega)) fun _ => rfl
        · split
          · exact h.setDesc _ (by dsimp only; omega) hbytes (hc.addr (by omega))
              (fun _ => hc.length (by omega)) fun _ => hc.cmd (by omega)
          · omega

theorem advance (h : s.Sound queue) {data : Bytes} (hc : s.Stored ⟨data, dataLen data + 4⟩)
    (hroom : (s.txTail + 1) % txDescCount ≠ s.tdh) (hfits : data.length ≤ rxBufferSize) :
    (s.advance data).Sound (queue ++ [(s.txTail, data)]) := by
  have hlen : dataLen data = data.length := min_eq_left hfits
  have hmore : queue.length + 1 < txDescCount := by
    have hhead := h.tdh
    have hqueue := h.room
    rw [h.tail] at hroom
    unfold txDescCount at *
    omega
  have hlength : (queue ++ [(s.txTail, data)]).length = queue.length + 1 := by
    rw [List.length_append, List.length_singleton]
  refine ⟨rfl, h.tdh, hlength ▸ hmore, ?_, fun i hi => ?_, fun x hx => ?_, h.part, fun f hf => ?_,
    nofun, ?_⟩
  · show (s.txTail + 1) % txDescCount = (s.tdh + _) % txDescCount
    rw [hlength, h.tail, Nat.mod_add_mod, Nat.add_assoc]
  · rw [hlength] at hi
    by_cases hold : i < queue.length
    · rw [List.getElem_append_left hold]
      exact h.slots i hold
    · have hlast : i = queue.length := by omega
      subst hlast
      rw [List.getElem_concat_length rfl]
      exact h.tail
  · rcases List.mem_append.mp hx with hold | hnew
    · have hlies := h.lies x hold
      exact ⟨hlies.addr, hlies.length, hlies.cmd, hlies.fits, hlies.bytes⟩
    · rw [List.mem_singleton] at hnew
      subst hnew
      refine ⟨hc.addr (by dsimp only; omega), (hc.length (by dsimp only; omega)).trans hlen,
        hc.cmd (by dsimp only; omega), hfits, fun i hi => ?_⟩
      have hi' : i < data.length := hi
      exact hc.bytes i (by dsimp only; omega) (by dsimp only; omega)
  · obtain ⟨x, hx, hreading⟩ := h.fetch f hf
    refine ⟨x, ?_, hreading.addr, hreading.length, hreading.cmd, hreading.bytes⟩
    rw [List.head?_append, Option.mem_def.mp hx]
    rfl
  · obtain ⟨sent, haccepted, hwire⟩ := h.accepted
    refine ⟨sent, ?_, hwire⟩
    show s.accepted ++ [(s.txTail, data)] = sent ++ (queue ++ [(s.txTail, data)])
    rw [haccepted, List.append_assoc]

/-! ## Steps of the controller -/

theorem idle (h : s.Sound queue) (hidle : s.fetch = none) :
    (queue = [] ∧ s.device = s) ∨ ∃ x ∈ queue.head?, ∃ f,
      s.device = { s with fetch := some f } ∧ f.bytes = [] ∧ s.Reading x f := by
  have hhead := h.tdh
  have hroom := h.room
  have htail := h.tail
  cases queue with
  | nil =>
    refine Or.inl ⟨rfl, ?_⟩
    have heq : s.tdh = s.tdt := by
      rw [h.tdt, h.tail, List.length_nil, Nat.add_zero, Nat.mod_eq_of_lt hhead]
    simp only [device, hidle, if_pos heq]
  | cons x rest =>
    have hne : s.tdh ≠ s.tdt := by
      rw [h.tdt, htail]
      rw [List.length_cons] at hroom ⊢
      unfold txDescCount at *
      omega
    have hslot : x.1 = s.tdh := by
      have hfirst := h.slots 0 (by rw [List.length_cons]; omega)
      exact hfirst.trans (by rw [Nat.add_zero, Nat.mod_eq_of_lt hhead])
    have hlies := h.lies x List.mem_cons_self
    refine Or.inr ⟨x, rfl, ⟨s.descs s.tdh, []⟩, ?_, rfl, ?_⟩
    · simp only [device, hidle, if_neg hne]
    · exact ⟨hslot ▸ hlies.addr, hslot ▸ hlies.length, hslot ▸ hlies.cmd, List.nil_prefix⟩

theorem reads (h : s.Sound queue) {x : Nat × Bytes} (hx : x ∈ queue.head?) {f : TxFetch}
    (hf : s.fetch = some f) (hreading : s.Reading x f) (hmore : f.bytes.length < f.desc.length) :
    ∃ f', s.device = { s with fetch := some f' } ∧ f'.bytes.length = f.bytes.length + 1 ∧
      s.Reading x f' := by
  have hlies := h.lies x (List.mem_of_head? hx)
  refine ⟨{ f with bytes := f.bytes ++ [s.memory (f.desc.addr + f.bytes.length)] },
    by simp only [device, hf, if_pos hmore], by rw [List.length_append, List.length_singleton],
    hreading.addr, hreading.length, hreading.cmd, ?_⟩
  rw [hreading.length] at hmore
  dsimp only
  rw [hreading.addr, hlies.bytes _ hmore, List.getD_eq_getElem _ _ hmore]
  obtain ⟨rest, hrest⟩ := hreading.bytes
  have htake : f.bytes = x.2.take f.bytes.length := by rw [← hrest, List.take_left]
  have hsnoc : f.bytes ++ [x.2[f.bytes.length]] = x.2.take (f.bytes.length + 1) := by
    rw [← List.take_concat_get' _ _ hmore, ← htake]
  rw [hsnoc]
  exact List.take_prefix ..

theorem fetched (h : s.Sound queue) {f : TxFetch} (hf : ∃ x ∈ queue.head?, s.Reading x f) :
    ({ s with fetch := some f } : Transmission).Sound queue where
  tdt := h.tdt
  tdh := h.tdh
  room := h.room
  tail := h.tail
  slots := h.slots
  lies x hx := ⟨(h.lies x hx).addr, (h.lies x hx).length, (h.lies x hx).cmd, (h.lies x hx).fits,
    (h.lies x hx).bytes⟩
  part := h.part
  fetch f' hf' := by
    obtain rfl := Option.some.inj hf'
    obtain ⟨x, hx, hreading⟩ := hf
    exact ⟨x, hx, hreading.addr, hreading.length, hreading.cmd, hreading.bytes⟩
  call c hc := ⟨(h.call c hc).stores, (h.call c hc).bytes, (h.call c hc).addr,
    (h.call c hc).length, (h.call c hc).cmd⟩
  accepted := h.accepted

theorem finished {x : Nat × Bytes} {rest : List (Nat × Bytes)} (h : s.Sound (x :: rest))
    {f : TxFetch} (hf : s.fetch = some f) (hreading : s.Reading x f)
    (hend : ¬ f.bytes.length < f.desc.length) :
    s.device.Sound rest ∧ s.device.accepted = s.accepted := by
  have hhead := h.tdh
  have hroom := h.room
  rw [List.length_cons] at hroom
  have hstep : s.device = s.finish f := by simp only [device, hf, if_neg hend]
  have hbytes : f.bytes = x.2 := by
    rw [hreading.length] at hend
    exact hreading.bytes.eq_of_length_le (by omega)
  have hstatus : f.desc.cmd.testBit 3 = true := by rw [hreading.cmd]; rfl
  have hlast : f.desc.cmd.testBit 0 = true := by rw [hreading.cmd]; rfl
  have hdescs : (s.finish f).descs =
      Function.update s.descs s.tdh { s.descs s.tdh with status := 1 } := if_pos hstatus
  have hfield : ∀ {α : Type} (g : TxDescriptor → α), (∀ d, g { d with status := 1 } = g d) →
      ∀ i, g ((s.finish f).descs i) = g (s.descs i) := by
    intro α g hg i
    rw [hdescs]
    by_cases hi : i = s.tdh
    · subst hi
      rw [Function.update_self, hg]
    · rw [Function.update_of_ne hi]
  rw [hstep]
  refine ⟨⟨h.tdt, Nat.mod_lt _ (by decide), by omega, ?_, fun i hi => ?_, fun y hy => ?_,
    if_pos hlast, nofun, fun c hc => ?_, ?_⟩, rfl⟩
  · show s.txTail = ((s.tdh + 1) % txDescCount + rest.length) % txDescCount
    rw [h.tail, List.length_cons, Nat.mod_add_mod]
    congr 1
    omega
  · have hslot := h.slots (i + 1) (by rw [List.length_cons]; omega)
    show rest[i].1 = ((s.tdh + 1) % txDescCount + i) % txDescCount
    rw [List.getElem_cons_succ] at hslot
    rw [hslot, Nat.mod_add_mod]
    congr 1
    omega
  · have hlies := h.lies y (List.mem_cons_of_mem x hy)
    exact ⟨(hfield TxDescriptor.addr (fun _ => rfl) _).trans hlies.addr,
      (hfield TxDescriptor.length (fun _ => rfl) _).trans hlies.length,
      (hfield TxDescriptor.cmd (fun _ => rfl) _).trans hlies.cmd, hlies.fits, hlies.bytes⟩
  · have hstored := h.call c hc
    exact ⟨hstored.stores, hstored.bytes,
      fun hk => (hfield TxDescriptor.addr (fun _ => rfl) _).trans (hstored.addr hk),
      fun hk => (hfield TxDescriptor.length (fun _ => rfl) _).trans (hstored.length hk),
      fun hk => (hfield TxDescriptor.cmd (fun _ => rfl) _).trans (hstored.cmd hk)⟩
  · obtain ⟨sent, haccepted, hwire⟩ := h.accepted
    have hsent : (s.finish f).wire = s.wire ++ [x.2] := by
      rw [← hbytes]
      exact (if_pos hlast).trans (by rw [h.part, List.nil_append])
    refine ⟨sent ++ [x], ?_, ?_⟩
    · show s.accepted = sent ++ [x] ++ rest
      rw [haccepted, List.append_assoc, List.singleton_append]
    · rw [hsent, List.map_append, hwire, List.map_singleton]

theorem device (h : s.Sound queue) : ∃ queue', s.device.Sound queue' := by
  cases hf : s.fetch with
  | none =>
    rcases h.idle hf with ⟨-, hsame⟩ | ⟨x, hx, f, hstep, -, hreading⟩
    · rw [hsame]
      exact ⟨queue, h⟩
    · rw [hstep]
      exact ⟨queue, h.fetched ⟨x, hx, hreading⟩⟩
  | some f =>
    obtain ⟨x, hx, hreading⟩ := h.fetch f hf
    by_cases hmore : f.bytes.length < f.desc.length
    · obtain ⟨f', hstep, -, hreading'⟩ := h.reads hx hf hreading hmore
      rw [hstep]
      exact ⟨queue, h.fetched ⟨x, hx, hreading'⟩⟩
    · obtain ⟨rest, rfl⟩ := List.head?_eq_some_iff.mp hx
      exact ⟨rest, (h.finished hf hreading hmore).1⟩

theorem sends {x : Nat × Bytes} {rest : List (Nat × Bytes)} {n : Nat} (h : s.Sound (x :: rest))
    {f : TxFetch} (hf : s.fetch = some f) (hreading : s.Reading x f)
    (hn : f.desc.length ≤ f.bytes.length + n) :
    ∃ k, (Transmission.device^[k] s).Sound rest ∧
      (Transmission.device^[k] s).accepted = s.accepted := by
  induction n generalizing s f with
  | zero => exact ⟨1, h.finished hf hreading (by omega)⟩
  | succ n ih =>
    by_cases hmore : f.bytes.length < f.desc.length
    · obtain ⟨f', hstep, hlength, hreading'⟩ := h.reads rfl hf hreading hmore
      have hdesc : f'.desc.length = f.desc.length := by
        rw [hreading'.length, hreading.length]
      have hsound : s.device.Sound (x :: rest) := hstep ▸ h.fetched ⟨x, rfl, hreading'⟩
      have hfetch : s.device.fetch = some f' := by rw [hstep]
      have hread : s.device.Reading x f' := by
        rw [hstep]
        exact ⟨hreading'.addr, hreading'.length, hreading'.cmd, hreading'.bytes⟩
      obtain ⟨k, hk, haccepted⟩ := ih hsound hfetch hread (by omega)
      refine ⟨k + 1, hk, haccepted.trans ?_⟩
      rw [hstep]
    · exact ⟨1, h.finished hf hreading hmore⟩

theorem completes (h : s.Sound queue) :
    ∃ n, (Transmission.device^[n] s).wire = s.accepted.map Prod.snd := by
  induction queue generalizing s with
  | nil =>
    obtain ⟨sent, haccepted, hwire⟩ := h.accepted
    exact ⟨0, by rw [haccepted, List.append_nil, hwire]; rfl⟩
  | cons x rest ih =>
    have hone : ∃ k, (Transmission.device^[k] s).Sound rest ∧
        (Transmission.device^[k] s).accepted = s.accepted := by
      cases hf : s.fetch with
      | none =>
        rcases h.idle hf with ⟨hnil, -⟩ | ⟨y, hy, f, hstep, -, hreading⟩
        · cases hnil
        · obtain rfl := Option.some.inj hy
          have hsound : s.device.Sound (x :: rest) := hstep ▸ h.fetched ⟨x, rfl, hreading⟩
          have hfetch : s.device.fetch = some f := by rw [hstep]
          have hread : s.device.Reading x f := by
            rw [hstep]
            exact ⟨hreading.addr, hreading.length, hreading.cmd, hreading.bytes⟩
          obtain ⟨k, hk, haccepted⟩ := hsound.sends hfetch hread (Nat.le_add_left _ _)
          refine ⟨k + 1, hk, haccepted.trans ?_⟩
          rw [hstep]
      | some f =>
        obtain ⟨y, hy, hreading⟩ := h.fetch f hf
        obtain rfl := Option.some.inj hy
        exact h.sends hf hreading (Nat.le_add_left _ _)
    obtain ⟨k, hk, haccepted⟩ := hone
    obtain ⟨n, hn⟩ := ih hk
    refine ⟨n + k, ?_⟩
    rw [Function.iterate_add_apply, hn, haccepted]

theorem exact (h : s.Sound queue) : s.Exact := ⟨h.whole, fun _ => h.spares, h.completes⟩

end Sound

theorem store_last {data : Bytes} : s.store ⟨data, dataLen data + 4⟩ = s.advance data := by
  simp only [store]
  rw [if_neg (by omega), if_neg (by omega), if_neg (by omega), if_neg (by omega),
    if_neg (by omega)]

theorem Sound.step (h : s.Sound queue) {a : Action} (hroomy : s.Roomy a) :
    ∃ queue', (s.step a).Sound queue' := by
  cases a with
  | send data =>
    refine ⟨queue, ?_⟩
    rw [Transmission.step]
    split
    · exact h.send data
    · exact h
  | device => exact h.device
  | driver =>
    rw [Transmission.step, driver]
    cases hc : s.call with
    | none => exact ⟨queue, h⟩
    | some c =>
      have hstored := h.call c hc
      by_cases hlast : c.stores = dataLen c.data + 4
      · have hcall : c = ⟨c.data, dataLen c.data + 4⟩ := by rw [← hlast]
        obtain ⟨hroom, hfits⟩ := hroomy c.data rfl (by rw [hc, ← hcall])
        rw [hcall] at hstored
        have hadvance : s.store c = s.advance c.data := hcall ▸ store_last
        refine ⟨queue ++ [(s.txTail, c.data)], ?_⟩
        rw [Option.elim_some, hadvance]
        exact h.advance hstored hroom hfits
      · exact ⟨queue, h.store hstored hlast⟩

theorem Sound.not_exact_full (h : s.Sound queue) {data : Bytes}
    (hfull : (s.txTail + 1) % txDescCount = s.tdh) : ¬ (s.advance data).Exact := by
  intro hexact
  have hnone : (s.advance data).pending = [] := by
    have hcount : ((s.txTail + 1) % txDescCount + txDescCount - s.tdh) % txDescCount = 0 := by
      rw [hfull, Nat.add_sub_cancel_left, Nat.mod_self]
    exact congrArg (fun n => (List.range n).map _) hcount
  obtain ⟨sent, haccepted, hwire⟩ := h.accepted
  have hwhole : s.wire ++ (s.advance data).pending =
      (s.accepted ++ [(s.txTail, data)]).map Prod.snd := hexact.whole
  rw [hnone, haccepted, ← hwire] at hwhole
  have hlength := congrArg List.length hwhole
  simp only [List.append_nil, List.length_map, List.length_append, List.length_singleton] at hlength
  omega

theorem Sound.not_exact_long (h : s.Sound queue) {data : Bytes}
    (hc : s.Stored ⟨data, dataLen data + 4⟩) (hroom : (s.txTail + 1) % txDescCount ≠ s.tdh)
    (hlong : rxBufferSize < data.length) : ¬ (s.advance data).Exact := by
  intro hexact
  have hcount : ((s.txTail + 1) % txDescCount + txDescCount - s.tdh) % txDescCount =
      queue.length + 1 := by
    have hhead := h.tdh
    have hqueue := h.room
    rw [h.tail] at hroom ⊢
    unfold txDescCount at *
    omega
  have hpending : (s.advance data).pending = (List.range (queue.length + 1)).map fun i =>
      s.frameAt ((s.tdh + i) % txDescCount) := by
    rw [← hcount]
    rfl
  have hwhole : s.wire ++ (s.advance data).pending =
      (s.accepted ++ [(s.txTail, data)]).map Prod.snd := hexact.whole
  rw [hpending, List.range_succ, List.map_append, List.map_append, ← List.append_assoc] at hwhole
  have hlast : [s.frameAt ((s.tdh + queue.length) % txDescCount)] = [data] :=
    List.append_inj_right' hwhole rfl
  rw [← h.tail] at hlast
  have hlength := congrArg List.length (List.cons.inj hlast).1
  have hdesc := hc.length (by dsimp only; omega)
  rw [frameAt, Memory.length_slice, hdesc, dataLen] at hlength
  omega

theorem Sound.not_exact (h : s.Sound queue) {a : Action} (hroomy : ¬ s.Roomy a) :
    ¬ (s.step a).Exact := by
  simp only [Roomy, not_forall] at hroomy
  obtain ⟨data, rfl, hcall, hbad⟩ := hroomy
  have hstep : s.step .driver = s.advance data := by
    rw [Transmission.step, driver, hcall, Option.elim_some, store_last]
  rw [hstep]
  by_cases hfull : (s.txTail + 1) % txDescCount = s.tdh
  · exact h.not_exact_full hfull
  · apply h.not_exact_long (h.call _ hcall) hfull
    have hlong : ¬ data.length ≤ rxBufferSize := fun hfits => hbad ⟨hfull, hfits⟩
    omega

/-- In every state of a run the frames that were accepted are sent or lie whole in the ring, no
call works on a slot that is not done with, and the controller will send all of them, exactly
when each call that ends leaves a descriptor free and has a frame that fits its buffer. -/
theorem transmits_iff (buffers : TxBuffers) (actions : List Action) :
    Along step (fun s a => (s.step a).Exact) (start buffers) actions ↔
      Along step Roomy (start buffers) actions := by
  have hsame : ∀ s, ∀ a ∈ actions, (∃ queue, Sound s queue) → ((s.step a).Exact ↔ s.Roomy a) := by
    rintro s a - ⟨queue, h⟩
    constructor
    · intro hexact
      by_contra hroomy
      exact h.not_exact hroomy hexact
    · intro hroomy
      obtain ⟨queue', h'⟩ := h.step hroomy
      exact h'.exact
  refine Lib.along_congr hsame ?_ ⟨[], sound_start buffers⟩
  rintro s a ha ⟨queue, h⟩ hexact
  exact h.step ((hsame s a ha ⟨queue, h⟩).mp hexact)

/-- Buffers one behind the other. -/
def inRow : TxBuffers where
  phys i := 2048 * i
  apart i _ j _ hij := by
    unfold rxBufferSize
    omega

/-- A call of `send_packet` with a frame of one byte. -/
def sendOne (b : UInt8) : List Action := .send [b] :: List.replicate 6 .driver

/-- Eight calls before the controller gets to its first descriptor: nothing is to be sent any
more. A ninth call writes over the first frame, and only that call's frame is sent. -/
theorem eightFrames_lost :
    (run (start inRow) ([1, 2, 3, 4, 5, 6, 7, 8].flatMap sendOne)).accepted.map Prod.snd =
        [[1], [2], [3], [4], [5], [6], [7], [8]] ∧
      (run (start inRow) ([1, 2, 3, 4, 5, 6, 7, 8].flatMap sendOne)).pending = [] ∧
      (run (start inRow) ([1, 2, 3, 4, 5, 6, 7, 8, 9].flatMap sendOne ++
        List.replicate 100 .device)).wire = [[9]] ∧
      ¬ (run (start inRow) ([1, 2, 3, 4, 5, 6, 7, 8].flatMap sendOne)).Exact := by
  have haccepted : (run (start inRow) ([1, 2, 3, 4, 5, 6, 7, 8].flatMap sendOne)).accepted.map
      Prod.snd = [[1], [2], [3], [4], [5], [6], [7], [8]] := by decide
  have hpending : (run (start inRow) ([1, 2, 3, 4, 5, 6, 7, 8].flatMap sendOne)).pending = [] := by
    decide
  have hwire : (run (start inRow) ([1, 2, 3, 4, 5, 6, 7, 8].flatMap sendOne)).wire = [] := by
    decide
  refine ⟨haccepted, hpending, by decide +kernel, fun hexact => ?_⟩
  have hwhole := hexact.whole
  rw [haccepted, hpending, hwire] at hwhole
  exact absurd hwhole (by decide)

end Transmission

end Vibra.Net
