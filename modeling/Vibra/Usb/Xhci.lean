import Vibra.Lib.Dialog
import Vibra.Lib.RawDisk

/-! # The xHCI driver

A call of the driver asks for memory, puts TRBs on a ring and waits for an event. What the
controller does meanwhile is not part of it.
-/

namespace Vibra.Usb

open Lib (Bytes Dialog)
open Lib.Dialog (question)

inductive UsbError where
  | noDevice
  | timeout
  | stall
  | transferFailed
  | noMemory
  | unsupported
deriving DecidableEq

inductive CommandType where
  | enableSlot
  | addressDevice
  | configureEndpoint
  | evaluateContext
  | resetEndpoint
  | setTrDequeue
deriving DecidableEq

/-- A TRB without its cycle bit. -/
inductive Trb where
  | normal (buffer length : Nat) (dirIn : Bool)
  | setupStage (bm request value index length : Nat)
  | dataStage (buffer length : Nat) (dirIn : Bool)
  | statusStage (dirIn : Bool)
deriving DecidableEq

inductive EventType where
  | transferEvent
  | commandCompletion
  | portStatusChange
  | other
deriving DecidableEq

/-- What the driver reads from the words of an event. -/
structure Event where
  trbType : EventType
  param : Nat
  completionCode : Nat
  transferLength : Nat
  slot : Nat
  endpoint : Nat
deriving DecidableEq

def ccSuccess : Nat := 1
def ccStall : Nat := 6
def ccShortPacket : Nat := 13

def Event.Good (event : Event) : Prop :=
  event.completionCode = ccSuccess ∨ event.completionCode = ccShortPacket

instance (event : Event) : Decidable event.Good := inferInstanceAs (Decidable (_ ∨ _))

def trbSize : Nat := 16
def ringTrbs : Nat := 256

/-- The producer's side of a ring; its TRBs are the controller's. -/
structure Ring where
  phys : Nat
  index : Nat
  cycle : Bool

namespace Ring

def next (ring : Ring) : Nat := ring.phys + ring.index * trbSize

def push (ring : Ring) : Ring :=
  if ringTrbs - 1 ≤ ring.index + 1 then { ring with index := 0, cycle := !ring.cycle }
  else { ring with index := ring.index + 1 }

def pushMany : Nat → Ring → Ring
  | 0, ring => ring
  | n + 1, ring => pushMany n ring.push

def dequeue (ring : Ring) : Nat := ring.next + ring.cycle.toNat

end Ring

structure HidKeyboard where
  slot : Nat
  dci : Nat
  ring : Ring
  reportPhys : Nat
  maxPacket : Nat
  pending : Bool
  reports : Nat

/-- The device context indices of the bulk endpoints, which have five bits, and how much a
transfer takes. -/
structure StorageDevice where
  slot : Nat
  inDci : Fin 32
  outDci : Fin 32
  maxTransfer : Nat

def StorageDevice.dci (device : StorageDevice) (dirIn : Bool) : Fin 32 :=
  if dirIn then device.inDci else device.outDci

/-- `rings` has those of the default and the bulk endpoints, by slot and device context
index. -/
structure Controller where
  maxPorts : Nat
  cmd : Ring
  rings : Nat → Nat → Ring
  keys : List HidKeyboard
  storage : List StorageDevice
  slots : List Nat
  rescan : Bool

/-- What is put on a ring and waited for. -/
inductive Job where
  | command (type : CommandType) (param status slot : Nat)
  | transfer (slot dci : Nat) (trbs : List Trb)
deriving DecidableEq

/-- A job, and the address of its TRB that reports: the last one. -/
structure Handed where
  serial : Nat
  address : Nat
  job : Job
deriving DecidableEq

/-- An event, the job that it reports on, and the bytes that this has moved. -/
structure Posted where
  event : Event
  source : Option Handed
  moved : Bytes
deriving DecidableEq

inductive Request where
  | allocate (contents : Bytes)
  | free (buffer : Nat)
  | dequeue (slot dci : Nat)
  | submit (job : Job)

/-- A wait ends with an event or without one. It knows the job that has been put on the ring
for it, and what is in the job's buffer at its end. -/
inductive Answer where
  | buffer (phys : Option Nat)
  | freed
  | pointer (dequeue : Nat)
  | waited (own : Handed) (post : Option Posted) (bytes : Bytes)
deriving DecidableEq

namespace Answer

def phys : Answer → Option Nat
  | buffer phys => phys
  | _ => none

def address : Answer → Nat
  | pointer dequeue => dequeue
  | _ => 0

def event : Answer → Option Event
  | waited _ post _ => post.map (·.event)
  | _ => none

def bytes : Answer → Bytes
  | waited _ _ bytes => bytes
  | _ => []

end Answer

abbrev UsbDialog := Dialog Request Answer

def commandFull (param status : Nat) (type : CommandType) (slot : Nat) :
    UsbDialog (Option Event) := do
  let answer ← question (.submit (.command type param status slot))
  pure answer.event

def command (param : Nat) (type : CommandType) (slot : Nat) : UsbDialog (Option Event) :=
  commandFull param 0 type slot

/-- The slot that `enumerate_device` goes on with. -/
def enableSlot : UsbDialog (Option Nat) := do
  let event ← command 0 .enableSlot 0
  pure (match event with
    | some event =>
      if event.completionCode = ccSuccess ∧ event.slot ≠ 0 then some event.slot else none
    | none => none)

/-- The bit of `bmRequestType` for the direction to the host. -/
def dirInOf (bm : Nat) : Bool := bm / 0x80 % 2 = 1

/-- The stages of a control transfer. `data` is the buffer's address and length. -/
def controlTrbs (bm request value index : Nat) (data : Option (Nat × Nat)) : List Trb :=
  let len := data.elim 0 Prod.snd
  [.setupStage bm request value index len] ++
    (match data with
      | some (phys, len) => if 0 < len then [.dataStage phys len (dirInOf bm)] else []
      | none => []) ++
    [.statusStage (len = 0 || !dirInOf bm)]

/-- The result, and the buffer as the wait leaves it. -/
def controlTransferRaw (slot bm request value index : Nat) (data : Option (Nat × Nat)) :
    UsbDialog (Except UsbError Nat × Bytes) := do
  let answer ← question (.submit (.transfer slot 1 (controlTrbs bm request value index data)))
  pure (match answer.event with
    | some event =>
      if event.Good then .ok (data.elim 0 Prod.snd)
      else if event.completionCode = ccStall then .error .stall
      else .error .transferFailed
    | none => .error .timeout, answer.bytes)

/-- No data is the empty buffer. -/
def slotControl (ctrl : Controller) (slot bm request value index : Nat) (data : Bytes) :
    UsbDialog (Except UsbError Nat × Bytes) :=
  if slot ∉ ctrl.slots then pure (.error .noDevice, data)
  else if data = [] then do
    let (result, _) ← controlTransferRaw slot bm request value index none
    pure (result, [])
  else do
    let dirIn := dirInOf bm
    let answer ← question (.allocate (if dirIn then List.replicate data.length 0 else data))
    match answer.phys with
    | none => pure (.error .noMemory, data)
    | some phys =>
      let (result, bytes) ← controlTransferRaw slot bm request value index
        (some (phys, data.length))
      let _ ← question (.free phys)
      pure (match result with
        | .ok n =>
          if dirIn then
            (.ok (min n data.length), bytes.take (min n data.length) ++
              data.drop (min n data.length))
          else (.ok n, data)
        | .error e => (.error e, data))

def endpointId (dci : Nat) : Nat := dci * 2 ^ 16

def succeeded (event : Option Event) : Bool :=
  event.any fun event => event.completionCode = ccSuccess

def recoverEndpoint (slot dci : Nat) : UsbDialog Bool := do
  let dequeue ← question (.dequeue slot dci)
  let reset ← commandFull 0 (endpointId dci) .resetEndpoint slot
  let dequeueTrb ← commandFull dequeue.address (endpointId dci) .setTrDequeue slot
  pure (succeeded reset && succeeded dequeueTrb)

def failed (event : Option Event) : Bool :=
  event.all fun event => ¬event.Good

/-- The bytes that a transfer of `len` has brought. -/
def received (len : Nat) (event : Event) : Nat := len - min event.transferLength len

def chunkJob (slot dci phys : Nat) (dirIn : Bool) (data : Bytes) : Job :=
  .transfer slot dci [.normal phys data.length dirIn]

/-- What `bulk_chunk` makes of the last answer. -/
def chunkResult (dirIn : Bool) (data : Bytes) (answer : Answer) : Except UsbError Nat × Bytes :=
  match answer.event with
  | none => (.error .timeout, data)
  | some event =>
    if event.completionCode = ccStall then (.error .stall, data)
    else if ¬event.Good then (.error .transferFailed, data)
    else
      let got := received data.length event
      (.ok got, if dirIn then answer.bytes.take got ++ data.drop got else data)

/-- One bulk transfer, tried once more if the endpoint recovers from a failure. -/
def bulkChunk (slot dci : Nat) (dirIn : Bool) (data : Bytes) :
    UsbDialog (Except UsbError Nat × Bytes) := do
  let memory ← question (.allocate (if dirIn then List.replicate data.length 0 else data))
  match memory.phys with
  | none => pure (.error .noMemory, data)
  | some phys =>
    let job := chunkJob slot dci phys dirIn data
    let first ← question (.submit job)
    let recovered ← if failed first.event then recoverEndpoint slot dci else pure false
    let last ← if recovered then question (.submit job) else pure first
    let _ ← question (.free phys)
    pure (chunkResult dirIn data last)

/-- The loop of `bulk`: `done` has been dealt with, and a short chunk ends it. -/
def bulkLoop (slot dci maxTransfer : Nat) (dirIn : Bool) (done rest : Bytes) :
    UsbDialog (Except UsbError Nat × Bytes) :=
  if _ : rest = [] then pure (.ok done.length, done)
  else do
    let chunk := min rest.length (max maxTransfer 512)
    let (result, bytes) ← bulkChunk slot dci dirIn (rest.take chunk)
    match result with
    | .error e => pure (.error e, done ++ bytes ++ rest.drop chunk)
    | .ok got =>
      if got < chunk then pure (.ok (done.length + got), done ++ bytes ++ rest.drop chunk)
      else bulkLoop slot dci maxTransfer dirIn (done ++ bytes) (rest.drop chunk)
termination_by rest.length
decreasing_by
  have : 0 < rest.length := List.length_pos_iff.mpr ‹_›
  simp only [List.length_drop]
  omega

def bulk (ctrl : Controller) (slot : Nat) (dirIn : Bool) (data : Bytes) :
    UsbDialog (Except UsbError Nat × Bytes) :=
  if data = [] then pure (.ok 0, [])
  else
    match ctrl.storage.find? (·.slot = slot) with
    | none => pure (.error .noDevice, data)
    | some device => bulkLoop slot (device.dci dirIn) device.maxTransfer dirIn [] data

/-- What the rest of the kernel calls. -/
inductive Call where
  | command (param : Nat) (type : CommandType) (slot : Nat)
  | enableSlot
  | control (slot bm request value index : Nat) (data : Bytes)
  | bulk (slot : Nat) (dirIn : Bool) (data : Bytes)

inductive Result where
  | event (event : Option Event)
  | slot (slot : Option Nat)
  | transferred (result : Except UsbError Nat) (data : Bytes)

def Controller.perform (ctrl : Controller) : Call → UsbDialog Result
  | .command param type slot => do
      let event ← Usb.command param type slot
      pure (.event event)
  | .enableSlot => do
      let slot ← Usb.enableSlot
      pure (.slot slot)
  | .control slot bm request value index data => do
      let (result, data) ← slotControl ctrl slot bm request value index data
      pure (.transferred result data)
  | .bulk slot dirIn data => do
      let (result, data) ← Usb.bulk ctrl slot dirIn data
      pure (.transferred result data)

end Vibra.Usb
