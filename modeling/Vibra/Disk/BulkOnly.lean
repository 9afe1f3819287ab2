import Vibra.Fat32.Volume
import Vibra.Lib.Dialog

/-! # Bulk-Only Transport

A SCSI command is a CBW, a data stage and a CSW, each one transfer over a bulk pipe.
-/

namespace Vibra.Disk

open Fat32 (FsError)
open Lib (Dialog Memory)
open Lib.Dialog (question)

def cbwSignature : Nat := 0x43425355
def cswSignature : Nat := 0x53425355

inductive Stage where
  | command
  | data
  | status
deriving DecidableEq

/-- What a handle asks for. -/
inductive UsbRequest where
  | bulk (stage : Stage) (dirIn : Bool) (data : List UInt8)
  | resolveStall

/-- How many bytes a transfer moved, unless it failed, and the buffer after it. For a
status `serial` is the number of the CBW that the device produced it for. -/
structure UsbReply where
  done : Option Nat
  data : List UInt8
  serial : Nat

abbrev UsbDialog := Dialog UsbRequest UsbReply

/-- The number of four bytes at `i`. -/
def le32At (bytes : List UInt8) (i : Nat) : Nat := Memory.le32 (fun j => bytes.getD j 0) i

def cbwOf (tag : UInt32) (transferLen : Nat) (dirIn : Bool) (cdb : List UInt8) : List UInt8 :=
  Memory.toLe32 cbwSignature ++ Memory.toLe32 tag.toNat ++ Memory.toLe32 transferLen ++
    [if dirIn then 0x80 else 0x00, 0, UInt8.ofNat cdb.length] ++ cdb ++
    List.replicate (16 - cdb.length) 0

def IsCsw (csw : List UInt8) : Prop := le32At csw 0 = cswSignature

def Passes (tag : Nat) (csw : List UInt8) : Prop :=
  IsCsw csw ∧ le32At csw 4 = tag ∧ csw.getD 12 0 = 0

instance (csw : List UInt8) : Decidable (IsCsw csw) := inferInstanceAs (Decidable (_ = _))

instance (tag : Nat) (csw : List UInt8) : Decidable (Passes tag csw) :=
  inferInstanceAs (Decidable (_ ∧ _))

namespace UsbDisk

/-- What a call leaves: its result, the buffer and the tag of the handle. -/
structure Outcome where
  result : Except FsError Unit
  data : List UInt8
  tag : UInt32

/-- No data is the empty buffer. -/
def dataStage (data : List UInt8) (dirIn : Bool) :
    UsbDialog (Except FsError Unit × List UInt8) :=
  if data = [] then pure (.ok (), data)
  else do
    let reply ← question (.bulk .data dirIn data)
    let buffer := if dirIn then reply.data.takeD data.length 0 else data
    pure (if reply.done = some data.length then .ok () else .error .ioError, buffer)

def statusStage (tag : UInt32) : UsbDialog (Except FsError Unit) := do
  let reply ← question (.bulk .status true (List.replicate 13 0))
  pure (if reply.done = some 13 ∧ Passes tag.toNat reply.data then .ok () else .error .ioError)

/-- One cycle of the transport. -/
def bot (tag : UInt32) (cdb data : List UInt8) (dirIn : Bool) : UsbDialog Outcome := do
  let tag := tag + 1
  let cbw := cbwOf tag data.length dirIn cdb
  let sent ← question (.bulk .command false cbw)
  if sent.done = some cbw.length then
    let moved ← dataStage data dirIn
    match moved with
    | (.ok (), data) =>
      let result ← statusStage tag
      pure ⟨result, data, tag⟩
    | (.error e, data) => pure ⟨.error e, data, tag⟩
  else pure ⟨.error .ioError, data, tag⟩

def senseKey (sense : List UInt8) : Nat :=
  let response := (sense.getD 0 0).toNat % 0x80
  if 0x72 ≤ response then (sense.getD 1 0).toNat % 0x10 else (sense.getD 2 0).toNat % 0x10

def requestSense (tag : UInt32) : UsbDialog (Option Nat × UInt32) := do
  let sense ← bot tag [0x03, 0, 0, 0, 18, 0] (List.replicate 18 0) true
  match sense.result with
  | .ok () => pure (some (senseKey sense.data), sense.tag)
  | .error _ => pure (none, sense.tag)

def maxAttempts : Nat := 5

/-- The loop of `execute`. -/
def attempts (cdb : List UInt8) (dirIn : Bool) (tag : UInt32) (data : List UInt8) (attempt : Nat)
    (resetDone : Bool) : UsbDialog Outcome := do
  let tried ← bot tag cdb data dirIn
  match tried.result with
  | .ok () => pure tried
  | .error error =>
    let attempt := attempt + 1
    let (sense, tag) ← requestSense tried.tag
    let key := sense.getD 0
    let retryable := key = 0x02 ∨ key = 0x06
    if _ : ¬retryable ∧ resetDone = false then
      let _ ← question .resolveStall
      attempts cdb dirIn tag tried.data attempt true
    else if _ : maxAttempts ≤ attempt ∨ ¬retryable ∧ resetDone then
      pure ⟨.error error, tried.data, tag⟩
    else attempts cdb dirIn tag tried.data attempt resetDone
termination_by (maxAttempts - attempt) + (if resetDone then 0 else 1)
decreasing_by
  · simp only [*, if_true, Bool.false_eq_true, if_false]
    omega
  · simp only [not_or, not_le] at *
    omega

def execute (tag : UInt32) (cdb data : List UInt8) (dirIn : Bool) : UsbDialog Outcome :=
  attempts cdb dirIn tag data 0 false

end UsbDisk

/-- A call of `execute`: its number, what it is given, and all it has asked for. -/
structure UsbCall where
  id : Nat
  data : List UInt8
  dirIn : Bool
  log : List (UsbRequest × UsbReply)

/-- A call that waits for an answer. -/
structure UsbWaiting where
  call : UsbCall
  request : UsbRequest
  next : UsbReply → UsbDialog UsbDisk.Outcome

structure UsbHandle where
  tag : UInt32
  waiting : Option UsbWaiting

/-- A status in the pipe, with the number of the CBW that the device produced it for. -/
structure Csw where
  bytes : List UInt8
  serial : Nat
deriving DecidableEq

/-- The handles on a device, the number of calls so far, the call of every CBW in order,
the statuses in the pipe, and the calls that have returned. -/
structure UsbBus where
  handles : Nat → UsbHandle
  calls : Nat
  sent : List Nat
  inFlight : List Csw
  returned : List (UsbCall × UsbDisk.Outcome)

/-- A handle is opened or calls `execute`, a transfer of its call ends, the device
produces a status, or the pipe loses one. -/
inductive UsbEvent where
  | opened (handle : Nat)
  | execute (handle : Nat) (cdb data : List UInt8) (dirIn : Bool)
  | answer (handle : Nat) (reply : UsbReply)
  | produce (csw : Csw)
  | lose (csw : Csw)

namespace UsbRequest

def stage : UsbRequest → Option Stage
  | .bulk stage _ _ => some stage
  | .resolveStall => none

end UsbRequest

namespace UsbBus

def boot : UsbBus := ⟨fun _ => ⟨0, none⟩, 0, [], [], []⟩

def setHandle (s : UsbBus) (handle : Nat) (h : UsbHandle) : UsbBus :=
  { s with handles := Function.update s.handles handle h }

/-- A call goes on until it waits or returns. -/
def resume (s : UsbBus) (handle : Nat) (call : UsbCall) :
    UsbDialog UsbDisk.Outcome → UsbBus
  | .done outcome =>
    { s.setHandle handle ⟨outcome.tag, none⟩ with returned := s.returned ++ [(call, outcome)] }
  | .ask request next =>
    s.setHandle handle ⟨(s.handles handle).tag, some ⟨call, request, next⟩⟩

def Brings (request : UsbRequest) (reply : UsbReply) : Prop :=
  request.stage = some .status ∧ reply.done = some 13 ∧ IsCsw reply.data

instance (request : UsbRequest) (reply : UsbReply) : Decidable (Brings request reply) :=
  inferInstanceAs (Decidable (_ ∧ _))

/-- A CBW counts as sent even if the handle is told that its transfer failed. A status
comes from the pipe; otherwise the device and the pipe answer as they like. -/
def answer (s : UsbBus) (handle : Nat) (reply : UsbReply) : UsbBus :=
  match (s.handles handle).waiting with
  | none => s
  | some ⟨call, request, next⟩ =>
    let csw : Csw := ⟨reply.data, reply.serial⟩
    if Brings request reply ∧ csw ∉ s.inFlight then s
    else
      resume
        { s with
          sent := if request.stage = some .command then s.sent ++ [call.id] else s.sent
          inFlight := if Brings request reply then s.inFlight.erase csw else s.inFlight }
        handle { call with log := call.log ++ [(request, reply)] } (next reply)

/-- An event that does not apply changes nothing. -/
def step (s : UsbBus) : UsbEvent → UsbBus
  | .opened handle =>
    if (s.handles handle).waiting = none then s.setHandle handle ⟨0, none⟩ else s
  | .execute handle cdb data dirIn =>
    match (s.handles handle).waiting with
    | some _ => s
    | none =>
      resume { s with calls := s.calls + 1 } handle ⟨s.calls, data, dirIn, []⟩
        (UsbDisk.execute (s.handles handle).tag cdb data dirIn)
  | .answer handle reply => s.answer handle reply
  | .produce csw =>
    if csw.serial < s.sent.length then { s with inFlight := s.inFlight ++ [csw] } else s
  | .lose csw => { s with inFlight := s.inFlight.erase csw }

def run (s : UsbBus) (events : List UsbEvent) : UsbBus := events.foldl step s

end UsbBus

end Vibra.Disk
