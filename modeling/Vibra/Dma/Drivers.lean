import Vibra.Disk.Nvme
import Vibra.Lib.Lending
import Vibra.Usb.EventRing

/-! # Drivers that lend memory

What the drivers of NVMe, AHCI, EHCI and xHCI ask for: memory from the allocator, and commands that
they put before a device and wait for.
-/

namespace Vibra.Dma

open Disk (chunkOf nvmeIoRead nvmeIoWrite)
open Fat32 (FsError)
open Lib (Deed Dialog)
open Lib.Dialog (question)
open Usb (UsbDialog UsbError)

/-- Where commands end one after the other: the I/O queue, the slot of a port, a queue head of
the async schedule, or a ring. -/
inductive Channel where
  | nvme
  | ahci (port : Nat)
  | ehci (queueHead : Nat)
  | xhci (channel : Usb.Channel)
deriving DecidableEq

/-- `submit` puts a command before a device, with the blocks that it names, and waits for it. -/
inductive Question where
  | allocate (size : Nat)
  | dmaAddress (block : Nat)
  | free (block : Nat)
  | ready (port : Nat)
  | submit (channel : Channel) (words : List Nat) (blocks : List Nat)
  | usb (request : Usb.Request)

/-- The command whose end has been seen, and what the driver reads then. -/
structure Ended where
  serial : Nat
  words : List Nat
deriving DecidableEq

inductive Answer where
  | block (block : Option Nat)
  | yes
  | no
  | waited (serial : Nat) (ended : Option Ended)
  | usb (answer : Usb.Answer)
deriving DecidableEq

namespace Answer

def address : Answer → Option Nat
  | block address => address
  | _ => none

def words : Answer → Option (List Nat)
  | waited _ ended => ended.map (·.words)
  | _ => none

def toUsb : Answer → Usb.Answer
  | usb answer => answer
  | _ => .freed

end Answer

abbrev DmaDialog := Dialog Question Answer

/-- `submit_io`: the status of the completion that is there next. -/
def submitResult (answer : Answer) : Except FsError Unit :=
  match answer.words with
  | some words => if words.getD 0 0 % 2 ^ 7 = 0 then .ok () else .error .ioError
  | none => .error .ioError

/-- The loop of `read_dev` and of `write_dev`. -/
def chunks (opcode bs bufSize done lba : Nat) : DmaDialog (Except FsError Unit) :=
  if _ : done < bufSize then
    let chunk := chunkOf bs bufSize done
    if _ : chunk = 0 then pure (.error .ioError)
    else do
      let memory ← question (.allocate chunk)
      match memory.address with
      | none => pure (.error .ioError)
      | some block =>
        let phys ← question (.dmaAddress block)
        if phys ≠ .yes then do
          let _ ← question (.free block)
          pure (.error .ioError)
        else do
          let answer ← question (.submit .nvme [opcode, lba, chunk / bs - 1] [block])
          let _ ← question (.free block)
          match submitResult answer with
          | .error e => pure (.error e)
          | .ok () => chunks opcode bs bufSize (done + chunk) (lba + chunk / bs)
  else pure (.ok ())
termination_by bufSize - done
decreasing_by omega

def transferDev (opcode bs lba blocks len : Nat) : DmaDialog (Except FsError Unit) :=
  if blocks = 0 then pure (.ok ())
  else if bs = 0 ∨ len < blocks * bs then pure (.error .ioError)
  else chunks opcode bs (blocks * bs) 0 lba

def readDev (bs lba blocks len : Nat) : DmaDialog (Except FsError Unit) :=
  transferDev nvmeIoRead bs lba blocks len

def writeDev (bs lba blocks len : Nat) : DmaDialog (Except FsError Unit) :=
  transferDev nvmeIoWrite bs lba blocks len

def ataCmdReadDmaExt : Nat := 0x25
def ataCmdWriteDmaExt : Nat := 0x35

/-- The bit of the port has been seen clear. The driver reads how many looks it had left, the task
file and the interrupt status. -/
def commandResult (answer : Answer) : Bool :=
  match answer.words with
  | some words =>
    words.getD 0 0 ≠ 0 ∧ words.getD 1 0 % 2 = 0 ∧ words.getD 2 0 &&& 0x78000000 = 0
  | none => false

/-- The command table is a block of its own; the buffer is the caller's. -/
def sectors (command port lba count buffer : Nat) : DmaDialog Bool := do
  let idle ← question (.ready port)
  if idle ≠ .yes then pure false
  else do
    let memory ← question (.allocate 256)
    match memory.address with
    | none => pure false
    | some table =>
      let tablePhys ← question (.dmaAddress table)
      let bufferPhys ← if tablePhys = .yes then question (.dmaAddress buffer) else pure .no
      if bufferPhys ≠ .yes then do
        let _ ← question (.free table)
        pure false
      else do
        let answer ← question (.submit (.ahci port) [command, lba, count] [table, buffer])
        let _ ← question (.free table)
        pure (commandResult answer)

def readSectors (port lba count buffer : Nat) : DmaDialog Bool :=
  sectors ataCmdReadDmaExt port lba count buffer

def writeSectors (port lba count buffer : Nat) : DmaDialog Bool :=
  sectors ataCmdWriteDmaExt port lba count buffer

/-- The queue heads of a device with bulk endpoints. -/
structure EhciStorage where
  address : Nat
  inQh : Nat
  outQh : Nat
  maxPacket : Nat
  maxTransfer : Nat
  positive : 0 < maxTransfer

structure EhciController where
  ctrlQh : Nat
  devices : List Nat
  storage : List EhciStorage

def controlDataMax : Nat := 4096
def qtdSize : Nat := 64

def tdHalted (token : Nat) : Bool := token / 2 % 2 = 1
def tdError (token : Nat) : Bool := token / 2 ^ 2 % 2 ^ 3 ≠ 0
def tdResidual (token : Nat) : Nat := token / 2 ^ 16 % 2 ^ 15

/-- What a qTD that has ended says. -/
def tokenError (token : Nat) : Option UsbError :=
  if tdHalted token then some .stall
  else if tdError token then some .transferFailed
  else none

/-- What the tokens of the setup and the data stage say, after the status stage has ended. -/
def controlResult (bm len : Nat) (answer : Answer) : Except UsbError Nat :=
  match answer.words with
  | none => .error .timeout
  | some words =>
    match (tokenError (words.getD 0 0)).or (tokenError (words.getD 1 0)) with
    | some e => .error e
    | none =>
      if 0 < len ∧ Usb.dirInOf bm then .ok (len - tdResidual (words.getD 1 0)) else .ok len

/-- The qTDs are in one block; the buffers of the setup and of the data are the controller's. -/
def controlRaw (ctrl : EhciController) (bm request value index len : Nat) :
    DmaDialog (Except UsbError Nat) :=
  if controlDataMax < len then pure (.error .unsupported)
  else do
    let memory ← question (.allocate (3 * qtdSize))
    match memory.address with
    | none => pure (.error .noMemory)
    | some qtds =>
      let answer ← question
        (.submit (.ehci ctrl.ctrlQh) [bm, request, value, index, len] [qtds])
      let _ ← question (.free qtds)
      pure (controlResult bm len answer)

def ehciControl (ctrl : EhciController) (address bm request value index len : Nat) :
    DmaDialog (Except UsbError Nat) :=
  if address ∉ ctrl.devices then pure (.error .noDevice)
  else controlRaw ctrl bm request value index len

/-- How many bytes of the chunk have been transferred. -/
def chunkResult (dirIn : Bool) (chunk : Nat) (answer : Answer) : Except UsbError Nat :=
  match answer.words with
  | none => .error .timeout
  | some words =>
    match tokenError (words.getD 0 0) with
    | some e => .error e
    | none =>
      let transferred := chunk - tdResidual (words.getD 0 0)
      if dirIn = false ∧ transferred ≠ chunk then .error .transferFailed else .ok transferred

/-- The loop of `bulk_inner`, with the data toggle. -/
def bulkInner (queueHead : Nat) (storage : EhciStorage) (dirIn : Bool) (len done dt : Nat) :
    DmaDialog (Except UsbError Nat) :=
  if _ : done < len then do
    let chunk := min (len - done) storage.maxTransfer
    let memory ← question (.allocate qtdSize)
    match memory.address with
    | none => pure (.error .noMemory)
    | some qtd =>
      let answer ← question (.submit (.ehci queueHead) [dirIn.toNat, chunk, dt] [qtd])
      let _ ← question (.free qtd)
      match chunkResult dirIn chunk answer with
      | .error e => pure (.error e)
      | .ok transferred =>
        if transferred < chunk then pure (.ok (done + transferred))
        else
          let packets := (transferred + storage.maxPacket - 1) / storage.maxPacket
          bulkInner queueHead storage dirIn len (done + chunk) ((dt + packets) % 2)
  else pure (.ok done)
termination_by len - done
decreasing_by
  have := storage.positive
  omega

def ehciBulk (ctrl : EhciController) (address : Nat) (dirIn : Bool) (len toggle : Nat) :
    DmaDialog (Except UsbError Nat) :=
  if len = 0 then pure (.ok 0)
  else
    match ctrl.storage.find? (·.address = address) with
    | none => pure (.error .noDevice)
    | some storage =>
      bulkInner (if dirIn then storage.inQh else storage.outQh) storage dirIn len 0 (toggle % 2)

/-- What the rest of the kernel calls. -/
inductive Call where
  | nvmeRead (bs lba blocks len : Nat)
  | nvmeWrite (bs lba blocks len : Nat)
  | ahciRead (port lba count buffer : Nat)
  | ahciWrite (port lba count buffer : Nat)
  | ehciControl (ctrl : EhciController) (address bm request value index len : Nat)
  | ehciBulk (ctrl : EhciController) (address : Nat) (dirIn : Bool) (len toggle : Nat)
  | xhci (ctrl : Usb.Controller) (call : Usb.Call)

def ofUsb {α : Type} (dialog : UsbDialog α) : DmaDialog α := dialog.via .usb Answer.toUsb

/-- A call, whatever it returns. -/
def perform : Call → DmaDialog Unit
  | .nvmeRead bs lba blocks len => do
      let _ ← readDev bs lba blocks len
  | .nvmeWrite bs lba blocks len => do
      let _ ← writeDev bs lba blocks len
  | .ahciRead port lba count buffer => do
      let _ ← readSectors port lba count buffer
  | .ahciWrite port lba count buffer => do
      let _ ← writeSectors port lba count buffer
  | .ehciControl ctrl address bm request value index len => do
      let _ ← ehciControl ctrl address bm request value index len
  | .ehciBulk ctrl address dirIn len toggle => do
      let _ ← ehciBulk ctrl address dirIn len toggle
  | .xhci ctrl call => do
      let _ ← ofUsb (ctrl.perform call)

def performAll : List Call → DmaDialog Unit
  | [] => pure ()
  | call :: calls => do
      perform call
      performAll calls

def blocksOf (job : Usb.Job) : List Nat := job.buffer.elim [] fun buffer => [buffer.1]

/-- The endpoint that a Set TR Dequeue takes back, once the driver is told that it is done. -/
def recalledBy (job : Usb.Job) (post : Option Usb.Posted) : Option Channel :=
  if Usb.succeeded (post.map (·.event)) then job.recalled.map .xhci else none

/-- What an exchange means for the memory. -/
def deed : Question × Answer → Deed Channel Nat
  | (.submit channel _ blocks, .waited serial ended) =>
    .request ⟨serial, channel, blocks⟩ (ended.map (·.serial)) none
  | (.usb (.submit job), .usb (.waited own post _)) =>
    .request ⟨own.serial, .xhci job.channel, blocksOf job⟩
      (post.bind fun post => post.source.map (·.serial)) (recalledBy job post)
  | (.free block, _) => .free block
  | (.usb (.free block), _) => .free block
  | _ => .other

end Vibra.Dma
