import Vibra.Lib.PhaseRing
import Vibra.Disk.Partition

/-! # The NVMe driver and its controller

The driver puts a command into the submission queue and waits for the next completion for two
seconds.
-/

namespace Vibra.Disk

open Fat32 (FsError)
open Lib (Memory PhaseRing)

/-- `NvmeSubQueueEntry`; the other fields are zero. -/
structure NvmeCommand where
  opcode : Nat
  cid : Nat
  nsid : Nat
  prp1 : Nat
  dw10 : Nat
  dw11 : Nat
  dw12 : Nat

def nvmeIoRead : Nat := 0x02
def nvmeIoWrite : Nat := 0x01

abbrev queueSize : Nat := 64

namespace NvmeCommand

def lba (cmd : NvmeCommand) : Nat := cmd.dw10 + 2 ^ 32 * cmd.dw11

def blocks (cmd : NvmeCommand) : Nat := cmd.dw12 % 2 ^ 16 + 1

end NvmeCommand

/-- `NvmeCompQueueEntry` without its phase, and the number of the command it answers. -/
structure NvmeCompletion where
  cid : Nat
  status : Nat
  serial : Nat
deriving DecidableEq

/-- What the controller answers and transfers to memory, by the number of the command. -/
structure NvmeDevice where
  blockSize : Nat
  status : Nat → NvmeCommand → Nat
  data : Nat → NvmeCommand → Nat → UInt8

/-- The queues with both ends, the commands that the controller has not answered, the
number of commands so far, and the memory that it transfers to. -/
structure NvmeQueues where
  sq : Nat → NvmeCommand
  sqTail : Nat
  cq : PhaseRing NvmeCompletion
  pending : List (Nat × NvmeCommand)
  serial : Nat
  memory : Memory

/-- How many commands the controller answers before each look of the driver. -/
structure Wait where
  first : Nat
  later : List Nat

namespace NvmeQueues

variable (dev : NvmeDevice) (q : NvmeQueues)

def created (memory : Memory) : NvmeQueues :=
  ⟨fun _ => ⟨0, 0, 0, 0, 0, 0, 0⟩, 0, .empty ⟨0, 0, 0⟩, [], 0, memory⟩

/-- A read puts its blocks where the command says. -/
def transfer (serial : Nat) (cmd : NvmeCommand) (memory : Memory) : Memory :=
  if cmd.opcode = nvmeIoRead then fun a =>
    if cmd.prp1 ≤ a ∧ a < cmd.prp1 + cmd.blocks * dev.blockSize then
      dev.data serial cmd (a - cmd.prp1)
    else memory a
  else memory

/-- The controller answers the oldest command, if the completion queue has room. -/
def complete : NvmeQueues :=
  match q.pending with
  | [] => q
  | (serial, cmd) :: rest =>
    if q.cq.full queueSize then q
    else
      { q with
        pending := rest
        memory := transfer dev serial cmd q.memory
        cq := q.cq.post queueSize ⟨cmd.cid, dev.status serial cmd, serial⟩ }

def completeMany : Nat → NvmeQueues → NvmeQueues
  | 0, q => q
  | n + 1, q => completeMany n (q.complete dev)

/-- The loop of `io_submit`, which ends with the deadline. -/
def poll : List Nat → NvmeQueues → NvmeQueues × Option NvmeCompletion
  | [], q => (q, none)
  | n :: looks, q =>
    let q := completeMany dev n q
    match q.cq.take queueSize with
    | some (completion, cq) => ({ q with cq }, some completion)
    | none => poll looks q

/-- The entry is written and the tail's doorbell rung. -/
def push (cmd : NvmeCommand) : NvmeQueues :=
  let sq := Function.update q.sq q.sqTail cmd
  { q with
    sq
    sqTail := (q.sqTail + 1) % queueSize
    pending := q.pending ++ [(q.serial, sq q.sqTail)]
    serial := q.serial + 1 }

def ioSubmit (cmd : NvmeCommand) (wait : Wait) : NvmeQueues × Option NvmeCompletion :=
  poll dev (wait.first :: wait.later) (q.push cmd)

def ioCommand (opcode cid nsid lba blocks phys : Nat) : NvmeCommand where
  opcode
  cid
  nsid
  prp1 := phys
  dw10 := lba % 2 ^ 32
  dw11 := lba / 2 ^ 32 % 2 ^ 32
  dw12 := blocks - 1

theorem lba_ioCommand (opcode cid nsid lba blocks phys : Nat) :
    (ioCommand opcode cid nsid lba blocks phys).lba = lba % 2 ^ 64 := by
  simp only [NvmeCommand.lba, ioCommand]
  omega

theorem blocks_ioCommand (opcode cid nsid lba phys : Nat) {blocks : Nat} (hpos : 0 < blocks)
    (hle : blocks ≤ 2 ^ 16) : (ioCommand opcode cid nsid lba blocks phys).blocks = blocks := by
  simp only [NvmeCommand.blocks, ioCommand]
  omega

def submitIo (cmd : NvmeCommand) (wait : Wait) : NvmeQueues × Except FsError Unit :=
  match q.ioSubmit dev cmd wait with
  | (q, some completion) =>
    if completion.status % 2 ^ 7 = 0 then (q, .ok ()) else (q, .error .ioError)
  | (q, none) => (q, .error .ioError)

end NvmeQueues

abbrev maxXfer : Nat := 4096

section Chunks

variable {σ : Type} (bs bufSize : Nat)

def chunkOf (done : Nat) : Nat := min (bufSize - done) maxXfer / bs * bs

/-- The loop of `read_dev`. `issue` reads blocks, told how many commands came before. -/
def readLoop (issue : Nat → σ → Nat → Nat → σ × Except FsError (List UInt8)) (s : σ)
    (i done lba : Nat) (buf : List UInt8) : σ × Except FsError (List UInt8) :=
  if _ : done < bufSize then
    let chunk := chunkOf bs bufSize done
    if _ : chunk = 0 then (s, .error .ioError)
    else
      match issue i s lba (chunk / bs) with
      | (s, .error e) => (s, .error e)
      | (s, .ok bytes) =>
        readLoop issue s (i + 1) (done + chunk) (lba + chunk / bs)
          (buf.take done ++ bytes ++ buf.drop (done + chunk))
  else (s, .ok buf)
termination_by bufSize - done
decreasing_by omega

def readDev (issue : Nat → σ → Nat → Nat → σ × Except FsError (List UInt8)) (s : σ)
    (lba blocks : Nat) (buf : List UInt8) : σ × Except FsError (List UInt8) :=
  if blocks = 0 then (s, .ok buf)
  else if bs = 0 ∨ buf.length < blocks * bs then (s, .error .ioError)
  else readLoop bs (blocks * bs) issue s 0 0 lba buf

/-- The loop of `write_dev`. -/
def writeLoop (issue : Nat → σ → Nat → List UInt8 → σ × Except FsError Unit) (s : σ)
    (i done lba : Nat) (buf : List UInt8) : σ × Except FsError Unit :=
  if _ : done < bufSize then
    let chunk := chunkOf bs bufSize done
    if _ : chunk = 0 then (s, .error .ioError)
    else
      match issue i s lba ((buf.drop done).take chunk) with
      | (s, .error e) => (s, .error e)
      | (s, .ok ()) => writeLoop issue s (i + 1) (done + chunk) (lba + chunk / bs) buf
  else (s, .ok ())
termination_by bufSize - done
decreasing_by omega

def writeDev (issue : Nat → σ → Nat → List UInt8 → σ × Except FsError Unit) (s : σ)
    (lba blocks : Nat) (buf : List UInt8) : σ × Except FsError Unit :=
  if blocks = 0 then (s, .ok ())
  else if bs = 0 ∨ buf.length < blocks * bs then (s, .error .ioError)
  else writeLoop bs (blocks * bs) issue s 0 0 lba buf

variable {bs bufSize} {done r : Nat}

theorem take_append_chunk {buf : List UInt8} (h : done ≤ buf.length) (bytes rest : List UInt8) :
    (buf.take done ++ bytes ++ rest).take (done + bytes.length) = buf.take done ++ bytes := by
  rw [List.take_left' (by rw [List.length_append, List.length_take, min_eq_left h])]

theorem drop_append_chunk {buf bytes : List UInt8} (h : done + bytes.length ≤ buf.length) {n : Nat}
    (hn : done + bytes.length ≤ n) :
    (buf.take done ++ bytes ++ buf.drop (done + bytes.length)).drop n = buf.drop n := by
  have hlen : (buf.take done ++ bytes).length = done + bytes.length := by
    rw [List.length_append, List.length_take, min_eq_left (by omega)]
  rw [List.drop_append, List.drop_of_length_le (by omega), List.nil_append, List.drop_drop, hlen]
  congr 1
  omega

theorem chunkOf_eq (hbs : 0 < bs) (h : bufSize = done + r * bs) :
    chunkOf bs bufSize done = min r (maxXfer / bs) * bs := by
  rw [chunkOf, h, Nat.add_sub_cancel_left]
  congr 1
  refine eq_of_forall_le_iff fun k => ?_
  rw [Nat.le_div_iff_mul_le hbs, le_min_iff, le_min_iff, Nat.le_div_iff_mul_le hbs,
    Nat.mul_le_mul_right_iff hbs]

theorem chunk_pos (hr : 0 < r) (hbs : 0 < bs) (hpage : bs ≤ maxXfer) :
    0 < min r (maxXfer / bs) :=
  lt_min hr (Nat.div_pos hpage hbs)

section Read

variable {issue : Nat → σ → Nat → Nat → σ × Except FsError (List UInt8)} {s : σ} {i lba : Nat}
  {buf : List UInt8}

theorem readLoop_done (h : bufSize ≤ done) :
    readLoop bs bufSize issue s i done lba buf = (s, .ok buf) := by
  rw [readLoop, dif_neg (not_lt.mpr h)]

theorem readLoop_wide (hr : 0 < r) (h : bufSize = done + r * bs) (hpage : maxXfer < bs) :
    readLoop bs bufSize issue s i done lba buf = (s, .error .ioError) := by
  have hbs : 0 < bs := Nat.zero_lt_of_lt hpage
  have hlt : done < bufSize := by
    have := Nat.mul_pos hr hbs
    omega
  have hzero : chunkOf bs bufSize done = 0 := by
    rw [chunkOf_eq hbs h, Nat.div_eq_of_lt hpage, Nat.min_zero, Nat.zero_mul]
  rw [readLoop, dif_pos hlt]
  dsimp only
  rw [dif_pos hzero]

theorem readLoop_step (hbs : 0 < bs) (hr : 0 < r) (h : bufSize = done + r * bs)
    (hpage : bs ≤ maxXfer) :
    readLoop bs bufSize issue s i done lba buf =
      match issue i s lba (min r (maxXfer / bs)) with
      | (s, .error e) => (s, .error e)
      | (s, .ok bytes) =>
        readLoop bs bufSize issue s (i + 1) (done + min r (maxXfer / bs) * bs)
          (lba + min r (maxXfer / bs))
          (buf.take done ++ bytes ++ buf.drop (done + min r (maxXfer / bs) * bs)) := by
  have hlt : done < bufSize := by
    have := Nat.mul_pos hr hbs
    omega
  have hne : chunkOf bs bufSize done ≠ 0 := by
    rw [chunkOf_eq hbs h]
    exact (Nat.mul_pos (chunk_pos hr hbs hpage) hbs).ne'
  rw [readLoop, dif_pos hlt]
  dsimp only
  rw [dif_neg hne, chunkOf_eq hbs h, Nat.mul_div_cancel _ hbs]

end Read

section Write

variable {issue : Nat → σ → Nat → List UInt8 → σ × Except FsError Unit} {s : σ} {i lba : Nat}
  {buf : List UInt8}

theorem writeLoop_done (h : bufSize ≤ done) :
    writeLoop bs bufSize issue s i done lba buf = (s, .ok ()) := by
  rw [writeLoop, dif_neg (not_lt.mpr h)]

theorem writeLoop_step (hbs : 0 < bs) (hr : 0 < r) (h : bufSize = done + r * bs)
    (hpage : bs ≤ maxXfer) :
    writeLoop bs bufSize issue s i done lba buf =
      match issue i s lba ((buf.drop done).take (min r (maxXfer / bs) * bs)) with
      | (s, .error e) => (s, .error e)
      | (s, .ok ()) =>
        writeLoop bs bufSize issue s (i + 1) (done + min r (maxXfer / bs) * bs)
          (lba + min r (maxXfer / bs)) buf := by
  have hlt : done < bufSize := by
    have := Nat.mul_pos hr hbs
    omega
  have hne : chunkOf bs bufSize done ≠ 0 := by
    rw [chunkOf_eq hbs h]
    exact (Nat.mul_pos (chunk_pos hr hbs hpage) hbs).ne'
  rw [writeLoop, dif_pos hlt]
  dsimp only
  rw [dif_neg hne, chunkOf_eq hbs h, Nat.mul_div_cancel _ hbs]

end Write

end Chunks

/-- What a command meets: the address of its buffer, if there is memory, and its wait. -/
structure Issue where
  phys : Option Nat
  wait : Wait

namespace NvmeQueues

variable (dev : NvmeDevice) (nsid : Nat) (env : Nat → Issue)

/-- A buffer is taken, the command reads into it, and its bytes are copied. -/
def readCommand (i : Nat) (q : NvmeQueues) (lba blocks : Nat) :
    NvmeQueues × Except FsError (List UInt8) :=
  match (env i).phys with
  | none => (q, .error .ioError)
  | some phys =>
    let len := blocks * dev.blockSize
    let q := { q with memory := q.memory.put phys (List.replicate len 0) }
    match q.submitIo dev (ioCommand nvmeIoRead 10 nsid lba blocks phys) (env i).wait with
    | (q, .error e) => (q, .error e)
    | (q, .ok ()) => (q, .ok (q.memory.slice phys len))

def read (q : NvmeQueues) (lba blocks : Nat) (buf : List UInt8) :
    NvmeQueues × Except FsError (List UInt8) :=
  readDev dev.blockSize (readCommand dev nsid env) q lba blocks buf

end NvmeQueues

end Vibra.Disk
