import Vibra.Lib.Bytes
import Vibra.Virtio.Commands

/-! # Requests of the block device

A request takes three descriptors.
-/

namespace Vibra.Virtio

open Lib (Memory Outcome)

/-- The device answers with a status. -/
structure BlockAnswer extends Completion where
  status : UInt8

structure BlockCall where
  write : Bool
  sector : Nat
  buf : Buffer
  earlier : List BlockAnswer
  device : Nat → List BlockAnswer

def virtioBlkTIn : Nat := 0

def virtioBlkTOut : Nat := 1

def BlockCall.reqType (call : BlockCall) : Nat := if call.write then virtioBlkTOut else virtioBlkTIn

/-- The flags of the descriptor of the data: the device writes what is read. -/
def BlockCall.flags (call : BlockCall) : Nat :=
  if call.write then vringDescFNext else vringDescFNext ||| vringDescFWrite

/-- A device that is ready, and the memory. -/
structure VirtioBlock where
  queue : VirtQueue
  memory : Memory

namespace VirtioBlock

variable (s : VirtioBlock)

def toLe64 (n : Nat) : List UInt8 := Memory.toLe32 n ++ Memory.toLe32 (n / 2 ^ 32)

def le64 (m : Memory) (addr : Nat) : Nat := m.le32 addr + 2 ^ 32 * m.le32 (addr + 4)

/-- The status goes to the last descriptor of the chain that is answered. -/
def answer (a : BlockAnswer) : VirtioBlock :=
  match s.queue.owned[a.chain % s.queue.owned.length]? with
  | none => s
  | some head =>
    { queue := s.queue.complete a.toCompletion
      memory :=
        match (s.queue.chain s.queue.queueSize head).getLast? with
        | none => s.memory
        | some last => s.memory.put (s.queue.descriptors last).addr [a.status] }

/-- The three descriptors, and the device with them filled. -/
def blockChain (call : BlockCall) :
    Except (VirtioBlock × String) (Nat × Nat × Nat × VirtioBlock) :=
  match s.queue.allocDesc with
  | none => .error (s, "no desc")
  | some (h, q) =>
    match q.allocDesc with
    | none => .error (⟨q, s.memory⟩, "no desc")
    | some (d, q) =>
      match q.allocDesc with
      | none => .error (⟨q, s.memory⟩, "no desc")
      | some (st, q) =>
        let hdr := (q.descriptors h).addr
        let memory := (s.memory.put hdr (Memory.toLe32 call.reqType)).put (hdr + 8)
          (toLe64 call.sector)
        let q := q.setDesc h ⟨hdr, 16, vringDescFNext, d⟩
        let q := q.setDesc d ⟨call.buf.addr, call.buf.len, call.flags, st⟩
        let q := q.setDesc st ⟨(q.descriptors st).addr, 1, vringDescFWrite, 0xFFFF⟩
        .ok (h, d, st, ⟨q, memory⟩)

/-- The loop, which has no other end. -/
def waitUsed (device : Nat → List BlockAnswer) :
    (fuel i : Nat) → VirtioBlock → Outcome Empty VirtioBlock
  | 0, _, _ => .diverge
  | fuel + 1, i, s => do
      let s := (device i).foldl answer s
      let (q, found) ← s.queue.pollUsed
      if found.isSome then return ⟨q, s.memory⟩ else waitUsed device fuel (i + 1) ⟨q, s.memory⟩

/-- An error returns before the descriptors are freed. -/
def finish (call : BlockCall) (h d st : Nat) : Outcome Empty (VirtioBlock × Except String Unit) :=
  if s.memory (s.queue.descriptors st).addr ≠ 0 then
    .ok (s, .error (if call.write then "write failed" else "read failed"))
  else do
    let q ← s.queue.freeDesc h
    let q ← q.freeDesc d
    let q ← q.freeDesc st
    return (⟨q, s.memory⟩, .ok ())

/-- `read_sectors` and `write_sectors`. -/
def transfer (call : BlockCall) (fuel : Nat) : Outcome Empty (VirtioBlock × Except String Unit) :=
  match (call.earlier.foldl answer s).blockChain call with
  | .error (s, e) => .ok (s, .error e)
  | .ok (h, d, st, s) => do
      let q ← s.queue.addBuf h
      let s ← waitUsed call.device fuel 0 ⟨q, s.memory⟩
      s.finish call h d st

/-- The request that the device sees: a header with type and sector, the buffer, and a status byte
that has a place of its own, outside of the header. -/
def Asked (head : Nat) (call : BlockCall) : Prop :=
  ∃ header status,
    s.queue.seen head = [(header, 16, vringDescFNext), (call.buf.addr, call.buf.len, call.flags),
      (status, 1, vringDescFWrite)] ∧
    s.memory.le32 header = call.reqType ∧ le64 s.memory (header + 8) = call.sector ∧
    (status < header ∨ header + 16 ≤ status)

/-- As for the commands of the GPU; the request may be waited for without end. -/
def Kept (call : BlockCall) : Prop :=
  match (call.earlier.foldl answer s).blockChain call with
  | .error (s', _) => s'.queue.FreeOnceReturned
  | .ok (h, d, st, s₁) =>
    (∀ i ∈ [h, d, st], (call.earlier.foldl answer s).queue.Unowned i) ∧
    ∃ q₂, s₁.queue.addBuf h = .ok q₂ ∧ Asked ⟨q₂, s₁.memory⟩ h call ∧
    ∀ fuel, waitUsed call.device fuel 0 ⟨q₂, s₁.memory⟩ = .diverge ∨
      ∃ s₃, waitUsed call.device fuel 0 ⟨q₂, s₁.memory⟩ = .ok s₃ ∧ h ∉ s₃.queue.owned ∧
      ∃ s₄ result, s₃.finish call h d st = .ok (s₄, result) ∧ s₄.queue.FreeOnceReturned

def Run : VirtioBlock → List BlockCall → Prop
  | _, [] => True
  | s, call :: rest => s.Kept call ∧
      ∀ fuel s' result, s.transfer call fuel = .ok (s', result) → Run s' rest

variable {s}

theorem foldl_answer_idle (h : s.queue.owned = []) (answers : List BlockAnswer) :
    answers.foldl answer s = s := by
  induction answers with
  | nil => rfl
  | cons a answers ih =>
    have hanswer : s.answer a = s := by
      rw [answer, h]
      rfl
    rw [List.foldl_cons, hanswer, ih]

theorem blockChain_large {size : Nat} (hsize : 3 ≤ size) (memory : Memory) (call : BlockCall) :
    ∃ s : VirtioBlock, blockChain ⟨VirtQueue.new size, memory⟩ call = .ok (0, 1, 2, s) ∧
      s.queue.queueSize = size ∧
      s.queue.descriptors 0 = ⟨0, 16, vringDescFNext, 1⟩ ∧
      s.queue.descriptors 1 = ⟨call.buf.addr, call.buf.len, call.flags, 2⟩ ∧
      s.queue.descriptors 2 = ⟨0, 1, vringDescFWrite, 0xFFFF⟩ := by
  have hfirst : ((VirtQueue.new size).descriptors 0).next = 1 := if_pos (by omega)
  have hsecond : ((VirtQueue.new size).descriptors 1).next = 2 := if_pos (by omega)
  have hnumFree : (VirtQueue.new size).numFree = size := rfl
  rw [blockChain, VirtQueue.allocDesc, if_neg (by dsimp only; omega)]
  dsimp only
  rw [VirtQueue.allocDesc, if_neg (by dsimp only; omega)]
  dsimp only
  rw [VirtQueue.allocDesc, if_neg (by dsimp only; omega)]
  dsimp only
  have hhead : (VirtQueue.new size).freeHead = 0 := rfl
  rw [hhead, hfirst, hsecond]
  exact ⟨_, rfl, rfl, rfl, rfl, rfl⟩

theorem seen_block {q : VirtQueue} {call : BlockCall} (hsize : 3 ≤ q.queueSize)
    (hheader : q.descriptors 0 = ⟨0, 16, vringDescFNext, 1⟩)
    (hdata : q.descriptors 1 = ⟨call.buf.addr, call.buf.len, call.flags, 2⟩)
    (hstatus : q.descriptors 2 = ⟨0, 1, vringDescFWrite, 0xFFFF⟩) :
    q.seen 0 = [(0, 16, vringDescFNext), (call.buf.addr, call.buf.len, call.flags),
      (0, 1, vringDescFWrite)] := by
  obtain ⟨n, hn⟩ : ∃ n, q.queueSize = n + 1 + 1 + 1 := ⟨q.queueSize - 3, by omega⟩
  have hnext : vringDescFNext &&& vringDescFNext ≠ 0 := by decide
  have hmore : call.flags &&& vringDescFNext ≠ 0 := by
    rw [BlockCall.flags]
    split <;> decide
  have hlast : ¬ vringDescFWrite &&& vringDescFNext ≠ 0 := by decide
  rw [VirtQueue.seen, hn, VirtQueue.chain, hheader, if_pos hnext, VirtQueue.chain, hdata,
    if_pos hmore, VirtQueue.chain, hstatus, if_neg hlast, List.map_cons, List.map_cons,
    List.map_singleton, hheader, hdata, hstatus]

theorem not_kept_large {size : Nat} (hsize : 3 ≤ size) (memory : Memory) (call : BlockCall) :
    ¬ Kept ⟨VirtQueue.new size, memory⟩ call := by
  obtain ⟨s, hchain, hqueue, hheader, hdata, hstatus⟩ := blockChain_large hsize memory call
  rw [Kept, foldl_answer_idle rfl, hchain]
  rintro ⟨_, q, hq, ⟨header, status, hseen, _, _, hplace⟩, _⟩
  rw [VirtQueue.addBuf, Outcome.add] at hq
  split at hq
  case isFalse => cases hq
  case isTrue =>
    have hsame : q.queueSize = size ∧ ∀ i, q.descriptors i = s.queue.descriptors i := by
      cases hq
      exact ⟨hqueue, fun _ => rfl⟩
    have hfirst := (seen_block (hsame.1.symm ▸ hsize) ((hsame.2 0).trans hheader)
      ((hsame.2 1).trans hdata) ((hsame.2 2).trans hstatus)).symm.trans hseen
    have hzero : (0 : Nat) = header ∧ (0 : Nat) = status := by
      injection hfirst with hhead htail
      injection htail with _ htail
      injection htail with hlast _
      exact ⟨congrArg Prod.fst hhead, congrArg Prod.fst hlast⟩
    omega

theorem not_kept_small {size : Nat} (hpos : 0 < size) (hsize : size < 3) (memory : Memory)
    (call : BlockCall) : ¬ Kept ⟨VirtQueue.new size, memory⟩ call := by
  rw [Kept, foldl_answer_idle rfl]
  intro hkept
  obtain rfl | rfl : size = 1 ∨ size = 2 := by omega
  · have hfree : (0 : Nat) = 1 := (hkept rfl).1
    exact absurd hfree (by decide)
  · have hfree : (0 : Nat) = 2 := (hkept rfl).1
    exact absurd hfree (by decide)

theorem run_iff (bits : Fin 16) (memory : Memory) (calls : List BlockCall) :
    Run ⟨VirtQueue.new (2 ^ bits.val), memory⟩ calls ↔ calls = [] := by
  cases calls with
  | nil => exact iff_of_true trivial rfl
  | cons call calls =>
    refine iff_of_false (fun hrun => ?_) (List.cons_ne_nil _ _)
    by_cases hsize : 3 ≤ 2 ^ bits.val
    · exact not_kept_large hsize memory call hrun.1
    · exact not_kept_small (Nat.two_pow_pos _) (Nat.lt_of_not_le hsize) memory call hrun.1

end VirtioBlock

/-- Of the block device, no request is right; of the GPU, the runs on a queue of more than one
descriptor which are short enough, and whose commands the device answers in time. -/
theorem virtqueues_iff (bits : Fin 16) :
    (∀ memory calls, VirtioBlock.Run ⟨VirtQueue.new (2 ^ bits.val), memory⟩ calls ↔ calls = []) ∧
    ∀ calls, (VirtQueue.new (2 ^ bits.val)).GpuRun calls ↔
      calls = [] ∨ bits ≠ 0 ∧ calls.length < 2 ^ 16 ∧ ∀ call ∈ calls, call.Timely :=
  ⟨VirtioBlock.run_iff bits, VirtQueue.gpuRun_iff bits⟩

/-- The first sector, read on a queue of 32, from a device that answers at once. -/
theorem header_misplaced :
    ¬ VirtioBlock.Run ⟨VirtQueue.new 32, fun _ => 0⟩
      [⟨false, 0, ⟨0x100000, 512, by decide⟩, [], fun _ => [⟨⟨0, 513⟩, 0⟩]⟩] :=
  fun hrun => VirtioBlock.not_kept_large (by decide) _ _ hrun.1

end Vibra.Virtio
