import Vibra.Disk.Nvme

/-! # Completions and their commands

The commands that wait for an answer are always the last ones, in order, and every command that has
timed out stays one of them.
-/

namespace Vibra.Disk

open Lib (Memory PhaseRing)
open Lib.PhaseRing (Holds)

namespace NvmeQueues

variable {q q' : NvmeQueues} {ready : List NvmeCompletion} {late : Nat}

/-- The controller works on its own, the processor changes memory, or the driver submits
a command. -/
inductive Step where
  | idle (n : Nat)
  | store (memory : Memory)
  | submit (cmd : NvmeCommand) (wait : Wait)

def step (dev : NvmeDevice) (q : NvmeQueues) : Step → NvmeQueues
  | .idle n => completeMany dev n q
  | .store memory => { q with memory }
  | .submit cmd wait => (q.ioSubmit dev cmd wait).1

def run (dev : NvmeDevice) (q : NvmeQueues) (steps : List Step) : NvmeQueues :=
  steps.foldl (step dev) q

/-- How many of the commands time out. -/
def timeouts (dev : NvmeDevice) (q : NvmeQueues) : List Step → Nat
  | [] => 0
  | .idle n :: steps => timeouts dev (step dev q (.idle n)) steps
  | .store memory :: steps => timeouts dev (step dev q (.store memory)) steps
  | .submit cmd wait :: steps =>
    (if (q.ioSubmit dev cmd wait).2 = none then 1 else 0) +
      timeouts dev (step dev q (.submit cmd wait)) steps

variable (dev : NvmeDevice)

/-- The last `late` commands wait: the first of them are answered and not yet taken. -/
structure InOrder (q : NvmeQueues) (ready : List NvmeCompletion) (late : Nat) : Prop where
  queue : ∃ taken, Holds queueSize q.cq taken ready
  room : ready.length < queueSize
  order : ready.map (·.serial) ++ q.pending.map Prod.fst = List.range' (q.serial - late) late
  late_le : late ≤ q.serial

theorem inOrder_created (memory : Memory) : InOrder (created memory) [] 0 :=
  ⟨⟨0, PhaseRing.holds_empty _⟩, by decide, rfl, le_refl _⟩

theorem InOrder.complete (h : InOrder q ready late) :
    (∃ ready, InOrder (q.complete dev) ready late) ∧ (q.complete dev).serial = q.serial := by
  unfold NvmeQueues.complete
  split
  · exact ⟨⟨_, h⟩, rfl⟩
  next serial cmd rest hpending =>
    split
    · exact ⟨⟨_, h⟩, rfl⟩
    next hfull =>
      obtain ⟨taken, hq⟩ := h.queue
      refine ⟨⟨_, ⟨taken, hq.post h.room _⟩, ?_, ?_, h.late_le⟩, rfl⟩
      · simpa using hq.lt_of_not_full h.room hfull
      · have horder := h.order
        rw [hpending] at horder
        simpa using horder

theorem InOrder.completeMany (h : InOrder q ready late) (n : Nat) :
    (∃ ready, InOrder (completeMany dev n q) ready late) ∧
      (NvmeQueues.completeMany dev n q).serial = q.serial := by
  induction n generalizing q ready with
  | zero => exact ⟨⟨_, h⟩, rfl⟩
  | succ n ih =>
    obtain ⟨⟨_, hone⟩, hserial⟩ := h.complete dev
    obtain ⟨hmany, hserial'⟩ := ih hone
    exact ⟨hmany, hserial'.trans hserial⟩

theorem InOrder.push (h : InOrder q ready late) (cmd : NvmeCommand) :
    InOrder (q.push cmd) ready (late + 1) := by
  refine ⟨h.queue, h.room, ?_, Nat.succ_le_succ h.late_le⟩
  have hle := h.late_le
  rw [NvmeQueues.push, List.map_append, ← List.append_assoc, h.order]
  simp only [List.map_cons, List.map_nil]
  rw [show q.serial + 1 - (late + 1) = q.serial - late by omega, List.range'_concat]
  congr 2
  omega

theorem InOrder.poll (h : InOrder q ready late) (looks : List Nat) :
    match NvmeQueues.poll dev looks q with
    | (q', none) => (∃ ready, InOrder q' ready late) ∧ q'.serial = q.serial
    | (q', some c) => c.serial = q.serial - late ∧ 0 < late ∧
        (∃ ready, InOrder q' ready (late - 1)) ∧ q'.serial = q.serial := by
  induction looks generalizing q ready with
  | nil => exact ⟨⟨_, h⟩, rfl⟩
  | cons n looks ih =>
    obtain ⟨⟨ready', hmany⟩, hserial⟩ := h.completeMany dev n
    rw [NvmeQueues.poll]
    obtain ⟨taken, hq⟩ := hmany.queue
    cases ready' with
    | nil =>
      rw [hq.take_nil (by decide), ← hserial]
      exact ih hmany
    | cons c rest =>
      obtain ⟨cq, htake, hrest⟩ := hq.take_cons
      rw [htake]
      have horder := hmany.order
      have hroom := hmany.room
      cases late with
      | zero => simp at horder
      | succ late =>
        rw [List.range'_succ, List.map_cons, List.cons_append, List.cons.injEq] at horder
        have hle := hmany.late_le
        refine ⟨by rw [horder.1, hserial], Nat.succ_pos _, ⟨rest, ⟨_, hrest⟩, ?_, ?_, ?_⟩, hserial⟩
        · exact Nat.lt_of_succ_lt hroom
        · rw [horder.2, Nat.add_sub_cancel]
          congr 1
          dsimp only
          omega
        · exact Nat.le_of_succ_le hle

theorem InOrder.ioSubmit (h : InOrder q ready late) (cmd : NvmeCommand) (wait : Wait) :
    (∃ ready, InOrder (q.ioSubmit dev cmd wait).1 ready
      (late + if (q.ioSubmit dev cmd wait).2 = none then 1 else 0)) ∧
    ∀ c, (q.ioSubmit dev cmd wait).2 = some c → c.serial = q.serial - late := by
  have hpoll := (h.push cmd).poll dev (wait.first :: wait.later)
  unfold NvmeQueues.ioSubmit
  generalize NvmeQueues.poll dev (wait.first :: wait.later) (q.push cmd) = r at hpoll ⊢
  obtain ⟨q', result⟩ := r
  cases result with
  | none => exact ⟨hpoll.1, fun c hc => by cases hc⟩
  | some c =>
    obtain ⟨hserial, -, hready, -⟩ := hpoll
    refine ⟨hready, fun c' hc => ?_⟩
    obtain rfl := Option.some.inj hc
    rw [hserial]
    exact Nat.add_sub_add_right _ _ _

theorem inOrder_run (h : InOrder q ready late) (steps : List Step) :
    ∃ ready, InOrder (run dev q steps) ready (late + timeouts dev q steps) := by
  induction steps generalizing q ready late with
  | nil => exact ⟨_, h⟩
  | cons s steps ih =>
    cases s with
    | idle n =>
      obtain ⟨⟨_, hmany⟩, -⟩ := h.completeMany dev n
      exact ih hmany
    | store memory => exact ih ⟨h.queue, h.room, h.order, h.late_le⟩
    | submit cmd wait =>
      obtain ⟨⟨_, hsubmit⟩, -⟩ := h.ioSubmit dev cmd wait
      rw [timeouts, ← Nat.add_assoc]
      exact ih hsubmit

/-! ## A read without late commands -/

variable {dev}

structure Quiet (q : NvmeQueues) : Prop where
  queue : ∃ taken, Holds queueSize q.cq taken []
  pending : q.pending = []

theorem InOrder.quiet (h : InOrder q ready 0) : Quiet q := by
  have horder := h.order
  rw [List.range'_zero, List.append_eq_nil_iff, List.map_eq_nil_iff, List.map_eq_nil_iff] at horder
  obtain ⟨rfl, hpending⟩ := horder
  exact ⟨h.queue, hpending⟩

theorem completeMany_nil (h : q.pending = []) (n : Nat) : completeMany dev n q = q := by
  induction n with
  | zero => rfl
  | succ n ih =>
    rw [completeMany, show q.complete dev = q by rw [complete, h]]
    exact ih

theorem poll_one {serial : Nat} {cmd : NvmeCommand} (hpending : q.pending = [(serial, cmd)])
    (hqueue : ∃ taken, Holds queueSize q.cq taken []) (looks : List Nat) {c : NvmeCompletion}
    (h : (poll dev looks q).2 = some c) :
    Quiet (poll dev looks q).1 ∧ (poll dev looks q).1.serial = q.serial ∧
      (poll dev looks q).1.memory = transfer dev serial cmd q.memory ∧ c.serial = serial := by
  induction looks with
  | nil => cases h
  | cons n looks ih =>
    obtain ⟨taken, hq⟩ := hqueue
    cases n with
    | zero =>
      have hnone : poll dev (0 :: looks) q = poll dev looks q := by
        rw [poll, completeMany, hq.take_nil (by decide)]
      rw [hnone] at h ⊢
      exact ih h
    | succ n =>
      have hdone : completeMany dev (n + 1) q =
          { q with
            pending := []
            memory := transfer dev serial cmd q.memory
            cq := q.cq.post queueSize ⟨cmd.cid, dev.status serial cmd, serial⟩ } := by
        rw [completeMany, complete, hpending]
        dsimp only
        rw [if_neg (hq.not_full (by decide))]
        exact completeMany_nil rfl n
      obtain ⟨cq, htake, hrest⟩ := (hq.post (by decide)
        ⟨cmd.cid, dev.status serial cmd, serial⟩).take_cons
      have hpoll : poll dev ((n + 1) :: looks) q =
          ({ q with pending := [], memory := transfer dev serial cmd q.memory, cq },
            some ⟨cmd.cid, dev.status serial cmd, serial⟩) := by
        rw [poll, hdone]
        dsimp only
        rw [htake]
      rw [hpoll] at h ⊢
      obtain rfl := Option.some.inj h
      exact ⟨⟨⟨_, hrest⟩, rfl⟩, rfl, rfl, rfl⟩

theorem Quiet.submitIo (h : Quiet q) (cmd : NvmeCommand) (wait : Wait)
    (hok : (q.submitIo dev cmd wait).2 = .ok ()) :
    Quiet (q.submitIo dev cmd wait).1 ∧ (q.submitIo dev cmd wait).1.serial = q.serial + 1 ∧
      (q.submitIo dev cmd wait).1.memory = transfer dev q.serial cmd q.memory := by
  have hpending : (q.push cmd).pending = [(q.serial, cmd)] := by
    rw [push, h.pending]
    simp
  have hone := fun c => @poll_one (q.push cmd) dev _ _ hpending h.queue (wait.first :: wait.later) c
  unfold NvmeQueues.submitIo NvmeQueues.ioSubmit at hok ⊢
  generalize poll dev (wait.first :: wait.later) (q.push cmd) = r at hone hok ⊢
  obtain ⟨q', result⟩ := r
  cases result with
  | none => cases hok
  | some c =>
    obtain ⟨hquiet, hserial, hmemory, -⟩ := hone c rfl
    dsimp only at hok ⊢
    split
    · exact ⟨hquiet, hserial, hmemory⟩
    next hstatus =>
      rw [if_neg hstatus] at hok
      cases hok

/-- The bytes that the controller transfers for commands with numbers from `serial` on. -/
def transferred (dev : NvmeDevice) : Nat → List NvmeCommand → List UInt8
  | _, [] => []
  | serial, cmd :: rest =>
    (List.range (cmd.blocks * dev.blockSize)).map (dev.data serial cmd) ++
      transferred dev (serial + 1) rest

/-- Read commands for the blocks from `lba` on, one behind the other. -/
def Covers : Nat → Nat → List NvmeCommand → Prop
  | _, blocks, [] => blocks = 0
  | lba, blocks, cmd :: rest =>
    cmd.opcode = nvmeIoRead ∧ cmd.lba = lba % 2 ^ 64 ∧ cmd.blocks ≤ blocks ∧
      Covers (lba + cmd.blocks) (blocks - cmd.blocks) rest

variable {nsid : Nat} {env : Nat → Issue}

theorem Quiet.readCommand (h : Quiet q) (i lba : Nat) {blocks : Nat} (hpos : 0 < blocks)
    (hle : blocks ≤ 2 ^ 16) {bytes : List UInt8}
    (hok : (readCommand dev nsid env i q lba blocks).2 = .ok bytes) :
    Quiet (readCommand dev nsid env i q lba blocks).1 ∧
    (readCommand dev nsid env i q lba blocks).1.serial = q.serial + 1 ∧
    ∃ cmd : NvmeCommand, cmd.opcode = nvmeIoRead ∧ cmd.lba = lba % 2 ^ 64 ∧ cmd.blocks = blocks ∧
      bytes = (List.range (blocks * dev.blockSize)).map (dev.data q.serial cmd) := by
  unfold NvmeQueues.readCommand at hok ⊢
  cases hphys : (env i).phys with
  | none => simp [hphys] at hok
  | some phys =>
    simp only [hphys] at hok ⊢
    set cmd := ioCommand nvmeIoRead 10 nsid lba blocks phys with hcmd
    set zeroed : NvmeQueues := { q with
      memory := q.memory.put phys (List.replicate (blocks * dev.blockSize) 0) }
    have hquiet : Quiet zeroed := ⟨h.queue, h.pending⟩
    have hblocks : cmd.blocks = blocks := blocks_ioCommand _ _ _ _ _ hpos hle
    cases hsubmit : zeroed.submitIo dev cmd (env i).wait with
    | mk q' result =>
      cases result with
      | error e => simp [hsubmit] at hok
      | ok u =>
        obtain ⟨hq', hserial, hmemory⟩ := hquiet.submitIo cmd (env i).wait (by rw [hsubmit])
        rw [hsubmit] at hq' hserial hmemory
        simp only [hsubmit] at hok ⊢
        refine ⟨hq', hserial, cmd, rfl, lba_ioCommand _ _ _ _ _ _, hblocks, ?_⟩
        rw [← Except.ok.inj hok]
        refine List.map_congr_left fun a ha => ?_
        have hlt : a < cmd.blocks * dev.blockSize := by
          rw [hblocks]
          exact List.mem_range.mp ha
        rw [hmemory, transfer, if_pos (show cmd.opcode = nvmeIoRead from rfl),
          show cmd.prp1 = phys from rfl, if_pos ⟨Nat.le_add_right _ _, by omega⟩,
          Nat.add_sub_cancel_left]

theorem Quiet.readLoop (h : Quiet q) {bufSize i done lba r : Nat} {buf out : List UInt8}
    (hbs : 0 < dev.blockSize) (hsize : bufSize = done + r * dev.blockSize)
    (hlen : bufSize ≤ buf.length)
    (hok : (readLoop dev.blockSize bufSize (NvmeQueues.readCommand dev nsid env) q i done lba
      buf).2 = .ok out) :
    ∃ cmds, Covers lba r cmds ∧
      out = buf.take done ++ transferred dev q.serial cmds ++ buf.drop bufSize := by
  induction r using Nat.strong_induction_on generalizing q i done lba buf with
  | h r ih =>
    by_cases hr : r = 0
    · rw [hr, Nat.zero_mul, Nat.add_zero] at hsize
      rw [readLoop_done (le_of_eq hsize)] at hok
      obtain rfl := Except.ok.inj hok
      exact ⟨[], hr, by simp [transferred, hsize]⟩
    by_cases hpage : maxXfer < dev.blockSize
    · rw [readLoop_wide (Nat.pos_of_ne_zero hr) hsize hpage] at hok
      cases hok
    have hc := chunk_pos (Nat.pos_of_ne_zero hr) hbs (not_lt.mp hpage)
    have hcr : min r (maxXfer / dev.blockSize) ≤ r := min_le_left _ _
    have hc16 : min r (maxXfer / dev.blockSize) ≤ 2 ^ 16 :=
      (min_le_right _ _).trans ((Nat.div_le_self _ _).trans (by decide))
    rw [readLoop_step hbs (Nat.pos_of_ne_zero hr) hsize (not_lt.mp hpage)] at hok
    generalize min r (maxXfer / dev.blockSize) = c at hc hcr hc16 hok
    cases hcmd : NvmeQueues.readCommand dev nsid env i q lba c with
    | mk q' result =>
      cases result with
      | error e => simp [hcmd] at hok
      | ok bytes =>
        have hone : (NvmeQueues.readCommand dev nsid env i q lba c).2 = .ok bytes := by rw [hcmd]
        obtain ⟨hq', hserial, cmd, hop, hlba, hblocks, hbytes⟩ := h.readCommand i lba hc hc16 hone
        rw [hcmd] at hq' hserial
        simp only [hcmd] at hok
        have hbyteslen : bytes.length = c * dev.blockSize := by simp [hbytes]
        have hmul : (r - c) * dev.blockSize + c * dev.blockSize = r * dev.blockSize := by
          rw [← Nat.add_mul, Nat.sub_add_cancel hcr]
        have htake : done ≤ buf.length := by omega
        obtain ⟨cmds, hcovers, hout⟩ := ih (r - c) (by omega) hq'
          (show bufSize = done + c * dev.blockSize + (r - c) * dev.blockSize by omega)
          (by simp only [List.length_append, List.length_take, List.length_drop]; omega) hok
        refine ⟨cmd :: cmds, ⟨hop, hlba, hblocks ▸ hcr, by rwa [hblocks]⟩, ?_⟩
        rw [← hbyteslen] at hout
        rw [hout, hserial, transferred, hblocks, ← hbytes, take_append_chunk htake,
          drop_append_chunk (by omega) (by omega)]
        simp only [List.append_assoc]

end NvmeQueues

end Vibra.Disk
