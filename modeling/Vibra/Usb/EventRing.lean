import Vibra.Usb.Xhci

/-! # The controller and its event ring

The controller executes what is on each ring in order and posts one event for each job, after any
delay.
-/

namespace Vibra.Usb

open Lib (Bytes Memory)

inductive Channel where
  | command
  | endpoint (slot dci : Nat)
deriving DecidableEq

/-- The buffer, its length and whether the device writes to it. -/
def Trb.buffer : Trb → Option (Nat × Nat × Bool)
  | normal buffer length dirIn => some (buffer, length, dirIn)
  | dataStage buffer length dirIn => some (buffer, length, dirIn)
  | _ => none

namespace Job

def channel : Job → Channel
  | command .. => .command
  | transfer slot dci _ => .endpoint slot dci

def buffer : Job → Option (Nat × Nat × Bool)
  | command .. => none
  | transfer _ _ trbs => trbs.findSome? Trb.buffer

def length (job : Job) : Nat := job.buffer.elim 0 (·.2.1)

/-- Where the device writes. -/
def target (job : Job) : Option (Nat × Nat) :=
  match job.buffer with
  | some (buffer, length, true) => some (buffer, length)
  | _ => none

theorem length_of_target {job : Job} {buffer length : Nat}
    (h : job.target = some (buffer, length)) : job.length = length := by
  rw [target] at h
  split at h
  · rename_i hbuffer
    cases h
    rw [Job.length, hbuffer]
    rfl
  · cases h

def size : Job → Nat
  | command .. => 1
  | transfer _ _ trbs => trbs.length

/-- The event that `command_full` or `wait_transfer_event` returns. -/
def Accepts : Job → Event → Prop
  | command _ _ _ slot, event =>
    event.trbType = .commandCompletion ∧ (slot = 0 ∨ event.slot = slot)
  | transfer slot dci _, event =>
    event.trbType = .transferEvent ∧ event.slot = slot ∧ event.endpoint = dci

instance : (job : Job) → (event : Event) → Decidable (job.Accepts event)
  | command .., _ => inferInstanceAs (Decidable (_ ∧ _))
  | transfer .., _ => inferInstanceAs (Decidable (_ ∧ _))

/-- The event for the job. Enable Slot says which slot there is, the other commands have
their own. -/
def report (job : Job) (address code moved enabled : Nat) : Event :=
  match job with
  | command type _ _ slot =>
    ⟨.commandCompletion, address, code, 0, if type = .enableSlot then enabled else slot, 0⟩
  | transfer slot dci _ => ⟨.transferEvent, address, code, job.length - moved, slot, dci⟩

section Report

variable (job : Job) (address code moved enabled : Nat)

theorem report_param : (job.report address code moved enabled).param = address := by
  cases job <;> rfl

theorem report_transferLength :
    (job.report address code moved enabled).transferLength = job.length - moved := by
  cases job with
  | command => exact (Nat.zero_sub moved).symm
  | transfer => rfl

end Report

def recalled : Job → Option Channel
  | command .setTrDequeue _ status slot => some (.endpoint slot (status / 2 ^ 16 % 2 ^ 5))
  | _ => none

end Job

namespace Controller

def ring (ctrl : Controller) : Channel → Ring
  | .command => ctrl.cmd
  | .endpoint slot dci => ctrl.rings slot dci

def setRing (ctrl : Controller) (channel : Channel) (ring : Ring) : Controller :=
  match channel with
  | .command => { ctrl with cmd := ring }
  | .endpoint slot dci =>
    { ctrl with
      rings := fun slot' dci' =>
        if slot' = slot ∧ dci' = dci then ring else ctrl.rings slot' dci' }

end Controller

def HidKeyboard.Is (keyboard : HidKeyboard) (slot dci : Nat) : Prop :=
  keyboard.slot = slot ∧ keyboard.dci = dci

instance (keyboard : HidKeyboard) (slot dci : Nat) : Decidable (keyboard.Is slot dci) :=
  inferInstanceAs (Decidable (_ ∧ _))

def updateFirst {α : Type} (p : α → Bool) (f : α → α) : List α → List α
  | [] => []
  | a :: l => if p a then f a :: l else a :: updateFirst p f l

section UpdateFirst

variable {α β : Type} {p : α → Bool} {f : α → α} {l : List α} {b : α}

theorem map_updateFirst {g : α → β} (h : ∀ a ∈ l, p a → g (f a) = g a) :
    (updateFirst p f l).map g = l.map g := by
  induction l with
  | nil => rfl
  | cons a l ih =>
    rw [updateFirst]
    split
    · rename_i hp
      rw [List.map_cons, List.map_cons, h a List.mem_cons_self hp]
    · rw [List.map_cons, List.map_cons, ih fun a' ha' => h a' (List.mem_cons_of_mem _ ha')]

theorem mem_updateFirst (hp : l.Pairwise fun a a' => ¬(p a ∧ p a'))
    (h : b ∈ updateFirst p f l) : (b ∈ l ∧ ¬p b) ∨ ∃ a ∈ l, p a ∧ b = f a := by
  induction l with
  | nil => cases h
  | cons a l ih =>
    obtain ⟨hhead, htail⟩ := List.pairwise_cons.mp hp
    rw [updateFirst] at h
    split at h
    · rename_i ha
      rcases List.mem_cons.mp h with rfl | hb
      · exact .inr ⟨a, List.mem_cons_self, ha, rfl⟩
      · exact .inl ⟨List.mem_cons_of_mem _ hb, fun hpb => hhead b hb ⟨ha, hpb⟩⟩
    · rename_i ha
      rcases List.mem_cons.mp h with rfl | hb
      · exact .inl ⟨List.mem_cons_self, ha⟩
      · rcases ih htail hb with ⟨hmem, hnot⟩ | ⟨a', hmem, hpa, hf⟩
        · exact .inl ⟨List.mem_cons_of_mem _ hmem, hnot⟩
        · exact .inr ⟨a', List.mem_cons_of_mem _ hmem, hpa, hf⟩

end UpdateFirst

structure Finished where
  call : Call
  log : List (Request × Answer)
  result : Result

/-- Where the driver is. A call that runs is about to make the first request of its program;
one that waits has put `own` on a ring. -/
inductive Mode where
  | idle
  | running (call : Call) (log : List (Request × Answer)) (program : UsbDialog Result)
  | waiting (call : Call) (log : List (Request × Answer)) (own : Handed)
      (next : Answer → UsbDialog Result)
  | polling (budget : Nat)

/-- The driver, the memory of its buffers, the jobs that the controller has, the event ring and
the number of jobs so far, with the calls that have returned, the events taken off the ring
and those passed to `handle_keyboard_event`. -/
structure Machine where
  ctrl : Controller
  memory : Memory
  pending : List Handed
  events : List Posted
  serial : Nat
  mode : Mode
  finished : List Finished
  taken : List Posted
  handled : List Posted

/-- A step of the controller or of the driver. `advance` goes on with the program of a call,
where `grant` is the memory that the allocator has; `turn` is a turn of a loop over the event
ring, and `expire` the end of a wait. -/
inductive Action where
  | complete (channel : Channel) (code : Nat) (bytes : Bytes) (enabled : Nat)
  | notify (event : Event)
  | call (call : Call)
  | pollEvents
  | advance (grant : Option Nat)
  | turn
  | expire

namespace Machine

variable (s : Machine)

/-- What a successful Set TR Dequeue takes from the controller. -/
def withdraw (handed : Handed) (code : Nat) (pending : List Handed) : List Handed :=
  match handed.job.recalled with
  | some channel =>
    if code = ccSuccess then
      pending.filter fun h => ¬(h.job.channel = channel ∧ h.serial < handed.serial)
    else pending
  | none => pending

theorem withdraw_sublist (handed : Handed) (code : Nat) (pending : List Handed) :
    (withdraw handed code pending).Sublist pending := by
  rw [withdraw]
  split
  · split
    · exact List.filter_sublist
    · exact List.Sublist.refl pending
  · exact List.Sublist.refl pending

/-- The oldest job of the channel is done. -/
def complete (channel : Channel) (code : Nat) (bytes : Bytes) (enabled : Nat) : Machine :=
  match s.pending.find? (·.job.channel = channel) with
  | none => s
  | some handed =>
    let moved := bytes.take handed.job.length
    { s with
      memory := match handed.job.target with
        | some (buffer, _) => s.memory.put buffer moved
        | none => s.memory
      pending := withdraw handed code (s.pending.erase handed)
      events := s.events ++
        [⟨handed.job.report handed.address code moved.length enabled, some handed, moved⟩] }

/-- An event that reports on no job. -/
def notify (event : Event) : Machine :=
  if event.trbType = .portStatusChange ∨ event.trbType = .other then
    { s with events := s.events ++ [⟨event, none, []⟩] }
  else s

/-- The TRBs of the job go on the ring, and its doorbell is rung: the job as the controller has
it, and the ring after it. -/
def onRing (ring : Ring) (job : Job) : Handed × Ring :=
  (⟨s.serial, (ring.pushMany (job.size - 1)).next, job⟩, ring.pushMany job.size)

def hand (handed : Handed) : Machine :=
  { s with pending := s.pending ++ [handed], serial := s.serial + 1 }

def push (job : Job) : Handed × Machine :=
  let (own, ring) := s.onRing (s.ctrl.ring job.channel) job
  (own, { s.hand own with ctrl := s.ctrl.setRing job.channel ring })

/-- A change of a port that there is has the ports looked at again. -/
def portChange (event : Event) : Machine :=
  let port := event.param / 2 ^ 24 % 2 ^ 8
  if 1 ≤ port ∧ port ≤ s.ctrl.maxPorts then { s with ctrl := { s.ctrl with rescan := true } }
  else s

def setKeys (keys : List HidKeyboard) : Machine := { s with ctrl := { s.ctrl with keys } }

/-- The keyboard's TRB is put on its ring again. -/
def resend (keyboard : HidKeyboard) : Machine :=
  let job := .transfer keyboard.slot keyboard.dci
    [.normal keyboard.reportPhys keyboard.maxPacket false]
  let (own, ring) := s.onRing keyboard.ring job
  (s.hand own).setKeys (updateFirst (·.Is keyboard.slot keyboard.dci)
    (fun _ => { keyboard with ring }) s.ctrl.keys)

def handleKeyboardEvent (event : Event) : Machine :=
  match s.ctrl.keys.find? (·.Is event.slot event.endpoint) with
  | none => s
  | some keyboard =>
    if ¬keyboard.pending then s
    else if event.Good then
      s.resend { keyboard with reports := (keyboard.reports + 1) % 2 ^ 32 }
    else if event.completionCode = ccStall then
      s.setKeys (updateFirst (·.Is event.slot event.endpoint)
        (fun _ => { keyboard with pending := false }) s.ctrl.keys)
    else s.resend keyboard

def dispatchEvent (post : Posted) : Machine :=
  match post.event.trbType with
  | .transferEvent =>
    { s.handleKeyboardEvent post.event with handled := s.handled ++ [post] }
  | .portStatusChange => s.portChange post.event
  | _ => s

/-- An event that `command_full` does not return. -/
def passOver (post : Posted) : Machine :=
  match post.event.trbType with
  | .portStatusChange => s.portChange post.event
  | _ => s

/-- What a wait does with an event that it does not return. -/
def divert (job : Job) (post : Posted) : Machine :=
  match job with
  | .command .. => s.passOver post
  | .transfer .. => s.dispatchEvent post

/-- What is in the buffer of the job. -/
def bufferOf (job : Job) : Bytes :=
  match job.target with
  | some (buffer, length) => s.memory.slice buffer length
  | none => []

def answer (call : Call) (log : List (Request × Answer)) (request : Request) (answer : Answer)
    (next : Answer → UsbDialog Result) : Machine :=
  { s with mode := .running call (log ++ [(request, answer)]) (next answer) }

/-- The driver goes on with a call up to its next request. -/
def advance (grant : Option Nat) : Machine :=
  match s.mode with
  | .running call log (.done result) =>
    { s with mode := .idle, finished := s.finished ++ [⟨call, log, result⟩] }
  | .running call log (.ask (.allocate contents) next) =>
    match if contents = [] then none else grant with
    | none => s.answer call log (.allocate contents) (.buffer none) next
    | some phys =>
      { s with memory := s.memory.put phys contents }.answer call log (.allocate contents)
        (.buffer (some phys)) next
  | .running call log (.ask (.free buffer) next) =>
    s.answer call log (.free buffer) .freed next
  | .running call log (.ask (.dequeue slot dci) next) =>
    s.answer call log (.dequeue slot dci) (.pointer (s.ctrl.rings slot dci).dequeue) next
  | .running call log (.ask (.submit job) next) =>
    let (own, s) := s.push job
    { s with mode := .waiting call log own next }
  | _ => s

/-- `next_event` has come to the event. -/
def take (post : Posted) (events : List Posted) : Machine :=
  { s with events, taken := s.taken ++ [post] }

/-- A turn of a loop over the event ring; `poll_events` takes one event more than it passes
on. -/
def turn : Machine :=
  match s.mode, s.events with
  | .waiting call log own next, post :: events =>
    let s := s.take post events
    if own.job.Accepts post.event then
      s.answer call log (.submit own.job) (.waited own (some post) (s.bufferOf own.job)) next
    else s.divert own.job post
  | .polling budget, post :: events =>
    let s := s.take post events
    if 64 < budget + 1 then { s with mode := .idle }
    else { s.dispatchEvent post with mode := .polling (budget + 1) }
  | .polling _, [] => { s with mode := .idle }
  | _, _ => s

def expire : Machine :=
  match s.mode with
  | .waiting call log own next =>
    s.answer call log (.submit own.job) (.waited own none (s.bufferOf own.job)) next
  | _ => s

/-- A step that does not apply changes nothing. Calls and `poll_events` need the lock. -/
def step (s : Machine) : Action → Machine
  | .complete channel code bytes enabled => s.complete channel code bytes enabled
  | .notify event => s.notify event
  | .call call =>
    match s.mode with
    | .idle => { s with mode := .running call [] (s.ctrl.perform call) }
    | _ => s
  | .pollEvents =>
    match s.mode with
    | .idle => { s with mode := .polling 0 }
    | _ => s
  | .advance grant => s.advance grant
  | .turn => s.turn
  | .expire => s.expire

def run (s : Machine) (actions : List Action) : Machine := actions.foldl step s

/-- The requests of all calls with their answers. -/
def exchanges : List (Request × Answer) :=
  s.finished.flatMap (·.log) ++
    (match s.mode with
      | .running _ log _ => log
      | .waiting _ log _ _ => log
      | _ => [])

/-- The states differ in what the driver knows of its devices only. -/
structure Alike (s s' : Machine) : Prop where
  memory : s'.memory = s.memory
  pending : s'.pending = s.pending
  events : s'.events = s.events
  serial : s'.serial = s.serial
  mode : s'.mode = s.mode
  finished : s'.finished = s.finished

theorem alike_portChange (event : Event) : Alike s (s.portChange event) := by
  rw [portChange]
  split <;> exact ⟨rfl, rfl, rfl, rfl, rfl, rfl⟩

theorem alike_passOver (post : Posted) : Alike s (s.passOver post) := by
  rw [passOver]
  split
  · exact s.alike_portChange post.event
  · exact ⟨rfl, rfl, rfl, rfl, rfl, rfl⟩

theorem dispatchEvent_cases (post : Posted) :
    Alike s (s.dispatchEvent post) ∨
      ∃ own, own.serial = s.serial ∧ Alike (s.hand own) (s.dispatchEvent post) := by
  rw [dispatchEvent]
  split
  · rw [handleKeyboardEvent]
    split
    · exact .inl ⟨rfl, rfl, rfl, rfl, rfl, rfl⟩
    · split
      · exact .inl ⟨rfl, rfl, rfl, rfl, rfl, rfl⟩
      · split
        · exact .inr ⟨_, rfl, ⟨rfl, rfl, rfl, rfl, rfl, rfl⟩⟩
        · split
          · exact .inl ⟨rfl, rfl, rfl, rfl, rfl, rfl⟩
          · exact .inr ⟨_, rfl, ⟨rfl, rfl, rfl, rfl, rfl, rfl⟩⟩
  · exact .inl (s.alike_portChange post.event)
  · exact .inl ⟨rfl, rfl, rfl, rfl, rfl, rfl⟩

end Machine

end Vibra.Usb
