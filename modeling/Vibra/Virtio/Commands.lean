import Mathlib.Data.List.Perm.Basic
import Vibra.Lib.Checked

/-! # Commands of the GPU

A command takes two descriptors, and is waited for a bounded time.
-/

/-! ## Split virtqueues

A chain of descriptors belongs to the device from when it is made available until its head is in the
used ring.
-/

namespace Vibra.Virtio

open Lib (Outcome)

structure VirtqDesc where
  addr : Nat
  len : Nat
  flags : Nat
  next : Nat

def vringDescFNext : Nat := 1

def vringDescFWrite : Nat := 2

structure UsedElem where
  id : Nat
  len : Nat

/-- The queue and its rings, with the heads of the chains that belong to the device. -/
structure VirtQueue where
  queueSize : Nat
  descriptors : Nat → VirtqDesc
  availIdx : Nat
  availRing : Nat → Nat
  usedIdx : Nat
  usedRing : Nat → UsedElem
  freeHead : Nat
  numFree : Nat
  nextAvail : Nat
  owned : List Nat

/-- The device returns one of its chains, with the number of bytes it has written. -/
structure Completion where
  chain : Nat
  len : Nat

namespace VirtQueue

def new (queueSize : Nat) : VirtQueue where
  queueSize
  descriptors := fun i => ⟨0, 0, 0, if i + 1 < queueSize then i + 1 else 0xFFFF⟩
  availIdx := 0
  availRing := fun _ => 0
  usedIdx := 0
  usedRing := fun _ => ⟨0, 0⟩
  freeHead := 0
  numFree := queueSize
  nextAvail := 0
  owned := []

variable (q : VirtQueue)

def setDesc (i : Nat) (desc : VirtqDesc) : VirtQueue :=
  { q with descriptors := fun j => if j = i then desc else q.descriptors j }

def allocDesc : Option (Nat × VirtQueue) :=
  if q.numFree = 0 then none
  else
    let idx := q.freeHead
    some (idx, { q with freeHead := (q.descriptors idx).next, numFree := q.numFree - 1 })

def freeDesc (idx : Nat) : Outcome Empty VirtQueue := do
  let q := q.setDesc idx { q.descriptors idx with next := q.freeHead }
  let numFree ← Outcome.add 16 q.numFree 1
  return { q with freeHead := idx, numFree }

/-- The chain belongs to the device with the new index. -/
def addBuf (descIdx : Nat) : Outcome Empty VirtQueue := do
  let ring := q.availIdx % q.queueSize
  let availIdx ← Outcome.add 16 q.availIdx 1
  return { q with
    availRing := fun i => if i = ring then descIdx else q.availRing i
    availIdx
    owned := q.owned ++ [descIdx] }

/-- The second word of the used ring is the identifier of its first element; from the third on,
every other word is the length of an element. -/
def pollUsed : Outcome Empty (VirtQueue × Option Nat) :=
  let usedIdx := (q.usedRing 0).id % 2 ^ 16
  if usedIdx ≠ q.nextAvail then do
    let ring := q.nextAvail % q.queueSize
    let id := (q.usedRing ring).len
    let nextAvail ← Outcome.add 16 q.nextAvail 1
    return ({ q with nextAvail }, some (id % 2 ^ 16))
  else .ok (q, none)

/-- The device answers a chain that belongs to it, if there is one. -/
def complete (done : Completion) : VirtQueue :=
  match q.owned[done.chain % q.owned.length]? with
  | none => q
  | some head =>
    { q with
      usedRing := fun i => if i = q.usedIdx % q.queueSize then ⟨head, done.len⟩ else q.usedRing i
      usedIdx := (q.usedIdx + 1) % 2 ^ 16
      owned := q.owned.erase head }

/-- The descriptors of a chain. -/
def chain : (fuel head : Nat) → List Nat
  | 0, _ => []
  | fuel + 1, head =>
    head :: if (q.descriptors head).flags &&& vringDescFNext ≠ 0 then
      chain fuel (q.descriptors head).next
    else []

/-- The request as the device sees it: address, length and flags of each buffer. -/
def seen (head : Nat) : List (Nat × Nat × Nat) :=
  (q.chain q.queueSize head).map fun i =>
    ((q.descriptors i).addr, (q.descriptors i).len, (q.descriptors i).flags)

def Unowned (idx : Nat) : Prop := ∀ head ∈ q.owned, idx ∉ q.chain q.queueSize head

def Frees : (head : Nat) → List Nat → Prop
  | _, [] => True
  | head, i :: rest => head = i ∧ Frees (q.descriptors i).next rest

def AllFree : Prop :=
  q.numFree = q.queueSize ∧ ∃ l, l.Perm (List.range q.queueSize) ∧ q.Frees q.freeHead l

def FreeOnceReturned : Prop := q.owned = [] → q.AllFree

variable {q}

theorem frees_congr {q' : VirtQueue} {l : List Nat} {head : Nat}
    (h : ∀ i ∈ l, (q'.descriptors i).next = (q.descriptors i).next) :
    q'.Frees head l ↔ q.Frees head l := by
  induction l generalizing head with
  | nil => exact Iff.rfl
  | cons i rest ih =>
    rw [Frees, Frees, h i List.mem_cons_self]
    exact and_congr_right fun _ => ih fun j hj => h j (List.mem_cons_of_mem i hj)

theorem frees_new (queueSize : Nat) (i n : Nat) (h : i + n ≤ queueSize) :
    (new queueSize).Frees i (List.range' i n) := by
  induction n generalizing i with
  | zero => trivial
  | succ n ih =>
    rw [List.range'_succ, Frees]
    refine ⟨rfl, ?_⟩
    cases n with
    | zero => trivial
    | succ n =>
      have hnext : ((new queueSize).descriptors i).next = i + 1 := if_pos (by omega)
      rw [hnext]
      exact ih (i + 1) (by omega)

theorem complete_idle (h : q.owned = []) (done : Completion) : q.complete done = q := by
  rw [complete, h]
  rfl

theorem foldl_complete_idle (h : q.owned = []) (answers : List Completion) :
    answers.foldl complete q = q := by
  induction answers with
  | nil => rfl
  | cons done answers ih => rw [List.foldl_cons, complete_idle h, ih]

theorem pollUsed_none (h : (q.usedRing 0).id % 2 ^ 16 = q.nextAvail) :
    q.pollUsed = .ok (q, none) := if_neg (not_not_intro h)

end VirtQueue

end Vibra.Virtio

namespace Vibra.Virtio

open Lib (Outcome)

/-- Memory handed to the device, with a length that fits a descriptor. -/
structure Buffer where
  addr : Nat
  len : Nat
  small : len < 2 ^ 32

/-- A command, and what the device does before it and before each look at the used ring. -/
structure GpuCall where
  cmd : Buffer
  resp : Buffer
  earlier : List Completion
  device : Nat → List Completion

def gpuPolls : Nat := 1000000 + 1

namespace VirtQueue

variable (q : VirtQueue)

/-- The chain of a command: the descriptors, and the queue with them filled. -/
def gpuChain (cmd resp : Buffer) : Except (VirtQueue × String) (Nat × Nat × VirtQueue) :=
  match q.allocDesc with
  | none => .error (q, "gpu: нет дескрипторов (cmd)")
  | some (cmdDesc, q) =>
    match q.allocDesc with
    | none => .error (q, "gpu: нет дескрипторов (resp)")
    | some (respDesc, q) =>
      let q := q.setDesc cmdDesc ⟨cmd.addr, cmd.len, vringDescFNext, respDesc⟩
      .ok (cmdDesc, respDesc, q.setDesc respDesc ⟨resp.addr, resp.len, vringDescFWrite, 0xFFFF⟩)

/-- The loop over the looks that are left. -/
def waitUsed (device : Nat → List Completion) :
    (left i : Nat) → VirtQueue → Outcome Empty (VirtQueue × Bool)
  | 0, _, q => .ok (q, false)
  | left + 1, i, q => do
      let (q, found) ← ((device i).foldl complete q).pollUsed
      if found.isSome then return (q, true) else waitUsed device left (i + 1) q

/-- Both descriptors are freed, whether the answer has been seen or not. -/
def finish (cmdDesc respDesc : Nat) (found : Bool) :
    Outcome Empty (VirtQueue × Except String Unit) := do
  let q ← q.freeDesc cmdDesc
  let q ← q.freeDesc respDesc
  return (q, if found then .ok () else .error "gpu: таймаут ответа")

def sendCommand (call : GpuCall) : Outcome Empty (VirtQueue × Except String Unit) :=
  match (call.earlier.foldl complete q).gpuChain call.cmd call.resp with
  | .error (q, e) => .ok (q, .error e)
  | .ok (cmdDesc, respDesc, q) => do
      let q ← q.addBuf cmdDesc
      let (q, found) ← waitUsed call.device gpuPolls 0 q
      q.finish cmdDesc respDesc found

def gpuAsked (cmd resp : Buffer) : List (Nat × Nat × Nat) :=
  [(cmd.addr, cmd.len, vringDescFNext), (resp.addr, resp.len, vringDescFWrite)]

/-- No descriptor that belongs to the device is used again, the device sees the command that is
asked for, the call returns after the answer and without an overflow, and then every descriptor is
free. -/
def GpuKept (call : GpuCall) : Prop :=
  match (call.earlier.foldl complete q).gpuChain call.cmd call.resp with
  | .error (q', _) => q'.FreeOnceReturned
  | .ok (cmdDesc, respDesc, q₁) =>
    (call.earlier.foldl complete q).Unowned cmdDesc ∧
    (call.earlier.foldl complete q).Unowned respDesc ∧
    ∃ q₂, q₁.addBuf cmdDesc = .ok q₂ ∧ q₂.seen cmdDesc = gpuAsked call.cmd call.resp ∧
    ∃ q₃ found, waitUsed call.device gpuPolls 0 q₂ = .ok (q₃, found) ∧ cmdDesc ∉ q₃.owned ∧
    ∃ q₄ result, q₃.finish cmdDesc respDesc found = .ok (q₄, result) ∧ q₄.FreeOnceReturned

/-- Every command of a run. -/
def GpuRun : VirtQueue → List GpuCall → Prop
  | _, [] => True
  | q, call :: rest => q.GpuKept call ∧
      ∀ q' result, q.sendCommand call = .ok (q', result) → GpuRun q' rest

end VirtQueue

def GpuCall.Timely (call : GpuCall) : Prop := ∃ i < gpuPolls, call.device i ≠ []

namespace VirtQueue

variable {q : VirtQueue} {size k : Nat} {cmd resp : Buffer}

/-- The queue after `k` commands: the first two descriptors change places each time. -/
structure Idle (q : VirtQueue) (size k : Nat) : Prop where
  queueSize : q.queueSize = size
  owned : q.owned = []
  numFree : q.numFree = size
  free : ∃ rest, q.Frees q.freeHead (k % 2 :: (k + 1) % 2 :: rest) ∧
    (k % 2 :: (k + 1) % 2 :: rest).Perm (List.range size)
  availIdx : q.availIdx = k
  usedIdx : q.usedIdx = k
  nextAvail : q.nextAvail = 0
  first : (q.usedRing 0).id = 0

theorem Idle.allFree (h : Idle q size k) : q.AllFree := by
  obtain ⟨rest, hfrees, hperm⟩ := h.free
  rw [AllFree, h.numFree, h.queueSize]
  exact ⟨rfl, _, hperm, hfrees⟩

theorem idle_new (h : 2 ≤ size) : Idle (new size) size 0 where
  queueSize := rfl
  owned := rfl
  numFree := rfl
  free := by
    obtain ⟨n, rfl⟩ : ∃ n, size = n + 1 + 1 := ⟨size - 2, by omega⟩
    have hfrees := frees_new (n + 1 + 1) 0 (n + 1 + 1) (Nat.le_of_eq (Nat.zero_add _))
    refine ⟨List.range' 2 n, hfrees, ?_⟩
    rw [List.range_eq_range']
    exact List.Perm.refl _
  availIdx := rfl
  usedIdx := rfl
  nextAvail := rfl
  first := rfl

def filled (q : VirtQueue) (cmdDesc respDesc : Nat) (cmd resp : Buffer) : VirtQueue :=
  ({ q with
      freeHead := (q.descriptors respDesc).next
      numFree := q.numFree - 1 - 1 }.setDesc cmdDesc
        ⟨cmd.addr, cmd.len, vringDescFNext, respDesc⟩).setDesc respDesc
    ⟨resp.addr, resp.len, vringDescFWrite, 0xFFFF⟩

def handed (q : VirtQueue) (cmdDesc respDesc : Nat) (cmd resp : Buffer) : VirtQueue :=
  { filled q cmdDesc respDesc cmd resp with
    availRing := fun i => if i = q.availIdx % q.queueSize then cmdDesc else q.availRing i
    availIdx := q.availIdx + 1
    owned := q.owned ++ [cmdDesc] }

theorem gpuChain_eq (h : Idle q size k) (hsize : 2 ≤ size) :
    q.gpuChain cmd resp =
      .ok (k % 2, (k + 1) % 2, filled q (k % 2) ((k + 1) % 2) cmd resp) := by
  obtain ⟨rest, ⟨hfirst, hsecond, _⟩, _⟩ := h.free
  have hnumFree := h.numFree
  rw [gpuChain, allocDesc, if_neg (by omega)]
  dsimp only
  rw [allocDesc, if_neg (by dsimp only; omega)]
  dsimp only
  rw [hfirst, hsecond]
  rfl

theorem addBuf_eq (cmdDesc respDesc : Nat) :
    (filled q cmdDesc respDesc cmd resp).addBuf cmdDesc =
      if q.availIdx + 1 < 2 ^ 16 then .ok (handed q cmdDesc respDesc cmd resp) else .panic := by
  rw [addBuf, Outcome.add]
  change (Outcome.bind (if q.availIdx + 1 < 2 ^ 16 then _ else _) _ : Outcome Empty _) = _
  split <;> rfl

theorem seen_handed {cmdDesc respDesc : Nat} (hne : cmdDesc ≠ respDesc) (hsize : 2 ≤ q.queueSize) :
    (handed q cmdDesc respDesc cmd resp).seen cmdDesc = gpuAsked cmd resp := by
  obtain ⟨n, hn⟩ : ∃ n, q.queueSize = n + 1 + 1 := ⟨q.queueSize - 2, by omega⟩
  have hcmd : (handed q cmdDesc respDesc cmd resp).descriptors cmdDesc =
      ⟨cmd.addr, cmd.len, vringDescFNext, respDesc⟩ := (if_neg hne).trans (if_pos rfl)
  have hresp : (handed q cmdDesc respDesc cmd resp).descriptors respDesc =
      ⟨resp.addr, resp.len, vringDescFWrite, 0xFFFF⟩ := if_pos rfl
  have hqueue : (handed q cmdDesc respDesc cmd resp).queueSize = n + 1 + 1 := hn
  have hnext : vringDescFNext &&& vringDescFNext ≠ 0 := by decide
  have hlast : ¬ vringDescFWrite &&& vringDescFNext ≠ 0 := by decide
  rw [seen, hqueue, chain, hcmd, if_pos hnext, chain, hresp, if_neg hlast, List.map_cons,
    List.map_singleton, hcmd, hresp]
  rfl

/-- The device has the chain. Its answer does not become the first element with another
identifier than zero. -/
structure Pending (q : VirtQueue) (head : Nat) : Prop where
  owned : q.owned = [head]
  nextAvail : q.nextAvail = 0
  first : (q.usedRing 0).id = 0
  slot : q.usedIdx % q.queueSize = 0 → head = 0

def answered (q : VirtQueue) (head len : Nat) : VirtQueue :=
  { q with
    usedRing := fun i => if i = q.usedIdx % q.queueSize then ⟨head, len⟩ else q.usedRing i
    usedIdx := (q.usedIdx + 1) % 2 ^ 16
    owned := [] }

theorem complete_pending {head : Nat} (h : Pending q head) (done : Completion) :
    q.complete done = answered q head done.len := by
  have hget : q.owned[done.chain % q.owned.length]? = some head := by
    rw [h.owned, List.length_singleton, Nat.mod_one]
    rfl
  rw [complete, hget, h.owned]
  dsimp only
  rw [List.erase_cons_head]
  rfl

theorem first_answered {head : Nat} (h : Pending q head) (len : Nat) :
    ((answered q head len).usedRing 0).id = 0 := by
  change (if 0 = q.usedIdx % q.queueSize then (⟨head, len⟩ : UsedElem) else q.usedRing 0).id = 0
  split
  case isTrue hslot => exact h.slot hslot.symm
  case isFalse => exact h.first

theorem waitUsed_idle (device : Nat → List Completion) (howned : q.owned = [])
    (hquiet : (q.usedRing 0).id % 2 ^ 16 = q.nextAvail) (left i : Nat) :
    waitUsed device left i q = .ok (q, false) := by
  induction left generalizing i with
  | zero => rfl
  | succ left ih =>
    rw [waitUsed, foldl_complete_idle howned, pollUsed_none hquiet]
    exact ih (i + 1)

theorem waitUsed_pending (device : Nat → List Completion) {head : Nat} (h : Pending q head)
    (left i : Nat) :
    ((∃ j < left, device (i + j) ≠ []) ∧
      ∃ len, waitUsed device left i q = .ok (answered q head len, false)) ∨
    ((∀ j < left, device (i + j) = []) ∧ waitUsed device left i q = .ok (q, false)) := by
  induction left generalizing i with
  | zero => exact .inr ⟨fun j hj => absurd hj (Nat.not_lt_zero j), rfl⟩
  | succ left ih =>
    have hquiet : (q.usedRing 0).id % 2 ^ 16 = q.nextAvail := by
      rw [h.first, h.nextAvail, Nat.zero_mod]
    cases hnow : device i with
    | nil =>
      have hstep : waitUsed device (left + 1) i q = waitUsed device left (i + 1) q := by
        rw [waitUsed, hnow, List.foldl_nil, pollUsed_none hquiet]
        rfl
      rw [hstep]
      rcases ih (i + 1) with ⟨⟨j, hj, hlater⟩, hwait⟩ | ⟨hnever, hwait⟩
      · refine .inl ⟨⟨j + 1, by omega, ?_⟩, hwait⟩
        rwa [Nat.add_comm j, ← Nat.add_assoc]
      · refine .inr ⟨fun j hj => ?_, hwait⟩
        cases j with
        | zero => exact hnow
        | succ j =>
          rw [Nat.add_comm j, ← Nat.add_assoc]
          exact hnever j (by omega)
    | cons done answers =>
      refine .inl ⟨⟨0, Nat.zero_lt_succ left, ?_⟩, done.len, ?_⟩
      · rw [Nat.add_zero, hnow]
        exact List.cons_ne_nil _ _
      · have hfirst := first_answered h done.len
        have hstill : ((answered q head done.len).usedRing 0).id % 2 ^ 16 =
            (answered q head done.len).nextAvail := by
          rw [hfirst]
          exact h.nextAvail.symm
        rw [waitUsed, hnow, List.foldl_cons, complete_pending h, foldl_complete_idle rfl,
          pollUsed_none hstill]
        exact waitUsed_idle device rfl hstill left (i + 1)

/-! ## One command -/

theorem pending_handed (h : Idle q size k) (heven : size % 2 = 0) :
    Pending (handed q (k % 2) ((k + 1) % 2) cmd resp) (k % 2) where
  owned := by
    change q.owned ++ [k % 2] = [k % 2]
    rw [h.owned, List.nil_append]
  nextAvail := h.nextAvail
  first := h.first
  slot := by
    intro hslot
    change q.usedIdx % q.queueSize = 0 at hslot
    rw [h.usedIdx, h.queueSize] at hslot
    have hdvd : 2 ∣ k := Nat.dvd_trans (Nat.dvd_of_mod_eq_zero heven)
      (Nat.dvd_of_mod_eq_zero hslot)
    exact Nat.mod_eq_zero_of_dvd hdvd

def freed (q : VirtQueue) (idx : Nat) : VirtQueue :=
  { q.setDesc idx { q.descriptors idx with next := q.freeHead } with
    freeHead := idx
    numFree := q.numFree + 1 }

theorem freeDesc_eq {idx : Nat} (h : q.numFree + 1 < 2 ^ 16) :
    q.freeDesc idx = .ok (freed q idx) := by
  rw [freeDesc]
  change Outcome.bind (Outcome.add 16 q.numFree 1) _ = _
  rw [Outcome.add, if_pos h]
  rfl

theorem next_freed (idx i : Nat) : ((freed q idx).descriptors i).next =
    if i = idx then q.freeHead else (q.descriptors i).next := by
  change VirtqDesc.next (if i = idx then _ else q.descriptors i) = _
  split <;> rfl

theorem next_answered {cmdDesc respDesc i : Nat} (hcmd : i ≠ cmdDesc) (hresp : i ≠ respDesc)
    (len : Nat) : ((answered (handed q cmdDesc respDesc cmd resp) cmdDesc len).descriptors i).next =
      (q.descriptors i).next := by
  have hdesc : (answered (handed q cmdDesc respDesc cmd resp) cmdDesc len).descriptors i =
      q.descriptors i := (if_neg hresp).trans (if_neg hcmd)
  rw [hdesc]

theorem finish_answered (h : Idle q size k) (hsize : 2 ≤ size) (hwidth : size < 2 ^ 16)
    (heven : size % 2 = 0) (hcount : k + 1 < 2 ^ 16) (len : Nat) (found : Bool) :
    ∃ q', (answered (handed q (k % 2) ((k + 1) % 2) cmd resp) (k % 2) len).finish (k % 2)
        ((k + 1) % 2) found =
      .ok (q', if found then .ok () else .error "gpu: таймаут ответа") ∧ Idle q' size (k + 1) := by
  obtain ⟨rest, hfrees, hperm⟩ := h.free
  have hnodup := hperm.nodup_iff.mpr List.nodup_range
  have hpending := @pending_handed q size k cmd resp h heven
  obtain ⟨a, ha⟩ : ∃ a, answered (handed q (k % 2) ((k + 1) % 2) cmd resp) (k % 2) len = a :=
    ⟨_, rfl⟩
  have hhead : a.freeHead = (q.descriptors ((k + 1) % 2)).next := by rw [← ha]; rfl
  have hnumFree : a.numFree = size - 1 - 1 := by rw [← ha, ← h.numFree]; rfl
  have hnext : ∀ i ∈ rest, (a.descriptors i).next = (q.descriptors i).next := by
    intro i hi
    rw [← ha]
    refine next_answered ?_ ?_ len
    · rintro rfl
      exact (List.nodup_cons.mp hnodup).1 (List.mem_cons_of_mem _ hi)
    · rintro rfl
      exact (List.nodup_cons.mp (List.nodup_cons.mp hnodup).2).1 hi
  rw [ha, finish, freeDesc_eq (by omega), Outcome.ok_bind]
  have hsecond : (freed a (k % 2)).numFree + 1 < 2 ^ 16 := by
    change a.numFree + 1 + 1 < 2 ^ 16
    omega
  rw [freeDesc_eq hsecond]
  refine ⟨freed (freed a (k % 2)) ((k + 1) % 2), rfl, ?_⟩
  exact
    { queueSize := by rw [← h.queueSize, ← ha]; rfl
      owned := by rw [← ha]; rfl
      numFree := by
        change a.numFree + 1 + 1 = size
        omega
      free := by
        refine ⟨rest, ⟨rfl, ?_, ?_⟩, ?_⟩
        · rw [next_freed, if_pos rfl]
          change k % 2 = (k + 1 + 1) % 2
          omega
        · have hback : (k + 1 + 1) % 2 = k % 2 := by omega
          rw [hback, next_freed, if_neg (by omega), next_freed, if_pos rfl, hhead]
          refine (frees_congr fun i hi => ?_).mpr hfrees.2.2
          rw [next_freed, if_neg, next_freed, if_neg, hnext i hi]
          · rintro rfl
            exact (List.nodup_cons.mp hnodup).1 (List.mem_cons_of_mem _ hi)
          · rintro rfl
            exact (List.nodup_cons.mp (List.nodup_cons.mp hnodup).2).1 hi
        · have hback : (k + 1 + 1) % 2 = k % 2 := by omega
          rw [hback]
          exact (List.Perm.swap _ _ _).trans hperm
      availIdx := by
        rw [← h.availIdx, ← ha]
        rfl
      usedIdx := by
        have hused : (freed (freed a (k % 2)) ((k + 1) % 2)).usedIdx =
            (q.usedIdx + 1) % 2 ^ 16 := by
          rw [← ha]
          rfl
        rw [hused, h.usedIdx, Nat.mod_eq_of_lt hcount]
      nextAvail := by
        rw [← h.nextAvail, ← ha]
        rfl
      first := by
        have hfirst := first_answered hpending len
        rw [ha] at hfirst
        exact hfirst }

theorem gpuKept_iff (h : Idle q size k) (hsize : 2 ≤ size) (hwidth : size < 2 ^ 16)
    (heven : size % 2 = 0) (call : GpuCall) :
    q.GpuKept call ↔ k + 1 < 2 ^ 16 ∧ call.Timely := by
  have hpending := @pending_handed q size k call.cmd call.resp h heven
  have hunowned : ∀ i, q.Unowned i := by
    intro i head hhead
    rw [h.owned] at hhead
    cases hhead
  rw [GpuKept, foldl_complete_idle h.owned, gpuChain_eq h hsize]
  dsimp only
  rw [addBuf_eq, h.availIdx]
  by_cases hcount : k + 1 < 2 ^ 16
  · rw [if_pos hcount]
    have hseen := @seen_handed q call.cmd call.resp (k % 2) ((k + 1) % 2) (by omega)
      (h.queueSize.symm ▸ hsize)
    rcases waitUsed_pending call.device hpending gpuPolls 0 with ⟨⟨j, hj, hanswer⟩, len, hwait⟩ |
      ⟨hnever, hwait⟩
    · rw [Nat.zero_add] at hanswer
      obtain ⟨q', hfinish, hidle⟩ := finish_answered h hsize hwidth heven hcount len false
      refine iff_of_true ?_ ⟨hcount, j, hj, hanswer⟩
      exact ⟨hunowned _, hunowned _, _, rfl, hseen, _, _, hwait, List.not_mem_nil, q', _, hfinish,
        fun _ => hidle.allFree⟩
    · refine iff_of_false ?_ ?_
      · rintro ⟨_, _, q₂, hq₂, _, q₃, found, hq₃, hreturned, _⟩
        cases hq₂
        rw [hwait] at hq₃
        cases hq₃
        exact hreturned (hpending.owned ▸ List.mem_singleton_self _)
      · rintro ⟨_, j, hj, hanswer⟩
        have hnone := hnever j hj
        rw [Nat.zero_add] at hnone
        exact hanswer hnone
  · rw [if_neg hcount]
    refine iff_of_false ?_ fun hkept => hcount hkept.1
    rintro ⟨_, _, q₂, hq₂, _⟩
    cases hq₂

theorem sendCommand_timely (h : Idle q size k) (hsize : 2 ≤ size) (hwidth : size < 2 ^ 16)
    (heven : size % 2 = 0) (hcount : k + 1 < 2 ^ 16) {call : GpuCall} (htimely : call.Timely) :
    ∃ q', q.sendCommand call = .ok (q', .error "gpu: таймаут ответа") ∧ Idle q' size (k + 1) := by
  have hpending := @pending_handed q size k call.cmd call.resp h heven
  obtain ⟨j, hj, hanswer⟩ := htimely
  rcases waitUsed_pending call.device hpending gpuPolls 0 with ⟨_, len, hwait⟩ | ⟨hnever, _⟩
  · obtain ⟨q', hfinish, hidle⟩ := finish_answered h hsize hwidth heven hcount len false
    refine ⟨q', ?_, hidle⟩
    rw [sendCommand, foldl_complete_idle h.owned, gpuChain_eq h hsize]
    dsimp only
    rw [addBuf_eq, h.availIdx, if_pos hcount, Outcome.ok_bind, hwait, Outcome.ok_bind]
    exact hfinish
  · have hnone := hnever j hj
    rw [Nat.zero_add] at hnone
    exact absurd hnone hanswer

theorem gpuRun_idle (h : Idle q size k) (hsize : 2 ≤ size) (hwidth : size < 2 ^ 16)
    (heven : size % 2 = 0) (calls : List GpuCall) :
    q.GpuRun calls ↔ (calls = [] ∨ k + calls.length < 2 ^ 16) ∧ ∀ call ∈ calls, call.Timely := by
  induction calls generalizing q k with
  | nil => exact iff_of_true trivial ⟨.inl rfl, fun call hcall => absurd hcall List.not_mem_nil⟩
  | cons call calls ih =>
    rw [GpuRun, gpuKept_iff h hsize hwidth heven, List.length_cons, List.forall_mem_cons]
    constructor
    · rintro ⟨⟨hcount, htimely⟩, hrest⟩
      obtain ⟨q', hsend, hidle⟩ := sendCommand_timely h hsize hwidth heven hcount htimely
      obtain ⟨hlength, hall⟩ := (ih hidle).mp (hrest _ _ hsend)
      refine ⟨.inr ?_, htimely, hall⟩
      rcases hlength with rfl | hlength
      · exact hcount
      · omega
    · rintro ⟨hlength, htimely, hall⟩
      have hcount : k + 1 < 2 ^ 16 := by
        have hlt := hlength.resolve_left (List.cons_ne_nil _ _)
        omega
      obtain ⟨q₁, hsend, hidle⟩ := sendCommand_timely h hsize hwidth heven hcount htimely
      refine ⟨⟨hcount, htimely⟩, fun q' result hq' => ?_⟩
      rw [hsend] at hq'
      cases hq'
      refine (ih hidle).mpr ⟨?_, hall⟩
      have hlt := hlength.resolve_left (List.cons_ne_nil _ _)
      exact .inr (by omega)

theorem gpuRun_one (calls : List GpuCall) : (new 1).GpuRun calls ↔ calls = [] := by
  cases calls with
  | nil => exact iff_of_true trivial rfl
  | cons call calls =>
    refine iff_of_false ?_ (List.cons_ne_nil _ _)
    rintro ⟨hkept, _⟩
    rw [GpuKept, foldl_complete_idle rfl] at hkept
    have hfree : (0 : Nat) = 1 := (hkept rfl).1
    exact absurd hfree (by decide)

theorem gpuRun_iff (bits : Fin 16) (calls : List GpuCall) :
    (new (2 ^ bits.val)).GpuRun calls ↔
      calls = [] ∨ bits ≠ 0 ∧ calls.length < 2 ^ 16 ∧ ∀ call ∈ calls, call.Timely := by
  obtain ⟨bits, hbits⟩ := bits
  cases bits with
  | zero =>
    refine (gpuRun_one calls).trans ⟨.inl, fun h => ?_⟩
    exact h.resolve_right fun h => h.1 rfl
  | succ bits =>
    have hsplit : 2 ^ (bits + 1) = 2 * 2 ^ bits := Nat.pow_succ'
    have hwidth : 2 ^ (bits + 1) < 2 ^ 16 := Nat.pow_lt_pow_right (by decide) hbits
    have hpos := Nat.two_pow_pos bits
    refine (gpuRun_idle (idle_new (by omega)) (by omega) hwidth (by omega) calls).trans ?_
    rw [Nat.zero_add]
    constructor
    · rintro ⟨hnil | hlength, hall⟩
      · exact .inl hnil
      · exact .inr ⟨fun h => Nat.succ_ne_zero bits (congrArg Fin.val h), hlength, hall⟩
    · rintro (rfl | ⟨_, hlength, hall⟩)
      · exact ⟨.inl rfl, fun call hcall => absurd hcall List.not_mem_nil⟩
      · exact ⟨.inr hlength, hall⟩

end VirtQueue

end Vibra.Virtio
