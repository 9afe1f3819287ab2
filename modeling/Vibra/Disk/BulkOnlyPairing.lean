import Vibra.Disk.BulkOnly

/-! # Commands and their statuses

A call takes the status whose tag is that of its last CBW. The tag alone does not tell the calls of
two handles apart, since every handle counts from zero.
-/

namespace Vibra.Disk

open Lib (Dialog)
open Lib.Dialog (After Costs)

variable {tag : UInt32} {cdb data : List UInt8} {dirIn : Bool} {log : List (UsbRequest × UsbReply)}

/-- The transfers of a data stage that moves a buffer of `len` bytes whole. -/
def Moved (len : Nat) (dirIn : Bool) (moved : List (UsbRequest × UsbReply)) : Prop :=
  if len = 0 then moved = []
  else ∃ buffer reply, moved = [(.bulk .data dirIn buffer, reply)] ∧
    buffer.length = len ∧ reply.done = some len

/-- The transcript ends with a CBW, the whole data stage, and the status `csw` under the
tag of that CBW. -/
def EndsWith (len : Nat) (dirIn : Bool) (csw : UsbReply)
    (log : List (UsbRequest × UsbReply)) : Prop :=
  ∃ before cbw ack moved,
    log = before ++ (.bulk .command false cbw, ack) :: moved ++
      [(.bulk .status true (List.replicate 13 0), csw)] ∧
    Moved len dirIn moved ∧ csw.done = some 13 ∧ Passes (le32At cbw 4) csw.data

/-- The tag of the last CBW. -/
def lastTag (log : List (UsbRequest × UsbReply)) : Nat :=
  log.foldl (fun tag x => match x.1 with
    | .bulk .command _ cbw => le32At cbw 4
    | _ => tag) 0

def commands (log : List (UsbRequest × UsbReply)) : Nat :=
  log.countP fun x => x.1.stage = some .command

theorem lastTag_append (log log' : List (UsbRequest × UsbReply))
    (h : ∀ x ∈ log', x.1.stage ≠ some .command) : lastTag (log ++ log') = lastTag log := by
  induction log' using List.reverseRecOn with
  | nil => rw [List.append_nil]
  | append_singleton log' x ih =>
    have hx := h x (by simp)
    rw [← List.append_assoc, lastTag, List.foldl_append, List.foldl_cons, List.foldl_nil]
    refine Eq.trans ?_ (ih fun y hy => h y (by simp [hy]))
    obtain ⟨request, reply⟩ := x
    cases request with
    | resolveStall => rfl
    | bulk stage dirIn data =>
      cases stage with
      | command => exact absurd rfl hx
      | data => rfl
      | status => rfl

theorem lastTag_command (log : List (UsbRequest × UsbReply)) (cbw : List UInt8) (ack : UsbReply) :
    lastTag (log ++ [(.bulk .command false cbw, ack)]) = le32At cbw 4 := by
  rw [lastTag, List.foldl_append, List.foldl_cons, List.foldl_nil]

theorem Moved.stage {len : Nat} {moved : List (UsbRequest × UsbReply)} (h : Moved len dirIn moved) :
    ∀ x ∈ moved, x.1.stage ≠ some .command := by
  unfold Moved at h
  split at h
  · simp [h]
  · obtain ⟨buffer, reply, rfl, -⟩ := h
    simp [UsbRequest.stage]

theorem commands_append (log log' : List (UsbRequest × UsbReply)) :
    commands (log ++ log') = commands log + commands log' := List.countP_append

namespace UsbDisk

theorem le32At_cbwOf (tag : UInt32) (n : Nat) (dirIn : Bool) (cdb : List UInt8) :
    le32At (cbwOf tag n dirIn cdb) 4 = tag.toNat := by
  have h := tag.toNat_lt
  have hbytes : le32At (cbwOf tag n dirIn cdb) 4 = tag.toNat % 2 ^ 32 :=
    Lib.Memory.le32_of_bytes fun i hi => by
      simp only [cbwOf, List.append_assoc]
      rw [List.getD_append_right _ _ _ _ (by simp), List.getD_append _ _ _ _ (by simpa using hi)]
      simp
  rw [hbytes, Nat.mod_eq_of_lt h]

theorem after_dataStage : After (fun r log' => r.2.length = data.length ∧
      ∃ moved, log' = log ++ moved ∧ (r.1 = .ok () → Moved data.length dirIn moved))
    (dataStage data dirIn) log := by
  unfold dataStage
  split
  next hnil => exact ⟨rfl, [], by simp, fun _ => by rw [Moved, if_pos (by rw [hnil]; rfl)]⟩
  next hne =>
    intro reply
    refine ⟨?_, [(.bulk .data dirIn data, reply)], rfl, fun h => ?_⟩
    · cases dirIn with
      | true => exact List.takeD_length _ _ _
      | false => rfl
    · rw [Moved, if_neg (mt List.length_eq_zero_iff.mp hne)]
      refine ⟨data, reply, rfl, rfl, ?_⟩
      by_contra hdone
      rw [if_neg hdone] at h
      cases h

theorem after_statusStage : After (fun r log' => ∃ csw,
      log' = log ++ [(.bulk .status true (List.replicate 13 0), csw)] ∧
      (r = .ok () → csw.done = some 13 ∧ Passes tag.toNat csw.data))
    (statusStage tag) log := by
  intro reply
  refine ⟨reply, rfl, fun h => ?_⟩
  by_contra hpass
  rw [if_neg hpass] at h
  cases h

theorem after_bot : After (fun out log' => out.data.length = data.length ∧
      (out.result = .ok () → ∃ csw, EndsWith data.length dirIn csw log'))
    (bot tag cdb data dirIn) log := by
  unfold bot
  dsimp only
  rw [Lib.Dialog.after_bind, Lib.Dialog.after_question]
  intro ack
  split
  · rw [Lib.Dialog.after_bind]
    refine After.mono after_dataStage ?_
    rintro ⟨result, buffer⟩ log' ⟨hlength, moved, rfl, hmoved⟩
    cases result with
    | error e => exact ⟨hlength, fun h => by cases h⟩
    | ok _ =>
      dsimp only
      rw [Lib.Dialog.after_bind]
      refine After.mono after_statusStage ?_
      rintro result log' ⟨csw, rfl, hpass⟩
      refine ⟨hlength, fun h => ⟨csw, log, cbwOf (tag + 1) data.length dirIn cdb, ack, moved, ?_,
        hmoved rfl, ?_⟩⟩
      · simp
      · rw [le32At_cbwOf]
        exact hpass h
  · exact ⟨rfl, fun h => by cases h⟩

theorem after_requestSense {P : Option Nat × UInt32 → List (UsbRequest × UsbReply) → Prop}
    (h : ∀ r log', P r log') : After P (requestSense tag) log := by
  unfold requestSense
  rw [Lib.Dialog.after_bind]
  refine After.mono after_bot ?_
  rintro ⟨result, buffer, tag⟩ log' -
  cases result with
  | ok _ => exact h _ _
  | error e => exact h _ _

theorem after_attempts (attempt : Nat) (resetDone : Bool) :
    After (fun out log' => out.result = .ok () → ∃ csw, EndsWith data.length dirIn csw log')
      (attempts cdb dirIn tag data attempt resetDone) log := by
  induction hn : (maxAttempts - attempt) + (if resetDone then 0 else 1) using Nat.strong_induction_on
    generalizing tag data attempt resetDone log with
  | _ n ih =>
    rw [attempts, Lib.Dialog.after_bind]
    refine After.mono after_bot ?_
    rintro ⟨result, buffer, tag⟩ log' ⟨hlength, hends⟩
    dsimp only at hlength
    cases result with
    | ok _ => exact hends
    | error error =>
      dsimp only
      rw [Lib.Dialog.after_bind]
      refine after_requestSense ?_
      rintro ⟨key, tag⟩ log'
      dsimp only
      split
      next hreset =>
        intro reply
        rw [← hlength]
        refine ih _ ?_ _ _ rfl
        rw [← hn, hreset.2]
        simp only [if_true, Bool.false_eq_true, if_false]
        omega
      · split
        · exact fun h => by cases h
        next hlast =>
          rw [← hlength]
          refine ih _ ?_ _ _ rfl
          simp only [not_or, not_le] at hlast
          omega

def price (weight : Option Stage → Nat) (q : UsbRequest) : Nat := weight q.stage

def cycle (weight : Option Stage → Nat) : Nat :=
  weight (some .command) + (weight (some .data) + weight (some .status))

variable {weight : Option Stage → Nat}

theorem costs_dataStage : Costs (price weight) (dataStage data dirIn) (weight (some .data)) := by
  unfold dataStage
  split
  · trivial
  · exact ⟨le_refl _, fun _ => trivial⟩

theorem costs_bot : Costs (price weight) (bot tag cdb data dirIn) (cycle weight) := by
  refine (Lib.Dialog.costs_question _).bind fun ack => ?_
  split
  · refine Costs.bind costs_dataStage fun moved => ?_
    obtain ⟨result, buffer⟩ := moved
    cases result with
    | ok _ => exact (Lib.Dialog.costs_question _).bind_free fun _ => trivial
    | error e => trivial
  · trivial

theorem costs_requestSense : Costs (price weight) (requestSense tag) (cycle weight) := by
  refine Costs.bind_free costs_bot fun sense => ?_
  obtain ⟨result, buffer, tag⟩ := sense
  cases result <;> trivial

def rounds (attempt : Nat) (resetDone : Bool) : Nat :=
  max 1 (maxAttempts - attempt) + if resetDone then 0 else 1

theorem costs_attempts (attempt : Nat) (resetDone : Bool) :
    Costs (price weight) (attempts cdb dirIn tag data attempt resetDone)
      (rounds attempt resetDone * (2 * cycle weight) + if resetDone then 0 else weight none) := by
  induction hn : (maxAttempts - attempt) + (if resetDone then 0 else 1) using Nat.strong_induction_on
    generalizing tag data attempt resetDone with
  | _ n ih =>
    rw [attempts]
    have hround : cycle weight + (cycle weight + ((rounds attempt resetDone - 1) *
        (2 * cycle weight) + if resetDone then 0 else weight none)) =
        rounds attempt resetDone * (2 * cycle weight) + if resetDone then 0 else weight none := by
      obtain ⟨m, hm⟩ : ∃ m, rounds attempt resetDone = m + 1 :=
        Nat.exists_eq_add_of_le' (Nat.le_add_right_of_le (le_max_left _ _))
      rw [hm, Nat.add_sub_cancel, Nat.succ_mul m]
      omega
    rw [← hround]
    refine Costs.bind costs_bot fun tried => ?_
    obtain ⟨result, buffer, tag⟩ := tried
    cases result with
    | ok _ => trivial
    | error error =>
      refine Costs.bind costs_requestSense fun sense => ?_
      obtain ⟨key, tag⟩ := sense
      dsimp only
      split
      next hreset =>
        refine ((Lib.Dialog.costs_question _).bind fun _ => ih _ ?_ _ _ rfl).mono ?_
        · rw [← hn, hreset.2]
          simp only [if_true, Bool.false_eq_true, if_false]
          omega
        · have hle : rounds (attempt + 1) true ≤ rounds attempt resetDone - 1 := by
            clear hn
            simp only [rounds, hreset.2, if_true, Bool.false_eq_true, if_false]
            omega
          have := Nat.mul_le_mul_right (2 * cycle weight) hle
          simp only [hreset.2, if_true, Bool.false_eq_true, if_false, price, UsbRequest.stage] at this ⊢
          omega
      · split
        · trivial
        next hlast =>
          simp only [not_or, not_le] at hlast
          refine (ih _ ?_ _ _ rfl).mono ?_
          · omega
          · have hle : rounds (attempt + 1) resetDone ≤ rounds attempt resetDone - 1 := by
              clear hn
              unfold rounds
              omega
            exact Nat.add_le_add_right (Nat.mul_le_mul_right _ hle) _

end UsbDisk

namespace UsbBus

variable {s : UsbBus}

/-- Every status taken under the tag of the CBW before it was produced for a CBW of the
call. -/
def Matched (sent : List Nat) (call : UsbCall) : Prop :=
  ∀ before request reply after, call.log = before ++ (request, reply) :: after →
    request.stage = some .status → reply.done = some 13 →
    Passes (lastTag before) reply.data → sent[reply.serial]? = some call.id

/-- What a call has done and can still do: it ends as it should, within its bounds. -/
structure OnCourse (call : UsbCall) (dialog : UsbDialog UsbDisk.Outcome) : Prop where
  ends : After (fun out log => out.result = .ok () →
    ∃ csw, EndsWith call.data.length call.dirIn csw log) dialog call.log
  commands_le : ∃ n, Costs (UsbDisk.price fun stage => if stage = some .command then 1 else 0)
    dialog n ∧ commands call.log + n ≤ 12
  length_le : ∃ n, Costs (UsbDisk.price fun _ => 1) dialog n ∧ call.log.length + n ≤ 37

theorem onCourse_execute (id : Nat) (tag : UInt32) (cdb data : List UInt8) (dirIn : Bool) :
    OnCourse ⟨id, data, dirIn, []⟩ (UsbDisk.execute tag cdb data dirIn) :=
  ⟨UsbDisk.after_attempts 0 false, ⟨12, UsbDisk.costs_attempts 0 false, le_refl _⟩,
    ⟨37, UsbDisk.costs_attempts 0 false, le_refl _⟩⟩

theorem OnCourse.answer {call : UsbCall} {request : UsbRequest}
    {next : UsbReply → UsbDialog UsbDisk.Outcome} (h : OnCourse call (.ask request next))
    (reply : UsbReply) :
    OnCourse { call with log := call.log ++ [(request, reply)] } (next reply) := by
  obtain ⟨n, ⟨hprice, hnext⟩, hle⟩ := h.commands_le
  obtain ⟨m, ⟨hprice', hnext'⟩, hle'⟩ := h.length_le
  refine ⟨h.ends reply, ⟨_, hnext reply, ?_⟩, ⟨_, hnext' reply, ?_⟩⟩
  · have hone : commands [(request, reply)] =
        UsbDisk.price (fun stage => if stage = some .command then 1 else 0) request := by
      simp only [commands, List.countP_singleton, UsbDisk.price, decide_eq_true_eq]
    rw [commands_append, hone]
    omega
  · rw [List.length_append]
    simp only [UsbDisk.price] at hprice' ⊢
    simp only [List.length_singleton]
    omega

/-! ## The invariant -/

structure Sound (s : UsbBus) : Prop where
  waiting : ∀ handle w, (s.handles handle).waiting = some w →
    OnCourse w.call (.ask w.request w.next) ∧ Matched s.sent w.call
  returned : ∀ r ∈ s.returned, OnCourse r.1 (.done r.2) ∧ Matched s.sent r.1

theorem sound_boot : Sound boot :=
  ⟨fun _ _ h => (Option.some_ne_none _ h.symm).elim, fun _ h => (List.not_mem_nil h).elim⟩

theorem Sound.resume (h : Sound s) (handle : Nat) {call : UsbCall}
    {dialog : UsbDialog UsbDisk.Outcome} (hcourse : OnCourse call dialog)
    (hmatched : Matched s.sent call) : Sound (s.resume handle call dialog) := by
  cases dialog with
  | done outcome =>
    refine ⟨fun other w hw => ?_, fun r hr => ?_⟩
    · by_cases hne : other = handle
      · subst hne
        simp [UsbBus.resume, setHandle] at hw
      · simp only [UsbBus.resume, setHandle, Function.update_of_ne hne] at hw
        exact h.waiting other w hw
    · rcases List.mem_append.mp hr with hr | hr
      · exact h.returned r hr
      · obtain rfl := List.mem_singleton.mp hr
        exact ⟨hcourse, hmatched⟩
  | ask request next =>
    refine ⟨fun other w hw => ?_, h.returned⟩
    by_cases hne : other = handle
    · subst hne
      simp only [UsbBus.resume, setHandle, Function.update_self, Option.some.injEq] at hw
      subst hw
      exact ⟨hcourse, hmatched⟩
    · simp only [UsbBus.resume, setHandle, Function.update_of_ne hne] at hw
      exact h.waiting other w hw

theorem Matched.append {sent more : List Nat} {call : UsbCall} (h : Matched sent call) :
    Matched (sent ++ more) call := by
  intro before request reply after hlog hstage hdone hpass
  have hsome := h before request reply after hlog hstage hdone hpass
  obtain ⟨hlt, -⟩ := List.getElem?_eq_some_iff.mp hsome
  rw [List.getElem?_append_left hlt, hsome]

theorem Matched.snoc {sent : List Nat} {call : UsbCall} (h : Matched sent call)
    {request : UsbRequest} {reply : UsbReply}
    (hnew : request.stage = some .status → reply.done = some 13 →
      Passes (lastTag call.log) reply.data → sent[reply.serial]? = some call.id) :
    Matched sent { call with log := call.log ++ [(request, reply)] } := by
  intro before request' reply' after hlog
  rcases List.eq_nil_or_concat' after with rfl | ⟨after, last, rfl⟩
  · obtain ⟨rfl, hlast⟩ := List.append_inj' hlog rfl
    obtain ⟨rfl, rfl⟩ : request = request' ∧ reply = reply' := by simpa using hlast
    exact hnew
  · rw [← List.cons_append, ← List.append_assoc] at hlog
    obtain ⟨hbefore, -⟩ := List.append_inj' hlog rfl
    exact h before request' reply' after hbefore

theorem Sound.append (h : Sound s) (more : List Nat) {inFlight : List Csw} {calls : Nat} :
    Sound { s with calls, sent := s.sent ++ more, inFlight } :=
  ⟨fun handle w hw => ⟨(h.waiting handle w hw).1, (h.waiting handle w hw).2.append⟩,
    fun r hr => ⟨(h.returned r hr).1, (h.returned r hr).2.append⟩⟩

/-- Where a handle waits for a status, the pipe holds none of another call that would pass
for it. -/
def Unmixed (s : UsbBus) : UsbEvent → Prop
  | .answer handle _ => ∀ w, (s.handles handle).waiting = some w →
      w.request.stage = some .status → ∀ csw ∈ s.inFlight,
        Passes (lastTag w.call.log) csw.bytes → s.sent[csw.serial]? = some w.call.id
  | _ => True

def AllUnmixed (s : UsbBus) : List UsbEvent → Prop
  | [] => True
  | e :: events => Unmixed s e ∧ AllUnmixed (s.step e) events

instance (s : UsbBus) (e : UsbEvent) : Decidable (Unmixed s e) :=
  match e with
  | .answer handle _ =>
    inferInstanceAs (Decidable (∀ w ∈ (s.handles handle).waiting, w.request.stage = some .status →
      ∀ csw ∈ s.inFlight, Passes (lastTag w.call.log) csw.bytes →
        s.sent[csw.serial]? = some w.call.id))
  | .opened _ | .execute _ _ _ _ | .produce _ | .lose _ => isTrue trivial

instance decidableAllUnmixed : (s : UsbBus) → (events : List UsbEvent) →
    Decidable (AllUnmixed s events)
  | _, [] => isTrue trivial
  | s, e :: events =>
    have := decidableAllUnmixed (s.step e) events
    inferInstanceAs (Decidable (Unmixed s e ∧ AllUnmixed (s.step e) events))

theorem Sound.answer (h : Sound s) {handle : Nat} {reply : UsbReply}
    (hunmixed : Unmixed s (.answer handle reply)) : Sound (s.answer handle reply) := by
  unfold UsbBus.answer
  split
  · exact h
  next call request next hwaiting =>
    obtain ⟨hcourse, hmatched⟩ := h.waiting handle _ hwaiting
    dsimp only
    split
    · exact h
    next hpipe =>
      have hstatus : request.stage = some .status → reply.done = some 13 →
          Passes (lastTag call.log) reply.data → s.sent[reply.serial]? = some call.id := by
        intro hstage hdone hpass
        have hin : (⟨reply.data, reply.serial⟩ : Csw) ∈ s.inFlight := by
          by_contra hout
          exact hpipe ⟨⟨hstage, hdone, hpass.1⟩, hout⟩
        exact hunmixed _ hwaiting hstage _ hin hpass
      by_cases hcommand : request.stage = some .command
      · rw [if_pos hcommand]
        refine (h.append [call.id]).resume handle (hcourse.answer reply)
          (hmatched.append.snoc fun hstage => ?_)
        rw [hcommand] at hstage
        cases hstage
      · rw [if_neg hcommand, ← List.append_nil s.sent]
        refine (h.append []).resume handle (hcourse.answer reply) ?_
        rw [List.append_nil]
        exact hmatched.snoc hstatus

theorem Sound.step (h : Sound s) {e : UsbEvent} (hunmixed : Unmixed s e) : Sound (s.step e) := by
  cases e with
  | opened handle =>
    rw [UsbBus.step]
    split
    · refine ⟨fun other w hw => ?_, h.returned⟩
      by_cases hne : other = handle
      · subst hne
        simp [setHandle] at hw
      · simp only [setHandle, Function.update_of_ne hne] at hw
        exact h.waiting other w hw
    · exact h
  | execute handle cdb data dirIn =>
    rw [UsbBus.step]
    split
    · exact h
    · have hcounted : Sound { s with calls := s.calls + 1 } := ⟨h.waiting, h.returned⟩
      refine hcounted.resume handle (onCourse_execute _ _ cdb data dirIn) ?_
      intro before request reply after hlog
      simp at hlog
  | answer handle reply => exact h.answer hunmixed
  | produce csw =>
    rw [UsbBus.step]
    split
    · exact ⟨h.waiting, h.returned⟩
    · exact h
  | lose csw => exact ⟨h.waiting, h.returned⟩

theorem Sound.run {events : List UsbEvent} (h : Sound s) (hall : AllUnmixed s events) :
    Sound (s.run events) := by
  induction events generalizing s with
  | nil => exact h
  | cons e events ih => exact ih (h.step hall.1) hall.2

/-- The call ends with the whole data stage and a status that passes, produced for a CBW
of its own. -/
def Paired (sent : List Nat) (call : UsbCall) : Prop :=
  ∃ csw, EndsWith call.data.length call.dirIn csw call.log ∧
    sent[csw.serial]? = some call.id

theorem paired_of_endsWith {sent : List Nat} {call : UsbCall} {csw : UsbReply}
    (h : EndsWith call.data.length call.dirIn csw call.log) (hmatched : Matched sent call) :
    Paired sent call := by
  obtain ⟨before, cbw, ack, moved, hlog, hmoved, hdone, hpass⟩ := h
  refine ⟨csw, ⟨before, cbw, ack, moved, hlog, hmoved, hdone, hpass⟩, ?_⟩
  refine hmatched _ _ csw [] hlog rfl hdone ?_
  rw [List.append_cons, lastTag_append _ _ hmoved.stage, lastTag_command]
  exact hpass

/-- However the calls interleave and whatever the device does, a call sends at most twelve
CBWs and returns, and one that passes has a status of its own. -/
theorem statuses_paired (events : List UsbEvent) (h : AllUnmixed boot events) :
    (∀ handle w, ((boot.run events).handles handle).waiting = some w →
      commands w.call.log ≤ 12 ∧ w.call.log.length < 37) ∧
    ∀ r ∈ (boot.run events).returned, commands r.1.log ≤ 12 ∧ r.1.log.length ≤ 37 ∧
      (r.2.result = .ok () → Paired (boot.run events).sent r.1) := by
  have hsound := sound_boot.run h
  constructor
  · intro handle w hw
    obtain ⟨hcourse, -⟩ := hsound.waiting handle w hw
    obtain ⟨n, -, hcommands⟩ := hcourse.commands_le
    obtain ⟨m, ⟨hprice, -⟩, hlength⟩ := hcourse.length_le
    simp only [UsbDisk.price] at hprice
    omega
  · intro r hr
    obtain ⟨hcourse, hmatched⟩ := hsound.returned r hr
    obtain ⟨n, -, hcommands⟩ := hcourse.commands_le
    obtain ⟨m, -, hlength⟩ := hcourse.length_le
    refine ⟨by omega, by omega, fun hok => ?_⟩
    obtain ⟨csw, hends⟩ := hcourse.ends hok
    exact paired_of_endsWith hends hmatched

/-- The transfers of a whole CBW and of one that breaks down, and the status of the first
CBW of a handle. -/
def acknowledged : UsbReply := ⟨some 31, [], 0⟩

def broken : UsbReply := ⟨none, [], 0⟩

def firstCsw : List UInt8 :=
  Lib.Memory.toLe32 cswSignature ++ Lib.Memory.toLe32 1 ++ [0, 0, 0, 0, 0]

def testUnitReady (handle : Nat) : List UsbEvent :=
  [.execute handle [0, 0, 0, 0, 0, 0] [] true, .answer handle acknowledged]

theorem paired_testUnitReady :
    let s := boot.run (testUnitReady 0 ++ [.produce ⟨firstCsw, 0⟩, .answer 0 ⟨some 13, firstCsw, 0⟩])
    ∃ r ∈ s.returned, r.2.result = .ok () ∧ Paired s.sent r.1 := by
  intro s
  obtain ⟨⟨r, hr, hok⟩, hunmixed⟩ : (∃ r ∈ s.returned, r.2.result.toBool = true) ∧
      boot.AllUnmixed (testUnitReady 0 ++
        [.produce ⟨firstCsw, 0⟩, .answer 0 ⟨some 13, firstCsw, 0⟩]) := by
    decide +kernel
  have hresult : r.2.result = .ok () := by
    cases h : r.2.result with
    | ok _ => rfl
    | error e => rw [h] at hok; cases hok
  exact ⟨r, hr, hresult, ((statuses_paired _ hunmixed).2 r hr).2.2 hresult⟩

/-- The data stage of a command breaks down, and so does all that follows. Its status
waits in the pipe when another handle is opened, and has the tag of the first CBW there. -/
def abortedRun : List UsbEvent :=
  [.execute 0 [0x12, 0, 0, 0, 36, 0] (List.replicate 36 0) true, .answer 0 acknowledged,
    .answer 0 broken, .produce ⟨firstCsw, 0⟩, .answer 0 broken, .answer 0 broken,
    .answer 0 broken, .answer 0 broken, .opened 1] ++
  testUnitReady 1 ++ [.answer 1 ⟨some 13, firstCsw, 0⟩]

theorem statuses_paired_fails :
    ∃ r ∈ (boot.run abortedRun).returned, r.2.result = .ok () ∧
      ¬ Paired (boot.run abortedRun).sent r.1 := by
  obtain ⟨hsent, r, hr, hok, hid, hserials⟩ : (boot.run abortedRun).sent = [0, 0, 0, 0, 1] ∧
      ∃ r ∈ (boot.run abortedRun).returned,
        r.2.result.toBool = true ∧ r.1.id = 1 ∧ r.1.log.map (·.2.serial) = [0, 0] := by
    decide +kernel
  refine ⟨r, hr, ?_, ?_⟩
  · cases h : r.2.result with
    | ok _ => rfl
    | error e => rw [h] at hok; cases hok
  · rintro ⟨csw, ⟨before, cbw, ack, moved, hlog, -⟩, hown⟩
    have hserial : csw.serial ∈ r.1.log.map (·.2.serial) := by
      rw [hlog]
      simp
    rw [hserials] at hserial
    have hzero : csw.serial = 0 := by simpa using hserial
    rw [hsent, hzero, hid] at hown
    cases hown

end UsbBus

end Vibra.Disk
