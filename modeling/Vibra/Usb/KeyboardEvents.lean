import Vibra.Lib.Runs
import Vibra.Usb.EventRing

/-! # Events of keyboards

A keyboard is heard as long as its TRB is with the controller or the event of that is in the event
ring.
-/

namespace Vibra.Usb

open Lib (Along Bytes)
open Lib.Dialog

def Event.Of (event : Event) (place : Nat × Nat) : Prop :=
  event.trbType = .transferEvent ∧ event.slot = place.1 ∧ event.endpoint = place.2

instance (event : Event) (place : Nat × Nat) : Decidable (event.Of place) :=
  inferInstanceAs (Decidable (_ ∧ _))

def HidKeyboard.place (keyboard : HidKeyboard) : Nat × Nat := (keyboard.slot, keyboard.dci)

def Controller.places (ctrl : Controller) : List (Nat × Nat) := ctrl.keys.map HidKeyboard.place

def Posted.OfKeyboard (places : List (Nat × Nat)) (post : Posted) : Prop :=
  ∃ place ∈ places, post.event.Of place

instance (places : List (Nat × Nat)) (post : Posted) : Decidable (post.OfKeyboard places) :=
  inferInstanceAs (Decidable (∃ _ ∈ places, _))

def Channel.ofPlace (place : Nat × Nat) : Channel := .endpoint place.1 place.2

namespace Machine

/-- How many TRBs of the endpoint the controller has, and of how many the events are in the event
ring. -/
def outstanding (s : Machine) (place : Nat × Nat) : Nat :=
  s.pending.countP (·.job.channel = .ofPlace place) + s.events.countP (·.event.Of place)

/-- The loop over the event ring passes on what it does not return: it is not that of
`command_full`, and `poll_events` has not come to its limit. -/
def PassesOn (s : Machine) : Prop :=
  match s.mode with
  | .waiting _ _ own _ => own.job.channel ≠ .command
  | .polling budget => budget < 64
  | _ => True

instance (s : Machine) : Decidable s.PassesOn := by
  unfold PassesOn
  split <;> infer_instance

def Heard (s : Machine) : Action → Prop
  | .turn => ∀ post ∈ s.events.head?, post.OfKeyboard s.ctrl.places → s.PassesOn
  | _ => True

instance (s : Machine) : (action : Action) → Decidable (s.Heard action)
  | .turn => inferInstanceAs (Decidable (∀ _ ∈ _, _))
  | .advance _ | .complete .. | .notify _ | .call _ | .pollEvents | .expire => instDecidableTrue

end Machine

/-! ## Calls -/

def Foreign (places : List (Nat × Nat)) (job : Job) : Prop :=
  ∀ place ∈ places, job.channel ≠ .ofPlace place ∧ job.recalled ≠ some (.ofPlace place)

def Spares (places : List (Nat × Nat)) : Request → Prop
  | .submit job => Foreign places job
  | _ => True

/-- The keyboards have endpoints of their own. -/
structure Controller.Apart (ctrl : Controller) : Prop where
  nodup : ctrl.places.Nodup
  control : ∀ place ∈ ctrl.places, 1 < place.2
  bulk : ∀ device ∈ ctrl.storage, ∀ dirIn, (device.slot, (device.dci dirIn).val) ∉ ctrl.places

variable {places : List (Nat × Nat)} {slot dci : Nat}

theorem foreign_transfer {trbs : List Trb} (h : (slot, dci) ∉ places) :
    Foreign places (.transfer slot dci trbs) := by
  refine fun place hplace => ⟨fun hchannel => h ?_, nofun⟩
  cases hchannel
  exact hplace

theorem foreign_command {type : CommandType} {param status : Nat}
    (h : (slot, status / 2 ^ 16 % 2 ^ 5) ∉ places) :
    Foreign places (.command type param status slot) := by
  refine fun place hplace => ⟨nofun, fun hrecalled => h ?_⟩
  cases type with
  | setTrDequeue =>
    obtain ⟨hslot, hdci⟩ := Channel.endpoint.inj (Option.some.inj hrecalled)
    rwa [hslot, hdci]
  | enableSlot | addressDevice | configureEndpoint | evaluateContext | resetEndpoint =>
    cases hrecalled

theorem asks_commandFull {param status : Nat} {type : CommandType}
    (h : (slot, status / 2 ^ 16 % 2 ^ 5) ∉ places) :
    Asks (Spares places) (commandFull param status type slot) := by
  have hjob : Spares places (.submit (.command type param status slot)) := foreign_command h
  exact (asks_question hjob).bind fun _ => asks_pure _

theorem asks_controlTransferRaw {bm request value index : Nat} {data : Option (Nat × Nat)}
    (h : (slot, 1) ∉ places) :
    Asks (Spares places) (controlTransferRaw slot bm request value index data) := by
  have hjob : Spares places
      (.submit (.transfer slot 1 (controlTrbs bm request value index data))) := foreign_transfer h
  exact (asks_question hjob).bind fun _ => asks_pure _

theorem asks_recoverEndpoint (h : (slot, dci) ∉ places) (hdci : dci < 2 ^ 5) :
    Asks (Spares places) (recoverEndpoint slot dci) := by
  have hstatus : endpointId dci / 2 ^ 16 % 2 ^ 5 = dci := by
    rw [endpointId]
    omega
  have hcommand : ∀ param type,
      Asks (Spares places) (commandFull param (endpointId dci) type slot) := fun _ _ =>
    asks_commandFull (by rwa [hstatus])
  have hdequeue : Spares places (.dequeue slot dci) := trivial
  exact (asks_question hdequeue).bind fun _ => (hcommand _ _).bind fun _ =>
    (hcommand _ _).bind fun _ => asks_pure _

theorem asks_bulkChunk {dirIn : Bool} {data : Bytes} (h : (slot, dci) ∉ places)
    (hdci : dci < 2 ^ 5) : Asks (Spares places) (bulkChunk slot dci dirIn data) := by
  have hfree : ∀ phys, Spares places (.free phys) := fun _ => trivial
  have hjob : ∀ phys, Spares places (.submit (chunkJob slot dci phys dirIn data)) := fun _ =>
    foreign_transfer h
  have hallocate : ∀ contents, Spares places (.allocate contents) := fun _ => trivial
  refine (asks_question (hallocate _)).bind fun memory => ?_
  cases memory.phys with
  | none => exact asks_pure _
  | some phys =>
    refine (asks_question (hjob phys)).bind fun first => ?_
    split
    · refine (asks_recoverEndpoint h hdci).bind fun recovered => ?_
      cases recovered with
      | true => exact (asks_question (hjob phys)).bind fun _ =>
        (asks_question (hfree phys)).bind fun _ => asks_pure _
      | false => exact (asks_question (hfree phys)).bind fun _ => asks_pure _
    · exact (asks_question (hfree phys)).bind fun _ => asks_pure _

theorem asks_bulkLoop {maxTransfer : Nat} {dirIn : Bool} (h : (slot, dci) ∉ places)
    (hdci : dci < 2 ^ 5) (before rest : Bytes) :
    Asks (Spares places) (bulkLoop slot dci maxTransfer dirIn before rest) := by
  induction hlength : rest.length using Nat.strong_induction_on generalizing before rest with
  | h length ih =>
    rw [bulkLoop]
    split
    · exact asks_pure _
    · rename_i hne
      have hpos : 0 < rest.length := List.length_pos_iff.mpr hne
      have hdrop : (rest.drop (min rest.length (max maxTransfer 512))).length < length := by
        rw [List.length_drop]
        omega
      refine (asks_bulkChunk h hdci).bind fun r => ?_
      obtain ⟨result, bytes⟩ := r
      cases result with
      | error e => exact asks_pure _
      | ok got =>
        dsimp only
        split
        · exact asks_pure _
        · exact ih _ hdrop (before ++ bytes) _ rfl

theorem asks_slotControl (ctrl : Controller) {bm request value index : Nat} {data : Bytes}
    (h : (slot, 1) ∉ places) :
    Asks (Spares places) (slotControl ctrl slot bm request value index data) := by
  have hfree : ∀ phys, Spares places (.free phys) := fun _ => trivial
  have hallocate : ∀ contents, Spares places (.allocate contents) := fun _ => trivial
  rw [slotControl]
  split
  · exact asks_pure _
  · split
    · exact (asks_controlTransferRaw h).bind fun _ => asks_pure _
    · refine (asks_question (hallocate _)).bind fun memory => ?_
      cases memory.phys with
      | none => exact asks_pure _
      | some phys =>
        exact (asks_controlTransferRaw h).bind fun _ =>
          (asks_question (hfree phys)).bind fun _ => asks_pure _

theorem Controller.Apart.perform {ctrl : Controller} (h : ctrl.Apart) (call : Call) :
    Asks (Spares ctrl.places) (ctrl.perform call) := by
  have hcontrol : ∀ slot dci, dci ≤ 1 → (slot, dci) ∉ ctrl.places := fun slot dci hdci hmem =>
    absurd (h.control _ hmem) (Nat.not_lt.mpr hdci)
  cases call with
  | command param type slot =>
    exact (asks_commandFull (hcontrol slot 0 (Nat.zero_le 1))).bind fun _ => asks_pure _
  | enableSlot =>
    exact ((asks_commandFull (hcontrol 0 0 (Nat.zero_le 1))).bind fun _ => asks_pure _).bind
      fun _ => asks_pure _
  | control slot bm request value index data =>
    exact (asks_slotControl ctrl (hcontrol slot 1 (Nat.le_refl 1))).bind fun _ => asks_pure _
  | bulk slot dirIn data =>
    refine Asks.bind ?_ fun _ => asks_pure _
    rw [Usb.bulk]
    split
    · exact asks_pure _
    · split
      · exact asks_pure _
      · rename_i device hfind
        have hplace := h.bulk device (List.mem_of_find?_eq_some hfind) dirIn
        have hslot : device.slot = slot := by simpa using List.find?_some hfind
        exact asks_bulkLoop (hslot ▸ hplace) (device.dci dirIn).isLt [] data

/-- What a call under way is going to ask for leaves the keyboards alone. -/
def Sparing (places : List (Nat × Nat)) : Mode → Prop
  | .running _ _ program => Asks (Spares places) program
  | .waiting _ _ own next => Foreign places own.job ∧ ∀ answer, Asks (Spares places) (next answer)
  | _ => True

/-- Every event of a keyboard that has been taken has been passed on, and every keyboard is
waiting for its TRB unless it has reported a STALL. -/
structure Attended (s : Machine) : Prop where
  apart : s.ctrl.Apart
  sparing : Sparing s.ctrl.places s.mode
  recalled : ∀ h ∈ s.pending, ∀ place ∈ s.ctrl.places, h.job.recalled ≠ some (.ofPlace place)
  passed : s.taken.filter (·.OfKeyboard s.ctrl.places) =
    s.handled.filter (·.OfKeyboard s.ctrl.places)
  listening : ∀ k ∈ s.ctrl.keys, k.pending = true → s.outstanding k.place = 1
  stalled : ∀ k ∈ s.ctrl.keys, k.pending = false →
    ∃ p ∈ s.taken, p.event.Of k.place ∧ p.event.completionCode = ccStall

variable {s : Machine}

/-! ### Steps of the controller -/

theorem report_of_iff (job : Job) (address code moved enabled : Nat) (place : Nat × Nat) :
    (job.report address code moved enabled).Of place ↔ job.channel = .ofPlace place := by
  cases job with
  | command =>
    constructor
    · rintro ⟨htype, -⟩
      cases htype
    · exact nofun
  | transfer slot dci trbs =>
    constructor
    · rintro ⟨-, hslot, hdci⟩
      exact congrArg₂ Channel.endpoint hslot hdci
    · intro h
      exact ⟨rfl, (Channel.endpoint.inj h).1, (Channel.endpoint.inj h).2⟩

theorem countP_withdraw {handed : Handed} {code : Nat} {pending : List Handed} {place : Nat × Nat}
    (h : handed.job.recalled ≠ some (.ofPlace place)) :
    (Machine.withdraw handed code pending).countP (·.job.channel = .ofPlace place) =
      pending.countP (·.job.channel = .ofPlace place) := by
  rw [Machine.withdraw]
  split
  · rename_i channel hrecalled
    split
    · rw [List.countP_filter]
      refine List.countP_congr fun h' _ => ?_
      simp only [Bool.and_eq_true, decide_eq_true_eq, and_iff_left_iff_imp]
      rintro hchannel ⟨hsame, -⟩
      exact h (by rw [hrecalled, ← hsame, hchannel])
    · rfl
  · rfl

theorem outstanding_complete {channel : Channel} {code : Nat} {bytes : Bytes} {enabled : Nat}
    {place : Nat × Nat} (h : ∀ h ∈ s.pending, h.job.recalled ≠ some (.ofPlace place)) :
    (s.complete channel code bytes enabled).outstanding place = s.outstanding place := by
  rw [Machine.complete]
  split
  · rfl
  · rename_i handed hfind
    have hmem : handed ∈ s.pending := List.mem_of_find?_eq_some hfind
    have herase := (List.perm_cons_erase hmem).countP_eq (·.job.channel = .ofPlace place)
    rw [List.countP_cons] at herase
    simp only [Machine.outstanding, countP_withdraw (h handed hmem), List.countP_append,
      List.countP_singleton, report_of_iff, herase]
    omega

theorem Attended.complete (h : Attended s) (channel : Channel) (code : Nat) (bytes : Bytes)
    (enabled : Nat) : Attended (s.complete channel code bytes enabled) := by
  have hsame (place : Nat × Nat) (hplace : place ∈ s.ctrl.places) :
      (s.complete channel code bytes enabled).outstanding place = s.outstanding place :=
    outstanding_complete fun h' hh => h.recalled h' hh place hplace
  have hkeep : (s.complete channel code bytes enabled).ctrl = s.ctrl ∧
      (s.complete channel code bytes enabled).mode = s.mode ∧
      (s.complete channel code bytes enabled).taken = s.taken ∧
      (s.complete channel code bytes enabled).handled = s.handled ∧
      (s.complete channel code bytes enabled).pending ⊆ s.pending := by
    rw [Machine.complete]
    split
    · exact ⟨rfl, rfl, rfl, rfl, List.Subset.refl _⟩
    · exact ⟨rfl, rfl, rfl, rfl, fun _ hh => List.mem_of_mem_erase
        ((Machine.withdraw_sublist _ _ _).subset hh)⟩
  obtain ⟨hctrl, hmode, htaken, hhandled, hpending⟩ := hkeep
  refine ⟨hctrl ▸ h.apart, by rw [hctrl, hmode]; exact h.sparing, fun h' hh => ?_, ?_,
    fun k hk => ?_, fun k hk => ?_⟩
  · rw [hctrl]
    exact h.recalled h' (hpending hh)
  · rw [hctrl, htaken, hhandled]
    exact h.passed
  · rw [hctrl] at hk
    rw [hsame _ (List.mem_map_of_mem hk)]
    exact h.listening k hk
  · rw [hctrl] at hk
    rw [htaken]
    exact h.stalled k hk

theorem Attended.notify (h : Attended s) (event : Event) : Attended (s.notify event) := by
  rw [Machine.notify]
  split
  · rename_i htype
    have hnot (place : Nat × Nat) : ¬event.Of place := by
      rintro ⟨htransfer, -⟩
      rw [htransfer] at htype
      rcases htype with htype | htype <;> cases htype
    refine ⟨h.apart, h.sparing, h.recalled, h.passed, fun k hk hpending => ?_, h.stalled⟩
    rw [← h.listening k hk hpending]
    simp only [Machine.outstanding, List.countP_append, List.countP_singleton, hnot]
    rfl
  · exact h

/-! ### Steps of the driver -/

theorem outstanding_take {post : Posted} {rest : List Posted} (hevents : s.events = post :: rest)
    (place : Nat × Nat) :
    (s.take post rest).outstanding place + (if post.event.Of place then 1 else 0) =
      s.outstanding place := by
  simp only [Machine.outstanding, Machine.take, hevents, List.countP_cons, decide_eq_true_eq]
  omega

theorem outstanding_hand (own : Handed) (place : Nat × Nat) :
    (s.hand own).outstanding place =
      s.outstanding place + if own.job.channel = .ofPlace place then 1 else 0 := by
  simp only [Machine.outstanding, Machine.hand, List.countP_append, List.countP_singleton,
    decide_eq_true_eq]
  omega

theorem Event.Of.unique {event : Event} {place place' : Nat × Nat} (h : event.Of place)
    (h' : event.Of place') : place = place' :=
  Prod.ext (h.2.1.symm.trans h'.2.1) (h.2.2.symm.trans h'.2.2)

theorem Controller.Apart.unique {ctrl : Controller} (h : ctrl.Apart) {k k' : HidKeyboard}
    (hk : k ∈ ctrl.keys) (hk' : k' ∈ ctrl.keys) (hplace : k.place = k'.place) : k = k' :=
  List.inj_on_of_nodup_map h.nodup hk hk' hplace

theorem Attended.take (h : Attended s) {post : Posted} {rest : List Posted}
    (hevents : s.events = post :: rest) (hother : ¬post.OfKeyboard s.ctrl.places) :
    Attended (s.take post rest) := by
  refine ⟨h.apart, h.sparing, h.recalled, ?_, fun k hk hpending => ?_, fun k hk hpending => ?_⟩
  · simp only [Machine.take, List.filter_append, List.filter_cons, List.filter_nil, hother,
      decide_false, Bool.false_eq_true, if_false, List.append_nil]
    exact h.passed
  · have hnot : ¬post.event.Of k.place := fun hof => hother ⟨_, List.mem_map_of_mem hk, hof⟩
    have htake := outstanding_take hevents k.place
    rw [if_neg hnot, Nat.add_zero] at htake
    rw [htake]
    exact h.listening k hk hpending
  · obtain ⟨p, hp, hstall⟩ := h.stalled k hk hpending
    exact ⟨p, List.mem_append_left _ hp, hstall⟩

theorem Attended.portChange (h : Attended s) (event : Event) : Attended (s.portChange event) := by
  rw [Machine.portChange]
  dsimp only
  split
  · exact ⟨⟨h.apart.nodup, h.apart.control, h.apart.bulk⟩, h.sparing, h.recalled, h.passed,
      h.listening, h.stalled⟩
  · exact h

theorem find?_keyboard (h : Attended s) {k : HidKeyboard} (hk : k ∈ s.ctrl.keys)
    {event : Event} (hof : event.Of k.place) :
    s.ctrl.keys.find? (·.Is event.slot event.endpoint) = some k := by
  obtain ⟨-, hslot, hdci⟩ := hof
  cases hfind : s.ctrl.keys.find? (·.Is event.slot event.endpoint) with
  | none =>
    have his : k.Is event.slot event.endpoint := ⟨hslot.symm, hdci.symm⟩
    exact absurd (decide_eq_true his) (List.find?_eq_none.mp hfind k hk)
  | some k' =>
    have his : k'.Is event.slot event.endpoint := by simpa using List.find?_some hfind
    have hplace : k'.place = k.place := Prod.ext (his.1.trans hslot) (his.2.trans hdci)
    rw [h.apart.unique (List.mem_of_find?_eq_some hfind) hk hplace]

theorem Attended.rekey (h : Attended s) {post : Posted} {rest : List Posted}
    (hevents : s.events = post :: rest) {k k' : HidKeyboard} (hk : k ∈ s.ctrl.keys)
    (hof : post.event.Of k.place) (hplace : k'.place = k.place) {t : Machine}
    (hctrl : t.ctrl = { s.ctrl with
      keys := updateFirst (·.Is post.event.slot post.event.endpoint) (fun _ => k') s.ctrl.keys })
    (hmode : t.mode = s.mode) (htaken : t.taken = s.taken ++ [post])
    (hhandled : t.handled = s.handled ++ [post])
    (hrecalled : ∀ h ∈ t.pending, h ∈ s.pending ∨ h.job.recalled = none)
    (hothers : ∀ place ≠ k.place, t.outstanding place = (s.take post rest).outstanding place)
    (hlistening : k'.pending = true → t.outstanding k.place = 1)
    (hstalled : k'.pending = false → ∃ p ∈ t.taken, p.event.Of k.place ∧
      p.event.completionCode = ccStall) : Attended t := by
  have ⟨_, hslot, hdci⟩ := hof
  have his : ∀ a : HidKeyboard, a.Is post.event.slot post.event.endpoint ↔ a.place = k.place :=
    fun a => by
      rw [hslot, hdci]
      exact ⟨fun h => Prod.ext h.1 h.2, fun h => ⟨congrArg Prod.fst h, congrArg Prod.snd h⟩⟩
  have hplaces : t.ctrl.places = s.ctrl.places := by
    rw [hctrl]
    refine map_updateFirst fun a _ ha => ?_
    rw [decide_eq_true_eq, his] at ha
    rw [hplace, ha]
  have hpair : s.ctrl.keys.Pairwise fun a a' =>
      ¬(decide (a.Is post.event.slot post.event.endpoint) ∧
        decide (a'.Is post.event.slot post.event.endpoint)) := by
    refine (List.pairwise_map.mp h.apart.nodup).imp fun hne ⟨ha, ha'⟩ => ?_
    rw [decide_eq_true_eq, his] at ha ha'
    exact hne (ha.trans ha'.symm)
  -- a keyboard is one that was there before and is not of this endpoint, or the new one
  have hkeys : ∀ a ∈ t.ctrl.keys, (a ∈ s.ctrl.keys ∧ a.place ≠ k.place) ∨ a = k' := by
    intro a ha
    rw [hctrl] at ha
    rcases mem_updateFirst hpair ha with ⟨hmem, hnot⟩ | ⟨_, _, _, rfl⟩
    · rw [decide_eq_true_eq, his] at hnot
      exact .inl ⟨hmem, hnot⟩
    · exact .inr rfl
  refine ⟨⟨hplaces ▸ h.apart.nodup, hplaces ▸ h.apart.control, ?_⟩, ?_, fun h' hh place hmem => ?_,
    ?_, fun a ha hpending => ?_, fun a ha hpending => ?_⟩
  · rw [hplaces, hctrl]
    exact h.apart.bulk
  · rw [hplaces, hmode]
    exact h.sparing
  · rw [hplaces] at hmem
    rcases hrecalled h' hh with hh | hnone
    · exact h.recalled h' hh place hmem
    · rw [hnone]
      exact nofun
  · rw [hplaces, htaken, hhandled, List.filter_append, List.filter_append, h.passed]
  · rcases hkeys a ha with ⟨hmem, hne⟩ | rfl
    · have htake := outstanding_take hevents a.place
      rw [if_neg fun hof' => hne (hof'.unique hof), Nat.add_zero] at htake
      rw [hothers _ hne, htake]
      exact h.listening a hmem hpending
    · rw [hplace]
      exact hlistening hpending
  · rcases hkeys a ha with ⟨hmem, hne⟩ | rfl
    · obtain ⟨p, hp, hstall⟩ := h.stalled a hmem hpending
      exact ⟨p, htaken ▸ List.mem_append_left _ hp, hstall⟩
    · rw [hplace]
      exact hstalled hpending

theorem Attended.resend (h : Attended s) {post : Posted} {rest : List Posted}
    (hevents : s.events = post :: rest) {k keyboard : HidKeyboard} (hk : k ∈ s.ctrl.keys)
    (hof : post.event.Of k.place) (hplace : keyboard.place = k.place)
    (hpending : k.pending = true) (hpending' : keyboard.pending = true) :
    Attended { (s.take post rest).resend keyboard with
      handled := (s.take post rest).handled ++ [post] } := by
  have hchannel (place : Nat × Nat) : Channel.endpoint keyboard.slot keyboard.dci = .ofPlace place ↔
      place = k.place := by
    rw [← hplace]
    exact ⟨fun h => Prod.ext (Channel.endpoint.inj h).1.symm (Channel.endpoint.inj h).2.symm,
      fun h => h ▸ rfl⟩
  have houtstanding (place : Nat × Nat) : ((s.take post rest).resend keyboard).outstanding place =
      (s.take post rest).outstanding place + if place = k.place then 1 else 0 := by
    have hhand := outstanding_hand (s := s.take post rest)
      ((s.take post rest).onRing keyboard.ring (.transfer keyboard.slot keyboard.dci
        [.normal keyboard.reportPhys keyboard.maxPacket false])).1 place
    simp only [Machine.onRing, Job.channel, hchannel] at hhand
    exact hhand
  have hnone : (s.take post rest).outstanding k.place = 0 := by
    have htake := outstanding_take hevents k.place
    rw [if_pos hof, h.listening k hk hpending] at htake
    omega
  refine h.rekey hevents hk hof
    (show { keyboard with ring := keyboard.ring.pushMany 1 }.place = k.place from hplace) ?_ rfl rfl
    rfl ?_ ?_ ?_ ?_
  · have hslot : post.event.slot = keyboard.slot := hof.2.1.trans (congrArg Prod.fst hplace).symm
    have hdci : post.event.endpoint = keyboard.dci := hof.2.2.trans (congrArg Prod.snd hplace).symm
    rw [hslot, hdci]
    rfl
  · intro h' hh
    rcases List.mem_append.mp hh with hh | hh
    · exact .inl hh
    · rw [List.mem_singleton.mp hh]
      exact .inr rfl
  · intro place hne
    exact (houtstanding place).trans (by rw [if_neg hne, Nat.add_zero])
  · exact fun _ => (houtstanding k.place).trans (by rw [if_pos rfl, hnone])
  · intro hsilent
    rw [show keyboard.pending = false from hsilent] at hpending'
    cases hpending'

theorem Attended.dispatchEvent (h : Attended s) {post : Posted} {rest : List Posted}
    (hevents : s.events = post :: rest) : Attended ((s.take post rest).dispatchEvent post) := by
  by_cases hkeyboard : post.OfKeyboard s.ctrl.places
  · obtain ⟨place, hplace, hof⟩ := hkeyboard
    obtain ⟨k, hk, rfl⟩ := List.mem_map.mp hplace
    have hfind := find?_keyboard h hk hof
    rw [Machine.dispatchEvent, hof.1]
    dsimp only
    rw [Machine.handleKeyboardEvent,
      show (s.take post rest).ctrl.keys.find? _ = some k from hfind]
    dsimp only
    split
    · rename_i hsilent
      refine ⟨h.apart, h.sparing, h.recalled, ?_, fun a ha hpending => ?_, fun a ha hpending => ?_⟩
      · exact (List.filter_append ..).trans
          ((congrArg (· ++ _) h.passed).trans (List.filter_append ..).symm)
      · have hne : ¬post.event.Of a.place := fun hof' =>
          hsilent (h.apart.unique ha hk (hof'.unique hof) ▸ hpending)
        have htake := outstanding_take hevents a.place
        rw [if_neg hne, Nat.add_zero] at htake
        exact htake.trans (h.listening a ha hpending)
      · obtain ⟨p, hp, hstall⟩ := h.stalled a ha hpending
        exact ⟨p, List.mem_append_left _ hp, hstall⟩
    · rename_i hlistening
      rw [Bool.not_eq_true, Bool.not_eq_false] at hlistening
      split
      · exact h.resend hevents hk hof rfl hlistening hlistening
      · split
        · rename_i hstall
          exact h.rekey hevents hk hof (show { k with pending := false }.place = k.place from rfl)
            rfl rfl rfl rfl (fun _ hh => .inl hh) (fun _ _ => rfl) (fun he => by cases he)
            (fun _ => ⟨post, List.mem_append_right _ (List.mem_singleton_self _), hof, hstall⟩)
        · exact h.resend hevents hk hof rfl hlistening hlistening
  · have htake := h.take hevents hkeyboard
    rw [Machine.dispatchEvent]
    split
    · rename_i htype
      have hnone : (s.take post rest).ctrl.keys.find? (·.Is post.event.slot post.event.endpoint) =
          none := by
        refine List.find?_eq_none.mpr fun k hk his => hkeyboard ⟨_, List.mem_map_of_mem hk, htype, ?_⟩
        have his : k.Is post.event.slot post.event.endpoint := by simpa using his
        exact ⟨his.1.symm, his.2.symm⟩
      rw [Machine.handleKeyboardEvent, hnone]
      refine ⟨htake.apart, htake.sparing, htake.recalled, ?_, htake.listening, htake.stalled⟩
      have hother : ¬post.OfKeyboard (s.take post rest).ctrl.places := hkeyboard
      simp only [List.filter_append, List.filter_cons, List.filter_nil, hother, decide_false,
        Bool.false_eq_true, if_false, List.append_nil]
      exact htake.passed
    · exact htake.portChange post.event
    · exact htake

theorem not_ofKeyboard_of_accepts {own : Handed} {post : Posted} (hown : Foreign places own.job)
    (haccept : own.job.Accepts post.event) : ¬post.OfKeyboard places := by
  rintro ⟨place, hplace, htype, hslot, hdci⟩
  have hchannel := (hown place hplace).1
  cases hjob : own.job with
  | command =>
    rw [hjob] at haccept
    rw [haccept.1] at htype
    cases htype
  | transfer slot dci trbs =>
    rw [hjob] at haccept hchannel
    exact hchannel (congrArg₂ Channel.endpoint (haccept.2.1.symm.trans hslot)
      (haccept.2.2.symm.trans hdci))

theorem Attended.of_mode (h : Attended s) {mode : Mode} (hmode : Sparing s.ctrl.places mode) :
    Attended { s with mode } :=
  ⟨h.apart, hmode, h.recalled, h.passed, h.listening, h.stalled⟩

theorem Attended.turn (h : Attended s) (hheard : s.Heard .turn) : Attended s.turn := by
  have hsparing := h.sparing
  rw [Machine.turn]
  split
  · rename_i call log own next post events hmode hevents
    rw [hmode] at hsparing
    dsimp only
    split
    · rename_i haccept
      exact (h.take hevents (not_ofKeyboard_of_accepts hsparing.1 haccept)).of_mode (hsparing.2 _)
    · rw [Machine.divert.eq_def]
      split
      · rename_i hjob
        have hother : ¬post.OfKeyboard s.ctrl.places := fun hkeyboard => by
          have hpasses := hheard post (by rw [hevents]; rfl) hkeyboard
          rw [Machine.PassesOn, hmode] at hpasses
          exact hpasses (by rw [hjob]; rfl)
        have htake := h.take hevents hother
        rw [Machine.passOver]
        split
        · exact htake.portChange post.event
        · exact htake
      · exact h.dispatchEvent hevents
  · rename_i budget post events hmode hevents
    dsimp only
    split
    · rename_i hlimit
      have hother : ¬post.OfKeyboard s.ctrl.places := fun hkeyboard => by
        have hpasses := hheard post (by rw [hevents]; rfl) hkeyboard
        rw [Machine.PassesOn, hmode] at hpasses
        omega
      exact (h.take hevents hother).of_mode trivial
    · exact (h.dispatchEvent hevents).of_mode trivial
  · exact h.of_mode trivial
  · exact h

theorem Attended.advance (h : Attended s) (grant : Option Nat) : Attended (s.advance grant) := by
  have hsparing := h.sparing
  rw [Machine.advance]
  split
  · exact ⟨h.apart, trivial, h.recalled, h.passed, h.listening, h.stalled⟩
  · rename_i hmode
    rw [hmode] at hsparing
    split
    · exact h.of_mode (hsparing.2 _)
    · exact ⟨h.apart, hsparing.2 _, h.recalled, h.passed, h.listening, h.stalled⟩
  · rename_i hmode
    rw [hmode] at hsparing
    exact h.of_mode (hsparing.2 _)
  · rename_i hmode
    rw [hmode] at hsparing
    exact h.of_mode (hsparing.2 _)
  · rename_i call log job next hmode
    rw [hmode] at hsparing
    have hkeys : (s.push job).2.ctrl.keys = s.ctrl.keys ∧
        (s.push job).2.ctrl.storage = s.ctrl.storage := by
      cases hchannel : job.channel <;> simp [Machine.push, hchannel, Controller.setRing]
    have hplaces : (s.push job).2.ctrl.places = s.ctrl.places := congrArg (List.map _) hkeys.1
    have hown : Foreign s.ctrl.places job := hsparing.1
    refine ⟨⟨hplaces ▸ h.apart.nodup, hplaces ▸ h.apart.control, ?_⟩, ?_, fun h' hh place hmem => ?_,
      ?_, fun k hk hpending => ?_, fun k hk => ?_⟩
    · rw [hplaces, hkeys.2]
      exact h.apart.bulk
    · rw [hplaces]
      exact ⟨hown, hsparing.2⟩
    · rw [hplaces] at hmem
      rcases List.mem_append.mp hh with hh | hh
      · exact h.recalled h' hh place hmem
      · rw [List.mem_singleton.mp hh]
        exact (hown place hmem).2
    · rw [hplaces]
      exact h.passed
    · rw [hkeys.1] at hk
      have hother : (s.push job).1.job.channel ≠ .ofPlace k.place :=
        (hown k.place (List.mem_map_of_mem hk)).1
      have hhand := outstanding_hand (s := s) (s.push job).1 k.place
      rw [if_neg hother, Nat.add_zero, h.listening k hk hpending] at hhand
      exact hhand
    · rw [hkeys.1] at hk
      exact h.stalled k hk
  · exact h

theorem Attended.expire (h : Attended s) : Attended s.expire := by
  have hsparing := h.sparing
  rw [Machine.expire]
  split
  · rename_i hmode
    rw [hmode] at hsparing
    exact h.of_mode (hsparing.2 _)
  · exact h

/-! ### The keyboards stay -/

theorem places_updateFirst {ctrl : Controller} {k : HidKeyboard} {slot dci : Nat}
    (h : k.Is slot dci) :
    (updateFirst (·.Is slot dci) (fun _ => k) ctrl.keys).map HidKeyboard.place = ctrl.places := by
  refine map_updateFirst fun a _ ha => ?_
  have ha : a.Is slot dci := by simpa using ha
  exact Prod.ext (h.1.trans ha.1.symm) (h.2.trans ha.2.symm)

theorem places_portChange (event : Event) : (s.portChange event).ctrl.places = s.ctrl.places := by
  rw [Machine.portChange]
  dsimp only
  split <;> rfl

theorem places_dispatchEvent (post : Posted) :
    (s.dispatchEvent post).ctrl.places = s.ctrl.places := by
  rw [Machine.dispatchEvent]
  split
  · rw [Machine.handleKeyboardEvent]
    split
    · rfl
    · rename_i k hfind
      have his : k.Is post.event.slot post.event.endpoint := by simpa using List.find?_some hfind
      split
      · rfl
      · split
        · exact places_updateFirst ⟨rfl, rfl⟩
        · split
          · exact places_updateFirst his
          · exact places_updateFirst ⟨rfl, rfl⟩
  · exact places_portChange post.event
  · rfl

theorem places_step (action : Action) : (s.step action).ctrl.places = s.ctrl.places := by
  cases action with
  | complete =>
    rw [Machine.step, Machine.complete]
    split <;> rfl
  | notify =>
    rw [Machine.step, Machine.notify]
    split <;> rfl
  | call =>
    rw [Machine.step]
    split <;> rfl
  | pollEvents =>
    rw [Machine.step]
    split <;> rfl
  | advance =>
    rw [Machine.step, Machine.advance]
    split
    · rfl
    · split <;> rfl
    · rfl
    · rfl
    · rename_i job _ _
      cases hchannel : job.channel <;>
        simp [Machine.push, Machine.hand, hchannel, Controller.setRing, Controller.places]
    · rfl
  | turn =>
    rw [Machine.step, Machine.turn]
    split
    · dsimp only
      split
      · rfl
      · rw [Machine.divert.eq_def]
        split
        · rw [Machine.passOver]
          split
          · exact places_portChange _
          · rfl
        · exact places_dispatchEvent _
    · dsimp only
      split
      · rfl
      · exact places_dispatchEvent _
    · rfl
    · rfl
  | expire =>
    rw [Machine.step, Machine.expire]
    split <;> rfl

theorem places_run (actions : List Action) : (s.run actions).ctrl.places = s.ctrl.places := by
  induction actions generalizing s with
  | nil => rfl
  | cons action actions ih => exact (ih (s := s.step action)).trans (places_step action)

/-- The keyboards have been registered, and no event has been taken since. -/
structure Registered (s : Machine) : Prop where
  apart : s.ctrl.Apart
  mode : s.mode = .idle
  recalled : ∀ h ∈ s.pending, ∀ place ∈ s.ctrl.places, h.job.recalled ≠ some (.ofPlace place)
  taken : s.taken = []
  handled : s.handled = []
  listening : ∀ k ∈ s.ctrl.keys, k.pending = true ∧ s.outstanding k.place = 1

theorem Registered.attended (h : Registered s) : Attended s where
  apart := h.apart
  sparing := by
    rw [h.mode]
    trivial
  recalled := h.recalled
  passed := by rw [h.taken, h.handled]
  listening k hk _ := (h.listening k hk).2
  stalled k hk hpending := by
    rw [(h.listening k hk).1] at hpending
    cases hpending

theorem Attended.step (h : Attended s) {action : Action} (hheard : s.Heard action) :
    Attended (s.step action) := by
  cases action with
  | complete channel code bytes enabled => exact h.complete channel code bytes enabled
  | notify event => exact h.notify event
  | call call =>
    rw [Machine.step]
    split
    · exact h.of_mode (h.apart.perform call)
    · exact h
  | pollEvents =>
    rw [Machine.step]
    split
    · exact h.of_mode trivial
    · exact h
  | advance grant => exact h.advance grant
  | turn => exact h.turn hheard
  | expire => exact h.expire

/-- As long as every event of a keyboard is taken by a loop that passes it on, every one is
passed on once, and a keyboard that reports no STALL keeps its TRB. No keyboard is lost. -/
theorem keyboards_heard (hs : Registered s) {actions : List Action}
    (hheard : Along Machine.step Machine.Heard s actions) :
    let t := s.run actions
    t.ctrl.places = s.ctrl.places ∧
      t.taken.filter (·.OfKeyboard s.ctrl.places) =
        t.handled.filter (·.OfKeyboard s.ctrl.places) ∧
      ∀ k ∈ t.ctrl.keys, (∀ p ∈ t.taken, p.event.Of k.place →
        p.event.completionCode ≠ ccStall) → t.outstanding k.place = 1 := by
  have h : Attended (s.run actions) :=
    hheard.invariant hs.attended fun _ s _ (hs : Attended s) hc => hs.step hc
  refine ⟨places_run actions, by simpa only [places_run] using h.passed, fun k hk hnone => ?_⟩
  cases hpending : k.pending with
  | true => exact h.listening k hk hpending
  | false =>
    obtain ⟨p, hp, hof, hstall⟩ := h.stalled k hk hpending
    exact absurd hstall (hnone p hp hof)

/-- A keyboard whose TRB the controller has. -/
def oneKeyboard : Machine where
  ctrl := ⟨4, ⟨0x1000, 0, true⟩, fun _ _ => ⟨0x2000, 0, true⟩,
    [⟨1, 3, ⟨0x3000, 1, true⟩, 0x4000, 8, true, 0⟩], [], [1], false⟩
  memory := fun _ => 0
  pending := [⟨0, 0x3000, .transfer 1 3 [.normal 0x4000 8 false]⟩]
  events := []
  serial := 1
  mode := .idle
  finished := []
  taken := []
  handled := []

theorem registered_oneKeyboard : Registered oneKeyboard where
  apart := ⟨by decide, by decide, nofun⟩
  mode := rfl
  recalled := by decide
  taken := rfl
  handled := rfl
  listening := by decide

theorem keyboards_heard_report :
    let t := oneKeyboard.run [.complete (.endpoint 1 3) ccSuccess [] 0, .pollEvents, .turn, .turn]
    t.ctrl.places = oneKeyboard.ctrl.places ∧
      t.taken.filter (·.OfKeyboard oneKeyboard.ctrl.places) =
        t.handled.filter (·.OfKeyboard oneKeyboard.ctrl.places) ∧
      ∀ k ∈ t.ctrl.keys, (∀ p ∈ t.taken, p.event.Of k.place →
        p.event.completionCode ≠ ccStall) → t.outstanding k.place = 1 :=
  keyboards_heard registered_oneKeyboard (by decide)

/-- A key is pressed while a command is waited for. Its event is not passed on, and the keyboard
has no TRB any more. -/
theorem keyboards_silent :
    let t := oneKeyboard.run [.complete (.endpoint 1 3) ccSuccess [] 0,
      .call (.command 0x5000 .configureEndpoint 2), .advance none, .turn]
    t.taken.filter (·.OfKeyboard oneKeyboard.ctrl.places) ≠
        t.handled.filter (·.OfKeyboard oneKeyboard.ctrl.places) ∧
      ∃ k ∈ t.ctrl.keys, (∀ p ∈ t.taken, p.event.Of k.place →
        p.event.completionCode ≠ ccStall) ∧ t.outstanding k.place = 0 := by
  decide

end Vibra.Usb
