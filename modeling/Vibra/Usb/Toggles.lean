import Vibra.Usb.Transfers

/-! # Data toggles

Neither driver keeps the toggle of an endpoint from one transfer to the next: the first packet has
the bit 0, whatever the transfers before it have moved.
-/

namespace Vibra.Usb

open Lib (Along Endpoints)
open Lib.Dialog (After Asks asks_pure asks_question)
open Lib.Endpoints (FromZero InStep Even)

/-! ## EHCI -/

def BusRequest.FromZero : BusRequest → Prop
  | qtd _ qh token _ => qh.firstToggle token = false
  | control _ _ _ _ => True

namespace BulkPipe

variable (pipe : BulkPipe)

theorem asks_bulkInner (dirIn : Bool) (done rest : List UInt8) (dt : Nat) :
    Asks BusRequest.FromZero (pipe.bulkInner dirIn done rest dt) := by
  induction hlen : rest.length using Nat.strong_induction_on generalizing done rest dt with
  | _ n ih =>
    unfold bulkInner
    split
    · exact asks_pure _
    · rename_i hrest
      refine Asks.bind (asks_question ?_) fun reply => ?_
      · exact Qh.firstToggle_start ..
      have hshorter : (rest.drop (rest.take pipe.maxTransfer).length).length < n := by
        have hpositive := pipe.positive
        have hlength := List.length_pos_iff.mpr hrest
        rw [List.length_drop, List.length_take]
        omega
      split
      · exact asks_pure _
      · dsimp only
        split
        · exact asks_pure _
        · exact ih _ hshorter _ _ _ rfl

theorem asks_bulk (dirIn : Bool) (data : List UInt8) (toggle : Nat) :
    Asks BusRequest.FromZero (pipe.bulk dirIn data toggle) := by
  unfold bulk
  split
  · exact asks_pure _
  · exact pipe.asks_bulkInner ..

theorem asks_carry (request : Disk.UsbRequest) :
    Asks BusRequest.FromZero (pipe.carry request) := by
  cases request with
  | bulk stage dirIn data => exact (pipe.asks_bulk dirIn data _).bind fun _ => asks_pure _
  | resolveStall => exact ⟨trivial, fun _ => ⟨trivial, fun _ => ⟨trivial, fun _ => trivial⟩⟩⟩

theorem fromZero_traffic {log : List (BusRequest × BusReply)}
    (h : ∀ x ∈ log, BusRequest.FromZero x.1) : ∀ t ∈ pipe.traffic log, FromZero t := by
  intro t ht
  obtain ⟨⟨request, reply⟩, hx, hof⟩ := List.mem_filterMap.mp ht
  cases t with
  | clear endpoint => trivial
  | packets endpoint dirIn toggle count =>
    cases request with
    | qtd dirIn' qh token out =>
      obtain ⟨rfl, rfl, rfl, rfl⟩ : dirIn' = endpoint ∧ dirIn' = dirIn ∧
          qh.firstToggle token = toggle ∧ reply.packets = count := by
        simpa [trafficOf] using hof
      exact h _ hx
    | control bm request value index =>
      exfalso
      rcases reply with _ | _ | _ | (_ | _) <;> simp only [trafficOf] at hof
      all_goals first | cases hof | skip
      repeat' split at hof
      all_goals cases hof

theorem of_bulk {P : Except UsbError Nat × List UInt8 → List (BusRequest × BusReply) → Prop}
    {dirIn : Bool} {data : List UInt8} {toggle : Nat} {log : List (BusRequest × BusReply)}
    (h : After P (pipe.bulk dirIn data toggle) log) (hdata : data ≠ [])
    (hlength : data.length ≤ pipe.maxTransfer) (reply : BusReply) : ∃ buffer,
      let qh := Qh.configure pipe.address (pipe.endpoint dirIn) (pipe.maxPacket dirIn)
        pipe.highSpeed false
      P (reply.transferred dirIn data.length, buffer)
        (log ++ [(.qtd dirIn qh.start
          (qtdToken (if dirIn then pidIn else pidOut) data.length (toggle % 2) true)
          (if dirIn then [] else data), reply)]) := by
  unfold bulk at h
  rw [if_neg hdata, bulkInner, dif_neg hdata] at h
  rw [List.take_of_length_le hlength] at h
  have hasked := (Lib.Dialog.after_question _).mp ((Lib.Dialog.after_bind _ _).mp h) reply
  cases hresult : reply.transferred dirIn data.length with
  | error e =>
    rw [hresult] at hasked
    exact ⟨_, hasked⟩
  | ok n =>
    rw [hresult] at hasked
    dsimp only at hasked
    split at hasked
    · rw [List.length_nil, Nat.zero_add] at hasked
      exact ⟨_, hasked⟩
    · rename_i hwhole
      have hn : n = data.length := by
        have hle : n ≤ data.length := by
          rcases reply with _ | _ | ⟨_, token, _⟩ | _
          · cases hresult
          · cases hresult
          · unfold BusReply.transferred at hresult
            dsimp only at hresult
            split at hresult
            · cases hresult
            · split at hresult
              · cases hresult
              · rw [← Except.ok.inj hresult]
                exact Nat.sub_le ..
          · cases hresult
        omega
      rw [List.drop_length, bulkInner, dif_pos rfl, List.nil_append] at hasked
      have hmoved : (if dirIn = true then reply.data.takeD n 0 else data).length = n := by
        split
        · exact List.takeD_length ..
        · exact hn.symm
      rw [hmoved] at hasked
      exact ⟨_, hasked⟩

theorem of_carry {P : Disk.UsbReply → List (BusRequest × BusReply) → Prop} (stage : Disk.Stage)
    (dirIn : Bool) {data : List UInt8} {log : List (BusRequest × BusReply)}
    (h : After P (pipe.carry (.bulk stage dirIn data)) log) (hdata : data ≠ [])
    (hlength : data.length ≤ pipe.maxTransfer) (reply : BusReply) : ∃ buffer token out,
      let qh := Qh.configure pipe.address (pipe.endpoint dirIn) (pipe.maxPacket dirIn)
        pipe.highSpeed false
      P ⟨(reply.transferred dirIn data.length).toOption, buffer, 0⟩
        (log ++ [(.qtd dirIn qh.start token out, reply)]) := by
  rcases pipe.of_bulk ((Lib.Dialog.after_bind _ _).mp h) hdata hlength reply with ⟨buffer, hbulk⟩
  exact ⟨buffer, _, _, hbulk⟩

theorem after_carry {α : Type} (p : Disk.UsbDialog α) :
    After (fun _ log => Along Endpoints.step InStep Endpoints.start (pipe.traffic log) ↔
      Along Endpoints.step Even Endpoints.start (pipe.traffic log)) (p.through pipe.carry) [] :=
  ((Asks.through pipe.asks_carry p).after (by simp)).mono fun _ _ hlog =>
    Endpoints.along_inStep_iff_even (pipe.fromZero_traffic hlog)

end BulkPipe

namespace UhciQueues

theorem toggles_step {u : UhciQueues} (h : ∀ e, u.toggles e = false) (event : Event) :
    ∀ e, (u.step event).toggles e = false := by
  cases event with
  | report index kept => exact h
  | fail index =>
    unfold step
    dsimp only
    split <;> exact h
  | pollKeyboard => exact h
  | bulk address endpoint dirIn len moved ok =>
    unfold step
    dsimp only
    split
    · exact h
    · intro e
      dsimp only
      rcases eq_or_ne e (.bulk address endpoint dirIn) with rfl | hne
      · rw [Function.update_self]
        unfold bulkToken
        rw [UhciTd.toggle_bulkToken]
        exact h _
      · rw [Function.update_of_ne hne]
        exact h e

theorem fromZero_trafficAll {u : UhciQueues} (h : ∀ e, u.toggles e = false) (events : List Event) :
    ∀ t ∈ u.trafficAll events, FromZero t := by
  induction events generalizing u with
  | nil => exact fun t ht => absurd ht List.not_mem_nil
  | cons event events ih =>
    intro t ht
    rcases List.mem_append.mp ht with hhead | hrest
    · cases event with
      | report index kept =>
        unfold traffic at hhead
        dsimp only at hhead
        split at hhead
        · rw [List.mem_singleton.mp hhead]
          exact UhciTd.toggle_keyboardToken ..
        · cases hhead
      | bulk address endpoint dirIn len moved ok =>
        unfold traffic at hhead
        dsimp only at hhead
        split at hhead
        · rw [List.mem_singleton.mp hhead]
          exact (UhciTd.toggle_bulkToken ..).trans (h _)
        · cases hhead
      | fail index => cases hhead
      | pollKeyboard => cases hhead
    · exact ih (toggles_step h event) t hrest

end UhciQueues

/-- On an EHCI storage device, and on UHCI, every packet has the toggle that the device expects
exactly when each transfer that moves packets finds an even number of them moved over its endpoint
since that was configured or its halt was cleared. -/
theorem toggles_in_step_iff (pipe : BulkPipe) (commands : List BotCommand) (tag : UInt32)
    (keyboards : Nat → KeyboardTd) (events : List UhciQueues.Event) :
    After (fun _ log => Along Endpoints.step InStep Endpoints.start (pipe.traffic log) ↔
        Along Endpoints.step Even Endpoints.start (pipe.traffic log))
      ((performBot commands tag).through pipe.carry) [] ∧
    (Along Endpoints.step InStep Endpoints.start ((UhciQueues.start keyboards).trafficAll events) ↔
      Along Endpoints.step Even Endpoints.start ((UhciQueues.start keyboards).trafficAll events)) :=
  ⟨pipe.after_carry _, Endpoints.along_inStep_iff_even
    (UhciQueues.fromZero_trafficAll (fun _ => rfl) events)⟩

def stick : BulkPipe where
  address := 1
  inAddress := 0x81
  outAddress := 0x02
  inMaxPacket := 512
  outMaxPacket := 512
  highSpeed := true
  interface := 0
  maxTransfer := 16384
  positive := by decide

def csw (tag : UInt8) : List UInt8 := [0x55, 0x53, 0x42, 0x53, tag, 0, 0, 0, 0, 0, 0, 0, 0]

def twoCommands : List BotCommand :=
  List.replicate 2 (.bot [0x00, 0, 0, 0, 0, 0] [] true)

def bootKeyboard : Nat → KeyboardTd := fun _ => ⟨1, 1, 8, true, false⟩

/-- The second CBW, the second report of a keyboard and the second packet of a bulk endpoint are
thrown away. -/
theorem toggles_in_step_fails :
    (¬ After (fun _ log => Along Endpoints.step InStep Endpoints.start (stick.traffic log))
      ((performBot twoCommands 0).through stick.carry) []) ∧
    (¬ Along Endpoints.step InStep Endpoints.start
      ((UhciQueues.start bootKeyboard).trafficAll
        [.report 0 true, .pollKeyboard, .report 0 false])) ∧
    ¬ Along Endpoints.step InStep Endpoints.start
      ((UhciQueues.start bootKeyboard).trafficAll
        [.bulk 1 2 false 31 true true, .bulk 1 2 false 31 true true]) := by
  refine ⟨fun h => ?_, by decide, by decide⟩
  have hcbw (tag : UInt32) : (Disk.cbwOf tag 0 true [0x00, 0, 0, 0, 0, 0]).length = 31 := by
    simp [Disk.cbwOf, Lib.Memory.toLe32]
  have hne (tag : UInt32) : Disk.cbwOf tag 0 true [0x00, 0, 0, 0, 0, 0] ≠ [] :=
    List.ne_nil_of_length_eq_add_one (hcbw tag)
  have hle (tag : UInt32) : (Disk.cbwOf tag 0 true [0x00, 0, 0, 0, 0, 0]).length ≤ 16384 :=
    (hcbw tag).le.trans (by decide)
  obtain ⟨_, token1, out1, h1⟩ := stick.of_carry .command false
    (Lib.Dialog.after_through_ask h) (hne _) (hle _) (.ended 1 0 [])
  obtain ⟨_, token2, out2, h2⟩ := stick.of_carry .status true
    (Lib.Dialog.after_through_ask h1) (by decide) (by decide) (.ended 1 0 (csw 1))
  obtain ⟨_, token3, out3, h3⟩ := stick.of_carry .command false
    (Lib.Dialog.after_through_ask h2) (hne _) (hle _) (.ended 1 0 [])
  obtain ⟨_, token4, out4, h4⟩ := stick.of_carry .status true
    (Lib.Dialog.after_through_ask h3) (by decide) (by decide) (.ended 1 0 (csw 2))
  change Along Endpoints.step InStep Endpoints.start
    [.packets false false (Qh.firstToggle _ token1) 1,
      .packets true true (Qh.firstToggle _ token2) 1,
      .packets false false (Qh.firstToggle _ token3) 1,
      .packets true true (Qh.firstToggle _ token4) 1] at h4
  rw [Qh.firstToggle_start, Qh.firstToggle_start, Qh.firstToggle_start, Qh.firstToggle_start] at h4
  exact absurd h4 (by decide)

end Vibra.Usb
