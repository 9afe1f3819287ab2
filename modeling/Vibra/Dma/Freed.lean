import Vibra.Dma.Drivers

/-! # Memory that is freed

The drivers free the memory of a command when the wait for it is over, however that has ended.
-/

namespace Vibra.Dma

open Lib (Along Dialog Holding Ledger Loan)
open Lib.Dialog
open Usb (UsbDialog)

variable {loans : List (Loan Channel Nat)} {log : List (Question × Answer)}

def Out (loans : List (Loan Channel Nat)) (log : List (Question × Answer)) : Prop :=
  Holding loans (log.map deed)

def Returns {α : Type} (dialog : DmaDialog α) : Prop :=
  ∀ log, Out [] log → After (fun _ log' => Out [] log') dialog log

theorem Returns.pure {α : Type} (a : α) : Returns (Pure.pure a : DmaDialog α) := fun _ h => h

theorem Returns.bind {α β : Type} {dialog : DmaDialog α} {next : α → DmaDialog β}
    (h : Returns dialog) (hnext : ∀ a, Returns (next a)) : Returns (dialog >>= next) := by
  intro log hlog
  rw [after_bind]
  exact (h log hlog).mono fun a log' hlog' => hnext a log' hlog'

theorem Out.other (h : Out loans log) {x : Question × Answer} (hx : deed x = .other) :
    Out loans (log ++ [x]) := by
  rw [Out, List.map_append, List.map_singleton, hx]
  exact Holding.other h

theorem returns_question {q : Question} (hq : ∀ r, deed (q, r) = .other) :
    Returns (question q) := fun _ h r => h.other (hq r)

theorem Out.free (h : Out loans log) (block : Nat) (r : Answer) :
    Out loans (log ++ [(.free block, r)]) := by
  rw [Out, List.map_append]
  exact Holding.free h

theorem returns_free (block : Nat) : Returns (question (.free block)) := fun _ h r => h.free block r

theorem returns_submit_free {α : Type} {channel : Channel} {words blocks : List Nat} {block : Nat}
    (hblock : block ∈ blocks) {next : Answer → DmaDialog α} (hnext : ∀ answer, Returns (next answer)) :
    Returns (do
      let answer ← question (.submit channel words blocks)
      let _ ← question (.free block)
      next answer) := by
  intro log h
  simp only [after_bind, after_question]
  intro answer freed
  refine hnext answer _ ?_
  rw [Out, List.map_append, List.map_append]
  cases answer with
  | waited serial ended => exact Holding.lend_free h hblock
  | block | yes | no | usb => exact (Holding.other h).free

theorem returns_chunks (opcode bs bufSize done lba : Nat) :
    Returns (chunks opcode bs bufSize done lba) := by
  induction hlength : bufSize - done using Nat.strong_induction_on generalizing done lba with
  | h length ih =>
    rw [chunks]
    split
    · dsimp only
      split
      · exact Returns.pure _
      · refine (returns_question fun _ => rfl).bind fun memory => ?_
        cases memory.address with
        | none => exact Returns.pure _
        | some block =>
          refine (returns_question fun _ => rfl).bind fun phys => ?_
          split
          · exact (returns_free block).bind fun _ => Returns.pure _
          · refine returns_submit_free (List.mem_singleton_self block) fun answer => ?_
            cases submitResult answer with
            | error e => exact Returns.pure _
            | ok => exact ih _ (by omega) _ _ rfl
    · exact Returns.pure _

theorem returns_transferDev (opcode bs lba blocks len : Nat) :
    Returns (transferDev opcode bs lba blocks len) := by
  rw [transferDev]
  split
  · exact Returns.pure _
  · split
    · exact Returns.pure _
    · exact returns_chunks _ _ _ _ _

theorem returns_sectors (command port lba count buffer : Nat) :
    Returns (sectors command port lba count buffer) := by
  have hend (table : Nat) (phys : Answer) : Returns (if phys ≠ .yes then do
      let _ ← question (.free table)
      pure false
    else do
      let answer ← question (.submit (.ahci port) [command, lba, count] [table, buffer])
      let _ ← question (.free table)
      pure (commandResult answer)) := by
    split
    · exact (returns_free table).bind fun _ => Returns.pure _
    · exact returns_submit_free List.mem_cons_self fun _ => Returns.pure _
  refine (returns_question fun _ => rfl).bind fun idle => ?_
  split
  · exact Returns.pure _
  · refine (returns_question fun _ => rfl).bind fun memory => ?_
    cases memory.address with
    | none => exact Returns.pure _
    | some table =>
      refine (returns_question fun _ => rfl).bind fun tablePhys => ?_
      split
      · exact (returns_question fun _ => rfl).bind fun phys => hend table phys
      · exact hend table .no

theorem returns_ehciControl (ctrl : EhciController) (address bm request value index len : Nat) :
    Returns (ehciControl ctrl address bm request value index len) := by
  rw [ehciControl]
  split
  · exact Returns.pure _
  · rw [controlRaw]
    split
    · exact Returns.pure _
    · refine (returns_question fun _ => rfl).bind fun memory => ?_
      cases memory.address with
      | none => exact Returns.pure _
      | some qtds =>
        exact returns_submit_free (List.mem_singleton_self qtds) fun _ => Returns.pure _

theorem returns_bulkInner (queueHead : Nat) (storage : EhciStorage) (dirIn : Bool)
    (len done dt : Nat) : Returns (bulkInner queueHead storage dirIn len done dt) := by
  induction hlength : len - done using Nat.strong_induction_on generalizing done dt with
  | h length ih =>
    rw [bulkInner]
    split
    · refine (returns_question fun _ => rfl).bind fun memory => ?_
      cases memory.address with
      | none => exact Returns.pure _
      | some qtd =>
        refine returns_submit_free (List.mem_singleton_self qtd) fun answer => ?_
        cases chunkResult dirIn (min (len - done) storage.maxTransfer) answer with
        | error e => exact Returns.pure _
        | ok transferred =>
          dsimp only
          split
          · exact Returns.pure _
          · have := storage.positive
            exact ih _ (by omega) _ _ rfl
    · exact Returns.pure _

theorem returns_ehciBulk (ctrl : EhciController) (address : Nat) (dirIn : Bool)
    (len toggle : Nat) : Returns (ehciBulk ctrl address dirIn len toggle) := by
  rw [ehciBulk]
  split
  · exact Returns.pure _
  · split
    · exact Returns.pure _
    · exact returns_bulkInner _ _ _ _ _ _

section Usb

theorem ofUsb_bind {α β : Type} (dialog : UsbDialog α) (next : α → UsbDialog β) :
    ofUsb (dialog >>= next) = ofUsb dialog >>= fun a => ofUsb (next a) :=
  via_bind _ _ dialog next

theorem returns_ofUsb_pure {α : Type} (a : α) : Returns (ofUsb (Pure.pure a)) := Returns.pure a

theorem Returns.ofUsb_bind {α β : Type} {dialog : UsbDialog α} {next : α → UsbDialog β}
    (h : Returns (ofUsb dialog)) (hnext : ∀ a, Returns (ofUsb (next a))) :
    Returns (ofUsb (dialog >>= next)) := by
  rw [Dma.ofUsb_bind]
  exact h.bind hnext

theorem returns_ofUsb_question {request : Usb.Request}
    (h : ∀ r, deed (.usb request, r) = .other) : Returns (ofUsb (question request)) :=
  fun _ hlog r => hlog.other (h r)

theorem Out.freeUsb (h : Out loans log) (buffer : Nat) (r : Answer) :
    Out loans (log ++ [(.usb (.free buffer), r)]) := by
  rw [Out, List.map_append]
  exact Holding.free h

theorem recalledBy_of_none {job : Usb.Job} (h : job.recalled = none)
    (post : Option Usb.Posted) : recalledBy job post = none := by
  rw [recalledBy, h]
  split <;> rfl

theorem Out.submit (h : Out loans log) {job : Usb.Job} (hblocks : blocksOf job = [])
    (hchannel : ∀ l ∈ loans, l.channel ≠ .xhci job.channel) (own : Usb.Handed)
    (post : Option Usb.Posted) (bytes : List UInt8) :
    Out (Ledger.drop (recalledBy job post) loans)
      (log ++ [(.usb (.submit job), .usb (.waited own post bytes))]) := by
  rw [Out, List.map_append]
  simp only [List.map_singleton, deed, hblocks]
  cases post.bind fun post => post.source.map (·.serial) with
  | none => exact Holding.late h rfl
  | some serial => exact Holding.answered h hchannel

theorem returns_submit {job : Usb.Job} (hblocks : blocksOf job = []) :
    Returns (ofUsb (question (.submit job))) := by
  intro log h r
  match r with
  | .usb (.waited own post bytes) => exact h.submit hblocks nofun own post bytes
  | .usb (.buffer _) | .usb .freed | .usb (.pointer _) | .block _ | .yes | .no | .waited _ _ =>
    exact h.other rfl

theorem Out.command (h : Out loans log) (hchannel : ∀ l ∈ loans, l.channel ≠ .xhci .command)
    (param status : Nat) (type : Usb.CommandType) (slot : Nat) :
    After (fun event log' => Out (Ledger.drop (if Usb.succeeded event then
        (Usb.Job.command type param status slot).recalled.map .xhci else none) loans) log')
      (ofUsb (Usb.commandFull param status type slot)) log := by
  intro answer
  match answer with
  | .usb (.waited own post bytes) =>
    exact @Out.submit _ _ h (.command type param status slot) rfl hchannel own post bytes
  | .usb (.buffer _) | .usb .freed | .usb (.pointer _) | .block _ | .yes | .no | .waited _ _ =>
    change Out (Ledger.drop none loans) _
    rw [Ledger.drop_none]
    exact h.other rfl

theorem returns_commandFull (param status : Nat) (type : Usb.CommandType) (slot : Nat) :
    Returns (ofUsb (Usb.commandFull param status type slot)) := fun _ h =>
  h.command nofun param status type slot

theorem returns_transfer_free {α : Type} {slot dci : Nat} {trbs : List Usb.Trb} {phys : Nat}
    (hblocks : phys ∈ blocksOf (.transfer slot dci trbs)) {next : Usb.Answer → UsbDialog α}
    (hnext : ∀ answer, ∃ a, next answer = Pure.pure a) :
    Returns (ofUsb (do
      let answer ← question (.submit (.transfer slot dci trbs))
      let _ ← question (.free phys)
      next answer)) := by
  intro log h
  simp only [Dma.ofUsb_bind, after_bind]
  intro answer freed
  obtain ⟨a, ha⟩ := hnext answer.toUsb
  rw [ha]
  change Out [] _
  rw [Out, List.map_append, List.map_append]
  cases answer with
  | usb answer =>
    cases answer with
    | waited own post bytes =>
      have hlend := @Holding.lend_free _ _ _ _ _ ⟨own.serial, .xhci (.endpoint slot dci),
        blocksOf (.transfer slot dci trbs)⟩ _ h (post.bind fun post => post.source.map (·.serial))
        hblocks
      rw [← @recalledBy_of_none (.transfer slot dci trbs) rfl post] at hlend
      exact hlend
    | _ => exact (Holding.other h).free
  | _ => exact (Holding.other h).free

/-! ### Control transfers -/

theorem controlTrbs_buffer (bm request value index phys : Nat) {len : Nat} (hlen : 0 < len)
    (slot : Nat) :
    phys ∈ blocksOf (.transfer slot 1
      (Usb.controlTrbs bm request value index (some (phys, len)))) := by
  rw [Usb.controlTrbs]
  simp only [if_pos hlen]
  exact List.mem_singleton_self phys

theorem controlTrbs_none (bm request value index slot : Nat) :
    blocksOf (.transfer slot 1 (Usb.controlTrbs bm request value index none)) = [] := rfl

theorem returns_slotControl (ctrl : Usb.Controller) (slot bm request value index : Nat)
    (data : Lib.Bytes) :
    Returns (ofUsb (Usb.slotControl ctrl slot bm request value index data)) := by
  rw [Usb.slotControl]
  split
  · exact returns_ofUsb_pure _
  · split
    · refine Returns.ofUsb_bind ?_ fun _ => returns_ofUsb_pure _
      exact (returns_submit (controlTrbs_none bm request value index slot)).ofUsb_bind
        fun _ => returns_ofUsb_pure _
    · rename_i hdata
      refine (returns_ofUsb_question fun _ => rfl).ofUsb_bind fun answer => ?_
      split
      · exact returns_ofUsb_pure _
      · rename_i phys _
        exact returns_transfer_free (controlTrbs_buffer bm request value index phys
          (List.length_pos_iff.mpr hdata) slot) fun _ => ⟨_, rfl⟩

/-! ### Bulk transfers -/

def Pending (slot dci phys : Nat) (loans : List (Loan Channel Nat)) : Prop :=
  ∀ l ∈ loans, l.channel = .xhci (.endpoint slot dci) ∧ phys ∈ l.blocks

theorem Out.free_pending {slot dci phys : Nat} (h : Out loans log)
    (hpending : Pending slot dci phys loans) (r : Answer) :
    Out [] (log ++ [(.usb (.free phys), r)]) := by
  cases loans with
  | nil => exact h.freeUsb phys r
  | cons l loans =>
    rw [Out, List.map_append]
    exact Holding.free_lent h List.mem_cons_self (hpending l List.mem_cons_self).2

theorem Out.chunk {slot dci phys : Nat} {dirIn : Bool} {data : Lib.Bytes} (h : Out [] log) :
    After (fun _ log' => ∃ loans, Out loans log' ∧ Pending slot dci phys loans)
      (ofUsb (question (.submit (Usb.chunkJob slot dci phys dirIn data)))) log := by
  intro answer
  match answer with
  | .usb (.waited own post bytes) =>
    have hlog : (log ++ [(Question.usb (.submit (Usb.chunkJob slot dci phys dirIn data)),
        Answer.usb (.waited own post bytes))]).map deed = log.map deed ++
          [.request ⟨own.serial, .xhci (.endpoint slot dci), [phys]⟩
            (post.bind fun post => post.source.map (·.serial)) none] := by
      rw [List.map_append, List.map_singleton, deed, recalledBy_of_none rfl]
      rfl
    change ∃ loans, Holding loans _ ∧ _
    rw [hlog]
    cases post.bind fun post => post.source.map (·.serial) with
    | none =>
      refine ⟨_, Holding.unanswered h, fun l hl => ?_⟩
      rw [List.mem_singleton.mp hl]
      exact ⟨rfl, List.mem_singleton_self phys⟩
    | some serial => exact ⟨_, Holding.answered h nofun, nofun⟩
  | .usb (.buffer _) | .usb .freed | .usb (.pointer _) | .block _ | .yes | .no | .waited _ _ =>
    exact ⟨[], h.other rfl, nofun⟩

theorem recalled_endpoint (param slot : Nat) (dci : Fin 32) :
    (Usb.Job.command .setTrDequeue param (Usb.endpointId dci) slot).recalled =
      some (.endpoint slot dci) := by
  rw [Usb.Job.recalled, Usb.endpointId, Nat.mul_div_cancel _ (by decide),
    show (dci : Nat) % 2 ^ 5 = dci from Nat.mod_eq_of_lt dci.isLt]

theorem Out.recoverEndpoint {slot phys : Nat} {dci : Fin 32} (h : Out loans log)
    (hpending : Pending slot dci phys loans) :
    After (fun recovered log' => ∃ loans', Out loans' log' ∧ Pending slot dci phys loans' ∧
      (recovered = true → loans' = [])) (ofUsb (Usb.recoverEndpoint slot dci)) log := by
  have hchannel : ∀ l ∈ loans, l.channel ≠ .xhci .command := fun l hl hl' => by
    simp [(hpending l hl).1] at hl'
  rw [Usb.recoverEndpoint]
  simp only [ofUsb_bind, after_bind]
  intro dequeue
  refine ((h.other rfl).command hchannel 0 _ .resetEndpoint slot).mono fun reset log' hreset => ?_
  have hnone : (if Usb.succeeded reset then (Usb.Job.command .resetEndpoint 0
      (Usb.endpointId dci) slot).recalled.map Channel.xhci else none) = none := by
    split <;> rfl
  rw [hnone, Ledger.drop_none] at hreset
  refine (hreset.command hchannel _ _ .setTrDequeue slot).mono fun moved log'' hmoved => ?_
  rw [recalled_endpoint] at hmoved
  refine ⟨_, hmoved, fun l hl => hpending l (List.mem_of_mem_filter hl), fun hrecovered => ?_⟩
  rw [Bool.and_eq_true] at hrecovered
  rw [if_pos hrecovered.2]
  exact Ledger.drop_eq_nil fun l hl => (hpending l hl).1

theorem returns_bulkChunk (slot : Nat) (dci : Fin 32) (dirIn : Bool) (data : Lib.Bytes) :
    Returns (ofUsb (Usb.bulkChunk slot dci dirIn data)) := by
  refine (returns_ofUsb_question fun _ => rfl).ofUsb_bind fun memory => ?_
  split
  · exact returns_ofUsb_pure _
  · rename_i phys _
    intro log h
    simp only [ofUsb_bind, after_bind]
    refine h.chunk.mono fun first log hfirst => ?_
    obtain ⟨loans, h, hpending⟩ := hfirst
    have hend (last : Usb.Answer) {loans log} (h : Out loans log)
        (hpending : Pending slot dci phys loans) : After (fun _ log' => Out [] log') (ofUsb (do
          let _ ← question (.free phys)
          pure (Usb.chunkResult dirIn data last))) log := fun r => h.free_pending hpending r
    split
    · simp only [ofUsb_bind, after_bind]
      refine (h.recoverEndpoint hpending).mono fun recovered log hrecovered => ?_
      obtain ⟨loans, h, hpending, hnil⟩ := hrecovered
      split
      · rename_i hr
        simp only [ofUsb_bind, after_bind]
        refine (hnil hr ▸ h).chunk.mono fun last log hlast => ?_
        obtain ⟨loans, h, hpending⟩ := hlast
        exact hend last h hpending
      · exact hend first h hpending
    · exact hend first h hpending

theorem returns_bulkLoop (slot : Nat) (dci : Fin 32) (maxTransfer : Nat) (dirIn : Bool)
    (done rest : Lib.Bytes) :
    Returns (ofUsb (Usb.bulkLoop slot dci maxTransfer dirIn done rest)) := by
  induction hlength : rest.length using Nat.strong_induction_on generalizing done rest with
  | h length ih =>
    rw [Usb.bulkLoop]
    split
    · exact returns_ofUsb_pure _
    · rename_i hrest
      have := List.length_pos_iff.mpr hrest
      refine (returns_bulkChunk slot dci dirIn _).ofUsb_bind fun x => ?_
      obtain ⟨result, bytes⟩ := x
      cases result with
      | error e => exact returns_ofUsb_pure _
      | ok got =>
        dsimp only
        split
        · exact returns_ofUsb_pure _
        · exact ih _ (by rw [List.length_drop]; omega) _ _ rfl

theorem returns_bulk (ctrl : Usb.Controller) (slot : Nat) (dirIn : Bool) (data : Lib.Bytes) :
    Returns (ofUsb (Usb.bulk ctrl slot dirIn data)) := by
  rw [Usb.bulk]
  split
  · exact returns_ofUsb_pure _
  · split
    · exact returns_ofUsb_pure _
    · exact returns_bulkLoop _ _ _ _ _ _

/-! ### Every call -/

theorem returns_xhci (ctrl : Usb.Controller) (call : Usb.Call) :
    Returns (ofUsb (ctrl.perform call)) := by
  cases call with
  | command param type slot =>
    exact (returns_commandFull param 0 type slot).ofUsb_bind fun _ => returns_ofUsb_pure _
  | enableSlot =>
    refine Returns.ofUsb_bind ?_ fun _ => returns_ofUsb_pure _
    exact (returns_commandFull 0 0 .enableSlot 0).ofUsb_bind fun _ => returns_ofUsb_pure _
  | control slot bm request value index data =>
    exact (returns_slotControl ctrl slot bm request value index data).ofUsb_bind
      fun _ => returns_ofUsb_pure _
  | bulk slot dirIn data =>
    exact (returns_bulk ctrl slot dirIn data).ofUsb_bind fun _ => returns_ofUsb_pure _

end Usb

theorem returns_perform (call : Call) : Returns (perform call) := by
  cases call with
  | nvmeRead | nvmeWrite => exact (returns_transferDev _ _ _ _ _).bind fun _ => Returns.pure ()
  | ahciRead | ahciWrite => exact (returns_sectors _ _ _ _ _).bind fun _ => Returns.pure ()
  | ehciControl => exact (returns_ehciControl _ _ _ _ _ _ _).bind fun _ => Returns.pure ()
  | ehciBulk => exact (returns_ehciBulk _ _ _ _ _).bind fun _ => Returns.pure ()
  | xhci ctrl call => exact (returns_xhci ctrl call).bind fun _ => Returns.pure ()

theorem returns_performAll (calls : List Call) : Returns (performAll calls) := by
  induction calls with
  | nil => exact Returns.pure ()
  | cons call calls ih => exact (returns_perform call).bind fun _ => ih

/-- No memory is freed that a device may use, in a run in which none is freed before the last
request with it has been answered or dropped. -/
theorem never_freed_in_use (calls : List Call) (log : List (Question × Answer))
    (h : (performAll calls).Transcript log ())
    (hpossible : Along Ledger.step Ledger.Possible .empty (log.map deed))
    (hintime : Along Ledger.step Ledger.InTime .empty (log.map deed)) :
    Along Ledger.step Ledger.Safe .empty (log.map deed) :=
  ((returns_performAll calls [] Holding.nil).of_transcript h hpossible hintime).1

/-- An AHCI read into the buffer 7, with the command table in block 3. -/
def ahciLog (ended : Option Ended) : List (Question × Answer) :=
  [(.ready 0, .yes), (.allocate 256, .block (some 3)), (.dmaAddress 3, .yes),
    (.dmaAddress 7, .yes), (.submit (.ahci 0) [ataCmdReadDmaExt, 5, 1] [3, 7], .waited 0 ended),
    (.free 3, .yes)]

theorem never_freed_in_use_ahci :
    Along Ledger.step Ledger.Safe .empty ((ahciLog (some ⟨0, [1, 0, 0]⟩)).map deed) :=
  never_freed_in_use [.ahciRead 0 5 1 7] (ahciLog (some ⟨0, [1, 0, 0]⟩))
    ⟨rfl, rfl, rfl, rfl, rfl, rfl, rfl⟩
    (by simp only [ahciLog, List.map_cons, List.map_nil, Along, deed]; decide)
    (by simp only [ahciLog, List.map_cons, List.map_nil, Along, deed]; decide)

/-- The command table is freed when the read has lasted too long. -/
theorem freed_in_use : ∃ (calls : List Call) (log : List (Question × Answer)),
    (performAll calls).Transcript log () ∧
      Along Ledger.step Ledger.Possible .empty (log.map deed) ∧
      ¬Along Ledger.step Ledger.Safe .empty (log.map deed) :=
  ⟨[.ahciRead 0 5 1 7], ahciLog none, ⟨rfl, rfl, rfl, rfl, rfl, rfl, rfl⟩,
    by simp only [ahciLog, List.map_cons, List.map_nil, Along, deed]; decide,
    by simp only [ahciLog, List.map_cons, List.map_nil, Along, deed]; decide⟩

end Vibra.Dma
