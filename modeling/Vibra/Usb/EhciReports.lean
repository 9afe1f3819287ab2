import Vibra.Usb.Toggles

/-! # What EHCI transfers report

The token of a qTD that has ended says how: bit 6 that the queue is halted, bits 5, 4 and 3 that
there was a data buffer error, a babble or a transaction error, and bits 30 to 16 how many bytes
are left.
-/

namespace Vibra.Usb.Ehci

open Lib (Bytes Dialog)
open Lib.Dialog (question After)
open Dma (tokenError tdResidual controlDataMax)

def maxTransfer : Nat := 16 * 1024

/-- What a token that is no longer active says. -/
def fault (token : Nat) : Option UsbError :=
  if token.testBit 7 then none
  else if token.testBit 5 || token.testBit 4 || token.testBit 3 then some .transferFailed
  else if token.testBit 6 then some .stall
  else none

def pidSetup : Nat := 2

/-- The tokens of the three qTDs of a control transfer. -/
structure Stages where
  setup : Nat
  data : Nat
  status : Nat

namespace Stages

def toList (stages : Stages) : List Nat := [stages.setup, stages.data, stages.status]

/-- What `wait_qtd` and `qtd_token` find: the status stage alone is waited for. -/
def answer (stages : Stages) : Dma.Answer :=
  .waited 0 (if stages.status.testBit 7 then none else some ⟨0, stages.toList⟩)

end Stages

/-- The chain that `control_raw` builds, with the bytes that go out. -/
structure Chain where
  setup : Bytes
  dirIn : Bool
  tokens : Stages
  out : Bytes

def byte (n : Nat) : UInt8 := UInt8.ofNat n

def Chain.build (bm request value index : Nat) (data : Bytes) : Chain :=
  let len := data.length
  let dirIn := dirInOf bm
  let statusPid := if 0 < len ∧ dirIn then pidOut else pidIn
  { setup := [byte bm, byte request, byte value, byte (value >>> 8), byte index,
      byte (index >>> 8), byte len, byte (len >>> 8)]
    dirIn
    tokens := ⟨qtdToken pidSetup 8 0 false, qtdToken (if dirIn then pidIn else pidOut) len 1 false,
      qtdToken statusPid 0 1 true⟩
    out := if dirIn then [] else data }

/-- What comes of a chain: the tokens when the driver has stopped to wait, and what has been put
into the data buffer. -/
inductive ChainReply where
  | noMemory
  | ended (stages : Stages) (received : Bytes)

def controlRaw (bm request value index : Nat) (data : Bytes) :
    Dialog Chain ChainReply (Except UsbError Nat × Bytes) :=
  if controlDataMax < data.length then pure (.error .unsupported, data)
  else do
    let reply ← question (Chain.build bm request value index data)
    match reply with
    | .noMemory => pure (.error .noMemory, data)
    | .ended stages received =>
      match Dma.controlResult bm data.length stages.answer with
      | .error e => pure (.error e, data)
      | .ok got =>
        if 0 < data.length ∧ dirInOf bm then pure (.ok got, received.takeD got 0 ++ data.drop got)
        else pure (.ok got, data)

/-- The tokens that a controller may write: for a bulk qTD of that direction and length, and for a
control transfer. A qTD that is not in the chain stays as it was built. -/
structure Controller where
  ends : Bool → Nat → Nat → Prop
  stages : Bool → Nat → Stages → Prop
  ended : ∀ {dirIn len token}, ends dirIn len token → token.testBit 7 = false
  left : ∀ {dirIn len token}, ends dirIn len token → tdResidual token ≤ len
  data_left : ∀ {dirIn len s}, stages dirIn len s → tdResidual s.data ≤ len
  no_data : ∀ {dirIn s}, stages dirIn 0 s →
    s.data = qtdToken (if dirIn then pidIn else pidOut) 0 1 false

namespace Controller

/-- The controller answers with a token that it may write, and puts as many bytes into the buffer
as the token says. -/
def Gives (c : Controller) : BusRequest × BusReply → Prop
  | (.qtd dirIn _ token _, .ended _ token' data) =>
    c.ends dirIn (tdResidual token) token' ∧
      (dirIn = true → data.length = tdResidual token - tdResidual token')
  | (_, .noMemory) | (_, .timeout _) => True
  | _ => False

def GivesChain (c : Controller) : Chain × ChainReply → Prop
  | (_, .noMemory) => True
  | (chain, .ended stages received) =>
    c.stages chain.dirIn (tdResidual chain.tokens.data) stages ∧ (chain.dirIn = true →
      received.length = tdResidual chain.tokens.data - tdResidual stages.data)

end Controller

def tokenOf : BusRequest × BusReply → Option Nat
  | (_, .ended _ token _) => some token
  | _ => none

/-- The bytes that have gone over the bus. -/
def moved : BusRequest × BusReply → Bytes
  | (.qtd true _ _ _, .ended _ _ data) => data
  | (.qtd false _ token out, .ended _ token' _) => out.take (tdResidual token - tdResidual token')
  | _ => []

def chainTokens : Chain × ChainReply → List Nat
  | (_, .ended stages _) => stages.toList
  | _ => []

def chainMoved : Chain × ChainReply → Bytes
  | (chain, .ended stages received) =>
    if chain.dirIn then received
    else chain.out.take (tdResidual chain.tokens.data - tdResidual stages.data)
  | _ => []

/-- A transfer that had these tokens and moved these bytes has this result; the buffer is what had
been done before it and the rest. -/
structure Reports (dirIn : Bool) (done rest : Bytes) (tokens : List Nat) (moved : Bytes)
    (result : Except UsbError Nat × Bytes) : Prop where
  faults : ∀ token ∈ tokens, ∀ e, fault token = some e → result.1 = .error e
  halted : ∀ n, result.1 = .ok n → ∀ token ∈ tokens, token.testBit 7 = false →
    token.testBit 6 = false
  count : ∀ n, result.1 = .ok n → n = done.length + moved.length
  bytes : ∀ n, result.1 = .ok n →
    if dirIn then result.2 = done ++ moved ++ rest.drop moved.length
    else result.2 = done ++ rest ∧ moved = rest.take moved.length

/-- Whatever the controller writes of what it may write. -/
structure Controller.Reported (c : Controller) (pipe : BulkPipe) : Prop where
  bulk : ∀ dirIn data toggle, After (fun result log => (∀ x ∈ log, c.Gives x) →
    Reports dirIn [] data (log.filterMap tokenOf) (log.flatMap moved) result)
    (pipe.bulk dirIn data toggle) []
  control : ∀ bm request value index data, After (fun result log => (∀ x ∈ log, c.GivesChain x) →
    Reports (dirInOf bm) [] data (log.flatMap chainTokens) (log.flatMap chainMoved) result)
    (controlRaw bm request value index data) []

def Seen (dirIn : Bool) (token : Nat) (e : UsbError) : Prop :=
  tokenError token = some e ∨
    tokenError token = none ∧ dirIn = false ∧ tdResidual token ≠ 0 ∧ e = .transferFailed

/-- The driver sees every fault of a bulk qTD; those of a control transfer in its first two stages,
with the last one ended; and a control transfer that it takes for a success has written all. -/
structure Controller.Legible (c : Controller) (maxTransfer : Nat) : Prop where
  bulk : ∀ dirIn len token, 0 < len → len ≤ maxTransfer → c.ends dirIn len token →
    ∀ e, fault token = some e → Seen dirIn token e
  control : ∀ dirIn len s, len ≤ controlDataMax → c.stages dirIn len s →
    ∀ token ∈ s.toList, ∀ e, fault token = some e → s.status.testBit 7 = false ∧
      (tokenError s.setup).or (tokenError s.data) = some e
  written : ∀ len s, len ≤ controlDataMax → c.stages false len s → s.status.testBit 7 = false →
    tokenError s.setup = none → tokenError s.data = none → tdResidual s.data = 0

section Tokens

variable {dirIn : Bool} {len token packets n : Nat} {data : Bytes} {e : UsbError}

theorem fault_of_halted (hended : token.testBit 7 = false) (h : fault token = none) :
    token.testBit 6 = false := by
  unfold fault at h
  rw [hended, if_neg Bool.false_ne_true] at h
  split at h
  · cases h
  · split at h
    · cases h
    · next hhalted => exact Bool.not_eq_true _ ▸ hhalted

theorem fault_ne_timeout (h : fault token = some e) : e ≠ .timeout := by
  rintro rfl
  unfold fault at h
  split at h
  · cases h
  · split at h
    · cases h
    · split at h
      · cases h
      · cases h

theorem seen_iff (hleft : tdResidual token ≤ len) :
    (BusReply.ended packets token data).transferred dirIn len = .error e ↔ Seen dirIn token e := by
  cases htoken : tokenError token with
  | some e' => simp [BusReply.transferred, Seen, htoken]
  | none =>
    have hwhole : len - tdResidual token ≠ len ↔ tdResidual token ≠ 0 := by omega
    simp only [BusReply.transferred, Seen, htoken, hwhole, reduceCtorEq, false_or, true_and]
    by_cases hshort : dirIn = false ∧ tdResidual token ≠ 0
    · simp [hshort, eq_comm]
    · simp only [if_neg hshort, reduceCtorEq, false_iff]
      exact fun h => hshort ⟨h.1, h.2.1⟩

theorem transferred_ok (h : (BusReply.ended packets token data).transferred dirIn len = .ok n) :
    n = len - tdResidual token ∧ (dirIn = false → n = len) := by
  cases htoken : tokenError token with
  | some e => simp [BusReply.transferred, htoken] at h
  | none =>
    simp only [BusReply.transferred, htoken] at h
    split at h
    · cases h
    · next hwhole =>
        cases h
        exact ⟨rfl, fun hout => not_not.1 fun hne => hwhole ⟨hout, hne⟩⟩

theorem tdResidual_qtdToken {pid total : Nat} (hpid : pid < 4) (htotal : total < 2 ^ 15) (dt : Nat)
    (ioc : Bool) : tdResidual (qtdToken pid total dt ioc) = total := by
  have hlow {k : Nat} (h : k < 2 ^ 16) : k / 2 ^ 16 = 0 := Nat.div_eq_of_lt h
  have hpid' : pid <<< 8 < 2 ^ 16 := by
    rw [Nat.shiftLeft_eq]
    omega
  have hioc : (if ioc then 1 <<< 15 else 0) < 2 ^ 16 := by cases ioc <;> decide
  have hmask : total &&& 0x7FFF = total := by
    rw [Nat.and_two_pow_sub_one_eq_mod total 15]
    exact Nat.mod_eq_of_lt htotal
  have hdt : dt <<< 31 / 2 ^ 16 % 2 ^ 15 = 0 := by
    rw [Nat.shiftLeft_eq]
    omega
  have hfield : total <<< 16 / 2 ^ 16 = total := by
    rw [Nat.shiftLeft_eq]
    exact Nat.mul_div_cancel _ (by decide)
  unfold tdResidual qtdToken
  rw [hmask]
  simp only [Nat.or_div_two_pow, Nat.or_mod_two_pow, hlow hpid', hlow hioc, hdt, hfield,
    Nat.mod_eq_of_lt htotal]
  simp

end Tokens

namespace Reports

variable {dirIn : Bool} {done rest m sent : Bytes} {tokens : List Nat} {token : Nat}
  {result : Except UsbError Nat × Bytes}

theorem error {e : UsbError} (buffer : Bytes)
    (h : ∀ token ∈ tokens, ∀ e', fault token = some e' → e' = e) :
    Reports dirIn done rest tokens sent (.error e, buffer) where
  faults := fun token htoken e' hfault => congrArg Except.error (h token htoken e' hfault).symm
  halted := nofun
  count := nofun
  bytes := nofun

theorem finished : Reports dirIn done rest [] [] (.ok done.length, done ++ rest) where
  faults := fun token htoken => absurd htoken List.not_mem_nil
  halted := fun n hn token htoken => absurd htoken List.not_mem_nil
  count := fun n hn => (Except.ok.inj hn).symm
  bytes := fun n hn => by simp

theorem cons (hended : token.testBit 7 = false) (hfault : fault token = none)
    (hout : dirIn = false → m = rest.take m.length)
    (h : Reports dirIn (done ++ m) (rest.drop m.length) tokens sent result) :
    Reports dirIn done rest (token :: tokens) (m ++ sent) result where
  faults := by
    intro token' htoken' e he
    rcases List.mem_cons.1 htoken' with rfl | htail
    · rw [hfault] at he
      cases he
    · exact h.faults token' htail e he
  halted := by
    intro n hn token' htoken' hended'
    rcases List.mem_cons.1 htoken' with rfl | htail
    · exact fault_of_halted hended hfault
    · exact h.halted n hn token' htail hended'
  count := by
    intro n hn
    rw [h.count n hn, List.length_append, List.length_append, Nat.add_assoc]
  bytes := by
    intro n hn
    have hbytes := h.bytes n hn
    cases dirIn with
    | true =>
      rw [if_pos rfl] at hbytes ⊢
      rw [hbytes, List.drop_drop, List.length_append, List.append_assoc done]
    | false =>
      have hm := hout rfl
      rw [if_neg Bool.false_ne_true] at hbytes ⊢
      constructor
      · rw [hbytes.1, List.append_assoc]
        congr 1
        nth_rewrite 1 [hm]
        exact List.take_append_drop ..
      · rw [List.length_append, List.take_add, ← hm, ← hbytes.2]

end Reports

section Bulk

variable {c : Controller} {pipe : BulkPipe}

theorem moved_eq {dirIn : Bool} {qh : Qh} {chunk data : Bytes} {dt packets token n : Nat}
    (hchunk : chunk.length < 2 ^ 15) (request : BusRequest)
    (hrequest : request = .qtd dirIn qh (qtdToken (if dirIn then pidIn else pidOut) chunk.length dt
      true) (if dirIn then [] else chunk))
    (hgives : c.Gives (request, .ended packets token data))
    (hok : (BusReply.ended packets token data).transferred dirIn chunk.length = .ok n) :
    (if dirIn then (BusReply.ended packets token data).data.takeD n 0 else chunk) =
        moved (request, .ended packets token data) ∧
      (moved (request, .ended packets token data)).length = n ∧
      (dirIn = false → moved (request, .ended packets token data) = chunk) := by
  subst hrequest
  have htotal : tdResidual (qtdToken (if dirIn then pidIn else pidOut) chunk.length dt true) =
      chunk.length := tdResidual_qtdToken (by split <;> decide) hchunk dt true
  rcases transferred_ok hok with ⟨hn, hwhole⟩
  cases dirIn with
  | true =>
    have hdata := hgives.2 rfl
    rw [htotal, ← hn] at hdata
    refine ⟨?_, hdata, nofun⟩
    rw [← hdata]
    simp [moved, BusReply.data, List.takeD_eq_take]
  | false =>
    have hmoved : moved (.qtd false qh (qtdToken (if false then pidIn else pidOut) chunk.length dt
        true) chunk, .ended packets token data) = chunk := by
      show chunk.take _ = chunk
      rw [htotal, ← hn, hwhole rfl, List.take_length]
    exact ⟨hmoved.symm, (congrArg List.length hmoved).trans (hwhole rfl).symm, fun _ => hmoved⟩

theorem bulkInner_reports (hlegible : c.Legible pipe.maxTransfer)
    (hmax : pipe.maxTransfer < 2 ^ 15) {dirIn : Bool} {done rest : Bytes} {dt : Nat}
    {log : List (BusRequest × BusReply)} {result : Except UsbError Nat × Bytes}
    (hgives : ∀ x ∈ log, c.Gives x)
    (h : (pipe.bulkInner dirIn done rest dt).Transcript log result) :
    Reports dirIn done rest (log.filterMap tokenOf) (log.flatMap moved) result := by
  induction hlength : rest.length using Nat.strongRecOn generalizing done rest dt log with
  | ind length ih =>
  subst hlength
  rw [BulkPipe.bulkInner] at h
  by_cases hrest : rest = []
  · rw [dif_pos hrest] at h
    rcases Lib.Dialog.transcript_pure.1 h with ⟨rfl, rfl⟩
    have hfinished : Reports dirIn done rest [] [] (.ok done.length, done ++ rest) :=
      Reports.finished
    rw [hrest, List.append_nil] at hfinished
    rw [hrest]
    exact hfinished
  rw [dif_neg hrest] at h
  rcases log with _ | ⟨⟨request, reply⟩, log⟩
  · exact h.elim
  rcases Lib.Dialog.transcript_question.1 h with ⟨hrequest, h⟩
  have hreply := hgives _ (List.mem_cons_self ..)
  have hlater := fun x hx => hgives x (List.mem_cons_of_mem _ hx)
  generalize hchunk : rest.take pipe.maxTransfer = chunk at h hrequest
  have hlen : chunk.length = min pipe.maxTransfer rest.length := by
    rw [← hchunk]
    exact List.length_take
  have hrestpos := List.length_pos_iff.2 hrest
  have hpos : 0 < chunk.length := by
    have hpositive := pipe.positive
    omega
  cases reply with
  | noMemory =>
    rcases Lib.Dialog.transcript_pure.1 h with ⟨rfl, rfl⟩
    exact Reports.error _ (by simp [tokenOf])
  | timeout packets =>
    rcases Lib.Dialog.transcript_pure.1 h with ⟨rfl, rfl⟩
    exact Reports.error _ (by simp [tokenOf])
  | control done =>
    subst hrequest
    exact hreply.elim
  | ended packets token data =>
    have hends : c.ends dirIn chunk.length token := by
      have hpid : (if dirIn then pidIn else pidOut) < 4 := by split <;> decide
      have hgives' := hreply
      rw [← hrequest] at hgives'
      rw [← tdResidual_qtdToken hpid (show chunk.length < 2 ^ 15 by omega) dt true]
      exact hgives'.1
    have hseen {e : UsbError} (he : fault token = some e) :
        (BusReply.ended packets token data).transferred dirIn chunk.length = .error e :=
      (seen_iff (c.left hends)).2 (hlegible.bulk _ _ _ hpos (by omega) hends e he)
    cases htransferred : (BusReply.ended packets token data).transferred dirIn chunk.length with
    | error e =>
      simp only [htransferred] at h
      rcases Lib.Dialog.transcript_pure.1 h with ⟨rfl, rfl⟩
      apply Reports.error
      intro token' htoken' e' he
      rw [List.mem_singleton.1 htoken'] at he
      exact Except.error.inj ((hseen he).symm.trans htransferred)
    | ok n =>
      have hfault : fault token = none := by
        by_contra hfault
        rcases Option.ne_none_iff_exists'.1 hfault with ⟨e, he⟩
        cases (hseen he).symm.trans htransferred
      rcases moved_eq (by omega) request hrequest.symm hreply htransferred with
        ⟨hmoved, hn, hwhole⟩
      simp only [htransferred, hmoved] at h
      have hnle : n ≤ chunk.length := (transferred_ok htransferred).1 ▸ Nat.sub_le ..
      show Reports dirIn done rest (token :: log.filterMap tokenOf)
        (moved (request, .ended packets token data) ++ log.flatMap moved) result
      apply Reports.cons (c.ended hends) hfault
      · intro hout
        rw [hwhole hout, hlen, ← hchunk]
        exact List.take_eq_take_min
      · rw [hn]
        split at h
        · rcases Lib.Dialog.transcript_pure.1 h with ⟨rfl, rfl⟩
          have hfinished : Reports dirIn (done ++ moved (request, .ended packets token data))
              (rest.drop n) [] [] _ := Reports.finished
          rw [List.length_append, hn] at hfinished
          exact hfinished
        · next hwhole' =>
          have heq : n = chunk.length := by omega
          subst heq
          exact ih _ (by rw [List.length_drop]; omega) hlater h rfl

end Bulk

/-! ## Control transfers -/

section Control

variable {c : Controller} {bm request value index : Nat} {data : Bytes}

theorem controlResult_answer (bm len : Nat) (s : Stages) :
    Dma.controlResult bm len s.answer =
      if s.status.testBit 7 then .error .timeout
      else match (tokenError s.setup).or (tokenError s.data) with
        | some e => .error e
        | none => if 0 < len ∧ dirInOf bm then .ok (len - tdResidual s.data) else .ok len := by
  cases hstatus : s.status.testBit 7 with
  | true => simp [Dma.controlResult, Stages.answer, Dma.Answer.words, hstatus]
  | false =>
    cases htoken : (tokenError s.setup).or (tokenError s.data) with
    | none => simp [Dma.controlResult, Stages.answer, Dma.Answer.words, Stages.toList, hstatus,
        htoken]
    | some e => simp [Dma.controlResult, Stages.answer, Dma.Answer.words, Stages.toList, hstatus,
        htoken]

theorem controlResult_ok {len n : Nat} {s : Stages}
    (h : Dma.controlResult bm len s.answer = .ok n) : s.status.testBit 7 = false ∧
      tokenError s.setup = none ∧ tokenError s.data = none ∧
      n = if 0 < len ∧ dirInOf bm then len - tdResidual s.data else len := by
  rw [controlResult_answer] at h
  cases hstatus : s.status.testBit 7 with
  | true => simp [hstatus] at h
  | false =>
    cases hor : (tokenError s.setup).or (tokenError s.data) with
    | some e => simp [hstatus, hor] at h
    | none =>
      rcases Option.or_eq_none_iff.1 hor with ⟨hsetup, hdata⟩
      simp only [hstatus, hor, Bool.false_eq_true, if_false] at h
      have hn : n = if 0 < len ∧ dirInOf bm then len - tdResidual s.data else len := by
        by_cases hread : 0 < len ∧ dirInOf bm
        · rw [if_pos hread] at h ⊢
          exact (Except.ok.inj h).symm
        · rw [if_neg hread] at h ⊢
          exact (Except.ok.inj h).symm
      exact ⟨rfl, hsetup, hdata, hn⟩

theorem chainTokens_singleton (chain : Chain) (s : Stages) (received : Bytes) :
    [(chain, ChainReply.ended s received)].flatMap chainTokens = s.toList :=
  List.flatMap_singleton ..

theorem build_residual (hdata : data.length ≤ controlDataMax) :
    tdResidual (Chain.build bm request value index data).tokens.data = data.length := by
  apply tdResidual_qtdToken
  · split <;> decide
  · exact Nat.lt_of_le_of_lt hdata (by decide)

theorem of_controlRaw
    {P : Except UsbError Nat × Bytes → List (Chain × ChainReply) → Prop}
    (h : After P (controlRaw bm request value index data) [])
    (hdata : data.length ≤ controlDataMax) (s : Stages) (received : Bytes) :
    ∃ buffer, P (Dma.controlResult bm data.length s.answer, buffer)
      [(Chain.build bm request value index data, .ended s received)] := by
  rw [controlRaw, if_neg (Nat.not_lt.2 hdata)] at h
  have hasked := (Lib.Dialog.after_question _).1 ((Lib.Dialog.after_bind _ _).1 h)
    (.ended s received)
  cases hresult : Dma.controlResult bm data.length s.answer with
  | error e =>
    simp only [hresult] at hasked
    exact ⟨_, hasked⟩
  | ok n =>
    simp only [hresult] at hasked
    split at hasked
    · exact ⟨_, hasked⟩
    · exact ⟨_, hasked⟩

theorem chainMoved_eq {s : Stages} {received : Bytes} {n : Nat} (request value index : Nat)
    (hdata : data.length ≤ controlDataMax)
    (hreceived : dirInOf bm = true → received.length = data.length - tdResidual s.data)
    (hok : Dma.controlResult bm data.length s.answer = .ok n)
    (hwritten : dirInOf bm = false → tdResidual s.data = 0) :
    let sent := chainMoved (Chain.build bm request value index data, .ended s received)
    n = sent.length ∧
      (dirInOf bm = true → (if 0 < data.length ∧ dirInOf bm then received.takeD n 0 ++ data.drop n
        else data) = sent ++ data.drop n) ∧
      (dirInOf bm = false → sent = data) := by
  have hn := (controlResult_ok hok).2.2.2
  cases hdir : dirInOf bm with
  | true =>
    have hsent : chainMoved (Chain.build bm request value index data, .ended s received) =
      received := if_pos hdir
    have hlength := hreceived hdir
    rw [hsent]
    by_cases hpos : 0 < data.length
    · rw [if_pos ⟨hpos, hdir⟩] at hn
      refine ⟨hn.trans hlength.symm, fun _ => ?_, nofun⟩
      rw [if_pos ⟨hpos, rfl⟩, hn, ← hlength, List.takeD_eq_take _ (Nat.le_refl _),
        List.take_length]
    · have hempty : data.length = 0 := by omega
      rw [if_neg fun h => hpos h.1] at hn
      have hnone : received = [] := List.length_eq_zero_iff.1 (by omega)
      refine ⟨by omega, fun _ => ?_, nofun⟩
      rw [if_neg fun h => hpos h.1, hnone, hn, hempty]
      rfl
  | false =>
    have hout : ¬dirInOf bm = true := hdir ▸ Bool.false_ne_true
    have hsent : chainMoved (Chain.build bm request value index data, .ended s received) =
        data := by
      have htake : chainMoved (Chain.build bm request value index data, .ended s received) =
          (if dirInOf bm then [] else data).take (tdResidual (Chain.build bm request value index
            data).tokens.data - tdResidual s.data) := if_neg hout
      rw [htake, build_residual hdata, hwritten hdir, hdir]
      exact List.take_length
    rw [if_neg fun h => hout h.2] at hn
    rw [hsent]
    exact ⟨hn, nofun, fun _ => rfl⟩

theorem controlRaw_reports {maxTransfer : Nat} (hlegible : c.Legible maxTransfer)
    {log : List (Chain × ChainReply)} {result : Except UsbError Nat × Bytes}
    (hgives : ∀ x ∈ log, c.GivesChain x)
    (h : (controlRaw bm request value index data).Transcript log result) :
    Reports (dirInOf bm) [] data (log.flatMap chainTokens) (log.flatMap chainMoved) result := by
  unfold controlRaw at h
  by_cases hlong : controlDataMax < data.length
  · rw [if_pos hlong] at h
    rcases Lib.Dialog.transcript_pure.1 h with ⟨rfl, rfl⟩
    exact Reports.error _ fun token htoken => absurd htoken List.not_mem_nil
  rw [if_neg hlong] at h
  have hdata := Nat.not_lt.1 hlong
  rcases log with _ | ⟨⟨chain, reply⟩, log⟩
  · exact h.elim
  rcases Lib.Dialog.transcript_question.1 h with ⟨hchain, hrest⟩
  subst hchain
  cases reply with
  | noMemory =>
    rcases Lib.Dialog.transcript_pure.1 hrest with ⟨rfl, rfl⟩
    exact Reports.error _ fun token htoken => absurd htoken List.not_mem_nil
  | ended s received =>
    have hstages := hgives _ (List.mem_cons_self ..)
    rw [Controller.GivesChain, build_residual hdata] at hstages
    have hresult := controlResult_answer bm data.length s
    have hfaults {token : Nat} (htoken : token ∈ s.toList) {e : UsbError}
        (he : fault token = some e) : Dma.controlResult bm data.length s.answer = .error e := by
      rcases hlegible.control _ _ s hdata hstages.1 token htoken e he with ⟨hstatus, hor⟩
      rw [hresult, hstatus, hor]
      rfl
    cases hanswer : Dma.controlResult bm data.length s.answer with
    | error e =>
      simp only [hanswer] at hrest
      rcases Lib.Dialog.transcript_pure.1 hrest with ⟨rfl, rfl⟩
      apply Reports.error
      intro token htoken e' he
      rw [chainTokens_singleton] at htoken
      exact Except.error.inj ((hfaults htoken he).symm.trans hanswer)
    | ok n =>
      simp only [hanswer] at hrest
      rcases controlResult_ok hanswer with ⟨hstatus, hsetup, htoken, hn⟩
      have hmoved := chainMoved_eq request value index hdata hstages.2 hanswer fun hout =>
        hlegible.written _ s hdata (hout ▸ hstages.1) hstatus hsetup htoken
      rcases hmoved with ⟨hlength, hread, hwritten⟩
      have hfinished : log = [] ∧ result = (.ok n, if 0 < data.length ∧ dirInOf bm then
          received.takeD n 0 ++ data.drop n else data) := by
        by_cases hread : 0 < data.length ∧ dirInOf bm
        · rw [if_pos hread] at hrest ⊢
          exact (Lib.Dialog.transcript_pure.1 hrest).imp_right Eq.symm
        · rw [if_neg hread] at hrest ⊢
          exact (Lib.Dialog.transcript_pure.1 hrest).imp_right Eq.symm
      rcases hfinished with ⟨rfl, rfl⟩
      have hsafe {token : Nat} (htoken : token ∈ s.toList) : fault token = none := by
        by_contra hfault
        rcases Option.ne_none_iff_exists'.1 hfault with ⟨e, he⟩
        cases (hfaults htoken he).symm.trans hanswer
      rw [chainTokens_singleton, List.flatMap_singleton]
      exact {
        faults := fun token htoken e he => by
          rw [hsafe htoken] at he
          cases he
        halted := fun _ _ token htoken hended => fault_of_halted hended (hsafe htoken)
        count := fun m hm => by
          rw [← Except.ok.inj hm, List.length_nil, Nat.zero_add]
          exact hlength
        bytes := fun _ _ => by
          rw [List.nil_append, ← hlength]
          by_cases hdir : dirInOf bm = true
          · rw [if_pos hdir]
            exact hread hdir
          · have hsent := hwritten (Bool.eq_false_of_not_eq_true hdir)
            have hwhole : data.take n = data := by rw [hlength, hsent, List.take_length]
            rw [if_neg hdir, if_neg fun h => hdir h.2, hsent]
            exact ⟨rfl, hwhole.symm⟩ }

end Control

/-! ## What has to be seen -/

section Exactly

variable {c : Controller} {pipe : BulkPipe}

theorem legible_bulk (hmax : pipe.maxTransfer < 2 ^ 15) (hreported : c.Reported pipe)
    (dirIn : Bool) (len token : Nat) (hpos : 0 < len) (hlen : len ≤ pipe.maxTransfer)
    (hends : c.ends dirIn len token) (e : UsbError) (he : fault token = some e) :
    Seen dirIn token e := by
  have hdata : (List.replicate len (0 : UInt8)).length = len := List.length_replicate
  have hnonempty : List.replicate len (0 : UInt8) ≠ [] :=
    List.ne_nil_of_length_pos (hdata.symm ▸ hpos)
  rcases pipe.of_bulk (hreported.bulk dirIn (List.replicate len 0) 0) hnonempty (hdata.symm ▸ hlen)
    (.ended 0 token (List.replicate (len - tdResidual token) 0)) with ⟨buffer, hreports⟩
  rw [hdata] at hreports
  have hpid : (if dirIn then pidIn else pidOut) < 4 := by split <;> decide
  have hasked := tdResidual_qtdToken hpid (Nat.lt_of_le_of_lt hlen hmax) (0 % 2) true
  have hgiven := hreports fun x hx => by
    rw [List.mem_singleton.1 hx, Controller.Gives, hasked]
    exact ⟨hends, fun _ => List.length_replicate⟩
  have hfailed : (BusReply.ended 0 token (List.replicate (len - tdResidual token) 0)).transferred
      dirIn len = .error e := hgiven.faults token (List.mem_singleton.2 rfl) e he
  exact (seen_iff (c.left hends)).1 hfailed

theorem exists_dirInOf (dirIn : Bool) : ∃ bm, dirInOf bm = dirIn := by
  cases dirIn with
  | true => exact ⟨0x80, rfl⟩
  | false => exact ⟨0, rfl⟩

theorem reports_control (hreported : c.Reported pipe) {dirIn : Bool} {len : Nat} {s : Stages}
    (hlen : len ≤ controlDataMax) (hstages : c.stages dirIn len s) : ∃ bm buffer sent,
      dirInOf bm = dirIn ∧ (dirIn = false → sent = List.replicate (len - tdResidual s.data) 0) ∧
        Reports dirIn [] (List.replicate len 0) s.toList sent
          (Dma.controlResult bm len s.answer, buffer) := by
  rcases exists_dirInOf dirIn with ⟨bm, rfl⟩
  have hdata : (List.replicate len (0 : UInt8)).length = len := List.length_replicate
  have hmax := hdata.symm ▸ hlen
  rcases of_controlRaw (hreported.control bm 0 0 0 (List.replicate len 0)) hmax s
    (List.replicate (len - tdResidual s.data) 0) with ⟨buffer, hreports⟩
  rw [hdata] at hreports
  have hgiven := hreports fun x hx => by
    rw [List.mem_singleton.1 hx, Controller.GivesChain, build_residual hmax, hdata]
    exact ⟨hstages, fun _ => List.length_replicate⟩
  rw [chainTokens_singleton, List.flatMap_singleton] at hgiven
  refine ⟨bm, buffer, _, rfl, ?_, hgiven⟩
  intro hdir
  have hout : ¬dirInOf bm = true := hdir ▸ Bool.false_ne_true
  have htake : chainMoved (Chain.build bm 0 0 0 (List.replicate len 0), .ended s
      (List.replicate (len - tdResidual s.data) 0)) =
      (if dirInOf bm then [] else List.replicate len 0).take (tdResidual (Chain.build bm 0 0 0
        (List.replicate len 0)).tokens.data - tdResidual s.data) :=
    if_neg hout
  rw [htake, build_residual hmax, hdir, hdata]
  simp

theorem legible_control (hreported : c.Reported pipe) (dirIn : Bool) (len : Nat) (s : Stages)
    (hlen : len ≤ controlDataMax) (hstages : c.stages dirIn len s) (token : Nat)
    (htoken : token ∈ s.toList) (e : UsbError) (he : fault token = some e) :
    s.status.testBit 7 = false ∧ (tokenError s.setup).or (tokenError s.data) = some e := by
  rcases reports_control hreported hlen hstages with ⟨bm, buffer, sent, -, -, hreports⟩
  have hfailed := hreports.faults token htoken e he
  rw [controlResult_answer] at hfailed
  cases hstatus : s.status.testBit 7 with
  | true =>
    rw [hstatus, if_pos rfl] at hfailed
    exact absurd (Except.error.inj hfailed).symm (fault_ne_timeout he)
  | false =>
    refine ⟨rfl, ?_⟩
    cases hor : (tokenError s.setup).or (tokenError s.data) with
    | some e' =>
      simp only [hstatus, hor, Bool.false_eq_true, if_false] at hfailed
      exact congrArg some (Except.error.inj hfailed)
    | none =>
      simp only [hstatus, hor, Bool.false_eq_true, if_false] at hfailed
      split at hfailed
      · cases hfailed
      · cases hfailed

theorem legible_written (hreported : c.Reported pipe) (len : Nat) (s : Stages)
    (hlen : len ≤ controlDataMax) (hstages : c.stages false len s)
    (hstatus : s.status.testBit 7 = false) (hsetup : tokenError s.setup = none)
    (hdata : tokenError s.data = none) : tdResidual s.data = 0 := by
  rcases reports_control hreported hlen hstages with ⟨bm, buffer, sent, hout, hsent, hreports⟩
  have hok : Dma.controlResult bm len s.answer = .ok len := by
    rw [controlResult_answer, hstatus, hsetup, hdata, hout]
    simp
  have hcount := hreports.count len hok
  rw [hsent rfl, List.length_nil, List.length_replicate] at hcount
  have hleft := c.data_left hstages
  omega

/-- Every transfer reports what happened exactly when the driver sees what the controller may
write. -/
theorem reports_iff (c : Controller) (pipe : BulkPipe) (hmax : pipe.maxTransfer ≤ maxTransfer) :
    c.Reported pipe ↔ c.Legible pipe.maxTransfer := by
  have hfield : pipe.maxTransfer < 2 ^ 15 := Nat.lt_of_le_of_lt hmax (by decide)
  constructor
  · intro hreported
    exact ⟨legible_bulk hfield hreported, legible_control hreported, legible_written hreported⟩
  · intro hlegible
    constructor
    · intro dirIn data toggle
      rw [Lib.Dialog.after_iff_transcript]
      intro log result h hgives
      rw [List.nil_append] at hgives ⊢
      unfold BulkPipe.bulk at h
      split at h
      · next hempty =>
          rcases Lib.Dialog.transcript_pure.1 h with ⟨rfl, rfl⟩
          exact Reports.finished
      · exact bulkInner_reports hlegible hfield hgives h
    · intro bm request value index data
      rw [Lib.Dialog.after_iff_transcript]
      intro log result h hgives
      exact controlRaw_reports hlegible hgives h

/-- A controller whose transfers move all there is. -/
def flawless : Controller where
  ends := fun _ _ token => token = 0
  stages := fun _ len s => 0 < len ∧ s = ⟨0, 0, 0⟩
  ended := by
    rintro _ _ _ rfl
    exact Nat.zero_testBit 7
  left := by
    rintro _ _ _ rfl
    exact Nat.zero_le _
  data_left := by
    rintro _ _ _ ⟨-, rfl⟩
    exact Nat.zero_le _
  no_data := fun h => absurd h.1 (Nat.lt_irrefl 0)

theorem flawless_reported : flawless.Reported stick := by
  apply (reports_iff flawless stick (by decide)).2
  have hfault : fault 0 = none := by decide
  constructor
  · rintro dirIn len token - - rfl e he
    cases hfault.symm.trans he
  · rintro dirIn len s - ⟨-, rfl⟩ token htoken e he
    have hzero : token = 0 := by simpa [Stages.toList] using htoken
    subst hzero
    cases hfault.symm.trans he
  · rintro len s - ⟨-, rfl⟩ - - -
    rfl

/-- A controller that finds the endpoint stalled when a sector is read. -/
def stalling : Controller where
  ends := fun dirIn len token => dirIn = true ∧ len = 512 ∧ token = 0x2000040
  stages := fun _ _ _ => False
  ended := by
    rintro _ _ _ ⟨-, -, rfl⟩
    decide
  left := by
    rintro _ _ _ ⟨-, rfl, rfl⟩
    decide
  data_left := False.elim
  no_data := False.elim

theorem stall_not_reported : ¬stalling.Reported stick := by
  intro hreported
  have hseen := legible_bulk (by decide) hreported true 512 0x2000040 (by decide) (by decide)
    ⟨rfl, rfl, rfl⟩ .stall (by decide)
  rcases hseen with hstall | ⟨-, hout, -⟩
  · exact absurd hstall (by decide)
  · cases hout

end Exactly

end Vibra.Usb.Ehci
