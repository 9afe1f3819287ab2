import Vibra.Lib.Runs
import Vibra.Usb.EventRing

/-! # Completions

A wait takes an event by its type, slot and endpoint. It is the event of the wait's own job as
long as no job of an earlier request is left that the wait could take for it.
-/

namespace Vibra.Usb

open Lib (Along Bytes Dialog Memory)
open Lib.Dialog

/-- If a wait has returned an event, it is that of its own job, with the bytes that this has
moved. -/
def Owned : Request × Answer → Prop
  | (.submit job, .waited own (some post) bytes) =>
    own.job = job ∧ post.source = some own ∧ post.event.param = own.address ∧
      post.moved.length ≤ job.length ∧
      post.event.transferLength = job.length - post.moved.length ∧
      (job.target.isSome → bytes.take post.moved.length = post.moved)
  | _ => True

/-- What a transfer that went through has moved. -/
def delivered : Request × Answer → Bytes
  | (.submit (.transfer ..), .waited _ (some post) _) =>
    if post.event.Good then post.moved else []
  | _ => []

/-- A bulk transfer returns what its own jobs have moved, and Enable Slot the slot that its own
command has. -/
def Finished.Genuine (f : Finished) : Prop :=
  match f.call, f.result with
  | .bulk _ dirIn _, .transferred (.ok n) data =>
    n = (f.log.flatMap delivered).length ∧ (dirIn → data.take n = f.log.flatMap delivered)
  | .enableSlot, .slot (some slot) =>
    ∃ own post bytes, post.event.slot = slot ∧ post.source = some own ∧
      (.submit (.command .enableSlot 0 0 0), .waited own (some post) bytes) ∈ f.log
  | _, _ => True

/-! ## Calls -/

variable {log : List (Request × Answer)} {slot dci : Nat} {dirIn : Bool}

theorem flatMap_delivered_snoc (x : Request × Answer) :
    (log ++ [x]).flatMap delivered = log.flatMap delivered ++ delivered x := by
  rw [List.flatMap_append, List.flatMap_singleton]

theorem delivered_of_failed {job : Job} {answer : Answer} (h : failed answer.event) :
    delivered (.submit job, answer) = [] := by
  cases job with
  | command => rfl
  | transfer =>
    match answer with
    | .waited _ (some post) _ =>
      have hbad : ¬post.event.Good := by simpa [failed, Answer.event] using h
      exact if_neg hbad
    | .waited _ none _ | .buffer _ | .freed | .pointer _ => rfl

theorem recoverEndpoint_after (log : List (Request × Answer)) :
    After (fun _ log' => log'.flatMap delivered = log.flatMap delivered)
      (recoverEndpoint slot dci) log := by
  simp only [recoverEndpoint, commandFull, after_bind, after_question, after_pure,
    flatMap_delivered_snoc, List.append_assoc]
  intro dequeue reset dequeueTrb
  simp [delivered]

theorem chunkResult_owned {data : Bytes} {phys n : Nat} {answer : Answer} {bytes : Bytes}
    (howned : Owned (.submit (chunkJob slot dci phys dirIn data), answer))
    (h : chunkResult dirIn data answer = (.ok n, bytes)) :
    let got := delivered (.submit (chunkJob slot dci phys dirIn data), answer)
    n = got.length ∧ n ≤ data.length ∧ bytes.length = data.length ∧
      (dirIn → bytes.take n = got) := by
  match answer with
  | .waited own (some post) buffer =>
    obtain ⟨-, -, -, hle, hlength, hcontent⟩ := howned
    replace hle : post.moved.length ≤ data.length := hle
    have hgot : received data.length post.event = post.moved.length := by
      rw [received, hlength]
      change data.length - min (data.length - post.moved.length) data.length = _
      omega
    by_cases hgood : post.event.Good
    · have hstall : post.event.completionCode ≠ ccStall := by
        rcases hgood with hcode | hcode <;> rw [hcode] <;> decide
      simp only [chunkResult, Answer.event, Option.map_some, if_neg hstall, hgood, not_true_eq_false,
        if_false, hgot, Answer.bytes, Prod.mk.injEq, Except.ok.injEq] at h
      obtain ⟨rfl, rfl⟩ := h
      have hdelivered : delivered (.submit (chunkJob slot dci phys dirIn data),
          .waited own (some post) buffer) = post.moved := if_pos hgood
      rw [hdelivered]
      refine ⟨rfl, hle, ?_, ?_⟩
      · cases dirIn with
        | false => rfl
        | true =>
          rw [if_pos rfl, hcontent rfl, List.length_append, List.length_drop]
          omega
      · rintro rfl
        rw [if_pos rfl, hcontent rfl, List.take_left' rfl]
    · simp only [chunkResult, Answer.event, Option.map_some, hgood, not_false_eq_true, if_true] at h
      split at h <;> cases h
  | .waited _ none _ | .buffer _ | .freed | .pointer _ =>
    simp only [chunkResult, Answer.event, Option.map_none] at h
    cases h

/-- What has been delivered since `log`, if every wait returned its own event. -/
def Brings (log : List (Request × Answer)) (dirIn : Bool) (before data : Bytes) (n : Nat)
    (log' : List (Request × Answer)) : Prop :=
  ∃ got, log'.flatMap delivered = log.flatMap delivered ++ got ∧ n = before.length + got.length ∧
    (dirIn → data.take n = before ++ got)

theorem chunkEnd_after {data : Bytes} {phys : Nat} {last : Answer}
    {log log' : List (Request × Answer)}
    (hlast : (.submit (chunkJob slot dci phys dirIn data), last) ∈ log')
    (hlog : log'.flatMap delivered = log.flatMap delivered ++
      delivered (.submit (chunkJob slot dci phys dirIn data), last)) :
    After (fun r log' => (∀ x ∈ log', Owned x) → ∀ n, r.1 = .ok n →
        Brings log dirIn [] r.2 n log' ∧ n ≤ data.length ∧ r.2.length = data.length)
      (do
        let _ ← question (.free phys)
        pure (chunkResult dirIn data last)) log' := by
  simp only [after_bind, after_question, after_pure]
  intro answer howned n hn
  have hresult : chunkResult dirIn data last = (.ok n, (chunkResult dirIn data last).2) :=
    Prod.ext hn rfl
  obtain ⟨hlength, hle, hsame, htake⟩ :=
    chunkResult_owned (howned _ (List.mem_append_left _ hlast)) hresult
  refine ⟨⟨_, ?_, by rw [List.length_nil, Nat.zero_add]; exact hlength, htake⟩, hle, hsame⟩
  rw [flatMap_delivered_snoc, hlog]
  exact List.append_nil _

theorem bulkChunk_after (data : Bytes) (log : List (Request × Answer)) :
    After (fun r log' => (∀ x ∈ log', Owned x) → ∀ n, r.1 = .ok n →
        Brings log dirIn [] r.2 n log' ∧ n ≤ data.length ∧ r.2.length = data.length)
      (bulkChunk slot dci dirIn data) log := by
  simp only [bulkChunk, after_bind, after_question]
  intro memory
  cases hphys : memory.phys with
  | none => exact fun _ n h => by cases h
  | some phys =>
    simp only [after_bind, after_question]
    intro first
    have hfirst : (log ++ [(Request.allocate (if dirIn then List.replicate data.length 0 else data), memory)] ++
        [(Request.submit (chunkJob slot dci phys dirIn data), first)]).flatMap delivered =
        log.flatMap delivered ++ delivered (.submit (chunkJob slot dci phys dirIn data), first) := by
      rw [flatMap_delivered_snoc, flatMap_delivered_snoc]
      exact congrArg (· ++ _) (List.append_nil _)
    by_cases hfailed : failed first.event
    · rw [if_pos hfailed, after_bind]
      refine ((recoverEndpoint_after _).and (after_extends _ _)).mono ?_
      rintro recovered log' ⟨hlog, hinit⟩
      rw [hfirst] at hlog
      cases recovered with
      | false =>
        rw [if_neg Bool.false_ne_true, done_bind]
        exact chunkEnd_after
          (hinit.subset (List.mem_append_right _ (List.mem_singleton_self _))) hlog
      | true =>
        simp only [if_true, after_bind, after_question]
        intro last
        refine chunkEnd_after (List.mem_append_right _ (List.mem_singleton_self _)) ?_
        rw [flatMap_delivered_snoc, hlog, delivered_of_failed hfailed, List.append_nil]
    · rw [if_neg hfailed, done_bind, if_neg Bool.false_ne_true, done_bind]
      exact chunkEnd_after (List.mem_append_right _ (List.mem_singleton_self _)) hfirst

theorem Brings.chunk {log log' log'' : List (Request × Answer)} {before data data' : Bytes}
    {n n' : Nat} (h : Brings log dirIn [] data n log') (hlength : n = data.length)
    (h' : Brings log' dirIn (before ++ data) data' n' log'') :
    Brings log dirIn before data' n' log'' := by
  obtain ⟨got, hlog, hn, htake⟩ := h
  obtain ⟨got', hlog', hn', htake'⟩ := h'
  rw [List.length_nil, Nat.zero_add] at hn
  refine ⟨got ++ got', by rw [hlog', hlog, List.append_assoc], ?_, fun hdir => ?_⟩
  · rw [hn', List.length_append, List.length_append]
    omega
  · have hdata : data = got := by simpa [hlength] using htake hdir
    rw [htake' hdir, hdata, List.append_assoc]

theorem bulkLoop_after {maxTransfer : Nat} (before rest : Bytes) (log : List (Request × Answer)) :
    After (fun r log' => (∀ x ∈ log', Owned x) → ∀ n, r.1 = .ok n →
        Brings log dirIn before r.2 n log')
      (bulkLoop slot dci maxTransfer dirIn before rest) log := by
  induction hlength : rest.length using Nat.strong_induction_on generalizing before rest log with
  | h length ih =>
    rw [bulkLoop]
    split
    · rename_i hnil
      refine fun _ n hn => ⟨[], (List.append_nil _).symm, ?_, fun _ => ?_⟩
      · exact (Except.ok.inj hn).symm
      · rw [← Except.ok.inj hn, List.append_nil]
        exact List.take_length
    · rename_i hne
      have hpos : 0 < rest.length := List.length_pos_iff.mpr hne
      simp only [after_bind]
      refine After.mono (bulkChunk_after _ log) ?_
      rintro ⟨result, bytes⟩ log' hchunk
      cases result with
      | error e => exact fun _ n hn => by cases hn
      | ok got =>
        have htaken : (rest.take (min rest.length (max maxTransfer 512))).length =
            min rest.length (max maxTransfer 512) := by
          rw [List.length_take]
          omega
        simp only
        split
        · intro howned n hn
          obtain ⟨⟨moved, hlog, hn', htake⟩, hle, hsame⟩ := hchunk howned got rfl
          have hn' : got = moved.length := by simpa using hn'
          obtain rfl : before.length + got = n := Except.ok.inj hn
          refine ⟨moved, hlog, by rw [hn'], fun hdir => ?_⟩
          have hbytes : got ≤ bytes.length := by rw [hsame]; exact hle
          rw [List.append_assoc, List.take_length_add_append,
            List.take_append_of_le_length hbytes, htake hdir, List.nil_append]
        · rename_i hfull
          have hdrop : (rest.drop (min rest.length (max maxTransfer 512))).length < length := by
            rw [List.length_drop]
            omega
          refine ((ih _ hdrop (before ++ bytes) _ log' rfl).and (after_extends _ log')).mono ?_
          rintro r log'' ⟨hrest, hinit⟩ howned n hn
          obtain ⟨hbrings, hle, hsame⟩ := hchunk (fun x hx => howned x (hinit.subset hx)) got rfl
          replace hsame : bytes.length = _ := hsame
          have hgot : got = bytes.length := by omega
          exact hbrings.chunk hgot (hrest howned n hn)

theorem bulk_after (ctrl : Controller) (data : Bytes) (log : List (Request × Answer)) :
    After (fun r log' => (∀ x ∈ log', Owned x) → ∀ n, r.1 = .ok n →
        Brings log dirIn [] r.2 n log') (bulk ctrl slot dirIn data) log := by
  rw [bulk]
  split
  · exact fun _ n hn => ⟨[], (List.append_nil _).symm, (Except.ok.inj hn).symm, fun _ => List.take_nil⟩
  · split
    · exact fun _ n hn => by cases hn
    · exact bulkLoop_after [] data log

theorem enableSlot_after :
    After (fun r log => (∀ x ∈ log, Owned x) → ∀ slot, r = some slot →
        ∃ own post bytes, post.event.slot = slot ∧ post.source = some own ∧
          (.submit (.command .enableSlot 0 0 0), .waited own (some post) bytes) ∈ log)
      enableSlot [] := by
  simp only [enableSlot, command, commandFull, after_bind, after_question, after_pure]
  intro answer howned slot hslot
  cases answer with
  | waited own post bytes =>
    cases post with
    | none => cases hslot
    | some post =>
      simp only [Answer.event, Option.map_some] at hslot
      split at hslot
      · obtain ⟨-, hsource, -⟩ := howned _ (List.mem_singleton_self _)
        exact ⟨own, post, bytes, Option.some.inj hslot, hsource, List.mem_singleton_self _⟩
      · cases hslot
  | _ => cases hslot

theorem perform_after (ctrl : Controller) (call : Call) :
    After (fun result log => (∀ x ∈ log, Owned x) → Finished.Genuine ⟨call, log, result⟩)
      (ctrl.perform call) [] := by
  cases call with
  | command | control =>
    simp only [Controller.perform, after_bind]
    exact (after_extends _ _).mono fun _ _ _ _ => trivial
  | enableSlot =>
    simp only [Controller.perform, after_bind]
    refine enableSlot_after.mono fun slot log h howned => ?_
    cases slot with
    | none => trivial
    | some slot => exact h howned slot rfl
  | bulk slot dirIn data =>
    simp only [Controller.perform, after_bind]
    refine (bulk_after ctrl data []).mono ?_
    rintro ⟨result, data⟩ log h howned
    cases result with
    | error => trivial
    | ok n =>
      obtain ⟨got, hlog, hn, htake⟩ := h howned n rfl
      rw [List.flatMap_nil, List.nil_append] at hlog
      rw [List.length_nil, Nat.zero_add] at hn
      exact ⟨by rw [hlog]; exact hn, fun hdir => by rw [hlog]; exact htake hdir⟩

/-- The device writes to the same memory for both. -/
def Clash (job job' : Job) : Prop :=
  match job.target, job'.target with
  | some (buffer, length), some (buffer', length') =>
    buffer < buffer' + length' ∧ buffer' < buffer + length
  | _, _ => False

instance (job job' : Job) : Decidable (Clash job job') := by
  unfold Clash
  split <;> infer_instance

namespace Machine

/-- The job that the driver puts on a ring next. -/
def submits (s : Machine) : Option Job :=
  match s.mode with
  | .running _ _ (.ask (.submit job) _) => some job
  | _ => none

/-- The job that the driver waits for. -/
def awaits (s : Machine) : Option Handed :=
  match s.mode with
  | .waiting _ _ own _ => some own
  | _ => none

/-- When a request is made, no event of an earlier one is there that its wait would take, and
while it waits, the controller does no earlier job whose event it would take or which writes to
its buffer. -/
def Clear (s : Machine) : Action → Prop
  | .advance _ => ∀ job ∈ s.submits, ∀ p ∈ s.events, ¬job.Accepts p.event
  | .complete channel code bytes enabled =>
    ∀ own ∈ s.awaits, ∀ handed ∈ s.pending.find? (·.job.channel = channel), handed = own ∨
      ¬own.job.Accepts (handed.job.report handed.address code
        (bytes.take handed.job.length).length enabled) ∧ ¬Clash own.job handed.job
  | _ => True

instance (s : Machine) : (action : Action) → Decidable (s.Clear action)
  | .advance _ => inferInstanceAs (Decidable (∀ _ ∈ _, _))
  | .complete .. => inferInstanceAs (Decidable (∀ _ ∈ _, _))
  | .notify _ | .call _ | .pollEvents | .turn | .expire => instDecidableTrue

def jobs (s : Machine) : List Handed := s.pending ++ s.events.filterMap (·.source)

end Machine

/-- The event reports on its job. -/
def Honest (p : Posted) : Prop :=
  match p.source with
  | none => p.event.trbType ≠ .transferEvent ∧ p.event.trbType ≠ .commandCompletion
  | some h =>
    p.moved.length ≤ h.job.length ∧
      ∃ code enabled, p.event = h.job.report h.address code p.moved.length enabled

theorem Honest.exists_source {job : Job} {p : Posted} (h : Honest p)
    (haccept : job.Accepts p.event) : ∃ handed, p.source = some handed := by
  rw [Honest] at h
  cases hsource : p.source with
  | none =>
    rw [hsource] at h
    cases job with
    | command => exact absurd haccept.1 h.2
    | transfer => exact absurd haccept.1 h.1
  | some handed => exact ⟨handed, rfl⟩

/-- Every job has its place once, and every event tells the truth. -/
structure Tidy (s : Machine) : Prop where
  nodup : s.jobs.Nodup
  below : ∀ h ∈ s.jobs, h.serial < s.serial
  honest : ∀ p ∈ s.events, Honest p

/-- A wait for `own` can take no event but that of `own`, which comes with what is in the
buffer. -/
structure Waits (s : Machine) (own : Handed) : Prop where
  events : ∀ p ∈ s.events, own.job.Accepts p.event → p.source = some own
  content : ∀ p ∈ s.events, p.source = some own → ∀ buffer length,
    own.job.target = some (buffer, length) → s.memory.slice buffer p.moved.length = p.moved

def Explains (call : Call) (result : Result) (log : List (Request × Answer)) : Prop :=
  (∀ x ∈ log, Owned x) → Finished.Genuine ⟨call, log, result⟩

/-- What holds of a call under way. `W` says what holds of the job that it waits for. -/
def Expects (W : Handed → Prop) : Mode → Prop
  | .running call log program => (∀ x ∈ log, Owned x) ∧ After (Explains call) program log
  | .waiting call log own next =>
    (∀ x ∈ log, Owned x) ∧
      (∀ answer, After (Explains call) (next answer) (log ++ [(.submit own.job, answer)])) ∧ W own
  | _ => True

theorem Expects.mono {W W' : Handed → Prop} {mode : Mode} (h : Expects W mode)
    (hW : ∀ own, W own → W' own) : Expects W' mode := by
  cases mode with
  | waiting => exact ⟨h.1, h.2.1, hW _ h.2.2⟩
  | idle | polling => trivial
  | running => exact h

structure Inv (s : Machine) : Prop where
  tidy : Tidy s
  expects : Expects (Waits s) s.mode
  finished : ∀ f ∈ s.finished, (∀ x ∈ f.log, Owned x) ∧ f.Genuine

variable {s s' : Machine}

theorem Tidy.of_alike (h : Tidy s) (halike : s.Alike s') : Tidy s' := by
  obtain ⟨-, hpending, hevents, hserial, -, -⟩ := halike
  have hjobs : s'.jobs = s.jobs := by rw [Machine.jobs, hpending, hevents]; rfl
  exact ⟨hjobs ▸ h.nodup, by rw [hjobs, hserial]; exact h.below, hevents ▸ h.honest⟩

theorem Waits.of_alike {own : Handed} (h : Waits s own) (halike : s.Alike s') : Waits s' own := by
  obtain ⟨hmemory, -, hevents, -, -, -⟩ := halike
  exact ⟨hevents ▸ h.events, by rw [hevents, hmemory]; exact h.content⟩

theorem Inv.of_alike (h : Inv s) (halike : s.Alike s') : Inv s' where
  tidy := h.tidy.of_alike halike
  expects := by
    rw [halike.mode]
    exact h.expects.mono fun own hwaits => hwaits.of_alike halike
  finished := halike.finished ▸ h.finished

/-! ### Steps of the controller -/

theorem complete_cases (s : Machine) (channel : Channel) (code : Nat) (bytes : Bytes)
    (enabled : Nat) :
    s.complete channel code bytes enabled = s ∨
      ∃ handed ∈ s.pending.find? (·.job.channel = channel),
        let moved := bytes.take handed.job.length
        s.complete channel code bytes enabled =
          { s with
            memory := match handed.job.target with
              | some (buffer, _) => s.memory.put buffer moved
              | none => s.memory
            pending := Machine.withdraw handed code (s.pending.erase handed)
            events := s.events ++
              [⟨handed.job.report handed.address code moved.length enabled, some handed,
                moved⟩] } := by
  rw [Machine.complete]
  split
  · exact .inl rfl
  · rename_i handed hfind
    exact .inr ⟨handed, hfind, rfl⟩

theorem Tidy.complete (h : Tidy s) (channel : Channel) (code : Nat) (bytes : Bytes)
    (enabled : Nat) : Tidy (s.complete channel code bytes enabled) := by
  rcases complete_cases s channel code bytes enabled with hsame | ⟨handed, hfind, hstep⟩
  · rw [hsame]
    exact h
  · rw [hstep]
    have hmem : handed ∈ s.pending := List.mem_of_find?_eq_some hfind
    set moved := bytes.take handed.job.length with hmoved
    -- the job goes from the controller to the event ring
    have hperm : (s.pending.erase handed ++ (s.events.filterMap Posted.source ++ [handed])).Perm
        s.jobs := by
      rw [← List.append_assoc]
      exact (List.perm_append_singleton _ _).trans
        ((List.perm_cons_erase hmem).symm.append_right (s.events.filterMap Posted.source))
    have hsub : (Machine.withdraw handed code (s.pending.erase handed) ++
        (s.events.filterMap Posted.source ++ [handed])).Sublist
        (s.pending.erase handed ++ (s.events.filterMap Posted.source ++ [handed])) :=
      (Machine.withdraw_sublist _ _ _).append (List.Sublist.refl _)
    have hjobs (event : Event) :
        (s.events ++ [(⟨event, some handed, moved⟩ : Posted)]).filterMap Posted.source =
          s.events.filterMap Posted.source ++ [handed] := by
      rw [List.filterMap_append]
      rfl
    rw [← hjobs (handed.job.report handed.address code moved.length enabled)]
      at hsub hperm
    refine ⟨hsub.nodup (hperm.nodup_iff.mpr h.nodup),
      fun h' hh => h.below h' (hperm.subset (hsub.subset hh)), fun p hp => ?_⟩
    rcases List.mem_append.mp hp with hp | hp
    · exact h.honest p hp
    · obtain rfl := List.mem_singleton.mp hp
      exact ⟨List.length_take_le _ _, code, enabled, rfl⟩

theorem Waits.complete {own : Handed} (h : Waits s own) (htidy : Tidy s) {channel : Channel}
    {code : Nat} {bytes : Bytes} {enabled : Nat} (hawaits : s.awaits = some own)
    (hclear : s.Clear (.complete channel code bytes enabled)) :
    Waits (s.complete channel code bytes enabled) own := by
  rcases complete_cases s channel code bytes enabled with hsame | ⟨handed, hfind, hstep⟩
  · rw [hsame]
    exact h
  · rw [hstep]
    have hmem : handed ∈ s.pending := List.mem_of_find?_eq_some hfind
    have hcases := hclear own hawaits handed hfind
    refine ⟨fun p hp ha => ?_, fun p hp hsource buffer length htarget => ?_⟩
    · rcases List.mem_append.mp hp with hp | hp
      · exact h.events p hp ha
      · rw [List.mem_singleton.mp hp] at ha ⊢
        rcases hcases with rfl | ⟨hnot, -⟩
        · rfl
        · exact absurd ha hnot
    · rcases List.mem_append.mp hp with hp | hp
      · -- the event of `own` is there already, so this job is another one
        have hne : handed ≠ own := by
          rintro rfl
          refine (List.nodup_append.mp htidy.nodup).2.2 handed hmem handed ?_ rfl
          exact List.mem_filterMap.mpr ⟨p, hp, hsource⟩
        have hapart : ¬Clash own.job handed.job := (hcases.resolve_left hne).2
        have hlength : p.moved.length ≤ length := by
          have := htidy.honest p hp
          rw [Honest, hsource] at this
          exact this.1.trans_eq (Job.length_of_target htarget)
        rw [← h.content p hp hsource buffer length htarget]
        simp only [Memory.length_slice]
        cases htarget' : handed.job.target with
        | none => rfl
        | some place =>
          obtain ⟨buffer', length'⟩ := place
          have hmoved : (bytes.take handed.job.length).length ≤ length' :=
            (List.length_take_le _ _).trans_eq (Job.length_of_target htarget')
          rw [Clash, htarget, htarget'] at hapart
          refine Memory.slice_put_of_outside ?_
          simp only at hapart
          omega
      · obtain rfl := List.mem_singleton.mp hp
        obtain rfl := Option.some.inj hsource
        simp only [htarget]
        exact Memory.slice_put_self

theorem Inv.complete (h : Inv s) {channel : Channel} {code : Nat} {bytes : Bytes} {enabled : Nat}
    (hclear : s.Clear (.complete channel code bytes enabled)) :
    Inv (s.complete channel code bytes enabled) := by
  have hkeep : (s.complete channel code bytes enabled).mode = s.mode ∧
      (s.complete channel code bytes enabled).finished = s.finished := by
    rcases complete_cases s channel code bytes enabled with hsame | ⟨handed, hmem, hstep⟩
    · rw [hsame]
      exact ⟨rfl, rfl⟩
    · rw [hstep]
      exact ⟨rfl, rfl⟩
  refine ⟨h.tidy.complete channel code bytes enabled, ?_, hkeep.2 ▸ h.finished⟩
  have hexpects := h.expects
  rw [hkeep.1]
  cases hmode : s.mode with
  | idle | polling => trivial
  | running =>
    rw [hmode] at hexpects
    exact hexpects
  | waiting call log own next =>
    rw [hmode] at hexpects
    have hawaits : s.awaits = some own := by rw [Machine.awaits, hmode]
    exact ⟨hexpects.1, hexpects.2.1, hexpects.2.2.complete h.tidy hawaits hclear⟩

theorem Inv.notify (h : Inv s) (event : Event) : Inv (s.notify event) := by
  rw [Machine.notify]
  split
  · rename_i htype
    have hhonest : Honest ⟨event, none, []⟩ := by
      rcases htype with htype | htype <;> exact ⟨by simp [htype], by simp [htype]⟩
    refine ⟨⟨?_, ?_, fun p hp => ?_⟩, h.expects.mono fun own hwaits => ?_, h.finished⟩
    · simpa [Machine.jobs] using h.tidy.nodup
    · simpa [Machine.jobs] using h.tidy.below
    · rcases List.mem_append.mp hp with hp | hp
      · exact h.tidy.honest p hp
      · rw [List.mem_singleton.mp hp]
        exact hhonest
    · refine ⟨fun p hp ha => ?_, fun p hp hsource => ?_⟩
      · rcases List.mem_append.mp hp with hp | hp
        · exact hwaits.events p hp ha
        · obtain rfl := List.mem_singleton.mp hp
          obtain ⟨_, hsource⟩ := hhonest.exists_source ha
          cases hsource
      · rcases List.mem_append.mp hp with hp | hp
        · exact hwaits.content p hp hsource
        · rw [List.mem_singleton.mp hp] at hsource
          cases hsource
  · exact h

/-! ### Steps of the driver -/

theorem Tidy.hand (h : Tidy s) {own : Handed} (hserial : own.serial = s.serial) :
    Tidy (s.hand own) := by
  have hfresh : own ∉ s.jobs := fun hmem => absurd (h.below own hmem) (by omega)
  have hperm : (s.hand own).jobs.Perm (own :: s.jobs) := by
    rw [Machine.jobs, Machine.hand, List.append_assoc]
    exact List.perm_middle
  refine ⟨hperm.nodup_iff.mpr (List.nodup_cons.mpr ⟨hfresh, h.nodup⟩), fun h' hh => ?_, h.honest⟩
  rcases List.mem_cons.mp (hperm.subset hh) with rfl | hh
  · exact hserial ▸ Nat.lt_succ_self _
  · exact Nat.lt_succ_of_lt (h.below h' hh)

theorem Inv.dispatchEvent (h : Inv s) (post : Posted) : Inv (s.dispatchEvent post) := by
  rcases s.dispatchEvent_cases post with halike | ⟨own, hserial, halike⟩
  · exact h.of_alike halike
  · exact Inv.of_alike (s := s.hand own) ⟨h.tidy.hand hserial,
      h.expects.mono fun _ hwaits => ⟨hwaits.events, hwaits.content⟩, h.finished⟩ halike

theorem Inv.take (h : Inv s) {post : Posted} {events : List Posted}
    (hevents : s.events = post :: events) : Inv (s.take post events) := by
  have hsub : (s.take post events).jobs.Sublist s.jobs := by
    rw [Machine.jobs, Machine.jobs, hevents]
    exact (List.Sublist.refl _).append ((List.sublist_cons_self _ _).filterMap _)
  have hrest : ∀ p ∈ events, p ∈ s.events := fun p hp => hevents ▸ List.mem_cons_of_mem _ hp
  exact ⟨⟨hsub.nodup h.tidy.nodup, fun h' hh => h.tidy.below h' (hsub.subset hh),
      fun p hp => h.tidy.honest p (hrest p hp)⟩,
    h.expects.mono fun own hwaits => ⟨fun p hp => hwaits.events p (hrest p hp),
      fun p hp => hwaits.content p (hrest p hp)⟩, h.finished⟩

theorem Waits.owned {own : Handed} (h : Waits s own) (htidy : Tidy s) {post : Posted}
    (hmem : post ∈ s.events) (haccept : own.job.Accepts post.event) :
    Owned (.submit own.job, .waited own (some post) (s.bufferOf own.job)) := by
  have hsource := h.events post hmem haccept
  have hhonest := htidy.honest post hmem
  rw [Honest, hsource] at hhonest
  obtain ⟨hle, code, enabled, hevent⟩ := hhonest
  refine ⟨rfl, hsource, by rw [hevent, Job.report_param], hle,
    by rw [hevent, Job.report_transferLength], fun htarget => ?_⟩
  obtain ⟨⟨buffer, length⟩, htarget⟩ := Option.isSome_iff_exists.mp htarget
  rw [Job.length_of_target htarget] at hle
  rw [Machine.bufferOf, htarget, Memory.take_slice hle]
  exact h.content post hmem hsource buffer length htarget

theorem Inv.answer (h : Inv s) {call : Call} {log : List (Request × Answer)} {request : Request}
    {answer : Answer} {next : Answer → UsbDialog Result} (hlog : ∀ x ∈ log, Owned x)
    (howned : Owned (request, answer))
    (hnext : After (Explains call) (next answer) (log ++ [(request, answer)])) :
    Inv (s.answer call log request answer next) := by
  refine ⟨⟨h.tidy.nodup, h.tidy.below, h.tidy.honest⟩, ⟨fun x hx => ?_, hnext⟩, h.finished⟩
  rcases List.mem_append.mp hx with hx | hx
  · exact hlog x hx
  · rw [List.mem_singleton.mp hx]
    exact howned

theorem Inv.idle (h : Inv s) : Inv { s with mode := .idle } :=
  ⟨⟨h.tidy.nodup, h.tidy.below, h.tidy.honest⟩, trivial, h.finished⟩

theorem Inv.turn (h : Inv s) : Inv s.turn := by
  rw [Machine.turn]
  split
  · rename_i call log own next post events hmode hevents
    have htake := h.take hevents
    have hexpects := h.expects
    rw [hmode] at hexpects
    obtain ⟨hlog, hnext, hwaits⟩ := hexpects
    dsimp only
    split
    · rename_i haccept
      have hmem : post ∈ s.events := hevents ▸ List.mem_cons_self
      exact htake.answer hlog (hwaits.owned h.tidy hmem haccept) (hnext _)
    · rename_i haccept
      rw [Machine.divert.eq_def]
      split
      · exact htake.of_alike ((s.take post events).alike_passOver post)
      · exact htake.dispatchEvent post
  · rename_i budget post events hmode hevents
    have htake := h.take hevents
    dsimp only
    split
    · exact htake.idle
    · have hdispatch := htake.dispatchEvent post
      exact ⟨⟨hdispatch.tidy.nodup, hdispatch.tidy.below, hdispatch.tidy.honest⟩, trivial,
        hdispatch.finished⟩
  · exact h.idle
  · exact h

theorem Inv.expire (h : Inv s) : Inv s.expire := by
  rw [Machine.expire]
  split
  · rename_i call log own next hmode
    have hexpects := h.expects
    rw [hmode] at hexpects
    exact h.answer hexpects.1 trivial (hexpects.2.1 _)
  · exact h

theorem Inv.advance (h : Inv s) (grant : Option Nat) (hclear : s.Clear (.advance grant)) :
    Inv (s.advance grant) := by
  have hexpects := h.expects
  rw [Machine.advance]
  split
  · rename_i call log result hmode
    rw [hmode] at hexpects
    refine ⟨⟨h.tidy.nodup, h.tidy.below, h.tidy.honest⟩, trivial, fun f hf => ?_⟩
    rcases List.mem_append.mp hf with hf | hf
    · exact h.finished f hf
    · rw [List.mem_singleton.mp hf]
      exact ⟨hexpects.1, hexpects.2 hexpects.1⟩
  · rename_i call log contents next hmode
    rw [hmode] at hexpects
    split
    · exact h.answer hexpects.1 trivial (hexpects.2 _)
    · rename_i phys _
      have hwritten : Inv { s with memory := s.memory.put phys contents } :=
        ⟨⟨h.tidy.nodup, h.tidy.below, h.tidy.honest⟩, by rw [hmode]; exact hexpects, h.finished⟩
      exact hwritten.answer hexpects.1 trivial (hexpects.2 _)
  · rename_i call log buffer next hmode
    rw [hmode] at hexpects
    exact h.answer hexpects.1 trivial (hexpects.2 _)
  · rename_i call log slot dci next hmode
    rw [hmode] at hexpects
    exact h.answer hexpects.1 trivial (hexpects.2 _)
  · rename_i call log job next hmode
    rw [hmode] at hexpects
    have hevents := hclear job (by rw [Machine.submits, hmode]; rfl)
    have htidy : Tidy (s.hand (s.push job).1) := h.tidy.hand rfl
    refine ⟨⟨htidy.nodup, htidy.below, htidy.honest⟩, ⟨hexpects.1, hexpects.2,
      ⟨fun p hp ha => absurd ha (hevents p hp), fun p hp hsource => ?_⟩⟩, h.finished⟩
    -- a job that is new has no event yet
    have hbelow : (s.push job).1.serial < s.serial := h.tidy.below _
      (List.mem_append_right _ (List.mem_filterMap.mpr ⟨p, hp, hsource⟩))
    exact absurd hbelow (Nat.lt_irrefl _)
  · exact h

/-- No call is under way, and none has returned. -/
structure Booted (s : Machine) : Prop where
  tidy : Tidy s
  mode : s.mode = .idle
  finished : s.finished = []

theorem Booted.inv (h : Booted s) : Inv s where
  tidy := h.tidy
  expects := by
    rw [h.mode]
    trivial
  finished f hf := by
    rw [h.finished] at hf
    cases hf

theorem Inv.step (h : Inv s) {action : Action} (hclear : s.Clear action) : Inv (s.step action) := by
  cases action with
  | complete channel code bytes enabled => exact h.complete hclear
  | notify event => exact h.notify event
  | call call =>
    rw [Machine.step]
    split
    · have hnone : ∀ x ∈ ([] : List (Request × Answer)), Owned x := fun x hx =>
        absurd hx List.not_mem_nil
      exact ⟨⟨h.tidy.nodup, h.tidy.below, h.tidy.honest⟩,
        ⟨hnone, perform_after s.ctrl call⟩, h.finished⟩
    · exact h
  | pollEvents =>
    rw [Machine.step]
    split
    · exact ⟨⟨h.tidy.nodup, h.tidy.below, h.tidy.honest⟩, trivial, h.finished⟩
    · exact h
  | advance grant => exact h.advance grant hclear
  | turn => exact h.turn
  | expire => exact h.expire

theorem Inv.run (h : Inv s) {actions : List Action}
    (hclear : Along Machine.step Machine.Clear s actions) : Inv (s.run actions) :=
  hclear.invariant h fun _ s _ (hs : Inv s) hc => hs.step hc

theorem Inv.exchanges (h : Inv s) : ∀ x ∈ s.exchanges, Owned x := by
  intro x hx
  rcases List.mem_append.mp hx with hx | hx
  · obtain ⟨f, hf, hx⟩ := List.mem_flatMap.mp hx
    exact (h.finished f hf).1 x hx
  · have hexpects := h.expects
    split at hx
    · rename_i hmode
      rw [hmode] at hexpects
      exact hexpects.1 x hx
    · rename_i hmode
      rw [hmode] at hexpects
      exact hexpects.1 x hx
    · cases hx

/-- As long as no event of an earlier request comes to a wait that would take it, every event that
a wait returns is that of its own job. -/
theorem completions_owned (hs : Booted s) {actions : List Action}
    (hclear : Along Machine.step Machine.Clear s actions) :
    (∀ x ∈ (s.run actions).exchanges, Owned x) ∧
      ∀ f ∈ (s.run actions).finished, f.Genuine :=
  have h := hs.inv.run hclear
  ⟨h.exchanges, fun f hf => (h.finished f hf).2⟩

/-- A controller without devices. -/
def quiet : Machine where
  ctrl := ⟨4, ⟨0x1000, 0, true⟩, fun _ _ => ⟨0x2000, 0, true⟩, [], [], [], false⟩
  memory := fun _ => 0
  pending := []
  events := []
  serial := 0
  mode := .idle
  finished := []
  taken := []
  handled := []

theorem booted_quiet : Booted quiet := ⟨⟨List.nodup_nil, nofun, nofun⟩, rfl, rfl⟩

theorem completions_owned_slot :
    (∀ x ∈ (quiet.run [.call .enableSlot, .advance none, .complete .command ccSuccess [] 3, .turn,
        .advance none]).exchanges, Owned x) ∧
      ∀ f ∈ (quiet.run [.call .enableSlot, .advance none, .complete .command ccSuccess [] 3, .turn,
        .advance none]).finished, f.Genuine :=
  completions_owned booted_quiet (by decide)

/-- An Enable Slot runs into its deadline and is done later. The next one returns its slot. -/
theorem completions_mixed :
    ∃ f ∈ (quiet.run [.call .enableSlot, .advance none, .expire, .advance none,
        .complete .command ccSuccess [] 3, .call .enableSlot, .advance none, .turn,
        .advance none]).finished,
      ∃ own post bytes, f.log = [(.submit (.command .enableSlot 0 0 0),
          .waited own (some post) bytes)] ∧
        post.event.param ≠ own.address ∧ f.result = .slot (some 3) ∧ ¬f.Genuine := by
  refine ⟨_, List.mem_cons_of_mem _ (List.mem_singleton_self _), _, _, _, rfl, by decide, rfl, ?_⟩
  rintro ⟨own, post, bytes, -, hsource, hmem⟩
  cases List.mem_singleton.mp hmem
  exact absurd hsource (by decide)

end Vibra.Usb
