import Vibra.Usb.TrbRings

/-! # TRB rings are queues

Whatever the controller does between the stores of the driver, it reads the TRBs that have been
put on a ring, in order and each once.
-/

namespace Vibra.Usb

open Lib (PhaseRing)

section Words

variable (t : TrbData) (c : Bool)

theorem words_cycle : (t.words c).cycle = c := by
  rw [TrbWords.cycle, TrbData.words, Nat.testBit_or, t.no_cycle]
  cases c <;> rfl

theorem hi_or_lo {param : Nat} (h : param < 2 ^ 64) :
    (param >>> 32 % 2 ^ 32) <<< 32 ||| param % 2 ^ 32 = param := by
  rw [← Nat.shiftLeft_add_eq_or_of_lt (Nat.mod_lt _ (by decide)), Nat.shiftLeft_eq,
    Nat.shiftRight_eq_div_pow]
  omega

theorem words_entry : (t.words c).entry = t.toTrbEntry := by
  have hcontrol : (t.control ||| c.toNat) >>> 1 <<< 1 = t.control := by
    have hshift : c.toNat >>> 1 = 0 := by cases c <;> rfl
    have heven : t.control % 2 = 0 := by
      have := t.no_cycle
      rw [Nat.testBit_zero] at this
      simpa using this
    rw [Nat.shiftRight_or_distrib, hshift, Nat.or_zero, Nat.shiftLeft_eq, Nat.shiftRight_eq_div_pow]
    omega
  rw [TrbWords.entry, TrbData.words, hcontrol, TrbWords.param, hi_or_lo t.param_lt]

theorem entry_kind (w : TrbWords) : w.entry.kind = w.kind := by
  rw [TrbEntry.kind, TrbWords.kind, TrbWords.entry]
  dsimp only
  congr 1
  rw [Nat.shiftLeft_eq, Nat.shiftRight_eq_div_pow, Nat.shiftRight_eq_div_pow,
    Nat.shiftRight_eq_div_pow]
  omega

end Words

/-- Where a slot of the ring at `phys` lies. -/
def trbAddress (phys i : Nat) : Nat := phys + i * trbSize

theorem trbAddress_inj {phys i j : Nat} : trbAddress phys i = trbAddress phys j ↔ i = j := by
  rw [trbAddress, trbAddress, trbSize]
  omega

def slotsOf (phys : Nat) (m : TrbMemory) : Nat → TrbWords := fun i => m (trbAddress phys i)

theorem slotsOf_update (phys : Nat) (m : TrbMemory) (i : Nat) (w : TrbWords) :
    slotsOf phys (Function.update m (trbAddress phys i) w) =
      Function.update (slotsOf phys m) i w := by
  funext j
  by_cases h : j = i
  · rw [h, slotsOf, Function.update_self, Function.update_self]
  · rw [slotsOf, Function.update_of_ne (mt trbAddress_inj.mp h), Function.update_of_ne h]
    rfl

theorem foldl_writeTrb (ring : Ring) (m : TrbMemory) (index param status control : Nat) :
    (ring.writeTrb index param status control).foldl Store.apply m =
      Function.update m (trbAddress ring.phys index)
        ⟨param % 2 ^ 32, param >>> 32 % 2 ^ 32, status, control⟩ := by
  simp [Ring.writeTrb, Store.apply, trbAddress]

def linkSlot : Nat := ringTrbs - 1

theorem linkSlot_pos : 0 < linkSlot := by decide

abbrev Shows (phys : Nat) (m : TrbMemory) (r : PhaseRing TrbEntry) (taken : Nat)
    (queue : List TrbEntry) : Prop :=
  PhaseRing.Shows linkSlot TrbWords.cycle TrbWords.entry (slotsOf phys m) r taken queue

abbrev Holds (r : PhaseRing TrbEntry) (taken : Nat) (queue : List TrbEntry) : Prop :=
  PhaseRing.Holds linkSlot r taken queue

namespace Pipe

/-- The link closes the ring. Its cycle bit is that of the lap that ended last. -/
structure LinkWords (phys : Nat) (m : TrbMemory) : Prop where
  kind : (m (trbAddress phys linkSlot)).kind = trbLink
  param : (m (trbAddress phys linkSlot)).param = phys
  toggles : (m (trbAddress phys linkSlot)).toggles = true

def LinkCycle (phys : Nat) (m : TrbMemory) (total : Nat) (phase : Bool) : Prop :=
  linkSlot ≤ total → (m (trbAddress phys linkSlot)).cycle = !phase

def Written (t : TrbEntry) (k : Nat) (w : TrbWords) : Prop :=
  (1 ≤ k → w.lo = t.param % 2 ^ 32) ∧ (2 ≤ k → w.hi = t.param >>> 32 % 2 ^ 32) ∧
    (3 ≤ k → w.status = t.status)

/-- Where the driver is: between two calls of `push`, before the store of a control word, or
before that to the link. `arrived` are the TRBs whose control word is there. -/
inductive Stage (phys : Nat) (s : Pipe) (tail : Nat) (phase : Bool) (arrived : List TrbEntry) :
    Prop
  | idle (stores : s.stores = []) (ring : s.ring = ⟨phys, tail, phase⟩)
      (pushed : s.pushed = arrived) (link : LinkCycle phys s.memory arrived.length phase)
  | writing (t : PushedTrb) (k : Nat) (early : k < 4)
      (stores : s.stores = (Ring.pushStores ⟨phys, tail, phase⟩ t.toTrbEntry).drop k)
      (ring : s.ring = (⟨phys, tail, phase⟩ : Ring).push)
      (pushed : s.pushed = arrived ++ [t.toTrbEntry])
      (written : Written t.toTrbEntry k (s.memory (trbAddress phys tail)))
      (link : LinkCycle phys s.memory arrived.length phase)
  | linking (stores : s.stores = [.link (trbAddress phys linkSlot) (!phase)])
      (ring : s.ring = ⟨phys, tail, phase⟩) (pushed : s.pushed = arrived)

/-- The controller is at the first slot that it has not read, or at the link before that. -/
inductive At (phys : Nat) (d : Dequeue) (r : PhaseRing TrbEntry) (taken : Nat) : Prop
  | slot (pointer : d.pointer = trbAddress phys r.head) (cycle : d.cycle = r.headPhase)
  | link (pointer : d.pointer = trbAddress phys linkSlot) (cycle : d.cycle = !r.headPhase)
      (head : r.head = 0) (pos : 0 < taken)

structure Inv (phys : Nat) (s : Pipe) (r : PhaseRing TrbEntry) (queue : List TrbEntry) : Prop where
  holds : Holds r s.consumed.length queue
  shows : Shows phys s.memory r s.consumed.length queue
  plain : ∀ t ∈ queue, t.kind ≠ trbLink
  link : LinkWords phys s.memory
  controller : At phys s.controller r s.consumed.length
  stage : Stage phys s r.tail r.tailPhase (s.consumed ++ queue)
  room : s.pushed.length ≤ s.consumed.length + maxWaiting

variable {phys : Nat} {s : Pipe} {r : PhaseRing TrbEntry} {queue : List TrbEntry}

theorem tail_lt (h : Holds r s.consumed.length queue) : r.tail < linkSlot := by
  rw [h.tail]
  exact Nat.mod_lt _ (by decide)

theorem Stage.of_stores {tail : Nat} {phase : Bool} {arrived : List TrbEntry}
    (h : Stage phys s tail phase arrived) (hstores : s.stores = []) :
    s.ring = ⟨phys, tail, phase⟩ ∧ s.pushed = arrived ∧
      LinkCycle phys s.memory arrived.length phase := by
  cases h with
  | idle _ hring hpushed hlink => exact ⟨hring, hpushed, hlink⟩
  | writing t k hearly hwriting =>
    rw [hstores] at hwriting
    have hlength := congrArg List.length hwriting
    rw [List.length_drop, Ring.pushStores, List.length_append, Ring.writeTrb] at hlength
    simp only [List.length_nil, List.length_cons] at hlength
    omega
  | linking hlinking =>
    rw [hstores] at hlinking
    cases hlinking

theorem Inv.waiting_le (h : Inv phys s r queue) : queue.length ≤ maxWaiting := by
  have hroom := h.room
  have hlength : (s.consumed ++ queue).length ≤ s.pushed.length := by
    cases h.stage with
    | idle _ _ hpushed => rw [hpushed]
    | writing t _ _ _ _ hpushed =>
      rw [hpushed]
      exact (List.sublist_append_left _ _).length_le
    | linking _ _ hpushed => rw [hpushed]
  rw [List.length_append] at hlength
  omega

theorem Inv.consumed_first (h : Inv phys s r queue) : s.consumed <+: s.pushed := by
  cases h.stage with
  | idle _ _ hpushed => exact ⟨queue, hpushed.symm⟩
  | writing t _ _ _ _ hpushed => exact ⟨queue ++ [t.toTrbEntry], by rw [hpushed, List.append_assoc]⟩
  | linking _ _ hpushed => exact ⟨queue, hpushed.symm⟩

theorem start_memory (phys : Nat) :
    (start phys).memory = Function.update (fun _ => ⟨0, 0, 0, 0⟩) (trbAddress phys linkSlot)
      ⟨phys % 2 ^ 32, phys >>> 32 % 2 ^ 32, 0, 6147⟩ := by
  have hcontrol : trbLink <<< 10 ||| 1 <<< 1 ||| true.toNat = 6147 := by decide
  rw [start, Ring.initLink, foldl_writeTrb, ← hcontrol]
  rfl

theorem inv_start (phys : UInt64) :
    Inv phys.toNat (start phys.toNat) (PhaseRing.empty ⟨0, 0, 0⟩) [] where
  holds := PhaseRing.holds_empty _
  shows := by
    refine ⟨fun i hi => ?_, fun i hi => absurd hi (Nat.not_lt_zero i)⟩
    rw [start_memory, slotsOf_update, Function.update_of_ne (Nat.ne_of_lt hi)]
    exact Nat.zero_testBit 0
  plain _ ht := absurd ht List.not_mem_nil
  link := by
    constructor
    · rw [start_memory, Function.update_self]
      show 6147 >>> 10 &&& 0x3F = 6
      decide
    · rw [start_memory, Function.update_self]
      exact hi_or_lo phys.toNat_lt
    · rw [start_memory, Function.update_self]
      show Nat.testBit 6147 1 = true
      decide
  controller := .slot (by simp [start, trbAddress, PhaseRing.empty]) rfl
  stage := .idle rfl rfl rfl fun h => absurd h (Nat.not_succ_le_zero _)
  room := Nat.zero_le _

/-! ## Stores -/

section Frame

variable {m : TrbMemory} {i total : Nat} {phase : Bool} {w : TrbWords}

theorem linkAddress_ne (hi : i < linkSlot) :
    trbAddress phys linkSlot ≠ trbAddress phys i := by
  rw [Ne, trbAddress_inj]
  omega

theorem LinkWords.update (h : LinkWords phys m) (hi : i < linkSlot) (w : TrbWords) :
    LinkWords phys (Function.update m (trbAddress phys i) w) := by
  obtain ⟨hkind, hparam, htoggles⟩ := h
  constructor
  all_goals rwa [Function.update_of_ne (linkAddress_ne hi)]

theorem LinkCycle.update (h : LinkCycle phys m total phase) (hi : i < linkSlot) (w : TrbWords) :
    LinkCycle phys (Function.update m (trbAddress phys i) w) total phase := by
  intro htotal
  rw [Function.update_of_ne (linkAddress_ne hi)]
  exact h htotal

theorem LinkCycle.of_cycle (h : (m (trbAddress phys linkSlot)).cycle = !phase) :
    LinkCycle phys m total phase := fun _ => h

theorem LinkWords.store (h : LinkWords phys m) (c : Bool) :
    LinkWords phys ((Store.link (trbAddress phys linkSlot) c).apply m) ∧
      ((Store.link (trbAddress phys linkSlot) c).apply m (trbAddress phys linkSlot)).cycle =
        c := by
  obtain ⟨hkind, hparam, htoggles⟩ := h
  rw [Store.apply]
  refine ⟨⟨?_, ?_, ?_⟩, ?_⟩
  · rw [Function.update_self, ← hkind, TrbWords.kind, TrbWords.kind]
    dsimp only
    rw [Nat.shiftRight_or_distrib, Nat.shiftRight_and_distrib]
    have hmask : 0xFFFFFFFE >>> 10 = 0x3FFFFF := by decide
    have hbit : c.toNat >>> 10 = 0 := by cases c <;> rfl
    rw [hmask, hbit, Nat.or_zero, Nat.and_assoc]
    rfl
  · rw [Function.update_self]
    exact hparam
  · rw [Function.update_self, TrbWords.toggles]
    dsimp only
    rw [Nat.testBit_or, Nat.testBit_and]
    have hold : (m (trbAddress phys linkSlot)).control.testBit 1 = true := htoggles
    rw [hold]
    rfl
  · rw [Function.update_self, TrbWords.cycle]
    dsimp only
    rw [Nat.testBit_or, Nat.testBit_and]
    have hmask : Nat.testBit 0xFFFFFFFE 0 = false := by decide
    rw [hmask, Bool.and_false, Bool.false_or]
    cases c <;> rfl

end Frame

theorem ring_push (phys : Nat) (r : PhaseRing TrbEntry) (t : TrbEntry) (h : r.tail < linkSlot) :
    (⟨phys, r.tail, r.tailPhase⟩ : Ring).push =
      ⟨phys, (r.post linkSlot t).tail, (r.post linkSlot t).tailPhase⟩ := by
  rw [Ring.push, PhaseRing.post]
  dsimp only
  by_cases hwrap : r.tail + 1 = linkSlot
  · rw [if_pos (show ringTrbs - 1 ≤ r.tail + 1 from hwrap.ge), hwrap, Nat.mod_self, if_pos rfl]
  · rw [if_neg (show ¬ ringTrbs - 1 ≤ r.tail + 1 by rw [linkSlot] at *; omega),
      Nat.mod_eq_of_lt (by omega), if_neg (Nat.succ_ne_zero _)]

theorem inv_push (h : Inv phys s r queue) (t : PushedTrb) :
    Inv phys (s.step (.push t)) r queue := by
  rw [step]
  split
  · next hallowed =>
      have hstage : Stage phys
          { s with
            stores := s.ring.pushStores t.toTrbEntry
            ring := s.ring.push
            pushed := s.pushed ++ [t.toTrbEntry] } r.tail r.tailPhase (s.consumed ++ queue) := by
        obtain ⟨hring, hpushed, hlink⟩ := h.stage.of_stores hallowed.1
        refine .writing t 0 (by decide) ?_ ?_ ?_ ?_ hlink
        · rw [List.drop_zero, ← hring]
        · rw [← hring]
        · rw [← hpushed]
        · exact ⟨by omega, by omega, by omega⟩
      refine ⟨h.holds, h.shows, h.plain, h.link, h.controller, hstage, ?_⟩
      rw [List.length_append, List.length_singleton]
      exact hallowed.2
  · exact h

theorem Inv.scribble (h : Inv phys s r queue) {w : TrbWords} {stores : List Store}
    (hlt : queue.length < linkSlot)
    (hcycle : w.cycle = (s.memory (trbAddress phys r.tail)).cycle)
    (hstage : Stage phys
      { s with memory := Function.update s.memory (trbAddress phys r.tail) w, stores } r.tail
        r.tailPhase (s.consumed ++ queue)) :
    Inv phys { s with memory := Function.update s.memory (trbAddress phys r.tail) w, stores } r
      queue where
  holds := h.holds
  shows := by
    show PhaseRing.Shows _ _ _ (slotsOf phys _) _ _ _
    rw [slotsOf_update]
    exact h.shows.scribble h.holds hlt hcycle
  plain := h.plain
  link := h.link.update (tail_lt h.holds) w
  controller := h.controller
  stage := hstage
  room := h.room

theorem Inv.length_lt (h : Inv phys s r queue) : queue.length < linkSlot :=
  Nat.lt_of_le_of_lt h.waiting_le (by decide)

theorem inv_control (h : Inv phys s r queue) (t : PushedTrb)
    (hstores : s.stores =
      (Ring.pushStores ⟨phys, r.tail, r.tailPhase⟩ t.toTrbEntry).drop 3)
    (hring : s.ring = (⟨phys, r.tail, r.tailPhase⟩ : Ring).push)
    (hpushed : s.pushed = s.consumed ++ queue ++ [t.toTrbEntry])
    (hwritten : Written t.toTrbEntry 3 (s.memory (trbAddress phys r.tail)))
    (hlink : LinkCycle phys s.memory (s.consumed ++ queue).length r.tailPhase) :
    Inv phys (s.step .store) (r.post linkSlot t.toTrbEntry) (queue ++ [t.toTrbEntry]) := by
  have htail := tail_lt h.holds
  obtain ⟨hlo, hhi, hstatus⟩ := hwritten
  have hwords : ({ s.memory (trbAddress phys r.tail) with
      control := t.control ||| r.tailPhase.toNat } : TrbWords) = t.toTrbData.words r.tailPhase := by
    rw [TrbData.words, ← hlo (by decide), ← hhi (by decide), ← hstatus (by decide)]
  rw [step, hstores, Ring.pushStores, Ring.writeTrb]
  simp only [List.cons_append, List.nil_append, List.drop_succ_cons, List.drop_zero, Store.apply]
  show Inv phys { s with
    memory := Function.update s.memory (trbAddress phys r.tail)
      { s.memory (trbAddress phys r.tail) with control := t.control ||| r.tailPhase.toNat }
    stores := _ } _ _
  rw [hwords]
  refine ⟨h.holds.post h.length_lt _, ?_, ?_, h.link.update htail _, ?_, ?_, h.room⟩
  · have hshows := h.shows.post h.holds h.length_lt (words_cycle t.toTrbData r.tailPhase)
    rw [words_entry, ← slotsOf_update] at hshows
    exact hshows
  · intro t' ht'
    rcases List.mem_append.mp ht' with hmem | hmem
    · exact h.plain t' hmem
    · rw [List.mem_singleton.mp hmem]
      exact t.no_link
  · cases h.controller with
    | slot hpointer hcycle => exact .slot hpointer hcycle
    | link hpointer hcycle hhead hpos => exact .link hpointer hcycle hhead hpos
  · rw [ring_push phys r t.toTrbEntry htail] at hring
    by_cases hwrap : ringTrbs - 1 ≤ r.tail + 1
    · have heq : r.tail + 1 = linkSlot := Nat.le_antisymm htail hwrap
      have hphase : (r.post linkSlot t.toTrbEntry).tailPhase = !r.tailPhase := by
        rw [PhaseRing.post, heq, Nat.mod_self, if_pos rfl]
      rw [if_pos hwrap]
      refine .linking ?_ hring ?_
      · rw [hphase, Bool.not_not]
        rfl
      · rw [hpushed, List.append_assoc]
    · have hlt : r.tail + 1 < linkSlot := Nat.lt_of_not_le hwrap
      have hphase : (r.post linkSlot t.toTrbEntry).tailPhase = r.tailPhase := by
        rw [PhaseRing.post]
        dsimp only
        rw [Nat.mod_eq_of_lt hlt, if_neg (Nat.succ_ne_zero _)]
      rw [if_neg hwrap]
      refine .idle rfl hring ?_ ?_
      · rw [hpushed, List.append_assoc]
      · rw [hphase]
        apply LinkCycle.update _ htail
        intro htotal
        apply hlink
        -- a lap that is not over did not just end
        by_contra hfirst
        have htotal' : linkSlot ≤ s.consumed.length + queue.length + 1 := by
          simpa [Nat.add_assoc] using htotal
        have htail' := h.holds.tail
        rw [List.length_append] at hfirst
        rw [Nat.mod_eq_of_lt (by omega)] at htail'
        omega

theorem inv_early (h : Inv phys s r queue) (t : PushedTrb) (k : Nat) (w : TrbWords) (hk : k < 3)
    (hring : s.ring = (⟨phys, r.tail, r.tailPhase⟩ : Ring).push)
    (hpushed : s.pushed = s.consumed ++ queue ++ [t.toTrbEntry])
    (hlink : LinkCycle phys s.memory (s.consumed ++ queue).length r.tailPhase)
    (hcycle : w.cycle = (s.memory (trbAddress phys r.tail)).cycle)
    (hwritten : Written t.toTrbEntry (k + 1) w) :
    Inv phys
      { s with
        memory := Function.update s.memory (trbAddress phys r.tail) w
        stores := (Ring.pushStores ⟨phys, r.tail, r.tailPhase⟩ t.toTrbEntry).drop (k + 1) } r
      queue := by
  apply h.scribble h.length_lt hcycle
  refine .writing t (k + 1) (by omega) rfl hring hpushed ?_ (hlink.update (tail_lt h.holds) w)
  dsimp only
  rwa [Function.update_self]

theorem inv_store (h : Inv phys s r queue) :
    ∃ r' queue', Inv phys (s.step .store) r' queue' := by
  cases h.stage with
  | idle hstores =>
    have hsame : s.step .store = s := by rw [step, hstores]
    rw [hsame]
    exact ⟨r, queue, h⟩
  | linking hstores hring hpushed =>
    obtain ⟨hwords, hcycle⟩ := h.link.store (!r.tailPhase)
    have hstep : s.step .store =
        { s with
          memory := (Store.link (trbAddress phys linkSlot) (!r.tailPhase)).apply s.memory
          stores := [] } := by
      rw [step, hstores]
    have hcycle' : LinkCycle phys
        ((Store.link (trbAddress phys linkSlot) (!r.tailPhase)).apply s.memory)
        (s.consumed ++ queue).length r.tailPhase := LinkCycle.of_cycle hcycle
    rw [hstep]
    refine ⟨r, queue, ?_⟩
    refine ⟨h.holds, ?_, h.plain, hwords, h.controller,
      .idle rfl hring hpushed hcycle', h.room⟩
    apply h.shows.congr linkSlot_pos
    intro i hi
    show slotsOf phys (Function.update s.memory (trbAddress phys linkSlot) _) i = _
    rw [slotsOf_update]
    exact Function.update_of_ne (Nat.ne_of_lt hi) _ _
  | writing t k hearly hstores hring hpushed hwritten hlink =>
    obtain ⟨hlo, hhi, hstatus⟩ := hwritten
    have hk : k = 0 ∨ k = 1 ∨ k = 2 ∨ k = 3 := by omega
    rcases hk with rfl | rfl | rfl | rfl
    · refine ⟨r, queue, ?_⟩
      rw [step, hstores]
      exact inv_early h t 0 { s.memory (trbAddress phys r.tail) with lo := _ } (by decide) hring
        hpushed hlink rfl
        ⟨fun _ => rfl, fun hle => absurd hle (by decide), fun hle => absurd hle (by decide)⟩
    · refine ⟨r, queue, ?_⟩
      rw [step, hstores]
      exact inv_early h t 1 { s.memory (trbAddress phys r.tail) with hi := _ } (by decide) hring
        hpushed hlink rfl
        ⟨fun _ => hlo (by decide), fun _ => rfl, fun hle => absurd hle (by decide)⟩
    · refine ⟨r, queue, ?_⟩
      rw [step, hstores]
      exact inv_early h t 2 { s.memory (trbAddress phys r.tail) with status := _ } (by decide)
        hring hpushed hlink rfl
        ⟨fun _ => hlo (by decide), fun _ => hhi (by decide), fun _ => rfl⟩
    · exact ⟨_, _, inv_control h t hstores hring hpushed ⟨hlo, hhi, hstatus⟩ hlink⟩

/-! ## The controller -/

theorem Stage.consume {tail : Nat} {phase : Bool} {arrived arrived' : List TrbEntry}
    (h : Stage phys s tail phase arrived) (harrived : arrived' = arrived)
    (controller : Dequeue) (consumed : List TrbEntry) :
    Stage phys { s with controller, consumed } tail phase arrived' := by
  subst harrived
  cases h with
  | idle hstores hring hpushed hlink => exact .idle hstores hring hpushed hlink
  | writing t k hearly hstores hring hpushed hwritten hlink =>
    exact .writing t k hearly hstores hring hpushed hwritten hlink
  | linking hstores hring hpushed => exact .linking hstores hring hpushed

/-- What one step of the controller does: it takes the oldest TRB that waits, follows the link,
or stays where it is. -/
inductive Consumes (phys : Nat) (s : Pipe) (r : PhaseRing TrbEntry) (queue : List TrbEntry) : Prop
  | takes (a : TrbEntry) (rest : List TrbEntry) (queue_eq : queue = a :: rest)
      (consumed : (s.step .consume).consumed = s.consumed ++ [a])
      (inv : Inv phys (s.step .consume) (r.next linkSlot) rest)
  | follows (pointer : s.controller.pointer = trbAddress phys linkSlot)
      (pointer' : (s.step .consume).controller.pointer = trbAddress phys 0)
      (consumed : (s.step .consume).consumed = s.consumed)
      (inv : Inv phys (s.step .consume) r queue)
  | stays (same : s.step .consume = s)
      (why : queue = [] ∨ s.controller.pointer = trbAddress phys linkSlot ∧
        (s.memory (trbAddress phys linkSlot)).cycle ≠ s.controller.cycle)

theorem step_consume (s : Pipe) {entry : Option TrbEntry} {d : Dequeue}
    (h : s.controller.step s.memory = (entry, d)) :
    s.step .consume = { s with controller := d, consumed := s.consumed ++ entry.toList } := by
  rw [step, h]

theorem step_stays (s : Pipe)
    (h : (s.memory s.controller.pointer).cycle ≠ s.controller.cycle) : s.step .consume = s := by
  have hstep : s.controller.step s.memory = (none, s.controller) := by
    rw [Dequeue.step]
    exact if_pos h
  rw [step_consume s hstep]
  simp

theorem consumes_slot (h : Inv phys s r queue)
    (hpointer : s.controller.pointer = trbAddress phys r.head)
    (hcycle : s.controller.cycle = r.headPhase) : Consumes phys s r queue := by
  cases queue with
  | nil =>
    have hother := h.shows.none h.holds linkSlot_pos
    refine .stays (step_stays s ?_) (.inl rfl)
    rw [hpointer, hcycle]
    exact hother
  | cons a rest =>
    obtain ⟨hphase, hentry⟩ := h.shows.first h.holds
    have hword : (s.memory (trbAddress phys r.head)).entry = a := hentry
    have hsame : (s.memory (trbAddress phys r.head)).cycle = r.headPhase := hphase
    have hkind : (s.memory (trbAddress phys r.head)).kind ≠ trbLink := by
      rw [← entry_kind, hword]
      exact h.plain a List.mem_cons_self
    have hstep : s.controller.step s.memory =
        (some a, ⟨trbAddress phys r.head + trbSize, s.controller.cycle⟩) := by
      rw [Dequeue.step, hpointer, hcycle]
      rw [if_neg (not_not.mpr hsame), if_neg hkind, hword]
    have hnext : trbAddress phys r.head + trbSize = trbAddress phys (r.head + 1) := by
      rw [trbAddress, trbAddress, Nat.succ_mul, Nat.add_assoc]
    have hhead : r.head < linkSlot := by
      rw [h.holds.head]
      exact Nat.mod_lt _ linkSlot_pos
    have hlength : (s.consumed ++ [a]).length = s.consumed.length + 1 := by simp
    have hat : At phys ⟨trbAddress phys r.head + trbSize, s.controller.cycle⟩
        (r.next linkSlot) (s.consumed ++ [a]).length := by
      rw [hnext, hlength]
      by_cases hwrap : r.head + 1 = linkSlot
      · refine .link (by rw [hwrap]) ?_ ?_ (Nat.succ_pos _)
        · rw [PhaseRing.next, hwrap, Nat.mod_self, if_pos rfl, Bool.not_not]
          exact hcycle
        · rw [PhaseRing.next, hwrap, Nat.mod_self]
      · have hmod : (r.head + 1) % linkSlot = r.head + 1 := Nat.mod_eq_of_lt (by omega)
        refine .slot ?_ ?_
        · rw [PhaseRing.next, hmod]
        · rw [PhaseRing.next, hmod, if_neg (Nat.succ_ne_zero _)]
          exact hcycle
    refine .takes a rest rfl (by rw [step_consume s hstep]; rfl) ?_
    rw [step_consume s hstep]
    have hholds := h.holds.next
    have hshows := h.shows.next
    rw [← hlength] at hholds hshows
    refine ⟨hholds, hshows, fun t ht => h.plain t (List.mem_cons_of_mem a ht), h.link, hat,
      h.stage.consume (by simp) _ _, ?_⟩
    have hroom := h.room
    show s.pushed.length ≤ (s.consumed ++ [a]).length + maxWaiting
    omega

theorem consumes_link (h : Inv phys s r queue)
    (hpointer : s.controller.pointer = trbAddress phys linkSlot)
    (hcycle : s.controller.cycle = !r.headPhase) (hhead : r.head = 0) :
    Consumes phys s r queue := by
  by_cases hsame : (s.memory (trbAddress phys linkSlot)).cycle = s.controller.cycle
  · have hstep : s.controller.step s.memory = (none, ⟨trbAddress phys 0, r.headPhase⟩) := by
      rw [Dequeue.step, hpointer]
      rw [if_neg (not_not.mpr hsame), if_pos h.link.kind, h.link.param, h.link.toggles,
        if_pos rfl, hcycle, Bool.not_not, trbAddress, Nat.zero_mul, Nat.add_zero]
    refine .follows hpointer ?_ ?_ ?_
    · rw [step_consume s hstep]
    · rw [step_consume s hstep]
      exact List.append_nil _
    · rw [step_consume s hstep, Option.toList_none, List.append_nil]
      exact ⟨h.holds, h.shows, h.plain, h.link, .slot (by rw [hhead]) rfl, h.stage.consume rfl _ _,
        h.room⟩
  · refine .stays (step_stays s ?_) (.inr ⟨hpointer, hsame⟩)
    rwa [hpointer]

theorem consumes (h : Inv phys s r queue) : Consumes phys s r queue := by
  cases h.controller with
  | slot hpointer hcycle => exact consumes_slot h hpointer hcycle
  | link hpointer hcycle hhead _ => exact consumes_link h hpointer hcycle hhead

theorem inv_step (h : Inv phys s r queue) (action : Action) :
    ∃ r' queue', Inv phys (s.step action) r' queue' := by
  cases action with
  | push t => exact ⟨r, queue, inv_push h t⟩
  | store => exact inv_store h
  | consume =>
    cases consumes h with
    | takes a rest _ _ hinv => exact ⟨_, _, hinv⟩
    | follows _ _ _ hinv => exact ⟨_, _, hinv⟩
    | stays hsame _ =>
      rw [hsame]
      exact ⟨r, queue, h⟩

theorem inv_run (h : Inv phys s r queue) (actions : List Action) :
    ∃ r' queue', Inv phys (s.run actions) r' queue' := by
  induction actions generalizing s r queue with
  | nil => exact ⟨r, queue, h⟩
  | cons action actions ih =>
    obtain ⟨r', queue', hstep⟩ := inv_step h action
    exact ih hstep

theorem link_ready (h : Inv phys s r queue) (hstores : s.stores = []) (hqueue : queue ≠ [])
    (hpointer : s.controller.pointer = trbAddress phys linkSlot) :
    (s.memory (trbAddress phys linkSlot)).cycle = s.controller.cycle := by
  have hhead' : r.head < linkSlot := by
    rw [h.holds.head]
    exact Nat.mod_lt _ linkSlot_pos
  cases h.controller with
  | slot hslot _ =>
    rw [hpointer, trbAddress_inj] at hslot
    omega
  | link _ hcycle hhead hpos =>
    have hlink := (h.stage.of_stores hstores).2.2
    have hwaiting := h.waiting_le
    have hmod := h.holds.head
    have hlap : (s.consumed.length + queue.length) / linkSlot = s.consumed.length / linkSlot := by
      rw [linkSlot, ringTrbs, maxWaiting] at *
      omega
    have hphase : r.tailPhase = r.headPhase := by
      rw [h.holds.tailPhase, h.holds.headPhase, PhaseRing.phase, PhaseRing.phase, hlap]
    have htotal : linkSlot ≤ (s.consumed ++ queue).length := by
      rw [List.length_append]
      rw [linkSlot, ringTrbs] at *
      omega
    rw [hlink htotal, hphase, hcycle]

def work (phys : Nat) (s : Pipe) (queue : List TrbEntry) : Nat :=
  2 * queue.length + if s.controller.pointer = trbAddress phys linkSlot then 1 else 0

theorem work_consume (h : Inv phys s r queue) (hstores : s.stores = []) :
    ∃ r' queue', Inv phys (s.step .consume) r' queue' ∧ (s.step .consume).stores = [] ∧
      (s.step .consume).pushed = s.pushed ∧
        (queue = [] ∧ queue' = [] ∨ work phys (s.step .consume) queue' < work phys s queue) := by
  have hkept : (s.step .consume).stores = [] ∧ (s.step .consume).pushed = s.pushed := by
    rw [step]
    exact ⟨hstores, rfl⟩
  cases consumes h with
  | takes a rest hqueue _ hinv =>
    refine ⟨_, rest, hinv, hkept.1, hkept.2, .inr ?_⟩
    rw [work, work, hqueue, List.length_cons]
    split <;> split <;> omega
  | follows hpointer hpointer' _ hinv =>
    refine ⟨_, queue, hinv, hkept.1, hkept.2, .inr ?_⟩
    have hne : ¬ trbAddress phys 0 = trbAddress phys linkSlot := by
      rw [trbAddress_inj]
      decide
    rw [work, work, hpointer, hpointer', if_pos rfl, if_neg hne]
    omega
  | stays hsame hwhy =>
    rw [hsame]
    refine ⟨r, queue, h, hstores, rfl, .inl ?_⟩
    rcases hwhy with hnil | ⟨hpointer, hne⟩
    · exact ⟨hnil, hnil⟩
    · by_contra hqueue
      have hne' : queue ≠ [] := fun hnil => hqueue ⟨hnil, hnil⟩
      exact hne (link_ready h hstores hne' hpointer)

theorem drained (h : Inv phys s r queue) (hstores : s.stores = []) {k : Nat}
    (hk : queue = [] ∨ work phys s queue ≤ k) :
    (s.run (List.replicate k .consume)).consumed = s.pushed := by
  induction k generalizing s r queue with
  | zero =>
    have hnil : queue = [] := by
      rcases hk with hnil | hle
      · exact hnil
      · rw [work] at hle
        exact List.length_eq_zero_iff.mp (by omega)
    rw [(h.stage.of_stores hstores).2.1, hnil, List.append_nil]
    rfl
  | succ k ih =>
    obtain ⟨r', queue', hinv, hstores', hpushed, hwork⟩ := work_consume h hstores
    rw [List.replicate_succ, ← hpushed]
    apply ih hinv hstores'
    rcases hwork with ⟨_, hnil⟩ | hless
    · exact .inl hnil
    · rcases hk with hnil | hle
      · left
        rw [hnil, work, work, List.length_nil] at hless
        apply List.length_eq_zero_iff.mp
        split at hless <;> split at hless <;> omega
      · exact .inr (by omega)

theorem run_fifo (phys : UInt64) (actions : List Action) :
    ((start phys.toNat).run actions).consumed <+: ((start phys.toNat).run actions).pushed ∧
      (((start phys.toNat).run actions).stores = [] →
        ∀ k, 2 * (((start phys.toNat).run actions).pushed.length -
            ((start phys.toNat).run actions).consumed.length) < k →
          (((start phys.toNat).run actions).run (List.replicate k .consume)).consumed =
            ((start phys.toNat).run actions).pushed) := by
  obtain ⟨r, queue, h⟩ := inv_run (inv_start phys) actions
  refine ⟨h.consumed_first, fun hstores k hk => drained h hstores (.inr ?_)⟩
  rw [(h.stage.of_stores hstores).2.1, List.length_append] at hk
  rw [work]
  split <;> omega

end Pipe

end Vibra.Usb
