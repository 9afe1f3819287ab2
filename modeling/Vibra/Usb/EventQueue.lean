import Vibra.Usb.TrbQueues

/-! # The event ring in memory

The controller posts events around one segment and turns its cycle bit over at the end;
`next_event` takes them off.
-/

namespace Vibra.Usb

open Lib (PhaseRing)

/-- What `next_event` returns. -/
structure EventWords where
  param : Nat
  status : Nat
  control : Nat

def EventWords.entry (e : EventWords) : TrbEntry := ⟨e.param, e.status, e.control >>> 1 <<< 1⟩

/-- The event ring with the place and the cycle state of either side, and all events so far. -/
structure EventPipe where
  ev : Ring
  memory : TrbMemory
  enqueue : Nat
  producerCycle : Bool
  erdp : Nat
  posted : List TrbEntry
  returned : List TrbEntry

namespace EventPipe

inductive Action where
  | post (event : TrbData)
  | nextEvent

def nextEvent (s : EventPipe) : Option EventWords × EventPipe :=
  let w := s.memory (trbAddress s.ev.phys s.ev.index)
  if w.control &&& 1 ≠ s.ev.cycle.toNat then (none, s)
  else
    let ev :=
      if ringTrbs ≤ s.ev.index + 1 then { s.ev with index := 0, cycle := !s.ev.cycle }
      else { s.ev with index := s.ev.index + 1 }
    (some ⟨w.param, w.status, w.control⟩,
      { s with ev, erdp := s.ev.phys + ev.index * trbSize })

/-- No event is posted over one that has not been read; a call of `next_event` adds what it
returns. -/
def step (s : EventPipe) : Action → EventPipe
  | .post event =>
    if s.posted.length < s.returned.length + ringTrbs then
      { s with
        memory := Function.update s.memory (trbAddress s.ev.phys s.enqueue)
          (event.words s.producerCycle)
        enqueue := (s.enqueue + 1) % ringTrbs
        producerCycle :=
          if (s.enqueue + 1) % ringTrbs = 0 then !s.producerCycle else s.producerCycle
        posted := s.posted ++ [event.toTrbEntry] }
    else s
  | .nextEvent =>
    let (event, s) := s.nextEvent
    { s with returned := s.returned ++ (event.map EventWords.entry).toList }

def run (s : EventPipe) (actions : List Action) : EventPipe := actions.foldl step s

def start (phys : Nat) : EventPipe :=
  ⟨Ring.new phys, fun _ => ⟨0, 0, 0, 0⟩, 0, true, phys, [], []⟩

/-! ## The invariant -/

structure Inv (phys : Nat) (s : EventPipe) (r : PhaseRing TrbEntry) (queue : List TrbEntry) :
    Prop where
  holds : PhaseRing.Holds ringTrbs r s.returned.length queue
  shows : PhaseRing.Shows ringTrbs TrbWords.cycle TrbWords.entry (slotsOf phys s.memory) r
    s.returned.length queue
  consumer : s.ev = ⟨phys, r.head, r.headPhase⟩
  producer : s.enqueue = r.tail ∧ s.producerCycle = r.tailPhase
  posted : s.posted = s.returned ++ queue

variable {phys : Nat} {s : EventPipe} {r : PhaseRing TrbEntry} {queue : List TrbEntry}

theorem ringTrbs_pos : 0 < ringTrbs := by decide

theorem inv_start (phys : Nat) : Inv phys (start phys) (PhaseRing.empty ⟨0, 0, 0⟩) [] where
  holds := PhaseRing.holds_empty _
  shows := ⟨fun _ _ => Nat.zero_testBit 0, fun i hi => absurd hi (Nat.not_lt_zero i)⟩
  consumer := rfl
  producer := ⟨rfl, rfl⟩
  posted := rfl

theorem inv_post (h : Inv phys s r queue) (event : TrbData) :
    ∃ r' queue', Inv phys (s.step (.post event)) r' queue' := by
  rw [step]
  split
  · next hroom =>
      have hlt : queue.length < ringTrbs := by
        rw [h.posted, List.length_append] at hroom
        omega
      have hcycle : (event.words s.producerCycle).cycle = r.tailPhase := by
        rw [words_cycle, h.producer.2]
      have hshows := h.shows.post h.holds hlt hcycle
      rw [words_entry, ← slotsOf_update] at hshows
      refine ⟨r.post ringTrbs event.toTrbEntry, queue ++ [event.toTrbEntry],
        h.holds.post hlt _, ?_, h.consumer, ?_, ?_⟩
      · rw [h.consumer, h.producer.1]
        exact hshows
      · rw [h.producer.1, h.producer.2]
        exact ⟨rfl, rfl⟩
      · rw [h.posted, List.append_assoc]
  · exact ⟨r, queue, h⟩

theorem lowBit_eq (w : TrbWords) : w.control &&& 1 = w.cycle.toNat := by
  rw [Nat.and_one_is_mod, TrbWords.cycle, Nat.testBit_zero]
  rcases Nat.mod_two_eq_zero_or_one w.control with h | h <;> rw [h] <;> rfl

theorem toNat_inj {a b : Bool} : a.toNat = b.toNat ↔ a = b := by
  cases a <;> cases b <;> decide

theorem nextEvent_spec (h : Inv phys s r queue) :
    (queue = [] ∧ s.nextEvent = (none, s)) ∨
      ∃ entry rest event s', queue = entry :: rest ∧ s.nextEvent = (some event, s') ∧
        event.entry = entry ∧ s'.returned = s.returned ∧
          Inv phys { s' with returned := s.returned ++ [entry] } (r.next ringTrbs) rest := by
  have hfound : s.memory (trbAddress s.ev.phys s.ev.index) = slotsOf phys s.memory r.head := by
    rw [h.consumer]
    rfl
  have hphase : s.ev.cycle = r.headPhase := by rw [h.consumer]
  cases queue with
  | nil =>
    left
    have hother := h.shows.none h.holds ringTrbs_pos
    rw [nextEvent, hfound, lowBit_eq, hphase]
    exact ⟨rfl, if_pos (mt toNat_inj.mp hother)⟩
  | cons entry rest =>
    right
    obtain ⟨hsame, hentry⟩ := h.shows.first h.holds
    have hhead : r.head < ringTrbs := by
      rw [h.holds.head]
      exact Nat.mod_lt _ ringTrbs_pos
    have hlength : (s.returned ++ [entry]).length = s.returned.length + 1 := by simp
    have hholds := h.holds.next
    have hshows := h.shows.next
    rw [← hlength] at hholds hshows
    rw [nextEvent, hfound, lowBit_eq, hphase]
    dsimp only
    rw [if_neg (not_not.mpr (toNat_inj.mpr hsame))]
    refine ⟨entry, rest, _, _, rfl, rfl, hentry, rfl,
      ⟨hholds, hshows, ?_, h.producer, by rw [h.posted]; simp⟩⟩
    rw [h.consumer, PhaseRing.next]
    dsimp only
    by_cases hwrap : r.head + 1 = ringTrbs
    · rw [if_pos hwrap.ge, hwrap, Nat.mod_self, if_pos rfl]
    · have hlt : r.head + 1 < ringTrbs := by omega
      rw [if_neg (by omega), Nat.mod_eq_of_lt hlt, if_neg (Nat.succ_ne_zero _)]

theorem inv_nextEvent (h : Inv phys s r queue) :
    ∃ r', Inv phys (s.step .nextEvent) r' queue.tail ∧
      (s.step .nextEvent).posted = s.posted := by
  rcases nextEvent_spec h with ⟨hnil, hnone⟩ | ⟨entry, rest, event, s', hqueue, hnext, hentry,
    hreturned, hinv⟩
  · refine ⟨r, ?_, ?_⟩
    · rw [step, hnone, hnil]
      rw [hnil] at h
      simpa using h
    · rw [step, hnone]
  · have hstep : s.step .nextEvent = { s' with returned := s.returned ++ [entry] } := by
      rw [step, hnext]
      dsimp only
      rw [hreturned, ← hentry]
      rfl
    have hposted := hinv.posted
    rw [hstep]
    refine ⟨r.next ringTrbs, by rw [hqueue]; exact hinv, ?_⟩
    show s'.posted = s.posted
    rw [h.posted, hqueue]
    rw [show s'.posted = _ from hposted, List.append_assoc]
    rfl

theorem inv_run (h : Inv phys s r queue) (actions : List Action) :
    ∃ r' queue', Inv phys (s.run actions) r' queue' := by
  induction actions generalizing s r queue with
  | nil => exact ⟨r, queue, h⟩
  | cons action actions ih =>
    cases action with
    | post event =>
      obtain ⟨r', queue', hstep⟩ := inv_post h event
      exact ih hstep
    | nextEvent =>
      obtain ⟨r', hstep, -⟩ := inv_nextEvent h
      exact ih hstep

theorem drained (h : Inv phys s r queue) {k : Nat} (hk : queue.length ≤ k) :
    (s.run (List.replicate k .nextEvent)).returned = s.posted := by
  induction k generalizing s r queue with
  | zero =>
    rw [h.posted, List.length_eq_zero_iff.mp (Nat.le_zero.mp hk), List.append_nil]
    rfl
  | succ k ih =>
    obtain ⟨r', hinv, hposted⟩ := inv_nextEvent h
    rw [List.replicate_succ, ← hposted]
    exact ih hinv (by rw [List.length_tail]; omega)

theorem run_fifo (phys : Nat) (actions : List Action) :
    ((start phys).run actions).returned <+: ((start phys).run actions).posted ∧
      ∀ k, ((start phys).run actions).posted.length -
          ((start phys).run actions).returned.length ≤ k →
        (((start phys).run actions).run (List.replicate k .nextEvent)).returned =
          ((start phys).run actions).posted := by
  obtain ⟨r, queue, h⟩ := inv_run (inv_start phys) actions
  refine ⟨⟨queue, h.posted.symm⟩, fun k hk => drained h ?_⟩
  rw [h.posted, List.length_append] at hk
  omega

end EventPipe

end Vibra.Usb
