import Vibra.Input.Sources
import Vibra.Lib.Merge
import Mathlib.Algebra.Order.BigOperators.Group.Finset

/-! # The type-ahead keeps keys

`pollCancel` takes a key with the poll of the input loop and puts it behind the type-ahead.
-/

namespace Vibra.Input

open Lib (Along IsMerge along_snoc scanAll)

def Key.keeps (key : Key) : Bool := !key.isCancel

namespace Queues

variable {q q' : Queues} {e : Event} {events : List Event} {held : Source → List Key}

def serialReady (q : Queues) : List Key :=
  (scanAll decodeSerialByte (q.serial.bytes.take rxPollBudget) q.serial.decoder).1

/-- The bytes find room, and a poll that takes a key back puts it where it was. -/
def Orderly (q : Queues) (e : Event) : Prop :=
  q.Fits ∧ (e = .pollCancel → q.serialReady = [] → q.typeahead.rotate 1 = q.typeahead)

def HandsOver (q : Queues) : Prop :=
  q.Fits ∧ (q.typeahead = [] ∨ q.pending .serial = [])

instance (q : Queues) (e : Event) : Decidable (q.Orderly e) :=
  inferInstanceAs (Decidable (_ ∧ (_ → _ → _)))

instance (q : Queues) : Decidable q.HandsOver := inferInstanceAs (Decidable (_ ∧ (_ ∨ _)))

def kept (q : Queues) (events : List Event) (s : Source) : List Key :=
  (q.arrived events s).filter Key.keeps

/-- The polls of the input loop return the keys that do not cancel, each once and those of a
source in their order. No other key comes when no cancellation is left for them. -/
def Returned (q : Queues) (events : List Event) : Prop :=
  ∃ n, ∀ m ≥ n, IsMerge ((later m (q.run events)).filter Key.keeps) (q.kept events) ∧
    ((∀ s, ∀ key ∈ (q.run events).pending s, key.keeps) →
      IsMerge (later m (q.run events)) (q.kept events))

theorem poll_serial (h : q.serialReady ≠ []) (hvalid : q.Valid) :
    q.poll.2.typeahead = q.typeahead := by
  obtain ⟨hkey, -⟩ := SerialPort.pollKeyFor_spec rxPollBudget hvalid.uart
  rw [Lib.scanFirst_head] at hkey
  rw [poll]
  cases hpoll : q.serial.pollKey with
  | mk key serial =>
    cases key with
    | some key => rfl
    | none =>
      rw [SerialPort.pollKey] at hpoll
      rw [hpoll] at hkey
      exact absurd (List.head?_eq_none_iff.mp hkey.symm) h

theorem isMerge_taken {sources : Source → List Key} {merged : List Key} {s : Source} {key : Key}
    (h : IsMerge merged sources) {sources' : Source → List Key}
    (hs : sources' s = key :: sources s) (hother : ∀ s', s' ≠ s → sources' s' = sources s') :
    IsMerge (key :: merged) sources' := by
  refine (h.cons s key).congr fun s' => ?_
  by_cases hs' : s' = s
  · rw [hs', Function.update_self, hs]
  · rw [Function.update_of_ne hs', hother s' hs']

theorem later_isMerge (m : Nat) (hm : q.work ≤ m) (hvalid : q.Valid) (hover : q.HandsOver)
    (hheld : IsMerge q.typeahead held) :
    IsMerge (later m q) fun s => held s ++ q.pending s := by
  induction m generalizing q held with
  | zero =>
    have hwork : q.work = 0 := Nat.le_zero.mp hm
    have hnil : ∀ s, held s = [] := by
      have : q.typeahead = [] := List.length_eq_zero_iff.mp (by rw [work] at hwork; omega)
      exact IsMerge.nil_iff.mp (this ▸ hheld)
    refine IsMerge.nil_iff.mpr fun s => ?_
    rw [hnil, List.nil_append]
    cases s with
    | serial =>
      have : q.serial.bytes = [] := List.length_eq_zero_iff.mp (by rw [work] at hwork; omega)
      rw [pending, SerialPort.scan, this]
      rfl
    | hid =>
      have hhid : q.hidQueue = [] := List.length_eq_zero_iff.mp (by rw [work] at hwork; omega)
      have husb : q.usb = [] := List.length_eq_zero_iff.mp (by rw [work] at hwork; omega)
      rw [pending, hhid, husb]
      rfl
    | ps2 =>
      have : q.ps2Bytes = [] := List.length_eq_zero_iff.mp (by rw [work] at hwork; omega)
      rw [pending, ps2Scan, this]
      rfl
    | held => rfl
  | succ m ih =>
    obtain ⟨hsteady, hpolled, hwork, -⟩ := poll_spec hvalid hover.1
    have hm' : q.poll.2.work ≤ m := by omega
    rw [later]
    generalize hkey : q.poll.1 = key at hpolled
    cases hpolled with
    | idle h1 h2 h3 h4 =>
      have hmerge := @ih _ held hm' hsteady.valid ⟨hsteady.fits, .inl h2⟩ (h2 ▸ h1 ▸ hheld)
      exact hmerge.congr fun s => by rw [h3]
    | taken s h1 h2 h3 h4 =>
      have hnone : q.typeahead = [] := by
        by_cases hs : s = .serial
        · refine hover.2.resolve_right fun h => ?_
          rw [hs, h] at h2
          contradiction
        · exact h4 hs
      have hnil : ∀ s, held s = [] := IsMerge.nil_iff.mp (hnone ▸ hheld)
      have hmerge := @ih _ held hm' hsteady.valid ⟨hsteady.fits, .inl (h1.trans hnone)⟩
        (h1 ▸ hheld)
      refine isMerge_taken hmerge (s := s) ?_ fun s' hs => ?_
      · rw [hnil, List.nil_append, List.nil_append, h2]
      · rw [h3 s' hs]
    | back h1 h2 =>
      obtain ⟨s, rest, hs, hrest⟩ := IsMerge.uncons (h1 ▸ hheld)
      have hover' : q.poll.2.HandsOver := by
        refine ⟨hsteady.fits, .inr ?_⟩
        rw [h2]
        exact hover.2.resolve_left fun h => by rw [h] at h1; contradiction
      refine isMerge_taken (ih hm' hsteady.valid hover' hrest) (s := s) ?_ fun s' hs' => ?_
      · rw [hs, Function.update_self, h2]
        rfl
      · rw [Function.update_of_ne hs', h2]

/-! ## A command -/

/-- What the type-ahead holds and what waits is all that has arrived and does not cancel. -/
structure Keeps (q : Queues) (events : List Event) (q' : Queues) : Prop
    extends Follows q events q' where
  keys : ∃ held, IsMerge q'.typeahead held ∧
    ∀ s, q.kept events s = held s ++ (q'.pending s).filter Key.keeps

theorem keeps_nil (hvalid : q.Valid) : Keeps q [] q where
  toFollows := follows_nil hvalid
  keys := by
    have hkeep : q.typeahead.filter Key.keeps = q.typeahead :=
      List.filter_eq_self.mpr fun key hk => by rw [Key.keeps, hvalid.typeahead key hk]; rfl
    obtain ⟨h1, h2⟩ := arrived_nil q
    refine ⟨_, IsMerge.single .held q.typeahead, fun s => ?_⟩
    by_cases hs : s = .held
    · rw [hs, Function.update_self, kept, h1, hkeep]
      exact (List.append_nil _).symm
    · rw [Function.update_of_ne hs, kept, h2 s hs, List.nil_append]

theorem keeps_arrival (h : Keeps q events q') (hfits : q'.Fits) (hpossible : q'.Possible e)
    (hpoll : e ≠ .pollCancel) : Keeps q (events ++ [e]) (q'.step e) := by
  obtain ⟨hpending, -, -, htypeahead, -, -⟩ := arrival h.valid hfits hpossible hpoll
  obtain ⟨held, hheld, hkeys⟩ := h.keys
  refine ⟨follows_arrival h.toFollows hfits hpossible hpoll, held, htypeahead ▸ hheld, fun s => ?_⟩
  have hs := hkeys s
  rw [kept] at hs
  rw [kept, arrived_snoc, hpending, List.filter_append, List.filter_append, hs, h.serial, h.ps2,
    List.append_assoc]

theorem length_held (hheld : IsMerge q'.typeahead held)
    (hkeys : ∀ s, q.kept events s = held s ++ (q'.pending s).filter Key.keeps) :
    q'.typeahead.length + ∑ s, ((q'.pending s).filter Key.keeps).length =
      ∑ s, (q.kept events s).length := by
  rw [hheld.length, ← Finset.sum_add_distrib]
  exact Finset.sum_congr rfl fun s _ => by rw [hkeys, List.length_append]

theorem keeps_poll (h : Keeps q events q') (hpoll : q'.Orderly .pollCancel)
    (hroom : ∑ s, (q.kept events s).length ≤ typeaheadMax) :
    Keeps q (events ++ [.pollCancel]) q'.pollCancel := by
  refine ⟨follows_pollCancel h.toFollows hpoll.1, ?_⟩
  obtain ⟨-, hpolled, -, -⟩ := poll_spec h.valid hpoll.1
  obtain ⟨held, hheld, hkeys⟩ := h.keys
  have hlen := length_held hheld hkeys
  have hkept : ∀ s, q.kept (events ++ [.pollCancel]) s = q.kept events s := fun s => by
    rw [kept, arrived_snoc, brought_pollCancel, List.append_nil]
    rfl
  have hready : q'.poll.2.typeahead ≠ q'.typeahead → q'.typeahead.rotate 1 = q'.typeahead := by
    intro hne
    refine hpoll.2 rfl (Classical.byContradiction fun hready => hne ?_)
    exact poll_serial hready h.valid
  rw [pollCancel]
  generalize q'.poll = p at hpolled hready
  obtain ⟨key, q''⟩ := p
  dsimp only at hpolled hready
  cases hpolled with
  | idle h1 h2 h3 h4 => exact ⟨held, h2 ▸ h1 ▸ hheld, fun s => by rw [hkept, hkeys, h3]⟩
  | @taken _ key s h1 h2 h3 h4 =>
    cases hcancel : key.isCancel with
    | true =>
      simp only [hcancel, if_true]
      refine ⟨held, h1 ▸ hheld, fun s' => ?_⟩
      show _ = held s' ++ (q''.pending s').filter Key.keeps
      rw [hkept, hkeys]
      by_cases hs : s' = s
      · rw [hs, h2, List.filter_cons_of_neg (by rw [Key.keeps, hcancel]; decide)]
      · rw [h3 s' hs]
    | false =>
      have hkeeps : key.keeps = true := by rw [Key.keeps, hcancel]; rfl
      have hmore : q'.typeahead.length < typeaheadMax := by
        have hpos := Finset.single_le_sum
          (f := fun s => ((q'.pending s).filter Key.keeps).length)
          (fun s _ => Nat.zero_le _) (Finset.mem_univ s)
        simp only [h2, List.filter_cons_of_pos hkeeps, List.length_cons] at hpos
        omega
      have hpush : q''.pushBack key = { q'' with typeahead := q'.typeahead ++ [key] } := by
        rw [pushBack, h1, if_pos hmore]
      simp only [hcancel, Bool.false_eq_true, if_false, hpush]
      refine ⟨Function.update held s (held s ++ [key]), hheld.snoc s key, fun s' => ?_⟩
      show _ = _ ++ (q''.pending s').filter Key.keeps
      rw [hkept, hkeys]
      by_cases hs : s' = s
      · rw [hs, h2, Function.update_self, List.filter_cons_of_pos hkeeps, List.append_assoc]
        rfl
      · rw [Function.update_of_ne hs, h3 s' hs]
  | @back _ key h1 h2 =>
    have hcancel : key.isCancel = false :=
      h.valid.typeahead key (h1 ▸ List.mem_cons_self)
    have hless : q''.typeahead.length < typeaheadMax := by
      rw [h1, List.length_cons] at hlen
      omega
    have hrotate : q''.typeahead ++ [key] = q'.typeahead := by
      have := hready fun heq => by rw [h1] at heq; exact List.cons_ne_self _ _ heq.symm
      rwa [h1, List.rotate_cons_succ, List.rotate_zero, ← h1] at this
    have hpush : q''.pushBack key = { q'' with typeahead := q'.typeahead } := by
      rw [pushBack, if_pos hless, hrotate]
    simp only [hcancel, Bool.false_eq_true, if_false, hpush]
    refine ⟨held, hheld, fun s => ?_⟩
    rw [hkept, hkeys, ← h2]
    rfl

theorem kept_snoc_le (q : Queues) (events : List Event) (e : Event) :
    ∑ s, (q.kept events s).length ≤ ∑ s, (q.kept (events ++ [e]) s).length := by
  refine Finset.sum_le_sum fun s _ => ?_
  rw [kept, kept, arrived_snoc, List.filter_append, List.length_append]
  exact Nat.le_add_right _ _

theorem keeps_run (hvalid : q.Valid)
    (hrun : Along step (fun q e => q.Possible e ∧ q.Orderly e) q events)
    (hroom : ∑ s, (q.kept events s).length ≤ typeaheadMax) : Keeps q events (q.run events) := by
  induction events using List.reverseRecOn with
  | nil => exact keeps_nil hvalid
  | append_singleton events e ih =>
    obtain ⟨hbefore, hpossible, horderly⟩ := along_snoc.mp hrun
    have hroom' := (kept_snoc_le q events e).trans hroom
    have hkeeps := ih hbefore hroom'
    rw [run_snoc]
    by_cases hpoll : e = .pollCancel
    · subst hpoll
      exact keeps_poll hkeeps horderly hroom'
    · exact keeps_arrival hkeeps horderly.1 hpossible hpoll

/-- When no poll of a command turns the type-ahead around and the input loop finds no key of the
serial port in front of it, the keys come back in their order. -/
theorem typeahead_returned (hvalid : q.Valid)
    (hrun : Along step (fun q e => q.Possible e ∧ q.Orderly e) q events)
    (hover : (q.run events).HandsOver)
    (hroom : ∑ s, (q.kept events s).length ≤ typeaheadMax) : q.Returned events := by
  obtain ⟨⟨hvalid', -, -⟩, held, hheld, hkeys⟩ := keeps_run hvalid hrun hroom
  have hkeep : ∀ s, (held s).filter Key.keeps = held s := fun s => by
    refine List.filter_eq_self.mpr fun key hk => ?_
    have := hvalid'.typeahead key (hheld.mem.mpr ⟨s, hk⟩)
    rw [Key.keeps, this]
    rfl
  refine ⟨(q.run events).work, fun m hm => ?_⟩
  have hmerge := later_isMerge m hm hvalid' hover hheld
  refine ⟨(hmerge.filter Key.keeps).congr fun s => ?_, fun hall => hmerge.congr fun s => ?_⟩
  · rw [List.filter_append, hkeep, hkeys]
  · rw [hkeys, List.filter_eq_self.mpr (hall s)]

/-- One key of each source, polled as they come but for the last. -/
theorem typeahead_returned_three :
    Returned (start false) [.ps2Byte 0x1E false, .pollCancel, .serialByte 0x62, .pollCancel,
      .usbKey (.char 'c')] :=
  typeahead_returned (valid_start false) (by decide) (by decide) (by decide)

def twoLetters : List Event :=
  [.serialByte 0x61, .pollCancel, .serialByte 0x62, .pollCancel, .pollCancel]

/-- The command polls once more than letters come: the input loop gets the second one first. -/
theorem typeahead_turned :
    Along step (fun q e => q.Possible e ∧ q.Fits) (start false) twoLetters ∧
      kept (start false) twoLetters .serial = [.char 'a', .char 'b'] ∧
      ∑ s, (kept (start false) twoLetters s).length ≤ typeaheadMax ∧
      ¬ Returned (start false) twoLetters := by
  refine ⟨by decide, by decide, by decide, ?_⟩
  rintro ⟨n, hn⟩
  obtain ⟨hmerge, -⟩ := hn (n + 1) (Nat.le_succ n)
  have hfirst : (later (n + 1) (run (start false) twoLetters)).filter Key.keeps =
      .char 'b' :: (later n (run (start false) twoLetters).poll.2).filter Key.keeps := rfl
  have hhead : ∀ s, (kept (start false) twoLetters s).head? ≠ some (.char 'b') := by decide
  rw [hfirst] at hmerge
  obtain ⟨s, rest, hs, -⟩ := hmerge.uncons
  exact hhead s (by rw [hs]; rfl)

end Queues

end Vibra.Input
