import Vibra.Input.Sources
import Mathlib.Algebra.BigOperators.Group.Finset.Basic

/-! # The type-ahead hides a cancellation

A poll takes a key of the type-ahead before it looks at the HID queue and the PS/2 keyboard, and
`pollCancel` puts the key back.
-/

namespace Vibra.Input

open Lib (Along along_snoc)

namespace Queues

variable {q q' : Queues} {e : Event} {events before after : List Event}

def CancelWaits (q : Queues) : Prop := ∃ key ∈ q.pending .hid ++ q.pending .ps2, key.isCancel

/-- The bytes find room, and no other key is in front of a cancellation that waits. -/
def Unhidden (q : Queues) (e : Event) : Prop :=
  q.Fits ∧ (e = .pollCancel → q.cancelFlag = false → q.CancelWaits →
    ∀ key ∈ q.next, key.isCancel)

instance (q : Queues) : Decidable q.CancelWaits := inferInstanceAs (Decidable (∃ _ ∈ _, _))

instance (q : Queues) (e : Event) : Decidable (q.Unhidden e) :=
  inferInstanceAs (Decidable (_ ∧ (_ → _ → _ → ∀ _ ∈ _, _)))

/-- The flag is up once a cancellation of the PS/2 keyboard or of a USB keyboard has seen one
poll more than keys had come before it. -/
def Answered (q : Queues) (events : List Event) : Prop :=
  ∀ before e after, events = before ++ e :: after →
    (∃ s, (s = .hid ∨ s = .ps2) ∧
      ∃ key ∈ brought (q.serialBehind before) (q.ps2Behind before) e s, key.isCancel) →
    ∑ s, (q.arrived before s).length + 1 ≤ after.count .pollCancel →
    (q.run events).isCancelled

theorem cancelWaits_of_mem {s : Source} {key : Key} (hs : s = .hid ∨ s = .ps2)
    (hkey : key ∈ q.pending s) (hcancel : key.isCancel) : q.CancelWaits := by
  rcases hs with rfl | rfl
  · exact ⟨key, List.mem_append_left _ hkey, hcancel⟩
  · exact ⟨key, List.mem_append_right _ hkey, hcancel⟩

theorem cancelWaits_arrival (hvalid : q.Valid) (hfits : q.Fits) (hpossible : q.Possible e)
    (hpoll : e ≠ .pollCancel) (h : q.CancelWaits) : (q.step e).CancelWaits := by
  have harrival := (arrival hvalid hfits hpossible hpoll).pending
  obtain ⟨key, hkey, hcancel⟩ := h
  rcases List.mem_append.mp hkey with hkey | hkey
  · exact cancelWaits_of_mem (.inl rfl) (harrival .hid ▸ List.mem_append_left _ hkey) hcancel
  · exact cancelWaits_of_mem (.inr rfl) (harrival .ps2 ▸ List.mem_append_left _ hkey) hcancel

theorem cancelFlag_pollCancel (hvalid : q.Valid) (hfits : q.Fits) (h : q.cancelFlag = true) :
    q.pollCancel.cancelFlag = true := by
  have hflag := (poll_spec hvalid hfits).steady.cancelFlag h
  rcases pollCancel_cases q with heq | heq | ⟨key, -, heq⟩
  · rw [heq, hflag]
  · rw [heq]
    rfl
  · rw [heq]
    exact hflag

theorem pollCancel_cancels (hvalid : q.Valid) (hpoll : q.Unhidden .pollCancel)
    (h : q.CancelWaits) : q.pollCancel.cancelFlag = true := by
  cases hflag : q.cancelFlag with
  | true => exact cancelFlag_pollCancel hvalid hpoll.1 hflag
  | false =>
    obtain ⟨-, hpolled, -, hfirst⟩ := poll_spec hvalid hpoll.1
    have hnext := hpoll.2 rfl hflag h
    rw [← hfirst] at hnext
    rw [pollCancel]
    generalize q.poll = p at hpolled hnext
    obtain ⟨key, q'⟩ := p
    cases key with
    | some key =>
      have hcancel : key.isCancel = true := hnext key rfl
      simp only [hcancel, if_true]
      rfl
    | none =>
      obtain ⟨key, hkey, -⟩ := h
      cases hpolled with
      | idle _ _ _ hempty =>
        rw [hempty .hid (by decide), hempty .ps2 (by decide)] at hkey
        contradiction

theorem answered_after (hvalid : q.Valid)
    (hrun : Along step (fun q e => q.Possible e ∧ q.Unhidden e) q (before ++ e :: after))
    (hcancel : ∃ s, (s = .hid ∨ s = .ps2) ∧
      ∃ key ∈ brought (q.serialBehind before) (q.ps2Behind before) e s, key.isCancel) :
    (q.run (before ++ e :: after)).cancelFlag = true ∨
      after.count .pollCancel = 0 ∧ (q.run (before ++ e :: after)).CancelWaits := by
  induction after using List.reverseRecOn with
  | nil =>
    obtain ⟨hbefore, hpossible, hfits, -⟩ := along_snoc.mp hrun
    obtain ⟨hvalid', hserial, hps2⟩ :=
      follows_run hvalid (hbefore.mono fun _ _ h => ⟨h.1, h.2.1⟩)
    obtain ⟨s, hs, key, hkey, hcancel⟩ := hcancel
    have hpoll : e ≠ .pollCancel := by
      rintro rfl
      rw [brought_pollCancel] at hkey
      contradiction
    have hpending := (arrival hvalid' hfits hpossible hpoll).pending s
    rw [hserial, hps2] at hpending
    rw [run_snoc]
    exact .inr ⟨rfl, cancelWaits_of_mem hs (hpending ▸ List.mem_append_right _ hkey) hcancel⟩
  | append_singleton after e' ih =>
    have hsplit : before ++ e :: (after ++ [e']) = (before ++ e :: after) ++ [e'] := by
      rw [List.append_assoc, List.cons_append]
    rw [hsplit] at hrun ⊢
    obtain ⟨hbefore, hpossible, hunhidden⟩ := along_snoc.mp hrun
    have hvalid' := (follows_run hvalid (hbefore.mono fun _ _ h => ⟨h.1, h.2.1⟩)).valid
    rw [run_snoc]
    by_cases hpoll : e' = .pollCancel
    · subst hpoll
      rcases ih hbefore with hflag | ⟨-, hwaits⟩
      · exact .inl (cancelFlag_pollCancel hvalid' hunhidden.1 hflag)
      · exact .inl (pollCancel_cancels hvalid' hunhidden hwaits)
    · have harrival := arrival hvalid' hunhidden.1 hpossible hpoll
      rcases ih hbefore with hflag | ⟨hcount, hwaits⟩
      · exact .inl (harrival.cancelFlag.trans hflag)
      · refine .inr ⟨?_, cancelWaits_arrival hvalid' hunhidden.1 hpossible hpoll hwaits⟩
        rw [List.count_append, hcount, List.count_singleton, beq_eq_false_iff_ne.mpr hpoll]
        rfl

/-- When no poll finds another key in front of a cancellation, every cancellation is answered. -/
theorem cancellation_answered (hvalid : q.Valid)
    (hrun : Along step (fun q e => q.Possible e ∧ q.Unhidden e) q events) : q.Answered events := by
  intro before e after heq hcancel hcount
  subst heq
  rcases answered_after hvalid hrun hcancel with hflag | ⟨hnone, -⟩
  · exact hflag
  · omega

/-- Ctrl+C on the PS/2 keyboard of a command that has polled once before. -/
theorem cancellation_answered_once :
    Answered (start false) [.pollCancel, .ps2Byte 0x1D false, .ps2Byte 0x2E false, .pollCancel] :=
  cancellation_answered (valid_start false) (by decide)

def hiddenCancel : List Event :=
  [.ps2Byte 0x1E false, .pollCancel, .ps2Byte 0x1D false, .ps2Byte 0x2E false]

/-- One key had come before Ctrl+C, and two polls do not see it. -/
theorem cancellation_hidden :
    Along step (fun q e => q.Possible e ∧ q.Fits) (start false)
        (hiddenCancel ++ [.pollCancel, .pollCancel]) ∧
      ¬ Answered (start false) (hiddenCancel ++ [.pollCancel, .pollCancel]) := by
  refine ⟨by decide, fun h => ?_⟩
  have hseen := h [.ps2Byte 0x1E false, .pollCancel, .ps2Byte 0x1D false] (.ps2Byte 0x2E false)
    [.pollCancel, .pollCancel] rfl ⟨.ps2, .inr rfl, by decide⟩ (by decide)
  exact absurd hseen (by decide)

end Queues

end Vibra.Input
