import Mathlib.Data.List.Induction

/-! # Runs

A run takes its events one after the other. A condition along it is asked of each event and the
state that the event finds.
-/

namespace Vibra.Lib

variable {σ ε : Type} {step : σ → ε → σ} {P P' : σ → ε → Prop} {s : σ} {e : ε} {events : List ε}

def Along (step : σ → ε → σ) (P : σ → ε → Prop) : σ → List ε → Prop
  | _, [] => True
  | s, e :: events => P s e ∧ Along step P (step s e) events

instance instDecidableAlong [∀ s e, Decidable (P s e)] :
    (s : σ) → (events : List ε) → Decidable (Along step P s events)
  | _, [] => instDecidableTrue
  | s, e :: events =>
    have : Decidable (Along step P (step s e) events) := instDecidableAlong (step s e) events
    inferInstanceAs (Decidable (P s e ∧ Along step P (step s e) events))

theorem along_true : Along step (fun _ _ => True) s events := by
  induction events generalizing s with
  | nil => trivial
  | cons e events ih => exact ⟨trivial, ih⟩

theorem along_snoc :
    Along step P s (events ++ [e]) ↔ Along step P s events ∧ P (events.foldl step s) e := by
  induction events generalizing s with
  | nil => exact ⟨fun h => ⟨trivial, h.1⟩, fun h => ⟨h.2, trivial⟩⟩
  | cons e' events ih =>
    rw [List.cons_append, Along, Along, ih, and_assoc]
    rfl

theorem Along.mono (hP : ∀ s e, P s e → P' s e) (h : Along step P s events) :
    Along step P' s events := by
  induction events generalizing s with
  | nil => trivial
  | cons e events ih => exact ⟨hP s e h.1, ih h.2⟩

theorem Along.before {before : List ε} (h : Along step P s events) (hinit : before <+: events) :
    Along step P s before := by
  induction before generalizing s events with
  | nil => trivial
  | cons e before ih =>
    obtain ⟨rest, rfl⟩ := hinit
    exact ⟨h.1, ih h.2 (List.prefix_append before rest)⟩

theorem along_congr {Inv : σ → Prop} (hiff : ∀ s, ∀ e ∈ events, Inv s → (P s e ↔ P' s e))
    (hinv : ∀ s, ∀ e ∈ events, Inv s → P s e → Inv (step s e)) (h0 : Inv s) :
    Along step P s events ↔ Along step P' s events := by
  induction events generalizing s with
  | nil => exact Iff.rfl
  | cons e events ih =>
    have hhead := hiff s e (List.mem_cons_self ..) h0
    have hrest (hP : P s e) := ih (fun s e he => hiff s e (List.mem_cons_of_mem _ he))
      (fun s e he => hinv s e (List.mem_cons_of_mem _ he))
      (hinv s e (List.mem_cons_self ..) h0 hP)
    constructor
    · rintro ⟨hP, htail⟩
      exact ⟨hhead.mp hP, (hrest hP).mp htail⟩
    · rintro ⟨hP', htail⟩
      have hP := hhead.mpr hP'
      exact ⟨hP, (hrest hP).mpr htail⟩

theorem Along.invariant {Inv : List ε → σ → Prop} (h : Along step P s events) (h0 : Inv [] s)
    (hstep : ∀ before s e, Inv before s → P s e → Inv (before ++ [e]) (step s e)) :
    Inv events (events.foldl step s) := by
  induction events using List.reverseRecOn with
  | nil => exact h0
  | append_singleton events e ih =>
    obtain ⟨hbefore, he⟩ := along_snoc.mp h
    rw [List.foldl_append, List.foldl_cons, List.foldl_nil]
    exact hstep events _ e (ih hbefore) he

theorem Along.iff_good {Inv Good : σ → Prop} {Q : σ → ε → Prop}
    (hinv : ∀ s e, Inv s → Q s e → P s e → Inv (step s e))
    (hstep : ∀ s e, Inv s → Q s e → (Good (step s e) ↔ P s e)) (hQ : Along step Q s events)
    (h0 : Inv s) (hgood : Good s) :
    Along step P s events ↔ ∀ before, before <+: events → Good (before.foldl step s) := by
  induction events generalizing s with
  | nil =>
    refine ⟨fun _ before hinit => ?_, fun _ => trivial⟩
    rw [List.prefix_nil.mp hinit]
    exact hgood
  | cons e events ih =>
    have hhead := hstep s e h0 hQ.1
    have hnext (hP : P s e) := ih hQ.2 (hinv s e h0 hQ.1 hP) (hhead.mpr hP)
    constructor
    · rintro ⟨hP, hrest⟩ before hinit
      rcases List.prefix_cons_iff.mp hinit with rfl | ⟨rest, rfl, hrest'⟩
      · exact hgood
      · exact (hnext hP).mp hrest rest hrest'
    · intro h
      have hP : P s e := hhead.mp (h [e] ⟨events, rfl⟩)
      refine ⟨hP, (hnext hP).mpr fun before hinit => ?_⟩
      exact h (e :: before) (List.cons_prefix_cons.mpr ⟨rfl, hinit⟩)

theorem along_iff_good {Inv Good : σ → Prop} (hinv : ∀ s e, Inv s → Inv (step s e))
    (hstep : ∀ s e, Inv s → Good s → (Good (step s e) ↔ P s e)) (h0 : Inv s) (hgood : Good s) :
    Along step P s events ↔ ∀ before, before <+: events → Good (before.foldl step s) := by
  have hall : Along step (fun _ _ => True) s events := along_true
  have hkept (s : σ) (e : ε) (h : Inv s ∧ Good s) (hP : P s e) : Inv (step s e) ∧ Good (step s e) :=
    ⟨hinv s e h.1, (hstep s e h.1 h.2).mpr hP⟩
  exact hall.iff_good (fun s e h _ => hkept s e h) (fun s e h _ => hstep s e h.1 h.2) ⟨h0, hgood⟩
    hgood

/-! ## One turn for each of several parts

Each event of the run is the turn of one part, and a part is good or not by its own turn alone.
-/

section Turns

variable {Inv : σ → Prop} {Good : σ → ε → Prop}

theorem good_foldl_iff (hinv : ∀ s, ∀ e ∈ events, Inv s → Inv (step s e)) {e : ε}
    (hother : ∀ s, ∀ e' ∈ events, Inv s → (Good (step s e') e ↔ Good s e)) (h0 : Inv s) :
    Good (events.foldl step s) e ↔ Good s e := by
  induction events generalizing s with
  | nil => exact Iff.rfl
  | cons e' events ih =>
    have hhead := hother s e' (List.mem_cons_self ..) h0
    refine Iff.trans (ih ?_ ?_ (hinv s e' (List.mem_cons_self ..) h0)) hhead
    · exact fun s e he => hinv s e (List.mem_cons_of_mem _ he)
    · exact fun s e he => hother s e (List.mem_cons_of_mem _ he)

theorem along_iff_each (hinv : ∀ s, ∀ e ∈ events, Inv s → Inv (step s e))
    (hself : ∀ s, ∀ e ∈ events, Inv s → (Good (step s e) e ↔ P s e))
    (hother : ∀ s, ∀ e' ∈ events, ∀ e, e ≠ e' → Inv s → (Good (step s e') e ↔ Good s e))
    (hnodup : events.Nodup) (h0 : Inv s) :
    (∀ e ∈ events, Good (events.foldl step s) e) ↔ Along step P s events := by
  induction events generalizing s with
  | nil => exact ⟨fun _ => trivial, fun _ _ he => absurd he List.not_mem_nil⟩
  | cons e events ih =>
    obtain ⟨hnew, hnodup⟩ := List.nodup_cons.mp hnodup
    have hinv' (s : σ) (e' : ε) (he : e' ∈ events) := hinv s e' (List.mem_cons_of_mem _ he)
    have hother' (s : σ) (e' : ε) (he : e' ∈ events) := hother s e' (List.mem_cons_of_mem _ he)
    have hnext := hinv s e (List.mem_cons_self ..) h0
    have hhead : Good (events.foldl step (step s e)) e ↔ P s e := by
      refine (good_foldl_iff hinv' (fun s e' he => ?_) hnext).trans
        (hself s e (List.mem_cons_self ..) h0)
      exact hother' s e' he e fun heq => hnew (heq ▸ he)
    have hrest := ih hinv' (fun s e' he => hself s e' (List.mem_cons_of_mem _ he)) hother' hnodup
      hnext
    rw [List.foldl_cons, List.forall_mem_cons, hhead, hrest]
    rfl

end Turns

end Vibra.Lib
