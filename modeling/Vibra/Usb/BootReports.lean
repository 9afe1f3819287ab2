import Mathlib.Data.List.Nodup
import Vibra.Input.Keyboard
import Vibra.Lib.Runs

/-! # Boot reports of the USB keyboards

A report lists the keys that are held on its keyboard.
-/

namespace Vibra.Usb.Hid

open Input (Key shiftSymbol)
open Lib (Along)

/-- The arms of `translate` that give a character. -/
def usageChar (usage : UInt8) : Option Char :=
  if 0x04 ≤ usage ∧ usage ≤ 0x1D then some (Char.ofNat ('a'.toNat + (usage.toNat - 0x04)))
  else if 0x1E ≤ usage ∧ usage ≤ 0x26 then some (Char.ofNat ('1'.toNat + (usage.toNat - 0x1E)))
  else match usage with
    | 0x27 => some '0'
    | 0x29 => some '\x1B'
    | 0x2C => some ' '
    | 0x2D => some '-'
    | 0x2E => some '='
    | 0x2F => some '['
    | 0x30 => some ']'
    | 0x31 => some '\x5c'
    | 0x32 => some ';'
    | 0x33 => some '\x27'
    | 0x34 => some '\x60'
    | 0x35 => some ','
    | 0x36 => some '.'
    | 0x37 => some '/'
    | _ => none

/-- The arms that return a key. -/
def usageKey (usage : UInt8) : Option Key :=
  match usage with
  | 0x28 => some .enter
  | 0x2A => some .backspace
  | 0x2B => some .tab
  | 0x4F => some .right
  | 0x50 => some .left
  | 0x51 => some .down
  | 0x52 => some .up
  | _ => none

def translate (usage : UInt8) (shift : Bool) : Option Key :=
  (usageKey usage).or
    ((usageChar usage).map fun ch => .char (if shift then shiftSymbol ch else ch))

/-- The keys that are injected, and the report that is kept. -/
def handleBootReport (previous report : List UInt8) : List Key × List UInt8 :=
  match report with
  | modifiers :: _ :: usages =>
    if report.length < 8 then ([], previous)
    else
      let shift := modifiers &&& 0x22 != 0
      let current := usages.take 6
      (current.filterMap fun usage =>
          if usage = 0 ∨ usage ∈ previous then none else translate usage shift,
        current)
  | _ => ([], previous)

def rollover : List UInt8 := List.replicate 6 1

/-- The report of a keyboard lists the keys that are held, or that they are too many. -/
structure BootReport where
  modifiers : UInt8
  reserved : UInt8
  usages : List UInt8
  length : usages.length = 6
  listing : usages = rollover ∨ 1 ∉ usages ∧ (usages.filter (· ≠ 0)).Nodup

namespace BootReport

def bytes (r : BootReport) : List UInt8 := r.modifiers :: r.reserved :: r.usages

def shift (r : BootReport) : Bool := r.modifiers &&& 0x22 != 0

def ctrl (r : BootReport) : Bool := r.modifiers &&& 0x11 != 0

end BootReport

def isLetter (usage : UInt8) : Bool := decide (0x04 ≤ usage ∧ usage ≤ 0x1D)

def chordKey (usage : UInt8) (shift : Bool) : Option Key :=
  (usageChar usage).map fun ch =>
    (Input.Decoder.translate ⟨shift, true, false, false, false, false, false⟩ ch).1

def pressKey (usage : UInt8) (r : BootReport) : Option Key :=
  if r.ctrl && isLetter usage then chordKey usage r.shift else translate usage r.shift

/-- The presses that a report shows on a keyboard where the keys of `held` were held. -/
def BootReport.presses (r : BootReport) (held : List UInt8) : List Key :=
  if r.usages = rollover then []
  else r.usages.filterMap fun usage => if usage ∈ held then none else pressKey usage r

variable {κ : Type} [DecidableEq κ]

/-- `LAST_REPORT`, the keys that are held on each keyboard, those that were injected, and those
that should have been. -/
structure Keyboards (κ : Type) where
  last : List UInt8
  held : κ → List UInt8
  injected : List Key
  pressed : List Key

namespace Keyboards

def start : Keyboards κ := ⟨List.replicate 6 0, fun _ => [], [], []⟩

/-- A report of a keyboard. One that there are too many keys does not tell which. -/
def step (s : Keyboards κ) (e : κ × BootReport) : Keyboards κ where
  last := (handleBootReport s.last e.2.bytes).2
  held := if e.2.usages = rollover then s.held else Function.update s.held e.1 e.2.usages
  injected := s.injected ++ (handleBootReport s.last e.2.bytes).1
  pressed := s.pressed ++ e.2.presses (s.held e.1)

/-- Every key that the report lists was in the last report of all keyboards exactly when it was
held on this one, and no letter is pressed with Ctrl. -/
def Distinguished (s : Keyboards κ) (e : κ × BootReport) : Prop :=
  e.2.usages ≠ rollover → ∀ usage ∈ e.2.usages, (translate usage false).isSome →
    (usage ∈ s.last ↔ usage ∈ s.held e.1) ∧
      (usage ∉ s.held e.1 → ¬(e.2.ctrl ∧ isLetter usage))

end Keyboards

def Known (usage : UInt8) : Prop := (0x04 ≤ usage ∧ usage ≤ 0x37) ∨ 0x4F ≤ usage ∧ usage ≤ 0x52

instance (usage : UInt8) : Decidable (Known usage) := inferInstanceAs (Decidable (_ ∨ _))

theorem translate_isSome (usage : UInt8) (shift : Bool) :
    (translate usage shift).isSome ↔ Known usage := by
  have hall : ∀ i : Fin 256, ∀ shift : Bool,
      ((translate (UInt8.ofNat i.val) shift).isSome ↔ Known (UInt8.ofNat i.val)) := by
    decide +kernel
  have husage := hall ⟨usage.toNat, usage.toNat_lt⟩ shift
  rwa [UInt8.ofNat_toNat] at husage

def knownUsages : List UInt8 :=
  ((List.range 0x34).map fun n => UInt8.ofNat (n + 4)) ++ [0x4F, 0x50, 0x51, 0x52]

theorem Known.mem {usage : UInt8} (h : Known usage) : usage ∈ knownUsages := by
  simp only [Known, UInt8.le_iff_toNat_le, UInt8.reduceToNat] at h
  rw [knownUsages, List.mem_append, List.mem_map]
  rcases h with h | h
  · refine .inl ⟨usage.toNat - 4, List.mem_range.mpr (by omega), ?_⟩
    rw [Nat.sub_add_cancel h.1, UInt8.ofNat_toNat]
  · right
    simp only [List.mem_cons, ← UInt8.toNat_inj, UInt8.reduceToNat, List.not_mem_nil]
    omega

def keyCode : Option Key → Nat
  | none => 0
  | some (.char ch) => ch.toNat
  | some .enter => 256
  | some .backspace => 257
  | some .tab => 258
  | some .left => 259
  | some .right => 260
  | some .up => 261
  | some .down => 262
  | some _ => 263

theorem keyCode_nodup : ∀ shift : Bool,
    (knownUsages.map fun usage => keyCode (translate usage shift)).Nodup := by
  decide

theorem keyCode_known : ∀ shift : Bool, ∀ usage ∈ knownUsages,
    27 ≤ keyCode (translate usage shift) ∧ (isLetter usage →
      keyCode (chordKey usage shift) < 27 ∧ (chordKey usage shift).isSome) := by
  decide +kernel

theorem translate_inj {a b : UInt8} {shift : Bool} (ha : Known a) (hb : Known b)
    (h : translate a shift = translate b shift) : a = b :=
  List.inj_on_of_nodup_map (keyCode_nodup shift) ha.mem hb.mem (congrArg keyCode h)

theorem translate_ne_chord {a b : UInt8} {shift : Bool} (ha : Known a) (hb : Known b)
    (hletter : isLetter b) : translate a shift ≠ chordKey b shift := by
  intro h
  have hlow := (keyCode_known shift a ha.mem).1
  have hhigh := ((keyCode_known shift b hb.mem).2 hletter).1
  rw [h] at hlow
  omega

theorem isLetter.known {usage : UInt8} (h : isLetter usage) : Known usage := by
  have hrange := of_decide_eq_true h
  exact .inl ⟨hrange.1, UInt8.le_trans hrange.2 (by decide)⟩

variable {r : BootReport} {usage : UInt8}

theorem pressKey_isSome : (pressKey usage r).isSome ↔ Known usage := by
  unfold pressKey
  by_cases hchord : (r.ctrl && isLetter usage) = true
  · have hletter := (Bool.and_eq_true_iff.mp hchord).2
    have hknown := isLetter.known hletter
    rw [if_pos hchord]
    exact iff_of_true ((keyCode_known r.shift usage hknown.mem).2 hletter).2 hknown
  · rw [if_neg hchord]
    exact translate_isSome usage r.shift

theorem usage_unique {a b : UInt8} {key : Key} (ha : translate a r.shift = some key)
    (hb : pressKey b r = some key) : a = b := by
  have hknownA := (translate_isSome a r.shift).mp (Option.isSome_of_eq_some ha)
  have hknownB := pressKey_isSome.mp (Option.isSome_of_eq_some hb)
  unfold pressKey at hb
  by_cases hchord : (r.ctrl && isLetter b) = true
  · rw [if_pos hchord] at hb
    have hletter := (Bool.and_eq_true_iff.mp hchord).2
    exact absurd (ha.trans hb.symm) (translate_ne_chord hknownA hknownB hletter)
  · rw [if_neg hchord] at hb
    exact translate_inj hknownA hknownB (ha.trans hb.symm)

theorem pressKey_eq_translate (h : Known usage) :
    pressKey usage r = translate usage r.shift ↔ ¬(r.ctrl ∧ isLetter usage) := by
  rw [← Bool.and_eq_true]
  unfold pressKey
  by_cases hchord : (r.ctrl && isLetter usage) = true
  · rw [if_pos hchord]
    have hletter := (Bool.and_eq_true_iff.mp hchord).2
    exact iff_of_false (translate_ne_chord h h hletter).symm fun hnot => hnot hchord
  · rw [if_neg hchord]
    exact iff_of_true rfl hchord

theorem filterMap_eq_iff {α β : Type} {f g : α → Option β} {l : List α}
    (hinj : ∀ a b key, f a = some key → g b = some key → a = b) :
    l.filterMap f = l.filterMap g ↔ ∀ a ∈ l, f a = g a := by
  constructor
  · intro h a ha
    cases hfa : f a with
    | some key =>
      have hmem : key ∈ l.filterMap f := List.mem_filterMap.mpr ⟨a, ha, hfa⟩
      rw [h] at hmem
      obtain ⟨b, -, hgb⟩ := List.mem_filterMap.mp hmem
      rw [hinj a b key hfa hgb, hgb]
    | none =>
      cases hga : g a with
      | none => rfl
      | some key =>
        have hmem : key ∈ l.filterMap g := List.mem_filterMap.mpr ⟨a, ha, hga⟩
        rw [← h] at hmem
        obtain ⟨b, -, hfb⟩ := List.mem_filterMap.mp hmem
        rw [hinj b a key hfb hga, hfa] at hfb
        contradiction
  · exact List.filterMap_congr

theorem handleBootReport_bytes (previous : List UInt8) (r : BootReport) :
    handleBootReport previous r.bytes =
      (r.usages.filterMap fun usage =>
          if usage = 0 ∨ usage ∈ previous then none else translate usage r.shift,
        r.usages) := by
  have hlength : ¬r.bytes.length < 8 := by simp [BootReport.bytes, r.length]
  have htake : r.usages.take 6 = r.usages := List.take_of_length_le (Nat.le_of_eq r.length)
  rw [BootReport.bytes, handleBootReport, ← BootReport.bytes, if_neg hlength, htake]
  rfl

theorem rollover_silent (previous : List UInt8) (h : r.usages = rollover) :
    (handleBootReport previous r.bytes).1 = [] := by
  rw [handleBootReport_bytes, h]
  apply List.filterMap_eq_nil_iff.mpr
  intro usage husage
  rw [List.eq_of_mem_replicate husage]
  exact ite_eq_left_iff.mpr fun _ => rfl

theorem usage_iff (previous held : List UInt8) :
    (if usage = 0 ∨ usage ∈ previous then none else translate usage r.shift) =
        (if usage ∈ held then none else pressKey usage r) ↔
      ((translate usage false).isSome → (usage ∈ previous ↔ usage ∈ held) ∧
        (usage ∉ held → ¬(r.ctrl ∧ isLetter usage))) := by
  rw [translate_isSome]
  by_cases hknown : Known usage
  · have hzero : usage ≠ 0 := by
      rintro rfl
      exact absurd hknown (by decide)
    have htranslate := Option.isSome_iff_ne_none.mp ((translate_isSome usage r.shift).mpr hknown)
    have hpress := Option.isSome_iff_ne_none.mp (pressKey_isSome (r := r).mpr hknown)
    have hsame := pressKey_eq_translate (r := r) hknown
    by_cases hlast : usage ∈ previous <;> by_cases hheld : usage ∈ held
    · simp [hlast, hheld]
    · simp [hlast, hheld, hknown, hpress.symm]
    · simp [hlast, hheld, hknown, htranslate, hzero]
    · simp only [hzero, hlast, hheld, hknown, or_self, if_false, true_imp_iff, not_false_eq_true,
        true_and]
      exact eq_comm.trans hsame
  · have htranslate : translate usage r.shift = none :=
      Option.not_isSome_iff_eq_none.mp fun h => hknown ((translate_isSome usage r.shift).mp h)
    have hpress : pressKey usage r = none :=
      Option.not_isSome_iff_eq_none.mp fun h => hknown (pressKey_isSome.mp h)
    rw [htranslate, hpress, ite_self, ite_self]
    exact iff_of_true rfl fun h => absurd h hknown

theorem report_iff (previous held : List UInt8) (hlisting : r.usages ≠ rollover) :
    (handleBootReport previous r.bytes).1 = r.presses held ↔
      ∀ usage ∈ r.usages, (translate usage false).isSome →
        (usage ∈ previous ↔ usage ∈ held) ∧ (usage ∉ held → ¬(r.ctrl ∧ isLetter usage)) := by
  rw [handleBootReport_bytes, BootReport.presses, if_neg hlisting, filterMap_eq_iff]
  · exact forall₂_congr fun usage _ => usage_iff previous held
  · intro a b key ha hb
    have ha' := (Option.ite_none_left_eq_some.mp ha).2
    have hb' := (Option.ite_none_left_eq_some.mp hb).2
    exact usage_unique ha' hb'

namespace Keyboards

variable {events : List (κ × BootReport)}

theorem step_iff {s : Keyboards κ} (h : s.injected = s.pressed) (e : κ × BootReport) :
    (s.step e).injected = (s.step e).pressed ↔ Distinguished s e := by
  have hkeys : (s.step e).injected = (s.step e).pressed ↔
      (handleBootReport s.last e.2.bytes).1 = e.2.presses (s.held e.1) := by
    show s.injected ++ _ = s.pressed ++ _ ↔ _
    rw [h]
    exact List.append_right_inj s.pressed
  rw [hkeys]
  by_cases hrollover : e.2.usages = rollover
  · have hpresses : e.2.presses (s.held e.1) = [] := if_pos hrollover
    rw [rollover_silent s.last hrollover, hpresses]
    exact iff_of_true rfl fun hnot => absurd hrollover hnot
  · rw [report_iff s.last (s.held e.1) hrollover, Distinguished, imp_iff_right hrollover]

/-- At every moment of a run, one key for each press is injected, in order, exactly when every
report is one that the driver can tell. -/
theorem injected_iff (events : List (κ × BootReport)) :
    (∀ before, before <+: events →
        (before.foldl step (start : Keyboards κ)).injected = (before.foldl step start).pressed) ↔
      Along step Distinguished (start : Keyboards κ) events := by
  have hgood : (start : Keyboards κ).injected = (start : Keyboards κ).pressed := rfl
  have hstep (s : Keyboards κ) (e : κ × BootReport) (_ : True) (h : s.injected = s.pressed) :=
    step_iff h e
  exact (Lib.along_iff_good (fun _ _ _ => trivial) hstep trivial hgood).symm

/-- A key that is held is typed again when another keyboard has reported. -/
theorem held_typed_again : ¬ ∀ events : List (Nat × BootReport),
    (events.foldl step start).injected = (events.foldl step start).pressed := by
  intro h
  have hrun := h
    [(0, ⟨0, 0, [0x04, 0, 0, 0, 0, 0], rfl, by decide⟩),
      (1, ⟨0, 0, [0x05, 0, 0, 0, 0, 0], rfl, by decide⟩),
      (0, ⟨0, 0, [0x04, 0, 0, 0, 0, 0], rfl, by decide⟩)]
  exact absurd hrun (by decide)

end Keyboards

end Vibra.Usb.Hid
