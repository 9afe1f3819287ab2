import Vibra.Input.ScanCodes

/-! # Modifiers and the keys that are held

Each Shift and each Ctrl is a key of its own, and the decoder keeps one flag for both.
-/

namespace Vibra.Input

/-- The make or break code of a key that is no Shift and no Ctrl, or any code behind E0: none of
its bytes is a prefix, and none that a prefix announces is a reply of the keyboard. -/
structure Code extends KeyEvent where
  set1_lt : position.set1.toNat < 0x80
  set1_lead : position.set1 ≠ 0x60
  set1_service : position.extended = true →
    position.set1 ∉ ([0x00, 0x6E, 0x7A, 0x7E, 0x7F] : List UInt8)
  set2_lead : position.set2 ≠ 0xE0 ∧ position.set2 ≠ 0xF0
  set2_service : (Decoder.new true).isService position.set2 = false
  plain : position.extended = false →
    position.set1 ∉ ([0x2A, 0x36, 0x1D] : List UInt8) ∧
      position.set2 ∉ ([0x12, 0x59, 0x14] : List UInt8)

inductive ModKey where
  | leftShift
  | rightShift
  | leftCtrl
  | rightCtrl
deriving DecidableEq

def rightCtrl : Position := ⟨0x1D, 0x14, true⟩

def ModKey.position : ModKey → Position
  | .leftShift => Input.leftShift
  | .rightShift => Input.rightShift
  | .leftCtrl => Input.leftCtrl
  | .rightCtrl => Input.rightCtrl

def KeyEvent.bytes (set2 : Bool) (e : KeyEvent) : List UInt8 := if set2 then e.set2 else e.set1

/-- What is done at the keyboard. Some keys send more than one code, such as Print Screen and
the arrows while Shift is held. -/
inductive Press where
  | modifier (key : ModKey) (released : Bool)
  | pause
  | other (codes : List Code)

abbrev Held : Type := ModKey → Bool

namespace Held

def none : Held := fun _ => false

def shift (held : Held) : Bool := held .leftShift || held .rightShift

def ctrl (held : Held) : Bool := held .leftCtrl || held .rightCtrl

def after (held : Held) : Press → Held
  | .modifier key released => Function.update held key (!released)
  | .pause => held
  | .other _ => held

end Held

/-- The codes of Pause, which has no break code, and of Break, which it is while Ctrl is
held. -/
def pauseBytes (set2 : Bool) (ctrl : Bool) : List UInt8 :=
  match set2, ctrl with
  | false, false => [0xE1, 0x1D, 0x45, 0xE1, 0x9D, 0xC5]
  | false, true => [0xE0, 0x46, 0xE0, 0xC6]
  | true, false => [0xE1, 0x14, 0x77, 0xE1, 0xF0, 0x14, 0xF0, 0x77]
  | true, true => [0xE0, 0x7E, 0xE0, 0xF0, 0x7E]

def Press.bytes (set2 : Bool) (held : Held) : Press → List UInt8
  | .modifier key released => KeyEvent.bytes set2 ⟨key.position, released⟩
  | .pause => pauseBytes set2 held.ctrl
  | .other codes => codes.flatMap fun code => code.bytes set2

def bytesOf (set2 : Bool) : Held → List Press → List UInt8
  | _, [] => []
  | held, press :: rest => press.bytes set2 held ++ bytesOf set2 (held.after press) rest

/-! ## Other keys -/

namespace Decoder

variable {m : Modifiers} {sc : UInt8} {set2 : Bool}

/-- The bytes leave a decoder that waits for a key with the flags that `f` makes. -/
def Leaves (set2 : Bool) (bytes : List UInt8) (m : Modifiers) (shift ctrl : Bool) : Prop :=
  ∃ m' : Modifiers, (decodeAll bytes (m.decoder set2)).2 = m'.decoder set2 ∧
    m'.shift = shift ∧ m'.ctrl = ctrl

theorem leaves_nil : Leaves set2 [] m m.shift m.ctrl := ⟨m, rfl, rfl, rfl⟩

theorem Leaves.append {bytes more : List UInt8} {shift ctrl shift' ctrl' : Bool}
    (h : Leaves set2 bytes m shift ctrl)
    (hmore : ∀ m : Modifiers, m.shift = shift → m.ctrl = ctrl →
      Leaves set2 more m shift' ctrl') :
    Leaves set2 (bytes ++ more) m shift' ctrl' := by
  obtain ⟨m₁, hbytes, hshift, hctrl⟩ := h
  obtain ⟨m₂, hmore, hshift', hctrl'⟩ := hmore m₁ hshift hctrl
  refine ⟨m₂, ?_, hshift', hctrl'⟩
  rw [decodeAll_append, hbytes]
  exact hmore

theorem decode_extended_set1 (hlead : sc ≠ 0xE0)
    (hservice : (Decoder.new false).isService sc = false) :
    ({ m.decoder false with extended := true }.decode sc).2 = m.decoder false := by
  have hnone : ({ m.decoder false with extended := true } : Decoder).isService sc = false :=
    hservice
  rw [decode, hnone]
  show (decodeSet1 { m.decoder false with extended := true } sc).2 = _
  rw [decodeSet1, if_neg hlead]
  dsimp only
  rw [if_pos rfl]
  split <;> rfl

theorem decode_plain_set1 (hlead : sc ≠ 0xE0)
    (hcode : sc &&& 0x7F ∉ ([0x2A, 0x36, 0x1D] : List UInt8)) :
    ∃ m' : Modifiers, ((m.decoder false).decode sc).2 = m'.decoder false ∧
      m'.shift = m.shift ∧ m'.ctrl = m.ctrl := by
  simp only [List.mem_cons, List.not_mem_nil, or_false, not_or] at hcode
  obtain ⟨hleft, hright, hctrl⟩ := hcode
  rw [decode]
  split
  · exact ⟨m, rfl, rfl, rfl⟩
  · show ∃ m' : Modifiers, ((m.decoder false).decodeSet1 sc).2 = _ ∧ _
    have hext : (m.decoder false).extended = false := rfl
    rw [decodeSet1, if_neg hlead, hext]
    simp only [Bool.false_eq_true, if_false, hleft, hright, hctrl, or_self]
    split
    · exact ⟨{ m with alt := _ }, rfl, rfl, rfl⟩
    · split
      · split
        · exact ⟨m, rfl, rfl, rfl⟩
        · exact ⟨{ m with caps := !m.caps }, rfl, rfl, rfl⟩
      · split <;> exact ⟨m, rfl, rfl, rfl⟩

theorem decode_extended_set2 (released : Bool) (hlead : sc ≠ 0xE0 ∧ sc ≠ 0xF0)
    (hservice : (Decoder.new true).isService sc = false) :
    ({ m.decoder true with extended := true, release := released }.decode sc).2 =
      m.decoder true := by
  have hnone : ({ m.decoder true with extended := true, release := released } :
      Decoder).isService sc = false := hservice
  rw [decode, hnone]
  show (decodeSet2 { m.decoder true with extended := true, release := released } sc).2 = _
  rw [decodeSet2, if_neg hlead.1, if_neg hlead.2]
  dsimp only
  rw [if_pos rfl]
  split <;> rfl

theorem decode_plain_set2 (released : Bool) (hlead : sc ≠ 0xE0 ∧ sc ≠ 0xF0)
    (hservice : (Decoder.new true).isService sc = false)
    (hcode : sc ∉ ([0x12, 0x59, 0x14] : List UInt8)) :
    ∃ m' : Modifiers, ({ m.decoder true with release := released }.decode sc).2 =
      m'.decoder true ∧ m'.shift = m.shift ∧ m'.ctrl = m.ctrl := by
  simp only [List.mem_cons, List.not_mem_nil, or_false, not_or] at hcode
  obtain ⟨hleft, hright, hctrl⟩ := hcode
  have hnone : ({ m.decoder true with release := released } : Decoder).isService sc = false :=
    hservice
  rw [decode, hnone]
  show ∃ m' : Modifiers, (decodeSet2 { m.decoder true with release := released } sc).2 = _ ∧ _
  have hext : (m.decoder true).extended = false := rfl
  rw [decodeSet2, if_neg hlead.1, if_neg hlead.2]
  simp only [Bool.false_eq_true, if_false, hleft, hright, hctrl, or_self, hext]
  split
  · exact ⟨{ m with alt := _ }, rfl, rfl, rfl⟩
  · split
    · split
      · exact ⟨m, rfl, rfl, rfl⟩
      · exact ⟨{ m with caps := !m.caps }, rfl, rfl, rfl⟩
    · split <;> exact ⟨m, rfl, rfl, rfl⟩

theorem sent_set1 (code : UInt8) (hlt : code.toNat < 0x80) (hlead : code ≠ 0x60)
    (released : Bool) :
    let sc := if released then code ||| 0x80 else code
    sc ≠ 0xE0 ∧ sc &&& 0x7F = code ∧
      (code ∉ ([0x00, 0x6E, 0x7A, 0x7E, 0x7F] : List UInt8) →
        (Decoder.new false).isService sc = false) := by
  have hall : ∀ n < 0x80, UInt8.ofNat n ≠ 0x60 → ∀ released : Bool,
      let sc := if released then UInt8.ofNat n ||| 0x80 else UInt8.ofNat n
      sc ≠ 0xE0 ∧ sc &&& 0x7F = UInt8.ofNat n ∧
        (UInt8.ofNat n ∉ ([0x00, 0x6E, 0x7A, 0x7E, 0x7F] : List UInt8) →
          (Decoder.new false).isService sc = false) := by
    decide
  have hcode := hall code.toNat hlt
  rw [UInt8.ofNat_toNat] at hcode
  exact hcode hlead released

theorem leaves_code (code : Code) :
    Leaves set2 (code.bytes set2) m m.shift m.ctrl := by
  obtain ⟨⟨⟨set1, code2, extended⟩, released⟩, hlt, hne, hservice1, hlead2, hservice2, hplain⟩ :=
    code
  obtain ⟨hlead1, hmask, hnone⟩ := sent_set1 set1 hlt hne released
  rw [KeyEvent.bytes]
  cases set2 with
  | false =>
    rw [if_neg Bool.false_ne_true, KeyEvent.set1]
    cases extended with
    | true =>
      refine ⟨m, ?_, rfl, rfl⟩
      rw [if_pos rfl, decodeAll_append, decodeAll_singleton]
      exact decode_extended_set1 hlead1 (hnone (hservice1 rfl))
    | false =>
      rw [if_neg Bool.false_ne_true, List.nil_append]
      exact decode_plain_set1 hlead1 (by rw [hmask]; exact (hplain rfl).1)
  | true =>
    rw [if_pos rfl, KeyEvent.set2]
    cases extended with
    | true =>
      refine ⟨m, ?_, rfl, rfl⟩
      rw [if_pos rfl, decodeAll_append, decodeAll_singleton, decodeAll_append]
      cases released with
      | true => exact decode_extended_set2 true hlead2 hservice2
      | false => exact decode_extended_set2 false hlead2 hservice2
    | false =>
      rw [if_neg Bool.false_ne_true, List.nil_append, Leaves, decodeAll_append,
        decodeAll_singleton]
      cases released with
      | true => exact decode_plain_set2 true hlead2 hservice2 (hplain rfl).2
      | false => exact decode_plain_set2 false hlead2 hservice2 (hplain rfl).2

theorem leaves_codes (codes : List Code) :
    Leaves set2 (codes.flatMap fun code => code.bytes set2) m m.shift m.ctrl := by
  induction codes generalizing m with
  | nil => exact leaves_nil
  | cons code codes ih =>
    rw [List.flatMap_cons]
    apply (leaves_code code).append
    intro m' hshift hctrl
    rw [← hshift, ← hctrl]
    exact ih

theorem leaves_modifier (key : ModKey) (released : Bool) :
    Leaves set2 (KeyEvent.bytes set2 ⟨key.position, released⟩) m
      (if key = .leftShift ∨ key = .rightShift then !released else m.shift)
      (if key = .leftCtrl then !released else m.ctrl) := by
  cases key with
  | leftShift => exact ⟨{ m with shift := !released }, by
      cases set2 <;> cases released <;> rfl, rfl, rfl⟩
  | rightShift => exact ⟨{ m with shift := !released }, by
      cases set2 <;> cases released <;> rfl, rfl, rfl⟩
  | leftCtrl => exact ⟨{ m with ctrl := !released }, by
      cases set2 <;> cases released <;> rfl, rfl, rfl⟩
  | rightCtrl => exact ⟨m, by cases set2 <;> cases released <;> rfl, rfl, rfl⟩

theorem leaves_pause (ctrl : Bool) :
    Leaves set2 (pauseBytes set2 ctrl) m m.shift (if ctrl then m.ctrl else false) := by
  cases ctrl with
  | true => exact ⟨m, by cases set2 <;> rfl, rfl, rfl⟩
  | false => exact ⟨{ m with ctrl := false }, by cases set2 <;> rfl, rfl, rfl⟩

end Decoder

def Press.shiftFlag (shift : Bool) : Press → Bool
  | .modifier key released =>
    if key = .leftShift ∨ key = .rightShift then !released else shift
  | .pause => shift
  | .other _ => shift

def Press.ctrlFlag (held : Held) (ctrl : Bool) : Press → Bool
  | .modifier key released => if key = .leftCtrl then !released else ctrl
  | .pause => if held.ctrl then ctrl else false
  | .other _ => ctrl

theorem leaves_press (set2 : Bool) (held : Held) (press : Press) (m : Modifiers) :
    Decoder.Leaves set2 (press.bytes set2 held) m (press.shiftFlag m.shift)
      (press.ctrlFlag held m.ctrl) := by
  cases press with
  | modifier key released => exact Decoder.leaves_modifier key released
  | pause => exact Decoder.leaves_pause held.ctrl
  | other codes => exact Decoder.leaves_codes codes

/-- No Shift goes up while the other is down, the left Ctrl does not go up while the right one is
down, and the right one goes down and up only while the left one is down. -/
def Harmless (held : Held) : Press → Prop
  | .modifier .leftShift true => held .rightShift = false
  | .modifier .rightShift true => held .leftShift = false
  | .modifier .leftCtrl true => held .rightCtrl = false
  | .modifier .rightCtrl false => held.ctrl = true
  | .modifier .rightCtrl true => held .leftCtrl = true ∨ held .rightCtrl = false
  | _ => True

theorem flags_iff (held : Held) (press : Press) :
    press.shiftFlag held.shift = (held.after press).shift ∧
        press.ctrlFlag held held.ctrl = (held.after press).ctrl ↔
      Harmless held press := by
  cases press with
  | pause =>
    simp only [Press.shiftFlag, Press.ctrlFlag, Held.after, Harmless, iff_true, true_and]
    cases held.ctrl <;> rfl
  | other codes => simp [Press.shiftFlag, Press.ctrlFlag, Held.after, Harmless]
  | modifier key released =>
    cases key <;> cases released <;>
      simp only [Press.shiftFlag, Press.ctrlFlag, Held.after, Harmless, Held.shift, Held.ctrl,
        Function.update]
    all_goals
      cases held .leftShift <;> cases held .rightShift <;> cases held .leftCtrl <;>
        cases held .rightCtrl <;> decide

/-! ## Runs -/

/-- A byte from the controller, or a call of `next_key`. -/
inductive Op where
  | push (sc : UInt8)
  | next

namespace Op

def step (st : KeyboardState) : Op → KeyboardState
  | .push sc => st.pushScancode sc
  | .next => st.nextKey.2

def run (st : KeyboardState) (ops : List Op) : KeyboardState := ops.foldl step st

def byte : Op → List UInt8
  | .push sc => [sc]
  | .next => []

/-- Every byte finds room in the queue. -/
def Fits : KeyboardState → List Op → Prop
  | _, [] => True
  | st, .push sc :: ops => st.queue.length + 1 < queueLen ∧ Fits (st.pushScancode sc) ops
  | st, .next :: ops => Fits st.nextKey.2 ops

instance : ∀ (st : KeyboardState) (ops : List Op), Decidable (Fits st ops)
  | _, [] => inferInstanceAs (Decidable True)
  | st, .push sc :: ops =>
    have := instDecidableFits (st.pushScancode sc) ops
    inferInstanceAs (Decidable (_ ∧ _))
  | st, .next :: ops => instDecidableFits st.nextKey.2 ops

variable {st : KeyboardState} {ops : List Op}

theorem decodeAll_run (h : Fits st ops) :
    (Decoder.decodeAll (run st ops).queue (run st ops).toDecoder).2 =
      (Decoder.decodeAll (st.queue ++ ops.flatMap byte) st.toDecoder).2 := by
  induction ops generalizing st with
  | nil => rw [List.flatMap_nil, List.append_nil]; rfl
  | cons op ops ih =>
    cases op with
    | push sc =>
      have hpush : st.pushScancode sc = { st with queue := st.queue ++ [sc] } := by
        rw [KeyboardState.pushScancode, if_pos h.1]
      have hrest := ih h.2
      rw [show run st (.push sc :: ops) = run (st.pushScancode sc) ops from rfl, hrest, hpush,
        List.flatMap_cons, byte, List.append_assoc]
    | next =>
      have hfirst := @Lib.scanAll_first _ _ _ Decoder.decode st.queue st.toDecoder
      rw [show run st (.next :: ops) = run st.nextKey.2 ops from rfl, ih h,
        List.flatMap_cons, byte, List.nil_append, Decoder.decodeAll_append,
        Decoder.decodeAll_append]
      have hsame : (Decoder.decodeAll st.queue st.toDecoder).2 =
          (Decoder.decodeAll st.nextKey.2.queue st.nextKey.2.toDecoder).2 :=
        (congrArg Prod.snd hfirst :)
      rw [hsame]

theorem exists_delivery (bytes : List UInt8) (h : st.queue = []) :
    ∃ ops, ops.flatMap byte = bytes ∧ Fits st ops ∧ (run st ops).queue = [] := by
  induction bytes generalizing st with
  | nil => exact ⟨[], rfl, trivial, h⟩
  | cons sc bytes ih =>
    have hroom : st.queue.length + 1 < queueLen := by rw [h]; decide
    have hempty : (st.pushScancode sc).nextKey.2.queue = [] := by
      rw [KeyboardState.pushScancode, if_pos hroom, h]
      show (Decoder.nextKey [sc] st.toDecoder).2.1 = []
      rw [Decoder.nextKey, Lib.scanFirst]
      split <;> rfl
    obtain ⟨ops, hbytes, hfits, hqueue⟩ := ih hempty
    exact ⟨.push sc :: .next :: ops, by rw [← hbytes]; rfl, ⟨hroom, hfits⟩, hqueue⟩

end Op

def heldAfter (held : Held) (presses : List Press) : Held := presses.foldl Held.after held

/-- However the bytes of the presses are delivered, the flags are those of the keys that are
down once all of them are decoded. -/
def Tracks (set2 : Bool) (presses : List Press) : Prop :=
  ∀ ops : List Op, ops.flatMap Op.byte = bytesOf set2 Held.none presses →
    Op.Fits (KeyboardState.new set2) ops → (Op.run (KeyboardState.new set2) ops).queue = [] →
      (Op.run (KeyboardState.new set2) ops).shift = (heldAfter Held.none presses).shift ∧
        (Op.run (KeyboardState.new set2) ops).ctrl = (heldAfter Held.none presses).ctrl

def AllHarmless : Held → List Press → Prop
  | _, [] => True
  | held, press :: rest => Harmless held press ∧ AllHarmless (held.after press) rest

variable {held : Held} {presses : List Press} {m : Modifiers} {set2 : Bool}

def Modifiers.Shows (m : Modifiers) (held : Held) : Prop :=
  m.shift = held.shift ∧ m.ctrl = held.ctrl

def decoded (set2 : Bool) (held : Held) (presses : List Press) (m : Modifiers) : Decoder :=
  (Decoder.decodeAll (bytesOf set2 held presses) (m.decoder set2)).2

theorem decoded_cons (set2 : Bool) (held : Held) (press : Press) (presses : List Press)
    (m : Modifiers) :
    ∃ m' : Modifiers, m'.shift = press.shiftFlag m.shift ∧ m'.ctrl = press.ctrlFlag held m.ctrl ∧
      decoded set2 held [press] m = m'.decoder set2 ∧
        decoded set2 held (press :: presses) m = decoded set2 (held.after press) presses m' := by
  obtain ⟨m', hbytes, hshift, hctrl⟩ := leaves_press set2 held press m
  refine ⟨m', hshift, hctrl, ?_, ?_⟩
  · rw [decoded, bytesOf, bytesOf, List.append_nil, hbytes]
  · rw [decoded, bytesOf, Decoder.decodeAll_append, hbytes]
    rfl

theorem decoded_of_allHarmless (hshows : m.Shows held) (h : AllHarmless held presses) :
    (decoded set2 held presses m).shift = (heldAfter held presses).shift ∧
      (decoded set2 held presses m).ctrl = (heldAfter held presses).ctrl := by
  induction presses generalizing held m with
  | nil => exact hshows
  | cons press presses ih =>
    obtain ⟨m', hshift, hctrl, -, hrest⟩ := decoded_cons set2 held press presses m
    have hflags := (flags_iff held press).mpr h.1
    rw [← hshows.1, ← hshows.2] at hflags
    rw [hrest]
    exact ih ⟨hshift.trans hflags.1, hctrl.trans hflags.2⟩ h.2

theorem allHarmless_of_decoded (hshows : m.Shows held)
    (h : ∀ k, (decoded set2 held (presses.take k) m).shift =
        (heldAfter held (presses.take k)).shift ∧
      (decoded set2 held (presses.take k) m).ctrl = (heldAfter held (presses.take k)).ctrl) :
    AllHarmless held presses := by
  induction presses generalizing held m with
  | nil => exact trivial
  | cons press presses ih =>
    obtain ⟨m', hshift, hctrl, hone, -⟩ := decoded_cons set2 held press presses m
    have hfirst := h 1
    rw [List.take_succ_cons, List.take_zero, hone] at hfirst
    have hflags : press.shiftFlag m.shift = (held.after press).shift ∧
        press.ctrlFlag held m.ctrl = (held.after press).ctrl := by
      rw [← hshift, ← hctrl]
      exact hfirst
    rw [hshows.1, hshows.2] at hflags
    refine ⟨(flags_iff held press).mp hflags, ih hfirst fun k => ?_⟩
    obtain ⟨m'', hshift', hctrl', hone', hrest⟩ :=
      decoded_cons set2 held press (presses.take k) m
    have hsame : m''.decoder set2 = m'.decoder set2 := hone'.symm.trans hone
    have hnext := h (k + 1)
    rw [List.take_succ_cons, hrest, decoded, hsame] at hnext
    exact hnext

theorem tracks_iff_decoded (set2 : Bool) (presses : List Press) :
    Tracks set2 presses ↔
      (decoded set2 Held.none presses ⟨false, false, false, false⟩).shift =
          (heldAfter Held.none presses).shift ∧
        (decoded set2 Held.none presses ⟨false, false, false, false⟩).ctrl =
          (heldAfter Held.none presses).ctrl := by
  have hdelivered : ∀ ops : List Op, ops.flatMap Op.byte = bytesOf set2 Held.none presses →
      Op.Fits (KeyboardState.new set2) ops → (Op.run (KeyboardState.new set2) ops).queue = [] →
        (Op.run (KeyboardState.new set2) ops).toDecoder =
          decoded set2 Held.none presses ⟨false, false, false, false⟩ := by
    intro ops hbytes hfits hqueue
    have hrun := Op.decodeAll_run hfits
    rw [hqueue, hbytes] at hrun
    exact hrun
  constructor
  · intro h
    obtain ⟨ops, hbytes, hfits, hqueue⟩ := Op.exists_delivery
      (bytesOf set2 Held.none presses) (show (KeyboardState.new set2).queue = [] from rfl)
    have hflags := h ops hbytes hfits hqueue
    rwa [hdelivered ops hbytes hfits hqueue] at hflags
  · intro h ops hbytes hfits hqueue
    rwa [hdelivered ops hbytes hfits hqueue]

/-- The flags follow the keys at every point of a run exactly when every press of it is
harmless. -/
theorem tracks_iff (set2 : Bool) (presses : List Press) :
    (∀ k, Tracks set2 (presses.take k)) ↔ AllHarmless Held.none presses := by
  have hstart : Modifiers.Shows ⟨false, false, false, false⟩ Held.none := ⟨rfl, rfl⟩
  constructor
  · intro h
    exact allHarmless_of_decoded hstart fun k => (tracks_iff_decoded set2 _).mp (h k)
  · intro h k
    have hlead : AllHarmless Held.none (presses.take k) := by
      clear hstart
      generalize Held.none = held at h ⊢
      induction presses generalizing held k with
      | nil => rw [List.take_nil]; exact trivial
      | cons press presses ih =>
        cases k with
        | zero => exact trivial
        | succ k => exact ⟨h.1, ih k (held.after press) h.2⟩
    exact (tracks_iff_decoded set2 _).mpr (decoded_of_allHarmless hstart hlead)

def twoShifts : List Press :=
  [.modifier .leftShift false, .modifier .rightShift false, .modifier .leftShift true]

theorem twoShifts_lost : ¬ Tracks false twoShifts := by
  intro h
  have := (h [.push 0x2A, .push 0x36, .push 0xAA, .next] (by decide) (by decide)
    (by decide)).1
  revert this
  decide

end Vibra.Input
