import Vibra.Input.Keyboard

/-! # Scan Code Sets 1 and 2

A position of the keyboard has a make code in either set, some behind the prefix E0.
-/

namespace Vibra.Input

/-- A key with its make codes. -/
structure Position where
  set1 : UInt8
  set2 : UInt8
  extended : Bool
deriving DecidableEq

/-- Escape, the digit row, the three letter rows and Space. -/
def charPositions : List Position :=
  ([(0x01, 0x76), (0x29, 0x0E), (0x02, 0x16), (0x03, 0x1E), (0x04, 0x26), (0x05, 0x25),
    (0x06, 0x2E), (0x07, 0x36), (0x08, 0x3D), (0x09, 0x3E), (0x0A, 0x46), (0x0B, 0x45),
    (0x0C, 0x4E), (0x0D, 0x55), (0x0E, 0x66),
    (0x0F, 0x0D), (0x10, 0x15), (0x11, 0x1D), (0x12, 0x24), (0x13, 0x2D), (0x14, 0x2C),
    (0x15, 0x35), (0x16, 0x3C), (0x17, 0x43), (0x18, 0x44), (0x19, 0x4D), (0x1A, 0x54),
    (0x1B, 0x5B), (0x2B, 0x5D),
    (0x1E, 0x1C), (0x1F, 0x1B), (0x20, 0x23), (0x21, 0x2B), (0x22, 0x34), (0x23, 0x33),
    (0x24, 0x3B), (0x25, 0x42), (0x26, 0x4B), (0x27, 0x4C), (0x28, 0x52), (0x1C, 0x5A),
    (0x2C, 0x1A), (0x2D, 0x22), (0x2E, 0x21), (0x2F, 0x2A), (0x30, 0x32), (0x31, 0x31),
    (0x32, 0x3A), (0x33, 0x41), (0x34, 0x49), (0x35, 0x4A), (0x39, 0x29)] :
      List (UInt8 × UInt8)).map fun codes => ⟨codes.1, codes.2, false⟩

def leftShift : Position := ⟨0x2A, 0x12, false⟩

def rightShift : Position := ⟨0x36, 0x59, false⟩

def leftCtrl : Position := ⟨0x1D, 0x14, false⟩

def leftAlt : Position := ⟨0x38, 0x11, false⟩

def capsLock : Position := ⟨0x3A, 0x58, false⟩

/-- The arrows, Home, End, Page Up, Page Down, Insert, Delete and the Enter of the keypad. -/
def navPositions : List Position :=
  ([(0x4B, 0x6B), (0x4D, 0x74), (0x48, 0x75), (0x50, 0x72), (0x47, 0x6C), (0x4F, 0x69),
    (0x49, 0x7D), (0x51, 0x7A), (0x52, 0x70), (0x53, 0x71), (0x1C, 0x5A)] :
      List (UInt8 × UInt8)).map fun codes => ⟨codes.1, codes.2, true⟩

def positions : List Position :=
  [leftShift, rightShift, leftCtrl, leftAlt, capsLock] ++ charPositions ++ navPositions

/-- A key is pressed or released. -/
structure KeyEvent where
  position : Position
  released : Bool

def KeyEvent.set1 (e : KeyEvent) : List UInt8 :=
  (if e.position.extended then [0xE0] else []) ++
    [if e.released then e.position.set1 ||| 0x80 else e.position.set1]

def KeyEvent.set2 (e : KeyEvent) : List UInt8 :=
  (if e.position.extended then [0xE0] else []) ++ (if e.released then [0xF0] else []) ++
    [e.position.set2]

namespace KeyboardState

/-- The keys that up to `k` calls of `next_key` return, each with whether it asks to cancel. -/
def takeKeys : Nat → KeyboardState → List (Key × Bool) × KeyboardState
  | 0, st => ([], st)
  | k + 1, st =>
    match st.nextKey with
    | (some key, st) => (key :: (takeKeys k st).1, (takeKeys k st).2)
    | (none, st) => ([], st)

/-- Each byte is put into the queue and `next_key` is called until it has no key. -/
def feed : List UInt8 → KeyboardState → List (Key × Bool) × KeyboardState
  | [], st => ([], st)
  | sc :: rest, st =>
    let (keys, st) := takeKeys queueLen (st.pushScancode sc)
    ((keys ++ (feed rest st).1), (feed rest st).2)

variable {st : KeyboardState}

theorem takeKeys_nil (h : st.queue = []) (k : Nat) : takeKeys k st = ([], st) := by
  have hnone : st.nextKey = (none, st) := by
    rw [nextKey, h, Decoder.nextKey, Lib.scanFirst, ← h]
  cases k with
  | zero => rfl
  | succ k => rw [takeKeys, hnone]

theorem takeKeys_push (h : st.queue = []) (sc : UInt8) (k : Nat) :
    takeKeys (k + 1) (st.pushScancode sc) =
      ((st.decode sc).1.toList, { st with toDecoder := (st.decode sc).2 }) := by
  have hpush : st.pushScancode sc = { st with queue := [sc] } := by
    rw [pushScancode, h, if_pos (by decide), List.nil_append]
  rw [hpush, takeKeys, nextKey]
  simp only [Decoder.nextKey, Lib.scanFirst]
  cases hkey : st.toDecoder.decode sc with
  | mk key decoder =>
    cases key with
    | none =>
      show (_, _) = (_, _)
      rw [← h]
      rfl
    | some key =>
      have hrest : takeKeys k { st with toDecoder := decoder, queue := [] } = ([], _) :=
        takeKeys_nil rfl k
      show (key :: (takeKeys k { st with toDecoder := decoder, queue := [] }).1,
        (takeKeys k { st with toDecoder := decoder, queue := [] }).2) = _
      rw [hrest, h]
      rfl

theorem feed_eq (bytes : List UInt8) (h : st.queue = []) :
    feed bytes st = ((Decoder.decodeAll bytes st.toDecoder).1,
      { st with toDecoder := (Decoder.decodeAll bytes st.toDecoder).2 }) := by
  induction bytes generalizing st with
  | nil => rfl
  | cons sc bytes ih =>
    have hrest : feed bytes { st with toDecoder := (st.decode sc).2 } = _ := ih h
    rw [feed, queueLen, takeKeys_push h]
    simp only [Decoder.decodeAll, Lib.scanAll, hrest]

end KeyboardState

structure Modifiers where
  shift : Bool
  ctrl : Bool
  alt : Bool
  caps : Bool

def Modifiers.decoder (m : Modifiers) (scanSet2 : Bool) : Decoder :=
  ⟨m.shift, m.ctrl, m.alt, m.caps, false, false, scanSet2⟩

namespace Decoder

/-- Both decoders go from the one to the other over the event's bytes and find the same keys. -/
def Agree (e : KeyEvent) (m : Modifiers) : Prop :=
  ∃ keys, ∃ m' : Modifiers, decodeAll e.set1 (m.decoder false) = (keys, m'.decoder false) ∧
    decodeAll e.set2 (m.decoder true) = (keys, m'.decoder true)

theorem decodeAll_singleton (sc : UInt8) (st : Decoder) :
    decodeAll [sc] st = ((st.decode sc).1.toList, (st.decode sc).2) :=
  Lib.scanAll_singleton sc st

theorem decodeAll_append (bytes more : List UInt8) (st : Decoder) :
    decodeAll (bytes ++ more) st =
      ((decodeAll bytes st).1 ++ (decodeAll more (decodeAll bytes st).2).1,
        (decodeAll more (decodeAll bytes st).2).2) :=
  Lib.scanAll_append bytes more st

theorem decode_set1 {m : Modifiers} {sc : UInt8}
    (h : (Decoder.new false).isService sc = false) :
    (m.decoder false).decode sc = (m.decoder false).decodeSet1 sc := by
  have hservice : (m.decoder false).isService sc = false := h
  rw [decode, hservice]
  rfl

theorem decode_set2 {m : Modifiers} {sc : UInt8}
    (h : (Decoder.new true).isService sc = false) :
    (m.decoder true).decode sc = (m.decoder true).decodeSet2 sc := by
  have hservice : (m.decoder true).isService sc = false := h
  rw [decode, hservice]
  rfl

/-- A byte of Set 1 for a key that is no modifier: neither a prefix nor a service byte. -/
@[mk_iff]
structure PlainSet1 (sc code : UInt8) : Prop where
  prefixed : sc ≠ 0xE0
  masked : sc &&& 0x7F = code
  service : (Decoder.new false).isService sc = false
  modifier : code ∉ ([0x2A, 0x36, 0x1D, 0x38, 0x3A] : List UInt8)

@[mk_iff]
structure PlainSet2 (code : UInt8) : Prop where
  prefixed : code ≠ 0xE0 ∧ code ≠ 0xF0
  service : (Decoder.new true).isService code = false
  modifier : code ∉ ([0x12, 0x59, 0x14, 0x11, 0x58] : List UInt8)

instance (sc code : UInt8) : Decidable (PlainSet1 sc code) :=
  decidable_of_iff _ (plainSet1_iff sc code).symm

instance (code : UInt8) : Decidable (PlainSet2 code) :=
  decidable_of_iff _ (plainSet2_iff code).symm

variable {m : Modifiers} {sc code : UInt8} {ch : Char}

theorem PlainSet1.decode (h : PlainSet1 sc code) (hch : set1Char code = some ch) :
    decodeAll [sc] (m.decoder false) =
      if sc &&& 0x80 ≠ 0 then ([], m.decoder false)
      else ([(m.decoder false).translate ch], m.decoder false) := by
  have hmod := h.modifier
  simp only [List.mem_cons, List.not_mem_nil, or_false, not_or] at hmod
  obtain ⟨h1, h2, h3, h4, h5⟩ := hmod
  have hext : (m.decoder false).extended = false := rfl
  rw [decodeAll_singleton, decode_set1 h.service, decodeSet1, if_neg h.prefixed, h.masked, hext]
  simp only [Bool.false_eq_true, if_false, h1, h2, h3, h4, h5, or_self, hch]
  split <;> rfl

theorem PlainSet2.press (h : PlainSet2 code) (hch : set2Char code = some ch) :
    decodeAll [code] (m.decoder true) =
      ([(m.decoder true).translate ch], m.decoder true) := by
  have hmod := h.modifier
  simp only [List.mem_cons, List.not_mem_nil, or_false, not_or] at hmod
  obtain ⟨h1, h2, h3, h4, h5⟩ := hmod
  have hext : (m.decoder true).extended = false := rfl
  have hrelease : (m.decoder true).release = false := rfl
  rw [decodeAll_singleton, decode_set2 h.service, decodeSet2, if_neg h.prefixed.1,
    if_neg h.prefixed.2, hrelease]
  simp only [Bool.false_eq_true, if_false, h1, h2, h3, h4, h5, or_self, hch, hext]
  rfl

theorem PlainSet2.release (h : PlainSet2 code) :
    decodeAll [0xF0, code] (m.decoder true) = ([], m.decoder true) := by
  have hmod := h.modifier
  simp only [List.mem_cons, List.not_mem_nil, or_false, not_or] at hmod
  obtain ⟨h1, h2, h3, h4, h5⟩ := hmod
  have hbreak : decodeAll [0xF0] (m.decoder true) = ([], { m.decoder true with release := true }) :=
    rfl
  have hservice : ({ m.decoder true with release := true } : Decoder).isService code = false :=
    h.service
  rw [show ([0xF0, code] : List UInt8) = [0xF0] ++ [code] from rfl, decodeAll_append, hbreak,
    decodeAll_singleton, decode, hservice]
  show ([] ++ (decodeSet2 { m.decoder true with release := true } code).1.toList,
    (decodeSet2 { m.decoder true with release := true } code).2) = _
  have hext : (m.decoder true).extended = false := rfl
  rw [decodeSet2, if_neg h.prefixed.1, if_neg h.prefixed.2]
  simp only [Bool.false_eq_true, if_false, if_true, h1, h2, h3, h4, h5, or_self, hext]
  rfl

theorem charPositions_plain : ∀ p ∈ charPositions,
    (set1Char p.set1).isSome ∧ set1Char p.set1 = set2Char p.set2 ∧ p.extended = false ∧
      PlainSet1 p.set1 p.set1 ∧ PlainSet1 (p.set1 ||| 0x80) p.set1 ∧ PlainSet2 p.set2 ∧
        p.set1 &&& 0x80 = 0 ∧ (p.set1 ||| 0x80) &&& 0x80 ≠ 0 := by
  decide

theorem agree_char {p : Position} (hp : p ∈ charPositions) (released : Bool) (m : Modifiers) :
    Agree ⟨p, released⟩ m := by
  obtain ⟨hsome, hsame, hext, hmake, hbreak, hset2, hpress, hrelease⟩ := charPositions_plain p hp
  obtain ⟨ch, hch⟩ := Option.isSome_iff_exists.mp hsome
  have htranslate : (m.decoder false).translate ch = (m.decoder true).translate ch := rfl
  cases released with
  | false =>
    refine ⟨[(m.decoder true).translate ch], m, ?_, ?_⟩
    · simp only [KeyEvent.set1, hext, Bool.false_eq_true, if_false, List.nil_append]
      rw [hmake.decode hch, if_neg (by simp [hpress]), htranslate]
    · simp only [KeyEvent.set2, hext, Bool.false_eq_true, if_false, List.nil_append]
      exact hset2.press (hsame ▸ hch)
  | true =>
    refine ⟨[], m, ?_, ?_⟩
    · simp only [KeyEvent.set1, hext, Bool.false_eq_true, if_false, if_true, List.nil_append]
      rw [hbreak.decode hch, if_pos hrelease]
    · simp only [KeyEvent.set2, hext, Bool.false_eq_true, if_false, if_true, List.nil_append]
      exact hset2.release

theorem agree_modifier {p : Position}
    (hp : p ∈ [leftShift, rightShift, leftCtrl, leftAlt, capsLock]) (released : Bool)
    (m : Modifiers) : Agree ⟨p, released⟩ m := by
  simp only [List.mem_cons, List.not_mem_nil, or_false] at hp
  rcases hp with rfl | rfl | rfl | rfl | rfl
  · exact ⟨[], { m with shift := !released }, by cases released <;> rfl, by cases released <;> rfl⟩
  · exact ⟨[], { m with shift := !released }, by cases released <;> rfl, by cases released <;> rfl⟩
  · exact ⟨[], { m with ctrl := !released }, by cases released <;> rfl, by cases released <;> rfl⟩
  · exact ⟨[], { m with alt := !released }, by cases released <;> rfl, by cases released <;> rfl⟩
  · cases released with
    | false => exact ⟨[], { m with caps := !m.caps }, rfl, rfl⟩
    | true => exact ⟨[], m, rfl, rfl⟩

theorem agree_nav {p : Position} (hp : p ∈ navPositions) (released : Bool) (m : Modifiers) :
    Agree ⟨p, released⟩ m := by
  simp only [navPositions, List.map_cons, List.map_nil, List.mem_cons, List.not_mem_nil,
    or_false] at hp
  cases released with
  | true =>
    rcases hp with rfl | rfl | rfl | rfl | rfl | rfl | rfl | rfl | rfl | rfl | rfl <;>
      exact ⟨[], m, rfl, rfl⟩
  | false =>
    rcases hp with rfl | rfl | rfl | rfl | rfl | rfl | rfl | rfl | rfl | rfl | rfl <;>
      exact ⟨[_], m, rfl, rfl⟩

theorem agree {e : KeyEvent} (h : e.position ∈ positions) (m : Modifiers) : Agree e m := by
  rw [positions, List.mem_append, List.mem_append] at h
  rcases h with (h | h) | h
  · exact agree_modifier h e.released m
  · exact agree_char h e.released m
  · exact agree_nav h e.released m

theorem agree_all {events : List KeyEvent} (h : ∀ e ∈ events, e.position ∈ positions)
    (m : Modifiers) :
    ∃ keys, ∃ m' : Modifiers,
      decodeAll (events.flatMap KeyEvent.set1) (m.decoder false) = (keys, m'.decoder false) ∧
        decodeAll (events.flatMap KeyEvent.set2) (m.decoder true) = (keys, m'.decoder true) := by
  induction events generalizing m with
  | nil => exact ⟨[], m, rfl, rfl⟩
  | cons e events ih =>
    obtain ⟨keys, m₁, h1, h2⟩ := agree (h e List.mem_cons_self) m
    obtain ⟨more, m₂, h1', h2'⟩ := ih (fun e' he => h e' (List.mem_cons_of_mem e he)) m₁
    refine ⟨keys ++ more, m₂, ?_, ?_⟩
    · rw [List.flatMap_cons, decodeAll_append, h1, h1']
    · rw [List.flatMap_cons, decodeAll_append, h2, h2']

end Decoder

/-- Whatever keys are pressed and released, both decoders return the same keys, end with the
same modifiers and wait for no second byte. -/
theorem decoders_agree (events : List KeyEvent) (h : ∀ e ∈ events, e.position ∈ positions) :
    let set1 := KeyboardState.feed (events.flatMap KeyEvent.set1) (KeyboardState.new false)
    let set2 := KeyboardState.feed (events.flatMap KeyEvent.set2) (KeyboardState.new true)
    set1.1 = set2.1 ∧ set1.2.shift = set2.2.shift ∧ set1.2.ctrl = set2.2.ctrl ∧
      set1.2.alt = set2.2.alt ∧ set1.2.caps = set2.2.caps ∧
        set1.2.extended = false ∧ set2.2.extended = false ∧
          set1.2.release = false ∧ set2.2.release = false := by
  obtain ⟨keys, m, h1, h2⟩ :=
    Decoder.agree_all h ⟨false, false, false, false⟩
  intro set1 set2
  have hset1 : set1 = _ := KeyboardState.feed_eq _ rfl
  have hset2 : set2 = _ := KeyboardState.feed_eq _ rfl
  have hstart1 : (KeyboardState.new false).toDecoder =
      Modifiers.decoder ⟨false, false, false, false⟩ false := rfl
  have hstart2 : (KeyboardState.new true).toDecoder =
      Modifiers.decoder ⟨false, false, false, false⟩ true := rfl
  rw [hstart1, h1] at hset1
  rw [hstart2, h2] at hset2
  rw [hset1, hset2]
  exact ⟨rfl, rfl, rfl, rfl, rfl, rfl, rfl, rfl, rfl⟩

/-- A capital letter, typed with the left Shift; its release in Set 1 is the service byte AA. -/
def capitalA : List KeyEvent :=
  [⟨leftShift, false⟩, ⟨⟨0x1E, 0x1C, false⟩, false⟩, ⟨⟨0x1E, 0x1C, false⟩, true⟩, ⟨leftShift, true⟩]

theorem capitalA_agree :
    (KeyboardState.feed (capitalA.flatMap KeyEvent.set1) (KeyboardState.new false)).1 =
      (KeyboardState.feed (capitalA.flatMap KeyEvent.set2) (KeyboardState.new true)).1 ∧
    (KeyboardState.feed (capitalA.flatMap KeyEvent.set2) (KeyboardState.new true)).1 =
      [(.char 'A', false)] :=
  ⟨(decoders_agree capitalA (by decide)).1, by decide⟩

end Vibra.Input
