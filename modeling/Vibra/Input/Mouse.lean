import Mathlib.Algebra.BigOperators.Group.List.Basic
import Mathlib.Algebra.Ring.Int.Defs
import Mathlib.Algebra.Ring.Nat
import Vibra.Lib.Runs

/-! # The PS/2 mouse

The mouse reports its motion in packets of three bytes, one interrupt for each byte.
-/

namespace Vibra.Input

/-- What `get_state` returns. -/
structure MouseState where
  dx : Int16
  dy : Int16
  leftButton : Bool
  rightButton : Bool
  middleButton : Bool

/-- `MOUSE_DX` to `MOUSE_MIDDLE`, and the packet that is being read. -/
structure Mouse where
  dx : Int16
  dy : Int16
  left : Bool
  right : Bool
  middle : Bool
  pktIndex : UInt8
  pktByte0 : UInt8
  pktByte1 : UInt8

namespace Mouse

def new : Mouse := ⟨0, 0, false, false, false, 0, 0, 0⟩

def handleInterrupt (m : Mouse) (byte : UInt8) : Mouse :=
  match m.pktIndex with
  | 0 => if byte &&& 0x08 = 0 then m else { m with pktByte0 := byte, pktIndex := 1 }
  | 1 => { m with pktByte1 := byte, pktIndex := 2 }
  | 2 =>
    { m with
      left := m.pktByte0 &&& 0x01 != 0
      right := m.pktByte0 &&& 0x02 != 0
      middle := m.pktByte0 &&& 0x04 != 0
      dx := m.dx + m.pktByte1.toInt8.toInt16
      dy := m.dy + -byte.toUInt16.toInt16
      pktIndex := 0 }
  | _ => { m with pktIndex := 0 }

def getState (m : Mouse) : MouseState × Mouse :=
  (⟨m.dx, m.dy, m.left, m.right, m.middle⟩, { m with dx := 0, dy := 0 })

end Mouse

/-- A motion of nine bits in each component, up and to the right, and the buttons. -/
structure Packet where
  dx : Int
  dy : Int
  left : Bool
  right : Bool
  middle : Bool
  dx_range : -256 ≤ dx ∧ dx ≤ 255
  dy_range : -256 ≤ dy ∧ dy ≤ 255

namespace Packet

def buttons (p : Packet) : Bool × Bool × Bool := (p.left, p.right, p.middle)

def headerByte (left right middle negX negY : Bool) : UInt8 :=
  (bif left then 0x01 else 0) ||| (bif right then 0x02 else 0) ||| (bif middle then 0x04 else 0) |||
    0x08 ||| (bif negX then 0x10 else 0) ||| (bif negY then 0x20 else 0)

def header (p : Packet) : UInt8 :=
  headerByte p.left p.right p.middle (p.dx < 0) (p.dy < 0)

def low (x : Int) : UInt8 := UInt8.ofNat (x % 256).toNat

/-- The byte of a packet after so many of its bytes. -/
def byte (p : Packet) : Nat → UInt8
  | 0 => p.header
  | 1 => low p.dx
  | _ => low p.dy

theorem headerByte_bits : ∀ left right middle negX negY : Bool,
    headerByte left right middle negX negY &&& 0x08 ≠ 0 ∧
      (headerByte left right middle negX negY &&& 0x01 != 0) = left ∧
      (headerByte left right middle negX negY &&& 0x02 != 0) = right ∧
      (headerByte left right middle negX negY &&& 0x04 != 0) = middle := by
  decide

theorem low_toNat (x : Int) : ((low x).toNat : Int) = x % 256 := by
  have hlt := Int.emod_lt_of_pos x (by decide : (0 : Int) < 256)
  have hnn := Int.emod_nonneg x (by decide : (256 : Int) ≠ 0)
  rw [low, UInt8.toNat_ofNat']
  omega

def addDx (p : Packet) : Int16 := (low p.dx).toInt8.toInt16

def addDy (p : Packet) : Int16 := -(low p.dy).toUInt16.toInt16

theorem addDx_toInt (p : Packet) : p.addDx.toInt = (p.dx % 256).bmod 256 := by
  rw [addDx, Int8.toInt_toInt16, ← low_toNat]
  exact BitVec.toInt_eq_toNat_bmod (low p.dx).toBitVec

theorem addDy_toInt (p : Packet) : p.addDy.toInt = -(p.dy % 256) := by
  have hlt := Int.emod_lt_of_pos p.dy (by decide : (0 : Int) < 256)
  have hnn := Int.emod_nonneg p.dy (by decide : (256 : Int) ≠ 0)
  have hword : (low p.dy).toUInt16.toInt16.toInt =
      ((low p.dy).toUInt16.toNat : Int).bmod (2 ^ 16) :=
    BitVec.toInt_eq_toNat_bmod (low p.dy).toUInt16.toBitVec
  have hraw : (low p.dy).toUInt16.toInt16.toInt = p.dy % 256 := by
    rw [hword, UInt8.toNat_toUInt16, low_toNat]
    apply Int.bmod_eq_of_le <;> omega
  rw [addDy, Int16.toInt_neg, hraw]
  apply Int.bmod_eq_of_le <;> omega

/-- The motions that the driver decodes: eight bits to the sides, and none downwards. -/
def Decodes (p : Packet) : Prop := (-128 ≤ p.dx ∧ p.dx ≤ 127) ∧ 0 ≤ p.dy

instance (p : Packet) : Decidable p.Decodes :=
  inferInstanceAs (Decidable ((-128 ≤ p.dx ∧ p.dx ≤ 127) ∧ 0 ≤ p.dy))

theorem addDx_near (p : Packet) :
    (-256 ≤ p.addDx.toInt - p.dx ∧ p.addDx.toInt - p.dx ≤ 256) ∧
      (p.addDx.toInt = p.dx ↔ -128 ≤ p.dx ∧ p.dx ≤ 127) := by
  have hrange := p.dx_range
  rw [addDx_toInt, Int.bmod_def]
  split <;> omega

theorem addDy_near (p : Packet) :
    (-256 ≤ p.addDy.toInt - -p.dy ∧ p.addDy.toInt - -p.dy ≤ 256) ∧
      (p.addDy.toInt = -p.dy ↔ 0 ≤ p.dy) := by
  have hrange := p.dy_range
  rw [addDy_toInt]
  omega

end Packet

theorem accumulated_iff (acc : Int16) {add : Int16} {x : Int}
    (hfits : -2 ^ 15 ≤ acc.toInt + x ∧ acc.toInt + x < 2 ^ 15)
    (hnear : -256 ≤ add.toInt - x ∧ add.toInt - x ≤ 256) :
    (acc + add).toInt = acc.toInt + x ↔ add.toInt = x := by
  rw [Int16.toInt_add, Int.bmod_def]
  split <;> omega

/-! ## The stream of bytes -/

/-- What arrives: stray bytes, then the packets. `sent` bytes of the first packet have arrived;
the packets that are complete are kept, and among them those since the last call of `getState`. -/
structure Stream where
  mouse : Mouse
  strays : List UInt8
  packets : List Packet
  sent : Nat
  reads : List MouseState
  complete : List Packet
  fresh : List Packet

inductive MouseEvent where
  | interrupt
  | getState

def sumDx (packets : List Packet) : Int := (packets.map Packet.dx).sum

def sumDy (packets : List Packet) : Int := (packets.map Packet.dy).sum

theorem sumDx_snoc (packets : List Packet) (p : Packet) :
    sumDx (packets ++ [p]) = sumDx packets + p.dx := by
  simp [sumDx]

theorem sumDy_snoc (packets : List Packet) (p : Packet) :
    sumDy (packets ++ [p]) = sumDy packets + p.dy := by
  simp [sumDy]

namespace Stream

def start (strays : List UInt8) (packets : List Packet) : Stream :=
  ⟨Mouse.new, strays, packets, 0, [], [], []⟩

def interrupt (s : Stream) : Stream :=
  match s.strays, s.packets with
  | byte :: strays, _ => { s with mouse := s.mouse.handleInterrupt byte, strays := strays }
  | [], [] => s
  | [], p :: packets =>
    if s.sent = 2 then
      { s with
        mouse := s.mouse.handleInterrupt (p.byte 2)
        packets := packets
        sent := 0
        complete := s.complete ++ [p]
        fresh := s.fresh ++ [p] }
    else { s with mouse := s.mouse.handleInterrupt (p.byte s.sent), sent := s.sent + 1 }

def getState (s : Stream) : Stream :=
  { s with mouse := s.mouse.getState.2, reads := s.reads ++ [s.mouse.getState.1], fresh := [] }

def step (s : Stream) : MouseEvent → Stream
  | .interrupt => s.interrupt
  | .getState => s.getState

def reportedDx (s : Stream) : Int := (s.reads.map (·.dx.toInt)).sum

def reportedDy (s : Stream) : Int := (s.reads.map (·.dy.toInt)).sum

def Fits (s : Stream) : Prop :=
  (-2 ^ 15 ≤ sumDx s.fresh ∧ sumDx s.fresh < 2 ^ 15) ∧
    -2 ^ 15 ≤ -sumDy s.fresh ∧ -sumDy s.fresh < 2 ^ 15

instance (s : Stream) : Decidable s.Fits :=
  inferInstanceAs (Decidable ((_ ∧ _) ∧ _ ∧ _))

def lastButtons (packets : List Packet) : Bool × Bool × Bool :=
  (packets.getLast?.map Packet.buttons).getD (false, false, false)

/-- The motion that was returned and the motion that is left are that of the packets, and the
buttons are those of the last packet. -/
structure Conserved (s : Stream) : Prop where
  dx : s.reportedDx + s.mouse.dx.toInt = sumDx s.complete
  dy : s.reportedDy + s.mouse.dy.toInt = -sumDy s.complete
  buttons : (s.mouse.left, s.mouse.right, s.mouse.middle) = lastButtons s.complete

/-- The next event completes no packet, or one that the driver decodes. -/
def Decodes (s : Stream) : MouseEvent → Prop
  | .interrupt =>
    match s.strays, s.packets with
    | [], p :: _ => s.sent = 2 → p.Decodes
    | _, _ => True
  | .getState => True

inductive Collecting : Mouse → Nat → List UInt8 → List Packet → Prop
  | header {m : Mouse} {strays : List UInt8} {packets : List Packet} :
      m.pktIndex = 0 → (∀ b ∈ strays, b &&& 0x08 = 0) → Collecting m 0 strays packets
  | second {m : Mouse} {p : Packet} {packets : List Packet} :
      m.pktIndex = 1 → m.pktByte0 = p.header → Collecting m 1 [] (p :: packets)
  | third {m : Mouse} {p : Packet} {packets : List Packet} :
      m.pktIndex = 2 → m.pktByte0 = p.header → m.pktByte1 = Packet.low p.dx →
        Collecting m 2 [] (p :: packets)

namespace Collecting

variable {m : Mouse} {sent : Nat} {b : UInt8} {strays : List UInt8} {p : Packet}
  {packets : List Packet}

theorem getState (h : Collecting m sent strays packets) :
    Collecting m.getState.2 sent strays packets := by
  cases h with
  | header hindex hstrays => exact .header hindex hstrays
  | second hindex h0 => exact .second hindex h0
  | third hindex h0 h1 => exact .third hindex h0 h1

theorem stray (h : Collecting m sent (b :: strays) packets) :
    m.handleInterrupt b = m ∧ Collecting m sent strays packets := by
  cases h with
  | header hindex hstrays =>
    have hb := hstrays b (List.mem_cons_self ..)
    refine ⟨?_, .header hindex fun b' hb' => hstrays b' (List.mem_cons_of_mem _ hb')⟩
    rw [Mouse.handleInterrupt, hindex]
    exact if_pos hb

theorem inside (h : Collecting m sent [] (p :: packets)) (hsent : sent ≠ 2) :
    Collecting (m.handleInterrupt (p.byte sent)) (sent + 1) [] (p :: packets) ∧
      (m.handleInterrupt (p.byte sent)).getState.1 = m.getState.1 := by
  cases h with
  | header hindex hstrays =>
    have hheader : p.header &&& 0x08 ≠ 0 :=
      (Packet.headerByte_bits p.left p.right p.middle (p.dx < 0) (p.dy < 0)).1
    have hm : m.handleInterrupt (p.byte 0) = { m with pktByte0 := p.header, pktIndex := 1 } := by
      rw [Mouse.handleInterrupt, hindex]
      exact if_neg hheader
    rw [hm]
    exact ⟨.second rfl rfl, rfl⟩
  | second hindex h0 =>
    have hm : m.handleInterrupt (p.byte 1) = { m with pktByte1 := Packet.low p.dx,
                                                      pktIndex := 2 } := by
      rw [Mouse.handleInterrupt, hindex]
      rfl
    rw [hm]
    exact ⟨.third rfl h0 rfl, rfl⟩
  | third => exact absurd rfl hsent

theorem last (h : Collecting m 2 [] (p :: packets)) :
    Collecting (m.handleInterrupt (p.byte 2)) 0 [] packets ∧
      (m.handleInterrupt (p.byte 2)).getState.1 =
        ⟨m.dx + p.addDx, m.dy + p.addDy, p.left, p.right, p.middle⟩ := by
  cases h with
  | third hindex h0 h1 =>
    obtain ⟨-, hleft, hright, hmiddle⟩ : p.header &&& 0x08 ≠ 0 ∧ _ :=
      Packet.headerByte_bits p.left p.right p.middle (p.dx < 0) (p.dy < 0)
    have hm : m.handleInterrupt (p.byte 2) =
        { m with
          left := p.left
          right := p.right
          middle := p.middle
          dx := m.dx + p.addDx
          dy := m.dy + p.addDy
          pktIndex := 0 } := by
      rw [Mouse.handleInterrupt, hindex]
      simp only [h0, h1, Packet.header, Packet.byte, Packet.addDx, Packet.addDy, hleft, hright,
        hmiddle]
    rw [hm]
    exact ⟨.header rfl fun b hb => absurd hb List.not_mem_nil, rfl⟩

end Collecting

/-- As long as the driver decodes the packets, the accumulators hold the motion since the last
call. -/
structure Tracked (s : Stream) : Prop where
  collecting : Collecting s.mouse s.sent s.strays s.packets
  dx : s.mouse.dx.toInt = sumDx s.fresh
  dy : s.mouse.dy.toInt = -sumDy s.fresh
  totalDx : s.reportedDx + sumDx s.fresh = sumDx s.complete
  totalDy : s.reportedDy - sumDy s.fresh = -sumDy s.complete
  buttons : (s.mouse.left, s.mouse.right, s.mouse.middle) = lastButtons s.complete

namespace Tracked

variable {s : Stream} {p : Packet} {packets : List Packet}

theorem conserved (h : Tracked s) : Conserved s where
  dx := by rw [h.dx, h.totalDx]
  dy := by rw [h.dy, ← sub_eq_add_neg, h.totalDy]
  buttons := h.buttons

theorem start (packets : List Packet) {strays : List UInt8}
    (hstrays : ∀ b ∈ strays, b &&& 0x08 = 0) :
    Tracked (Stream.start strays packets) where
  collecting := .header rfl hstrays
  dx := rfl
  dy := rfl
  totalDx := rfl
  totalDy := rfl
  buttons := rfl

theorem getState (h : Tracked s) : Tracked s.getState where
  collecting := h.collecting.getState
  dx := rfl
  dy := rfl
  totalDx := by
    have htotal := h.totalDx
    rw [← h.dx] at htotal
    simpa [Stream.getState, reportedDx, Mouse.getState, sumDx] using htotal
  totalDy := by
    have htotal := h.totalDy
    rw [sub_eq_add_neg, ← h.dy] at htotal
    simpa [Stream.getState, reportedDy, Mouse.getState, sumDy] using htotal
  buttons := h.buttons

theorem move (h : Tracked s) {m : Mouse} {strays : List UInt8} {sent : Nat}
    (hcollecting : Collecting m sent strays s.packets)
    (hheld : m.getState.1 = s.mouse.getState.1) :
    Tracked { s with mouse := m, strays := strays, sent := sent } := by
  simp only [Mouse.getState, MouseState.mk.injEq] at hheld
  obtain ⟨hdx, hdy, hleft, hright, hmiddle⟩ := hheld
  refine ⟨hcollecting, ?_, ?_, h.totalDx, h.totalDy, ?_⟩
  · rw [hdx, h.dx]
  · rw [hdy, h.dy]
  · rw [hleft, hright, hmiddle, h.buttons]

theorem interrupt_inside (h : Tracked s)
    (hinside : s.strays ≠ [] ∨ s.packets = [] ∨ s.sent ≠ 2) : Tracked s.interrupt := by
  obtain ⟨mouse, strays, packets, sent, reads, complete, fresh⟩ := s
  rcases strays with _ | ⟨b, strays⟩
  · rcases packets with _ | ⟨p, packets⟩
    · exact h
    · have hsent : sent ≠ 2 := by simpa using hinside
      obtain ⟨hcollecting, hheld⟩ := h.collecting.inside hsent
      simp only [Stream.interrupt, if_neg hsent]
      exact h.move hcollecting hheld
  · obtain ⟨hm, hcollecting⟩ := h.collecting.stray
    exact h.move (hm.symm ▸ hcollecting) (by rw [hm])

theorem interrupt_last (h : Tracked s) (hstrays : s.strays = [])
    (hpackets : s.packets = p :: packets) (hsent : s.sent = 2) (hfits : Fits s.interrupt) :
    (p.Decodes → Tracked s.interrupt) ∧ (Conserved s.interrupt → p.Decodes) := by
  have hcollecting := h.collecting
  rw [hstrays, hpackets, hsent] at hcollecting
  obtain ⟨hcollecting, hheld⟩ := hcollecting.last
  simp only [Mouse.getState, MouseState.mk.injEq] at hheld
  obtain ⟨hdx, hdy, hleft, hright, hmiddle⟩ := hheld
  have hnext : s.interrupt =
      { s with
        mouse := s.mouse.handleInterrupt (p.byte 2)
        packets := packets
        sent := 0
        complete := s.complete ++ [p]
        fresh := s.fresh ++ [p] } := by
    simp only [Stream.interrupt, hstrays, hpackets, hsent, if_true]
  rw [hnext, Fits] at hfits
  simp only [sumDx_snoc, sumDy_snoc] at hfits
  have hX := h.dx
  have hY := h.dy
  have htotalX := h.totalDx
  have htotalY := h.totalDy
  have haddX := accumulated_iff s.mouse.dx (by omega) p.addDx_near.1
  have haddY := accumulated_iff s.mouse.dy (by omega) p.addDy_near.1
  rw [p.addDx_near.2, ← hdx] at haddX
  rw [p.addDy_near.2, ← hdy] at haddY
  rw [hnext]
  constructor
  · intro hp
    have hsumX := haddX.mpr hp.1
    have hsumY := haddY.mpr hp.2
    refine ⟨hstrays ▸ hcollecting, ?_, ?_, ?_, ?_, ?_⟩
    · rw [hsumX, hX, sumDx_snoc]
    · rw [hsumY, hY, sumDy_snoc, neg_add]
    · rw [sumDx_snoc, sumDx_snoc, ← htotalX, add_assoc]
      rfl
    · rw [sumDy_snoc, sumDy_snoc, neg_add, ← htotalY, sub_add_eq_sub_sub, sub_eq_add_neg _ p.dy]
      rfl
    · rw [hleft, hright, hmiddle, lastButtons, List.getLast?_append]
      rfl
  · intro hconserved
    have hconservedX : s.reportedDx + _ = _ := hconserved.dx
    have hconservedY : s.reportedDy + _ = _ := hconserved.dy
    simp only [sumDx_snoc, sumDy_snoc] at hconservedX hconservedY
    refine ⟨haddX.mp ?_, haddY.mp ?_⟩ <;> omega

end Tracked

end Stream

end Vibra.Input
