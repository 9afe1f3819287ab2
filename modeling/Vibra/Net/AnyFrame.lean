import Vibra.Net.Stack

/-! # Any frame

What a frame claims about itself is checked before it is used, with one exception: the length of an
IP header is never compared with the length of its packet.
-/

namespace Vibra.Net

open Lib (Bytes Outcome)
open Lib.Outcome

variable {net : Stack} {w : Waiting}

theorem sumWords_ensures {data : Bytes} {sum : Nat}
    (h : sum + 65535 * ((data.length + 1) / 2) < 2 ^ 32) :
    (sumWords data sum).Ensures fun s => s < 2 ^ 32 := by
  induction data, sum using sumWords.induct with
  | case1 sum => simpa [sumWords] using h
  | case2 a sum =>
    have ha := a.toNat_lt
    simp only [List.length_singleton] at h
    simp only [sumWords, ensures_add]
    omega
  | case3 a b rest sum ih =>
    have ha := a.toNat_lt
    have hb := b.toNat_lt
    simp only [List.length_cons] at h
    simp only [sumWords, ensures_bind, ensures_add]
    refine ⟨by omega, ih _ ?_⟩
    omega

theorem foldCarry_safe {fuel sum : Nat} (hfuel : sum < fuel) (hsum : sum < 2 ^ 32) :
    (foldCarry fuel sum).Safe := by
  induction fuel generalizing sum with
  | zero => omega
  | succ fuel ih =>
    rw [foldCarry, Safe, ensures_ite]
    refine ⟨fun hcarry => ?_, fun _ => trivial⟩
    rw [ensures_bind, ensures_add]
    refine ⟨by omega, ih ?_ ?_⟩
    · omega
    · omega

theorem internetChecksum_safe {data : Bytes} (h : data.length ≤ 2 ^ 16) :
    (internetChecksum data).Safe := by
  rw [internetChecksum, Safe, ensures_bind]
  refine (sumWords_ensures (by omega)).mono fun sum hsum => ?_
  rw [ensures_bind]
  exact (foldCarry_safe (Nat.lt_succ_self sum) hsum).mono fun _ _ => trivial

theorem sendPacket_safe (net : Stack) (data : Bytes) : (sendPacket net data).Safe := by
  rw [sendPacket]
  cases net.e1000 with
  | none => trivial
  | some ring =>
    have htail := ring.txTail_lt
    have hcount : txDescCount = 8 := rfl
    have hget : ring.txTail < ring.frames.length := by rw [ring.length_frames]; exact htail
    simp only [Safe, ensures_bind, ensures_add, get_of_lt hget, ensures_ok]
    exact ⟨by omega, trivial⟩

theorem length_be16 (n : Nat) : (be16 n).length = 2 := rfl

theorem sendEthernet_safe (net : Stack) (dst : Mac) (etherType : Nat) {payload : Bytes}
    (h : payload.length < 2 ^ 32) : (sendEthernet net dst etherType payload).Safe := by
  simp only [sendEthernet, Safe, ensures_bind, ensures_add, ensures_copyAt, ensures_copyTail,
    List.length_append, List.length_take, List.length_drop, List.length_replicate, List.take_zero,
    List.length_nil, Vector.length_toList, length_be16]
  refine ⟨by omega, by omega, by omega, by omega, by omega, ?_⟩
  refine (sendPacket_safe net _).mono fun sent _ => ?_
  rw [ensures_ite]
  exact ⟨fun _ => trivial, fun _ => trivial⟩

theorem length_arpPacket (opcode : Nat) (senderMac : Mac) (senderIp : Ip) (targetMac : Mac)
    (targetIp : Ip) :
    (arpPacket opcode senderMac senderIp targetMac targetIp).length = 28 := by
  simp [arpPacket, length_be16]

theorem sendArpReply_safe (net : Stack) (targetMac : Mac) (targetIp : Ip) (srcMac : Mac)
    (srcIp : Ip) : (sendArpReply net targetMac targetIp srcMac srcIp).Safe :=
  sendEthernet_safe _ _ _ (by rw [length_arpPacket]; decide)

theorem sendArpRequest_safe (net : Stack) (targetIp : Ip) (srcMac : Mac) (srcIp : Ip) :
    (sendArpRequest net targetIp srcMac srcIp).Safe :=
  sendEthernet_safe _ _ _ (by rw [length_arpPacket]; decide)

theorem awaitReply_safe {fuel turn : Nat} (hturn : turn ≤ w.last) (hfuel : w.last < turn + fuel) :
    (awaitReply w fuel turn).Safe := by
  induction fuel generalizing turn with
  | zero => omega
  | succ fuel ih =>
    rw [awaitReply]
    cases w.resolved turn with
    | some mac => trivial
    | none =>
      show Safe (if _ then _ else _)
      rw [Safe, ensures_ite]
      refine ⟨fun _ => trivial, fun hwait => ?_⟩
      have hne : turn ≠ w.last := by
        intro heq
        rw [heq] at hwait
        exact hwait w.passes
      exact ih (by omega) (by omega)

theorem resolve_safe (w : Waiting) (net : Stack) (targetIp : Ip) (srcMac : Mac) (srcIp : Ip) :
    (resolve w net targetIp srcMac srcIp).Safe := by
  rw [resolve]
  cases net.arpTable.find? (·.ip = targetIp) with
  | some entry => trivial
  | none =>
    simp only [Safe, ensures_bind]
    refine (sendArpRequest_safe net targetIp srcMac srcIp).mono fun net' _ => ?_
    exact (awaitReply_safe (Nat.zero_le _) (by omega)).mono fun _ _ => trivial

theorem length_ipHeader (totalLen protocol : Nat) (srcIp dstIp : Ip) (csum : Nat) :
    (ipHeader totalLen protocol srcIp dstIp csum).length = 20 := by
  simp [ipHeader, length_be16]

theorem sendIp_safe (w : Waiting) (net : Stack) (dstIp : Ip) (protocol : Nat) {payload : Bytes}
    (h : payload.length < 2 ^ 17) : (sendIp w net dstIp protocol payload).Safe := by
  simp only [sendIp, Safe, ensures_bind, ensures_add]
  refine ⟨by omega, ?_⟩
  refine (internetChecksum_safe (by rw [length_ipHeader]; decide)).mono fun csum _ => ?_
  simp only [ensures_copyAt, ensures_copyTail, List.length_append, List.length_drop,
    List.length_replicate, List.take_zero, List.length_nil, length_ipHeader]
  refine ⟨by omega, by omega, ?_⟩
  refine (resolve_safe w net _ _ _).mono fun found _ => ?_
  obtain ⟨mac, net'⟩ := found
  cases mac with
  | none => trivial
  | some mac =>
    refine sendEthernet_safe net' mac 0x0800 ?_
    simp only [List.length_append, List.length_take, List.length_drop, List.length_replicate,
      length_ipHeader, List.length_nil]
    omega

theorem length_icmpHeader (type csum id sequence : Nat) :
    (icmpHeader type csum id sequence).length = 8 := rfl

theorem sendEcho_safe (type : Nat) (w : Waiting) (net : Stack) (dstIp : Ip) (id sequence : Nat)
    {payload : Bytes} (h : payload.length + 8 ≤ 2 ^ 16) :
    (sendEcho type w net dstIp id sequence payload).Safe := by
  simp only [sendEcho, Safe, ensures_bind, ensures_add, ensures_copyAt, ensures_copyTail,
    List.length_append, List.length_take, List.length_drop, List.length_replicate, List.take_zero,
    List.length_nil, length_icmpHeader]
  refine ⟨by omega, by omega, by omega, ?_⟩
  refine (internetChecksum_safe ?_).mono fun csum _ => ⟨by omega, ?_⟩
  · simp only [List.length_append, List.length_take, List.length_drop, List.length_replicate,
      List.length_nil, length_icmpHeader]
    omega
  · refine sendIp_safe w net dstIp ipProtoIcmp ?_
    simp only [List.length_append, List.length_take, List.length_drop, List.length_replicate,
      List.length_nil, length_icmpHeader]
    omega

theorem handleIcmp_safe (w : Waiting) (net : Stack) (srcIp : Ip) {data : Bytes}
    (h : data.length < 2 ^ 16) : (handleIcmp w net srcIp data).Safe := by
  rw [handleIcmp, Safe, ensures_ite]
  refine ⟨fun _ => trivial, fun hlen => ?_⟩
  rw [ensures_bind, ensures_slice, ensures_ite, ensures_ite]
  refine ⟨by omega, fun _ => ?_, fun _ => ⟨fun _ => trivial, fun _ => trivial⟩⟩
  refine sendEcho_safe icmpEchoReply w net srcIp _ _ ?_
  rw [List.length_take, List.length_drop]
  omega

theorem handleArp_safe (net : Stack) (payload : Bytes) : (handleArp net payload).Safe := by
  simp only [handleArp, Safe, ensures_ite]
  refine ⟨fun _ => trivial, fun _ => ⟨fun _ => ⟨fun _ => ?_, fun _ => trivial⟩, fun _ =>
    ⟨fun _ => ⟨fun _ => trivial, fun _ => trivial⟩, fun _ => trivial⟩⟩⟩
  exact sendArpReply_safe _ _ _ _ _

/-- The checks that `handle_ip` makes before it takes the data out of the packet. -/
structure IpAccepted (net : Stack) (p : Bytes) : Prop where
  length : 20 ≤ p.length
  version : IpHeader.version p = 4
  total : IpHeader.totalLen p ≤ p.length
  addressed : IpHeader.dstIp p = net.getLocalIp ∨ IpHeader.dstIp p = broadcastIp
  checksum : internetChecksum (IpHeader.cleared p) = .ok (IpHeader.checksum p)

theorem totalLen_lt (p : Bytes) : IpHeader.totalLen p < 2 ^ 16 := by
  have h0 := (p.getD 2 0).toNat_lt
  have h1 := (p.getD (2 + 1) 0).toNat_lt
  unfold IpHeader.totalLen be16At
  omega

theorem length_cleared_le (p : Bytes) : (IpHeader.cleared p).length ≤ 2 ^ 16 := by
  simp only [IpHeader.cleared, List.length_set, List.length_take]
  omega

theorem handleIp_safe_iff (w : Waiting) (net : Stack) (p : Bytes) :
    (handleIp w net p).Safe ↔ (IpAccepted net p → IpHeader.ihl p ≤ IpHeader.totalLen p) := by
  have hsum := internetChecksum_safe (length_cleared_le p)
  have htotal := totalLen_lt p
  simp only [handleIp, Safe, ensures_ite, ensures_bind]
  constructor
  · intro h hacc
    have hcalc := h.2 (by have := hacc.length; omega)
    have hdata := (hcalc.2 (by simpa using hacc.version)).2 (by have := hacc.total; omega)
    have hmine := hdata.2 (by
      rintro ⟨hlocal, hbroad⟩
      exact hacc.addressed.elim hlocal hbroad)
    have hslice := hmine.of_ok hacc.checksum
    exact (ensures_slice.mp (hslice.2 (by simp))).1.1
  · intro h
    refine ⟨fun _ => trivial, fun hlen => ⟨fun _ => trivial, fun hver =>
      ⟨fun _ => trivial, fun hle => ⟨fun _ => trivial, fun hdst => ?_⟩⟩⟩⟩
    refine Safe.ensures hsum fun csum hcalc => ⟨fun _ => trivial, fun hne => ?_⟩
    have hsame : csum = IpHeader.checksum p := not_not.mp hne
    have hacc : IpAccepted net p := by
      refine ⟨by omega, not_not.mp hver, by omega, ?_, hsame ▸ hcalc⟩
      by_cases hlocal : IpHeader.dstIp p = net.getLocalIp
      · exact Or.inl hlocal
      · exact Or.inr (not_not.mp fun hbroad => hdst ⟨hlocal, hbroad⟩)
    rw [ensures_slice]
    refine ⟨⟨h hacc, by omega⟩, fun _ => ?_, fun _ => trivial⟩
    refine handleIcmp_safe w net _ ?_
    rw [List.length_take, List.length_drop]
    omega

def CarriesIp (net : Stack) (frame : Bytes) : Prop :=
  14 ≤ frame.length ∧ (field 6 frame 0 = broadcastMac ∨ field 6 frame 0 = net.getLocalMac) ∧
    be16At frame 12 = 0x0800

/-- A frame is handled without a panic exactly when it carries no IP packet that passes the
checks and has a total length below its header's length. -/
theorem handleEthernet_safe_iff (w : Waiting) (net : Stack) (frame : Bytes) :
    (handleEthernet w net frame).Safe ↔
      (CarriesIp net frame → IpAccepted net (frame.drop 14) →
        IpHeader.ihl (frame.drop 14) ≤ IpHeader.totalLen (frame.drop 14)) := by
  by_cases hlen : frame.length < 14
  · rw [handleEthernet, if_pos hlen]
    exact ⟨fun _ hip => absurd hip.1 (by omega), fun _ => trivial⟩
  have hpayload : (frame.drop 14).take (frame.length - 14) = frame.drop 14 :=
    List.take_of_length_le (by rw [List.length_drop])
  have hip := handleIp_safe_iff w (countFrame net frame) (frame.drop 14)
  simp only [handleEthernet, if_neg hlen, indices, Safe, ensures_bind, ensures_check, pure_eq,
    ensures_ok, ensures_ite, ensures_slice, hpayload]
  constructor
  · intro h hcarries hacc
    obtain ⟨-, hdst, htype⟩ := hcarries
    have hmine := h.2.2.2.2 fun hother => hdst.elim hother.1 hother.2
    have hsafe := (hmine.2.2 (by rw [htype]; decide)).1 htype
    exact hip.mp hsafe ⟨hacc.1, hacc.2, hacc.3, hacc.4, hacc.5⟩
  · intro h
    refine ⟨by omega, by omega, by omega, fun _ => trivial, fun hdst => ⟨by omega,
      fun _ => handleArp_safe _ _, fun _ => ⟨fun htype => ?_, fun _ => trivial⟩⟩⟩
    refine hip.mpr fun hacc => h ⟨by omega, ?_, htype⟩ ⟨hacc.1, hacc.2, hacc.3, hacc.4, hacc.5⟩
    by_cases hbroad : field 6 frame 0 = broadcastMac
    · exact Or.inl hbroad
    · exact Or.inr (not_not.mp fun hlocal => hdst ⟨hbroad, hlocal⟩)

/-- The state after `init`, with no controller. -/
def quiet : Stack :=
  init ⟨none, [], none, none, none, 0, 0, 0, 0, 0, 0, false⟩ #v[0x52, 0x54, 0, 0x12, 0x34, 0x56]

def unanswered : Waiting := ⟨fun _ => none, fun turn => 3000 * turn, 1, by decide⟩

/-- A broadcast IP packet of 20 bytes whose total length is 0; its checksum is right. -/
def emptyPacket : Bytes :=
  [0xFF, 0xFF, 0xFF, 0xFF, 0xFF, 0xFF, 2, 0, 0, 0, 0, 1, 0x08, 0x00,
    0x45, 0, 0, 0, 0, 0, 0, 0, 64, 1, 0x7A, 0xFE, 0, 0, 0, 0, 0xFF, 0xFF, 0xFF, 0xFF]

theorem emptyPacket_panics :
    handleEthernet unanswered quiet emptyPacket = .panic ∧
      ¬ (handleEthernet unanswered quiet emptyPacket).Safe := by
  have hpanic : handleEthernet unanswered quiet emptyPacket = .panic :=
    isPanic_iff.mp (by decide)
  rw [hpanic]
  exact ⟨rfl, not_false⟩

end Vibra.Net
