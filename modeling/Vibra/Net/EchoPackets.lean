import Vibra.Lib.OnesComplement
import Vibra.Net.AnyFrame

/-! # Echo packets

What `send_echo_request` sends, byte by byte.
-/

namespace Vibra.Net

open Lib (Bytes Outcome)
open Lib.Outcome
open Lib.OnesComplement (words words_lt sum sum_eq fold fold_le fold_turn fold_of_lt
  fold_complement)

theorem sumWords_eq {data : Bytes} {sum : Nat}
    (h : sum + 65535 * ((data.length + 1) / 2) < 2 ^ 32) :
    sumWords data sum = .ok (sum + (words data).sum) := by
  induction data, sum using sumWords.induct with
  | case1 sum => rfl
  | case2 a sum =>
    have ha := a.toNat_lt
    simp only [List.length_singleton] at h
    rw [sumWords, add_of_lt (by omega), words, List.sum_singleton]
  | case3 a b rest sum ih =>
    have ha := a.toNat_lt
    have hb := b.toNat_lt
    simp only [List.length_cons] at h
    rw [sumWords, add_of_lt (by omega), ok_bind, ih _ (by omega), words, List.sum_cons,
      Nat.add_assoc]

theorem foldCarry_eq {fuel sum : Nat} (hfuel : sum < fuel) (hsum : sum < 2 ^ 32) :
    foldCarry fuel sum = .ok (fold sum) := by
  induction fuel generalizing sum with
  | zero => omega
  | succ fuel ih =>
    rw [foldCarry]
    by_cases hcarry : sum / 2 ^ 16 ≠ 0
    · rw [if_pos hcarry, add_of_lt (by omega), ok_bind, ih (by omega) (by omega),
        fold_turn (by omega)]
    · rw [if_neg hcarry, fold_of_lt (by omega)]
      rfl

theorem internetChecksum_eq {data : Bytes} (h : data.length ≤ 2 ^ 16) :
    internetChecksum data = .ok (65535 - fold (words data).sum) := by
  have hsum : sumWords data 0 = .ok (0 + (words data).sum) := sumWords_eq (by omega)
  have hlt := Ensures.of_ok (sumWords_ensures (by omega)) hsum
  have hle := fold_le (words data).sum
  rw [Nat.zero_add] at hlt
  rw [internetChecksum, sumWords_eq (by omega), ok_bind, Nat.zero_add,
    foldCarry_eq (Nat.lt_succ_self _) hlt, ok_bind, pure_eq]
  congr 1
  omega

theorem be16At_be16 (n : Nat) (rest : Bytes) : be16At (be16 n ++ rest) 0 = n % 2 ^ 16 := by
  simp only [be16At, be16, List.cons_append, List.nil_append, List.getD_cons_zero,
    List.getD_cons_succ, UInt8.toNat_ofNat']
  omega

theorem be16At_append (front : Bytes) {k : Nat} (h : front.length = k) (n : Nat) (rest : Bytes) :
    be16At (front ++ (be16 n ++ rest)) k = n % 2 ^ 16 := by
  have hget : ∀ i, (front ++ (be16 n ++ rest)).getD (k + i) 0 = (be16 n ++ rest).getD i 0 := by
    intro i
    rw [List.getD_append_right _ _ _ _ (by omega)]
    congr 1
    omega
  have hat := be16At_be16 n rest
  unfold be16At at hat ⊢
  rw [hget 1, ← Nat.add_zero k, hget 0]
  exact hat

theorem words_be16 (n : Nat) (rest : Bytes) :
    words (be16 n ++ rest) = n % 2 ^ 16 :: words rest := by
  simp only [be16, List.cons_append, List.nil_append, words, UInt8.toNat_ofNat', List.cons.injEq,
    and_true]
  omega

def sendEchoRequest : Waiting → Stack → Ip → Nat → Nat → Bytes → Res Stack :=
  sendEcho icmpEchoRequest

/-- The message of `send_echo_request` and `send_echo_reply` with its checksum. -/
def echoMessage (type id sequence : Nat) (payload : Bytes) : Bytes :=
  icmpHeader type (65535 - fold (words (icmpHeader type 0 id sequence ++ payload)).sum) id sequence
    ++ payload

/-- The packet of `send_ip`. -/
def ipPacket (protocol : Nat) (srcIp dstIp : Ip) (payload : Bytes) : Bytes :=
  let totalLen := 20 + payload.length
  ipHeader totalLen protocol srcIp dstIp
    (65535 - fold (words (ipHeader totalLen protocol srcIp dstIp 0)).sum) ++ payload

def echoPacket (type : Nat) (srcIp dstIp : Ip) (id sequence : Nat) (payload : Bytes) : Bytes :=
  ipPacket ipProtoIcmp srcIp dstIp (echoMessage type id sequence payload)

/-- The rest of `send_ip`, with a packet that is complete. -/
def dispatch (w : Waiting) (net : Stack) (dstIp : Ip) (packet : Bytes) : Res Stack := do
  let srcIp := net.getLocalIp
  let targetIp :=
    if isSameSubnet dstIp srcIp net.getSubnetMask then dstIp else net.getGateway
  let (mac, net) ← resolve w net targetIp net.getLocalMac srcIp
  match mac with
  | some mac => sendEthernet net mac 0x0800 packet
  | none => return net

section Sending

variable (w : Waiting) (net : Stack) (dstIp : Ip) {payload : Bytes}

theorem copyAt_front {xs ys : Bytes} (h : ys.length ≤ xs.length) :
    (copyAt xs 0 ys : Res Bytes) = .ok (ys ++ xs.drop ys.length) := by
  rw [copyAt, if_pos (by omega), List.take_zero, List.nil_append, Nat.zero_add]

theorem copyTail_behind (front xs ys : Bytes) (h : xs.length = ys.length) :
    (copyTail (front ++ xs) front.length ys : Res Bytes) = .ok (front ++ ys) := by
  rw [copyTail, if_pos (by rw [List.length_append, h]), List.take_left]

theorem sendIp_eq (protocol : Nat) (h : payload.length < 2 ^ 32) :
    sendIp w net dstIp protocol payload =
      dispatch w net dstIp (ipPacket protocol net.getLocalIp dstIp payload) := by
  have hlen := length_ipHeader (20 + payload.length) protocol net.getLocalIp dstIp
  rw [sendIp, add_of_lt (by omega)]
  simp only [ok_bind]
  rw [internetChecksum_eq (by rw [hlen]; decide), ok_bind,
    copyAt_front (by rw [hlen, List.length_replicate]; omega), ok_bind]
  have htail := copyTail_behind
    (ipHeader (20 + payload.length) protocol net.getLocalIp dstIp (65535 -
      fold (words (ipHeader (20 + payload.length) protocol net.getLocalIp dstIp 0)).sum))
    ((List.replicate (20 + payload.length) 0).drop 20) payload
    (by rw [List.length_drop, List.length_replicate]; omega)
  rw [hlen] at htail ⊢
  rw [htail]
  rfl

theorem length_echoMessage (type id sequence : Nat) (payload : Bytes) :
    (echoMessage type id sequence payload).length = 8 + payload.length := by
  rw [echoMessage, List.length_append, length_icmpHeader]

theorem sendEcho_eq (type id sequence : Nat) (h : payload.length ≤ 1472) :
    sendEcho type w net dstIp id sequence payload =
      dispatch w net dstIp (echoPacket type net.getLocalIp dstIp id sequence payload) := by
  rw [sendEcho, add_of_lt (by omega)]
  simp only [ok_bind]
  rw [copyAt_front (by rw [length_icmpHeader, List.length_replicate]; omega), ok_bind,
    length_icmpHeader]
  have htail := copyTail_behind (icmpHeader type 0 id sequence)
    ((List.replicate (8 + payload.length) 0).drop 8) payload
    (by rw [List.length_drop, List.length_replicate]; omega)
  rw [length_icmpHeader] at htail
  rw [htail, ok_bind, internetChecksum_eq (by
    rw [List.length_append, length_icmpHeader]; omega), ok_bind, copyAt_front (by
    rw [List.length_append, length_icmpHeader, length_icmpHeader]; omega), ok_bind,
    length_icmpHeader, ← length_icmpHeader type 0 id sequence, List.drop_left]
  exact sendIp_eq w net dstIp ipProtoIcmp (by
    rw [List.length_append, length_icmpHeader]; omega)

end Sending

namespace IpHeader

def dontFragment (p : Bytes) : Bool := (be16At p 6).testBit 14

def moreFragments (p : Bytes) : Bool := (be16At p 6).testBit 13

def fragmentOffset (p : Bytes) : Nat := be16At p 6 % 2 ^ 13

end IpHeader

/-- An IP packet with an ICMP message of `length` bytes behind a message header, but for the
word with the flags. -/
structure Framed (packet : Bytes) (length : Nat) : Prop where
  version : IpHeader.version packet = 4
  ihl : IpHeader.ihl packet = 4 * 5
  totalLen : IpHeader.totalLen packet = 20 + 8 + length
  length : packet.length = 20 + 8 + length
  headerSum : sum (words (packet.take 20)) = 0xFFFF
  messageSum : sum (words (packet.drop 20)) = 0xFFFF

/-- The packet is whole and is not to be split. -/
structure Unsplit (packet : Bytes) : Prop where
  dontFragment : IpHeader.dontFragment packet = true
  moreFragments : IpHeader.moreFragments packet = false
  fragmentOffset : IpHeader.fragmentOffset packet = 0

/-- The host `dstIp` takes the message out of the packet as it was put in. -/
def Delivers (packet : Bytes) (srcIp dstIp : Ip) (type id sequence : Nat) (payload : Bytes) :
    Prop :=
  ∀ (w : Waiting) (host : Stack), host.getLocalIp = dstIp → ∃ message,
    handleIp w host packet = handleIcmp w host srcIp message ∧ 8 ≤ message.length ∧
      (message.getD 0 0).toNat = type ∧ be16At message 4 = id ∧ be16At message 6 = sequence ∧
        message.drop 8 = payload

structure WellFormed (packet : Bytes) (srcIp dstIp : Ip) (type id sequence : Nat)
    (payload : Bytes) : Prop where
  framed : Framed packet payload.length
  unsplit : Unsplit packet
  delivers : Delivers packet srcIp dstIp type id sequence payload

section Message

variable {type id sequence : Nat} {payload : Bytes}

theorem words_icmpHeader (csum : Nat) (htype : type < 256) :
    words (icmpHeader type csum id sequence ++ payload) =
      [256 * type, csum % 2 ^ 16, id % 2 ^ 16, sequence % 2 ^ 16] ++ words payload := by
  simp only [icmpHeader, List.append_assoc, List.cons_append, List.nil_append, words, words_be16,
    UInt8.toNat_ofNat', Nat.mod_eq_of_lt htype]
  rfl

theorem fold_with {a c : Nat} (front back : List Nat)
    (h : c = 65535 - fold ((front ++ 0 :: back).sum)) (ha : a = (front ++ c :: back).sum) :
    fold a = 0xFFFF := by
  have hsum : a = (front ++ 0 :: back).sum + c := by
    rw [ha]
    simp only [List.sum_append, List.sum_cons]
    omega
  rw [hsum, h]
  exact fold_complement _

theorem echoMessage_sum (htype : type < 256) :
    sum (words (echoMessage type id sequence payload)) = 0xFFFF := by
  rw [sum_eq (words_lt _), echoMessage, words_icmpHeader _ htype]
  refine fold_with [256 * type] ([id % 2 ^ 16, sequence % 2 ^ 16] ++ words payload) ?_ rfl
  rw [words_icmpHeader 0 htype]
  have hle := fold_le (([256 * type, 0 % 2 ^ 16, id % 2 ^ 16, sequence % 2 ^ 16] ++
    words payload).sum)
  rw [Nat.mod_eq_of_lt (by omega)]
  rfl

end Message

section Header

variable {totalLen protocol csum : Nat} {srcIp dstIp : Ip} {message : Bytes}

theorem toList_ip (ip : Ip) : ip.toList = [ip[0], ip[1], ip[2], ip[3]] := by
  obtain ⟨⟨list⟩, hsize⟩ := ip
  match list, hsize with
  | [_, _, _, _], _ => rfl

theorem ipHeader_eq (totalLen protocol : Nat) (srcIp dstIp : Ip) (csum : Nat) :
    ipHeader totalLen protocol srcIp dstIp csum =
      [0x45, 0, UInt8.ofNat (totalLen / 256), UInt8.ofNat totalLen, 0x34, 0x12, 0, 0x40, 64,
        UInt8.ofNat protocol, UInt8.ofNat (csum / 256), UInt8.ofNat csum, srcIp[0], srcIp[1],
        srcIp[2], srcIp[3], dstIp[0], dstIp[1], dstIp[2], dstIp[3]] := by
  rw [ipHeader, toList_ip, toList_ip]
  rfl

theorem field_ip {packet : Bytes} {off : Nat} (ip : Ip) (h0 : packet.getD (off + 0) 0 = ip[0])
    (h1 : packet.getD (off + 1) 0 = ip[1]) (h2 : packet.getD (off + 2) 0 = ip[2])
    (h3 : packet.getD (off + 3) 0 = ip[3]) : field 4 packet off = ip := by
  apply Vector.ext
  intro i hi
  rw [field, Vector.getElem_ofFn]
  match i, hi with
  | 0, _ => exact h0
  | 1, _ => exact h1
  | 2, _ => exact h2
  | 3, _ => exact h3

structure Reads (packet : Bytes) (total proto : Nat) (src dst : Ip) (csum : Nat) : Prop where
  version : IpHeader.version packet = 4
  ihl : IpHeader.ihl packet = 20
  totalLen : IpHeader.totalLen packet = total % 2 ^ 16
  flags : be16At packet 6 = 0x0040
  protocol : IpHeader.protocol packet = proto % 256
  checksum : IpHeader.checksum packet = csum % 2 ^ 16
  srcIp : IpHeader.srcIp packet = src
  dstIp : IpHeader.dstIp packet = dst
  cleared : IpHeader.cleared packet = ipHeader total proto src dst 0

theorem reads_ipHeader :
    Reads (ipHeader totalLen protocol srcIp dstIp csum ++ message) totalLen protocol srcIp dstIp
      csum := by
  have hclear : IpHeader.cleared (ipHeader totalLen protocol srcIp dstIp csum ++ message) =
      ipHeader totalLen protocol srcIp dstIp 0 := by
    have htake : (ipHeader totalLen protocol srcIp dstIp csum ++ message).take 20 =
        ipHeader totalLen protocol srcIp dstIp csum :=
      List.take_left' (length_ipHeader ..)
    rw [IpHeader.cleared, htake, ipHeader_eq, ipHeader_eq]
    rfl
  refine ⟨?_, ?_, ?_, ?_, ?_, ?_, ?_, ?_, hclear⟩
  all_goals rw [ipHeader_eq]
  · simp [IpHeader.version]
  · simp [IpHeader.ihl]
  · exact be16At_append [0x45, 0] rfl totalLen _
  · rfl
  · exact UInt8.toNat_ofNat'
  · exact be16At_append [0x45, 0, UInt8.ofNat (totalLen / 256), UInt8.ofNat totalLen, 0x34, 0x12, 0,
      0x40, 64, UInt8.ofNat protocol] rfl csum _
  · exact field_ip srcIp rfl rfl rfl rfl
  · exact field_ip dstIp rfl rfl rfl rfl

theorem words_ipHeader (csum : Nat) : words (ipHeader totalLen protocol srcIp dstIp csum) =
    [0x4500, totalLen % 2 ^ 16, 0x3412, 0x0040, 256 * 64 + protocol % 256] ++
      csum % 2 ^ 16 :: words (srcIp.toList ++ dstIp.toList) := by
  simp only [ipHeader, List.append_assoc, List.cons_append, List.nil_append, words, words_be16,
    UInt8.toNat_ofNat']
  rfl

theorem ipHeader_sum :
    sum (words (ipHeader totalLen protocol srcIp dstIp
      (65535 - fold (words (ipHeader totalLen protocol srcIp dstIp 0)).sum))) = 0xFFFF := by
  rw [sum_eq (words_lt _), words_ipHeader]
  refine fold_with [0x4500, totalLen % 2 ^ 16, 0x3412, 0x0040, 256 * 64 + protocol % 256]
    (words (srcIp.toList ++ dstIp.toList)) ?_ rfl
  have hle := fold_le (words (ipHeader totalLen protocol srcIp dstIp 0)).sum
  rw [Nat.mod_eq_of_lt (by omega), words_ipHeader]
  rfl

end Header

section Packet

variable {type id sequence : Nat} {srcIp dstIp : Ip} {payload : Bytes}

theorem reads_echoPacket :
    Reads (echoPacket type srcIp dstIp id sequence payload) (20 + (8 + payload.length)) ipProtoIcmp
      srcIp dstIp (65535 -
        fold (words (ipHeader (20 + (8 + payload.length)) ipProtoIcmp srcIp dstIp 0)).sum) := by
  rw [echoPacket, ipPacket, length_echoMessage]
  exact reads_ipHeader

theorem drop_echoPacket : (echoPacket type srcIp dstIp id sequence payload).drop 20 =
    echoMessage type id sequence payload :=
  List.drop_left' (length_ipHeader ..)

theorem length_echoPacket :
    (echoPacket type srcIp dstIp id sequence payload).length = 20 + 8 + payload.length := by
  rw [echoPacket, ipPacket, List.length_append, length_ipHeader, length_echoMessage]
  omega

theorem echoPacket_framed (htype : type < 256) (hlen : payload.length ≤ 1472) :
    Framed (echoPacket type srcIp dstIp id sequence payload) payload.length where
  version := reads_echoPacket.version
  ihl := reads_echoPacket.ihl
  totalLen := by
    rw [reads_echoPacket.totalLen]
    omega
  length := length_echoPacket
  headerSum := by
    rw [echoPacket, ipPacket, List.take_left' (length_ipHeader ..)]
    exact ipHeader_sum
  messageSum := by
    rw [drop_echoPacket]
    exact echoMessage_sum htype

theorem echoMessage_fields (payload : Bytes) (htype : type < 256) (hid : id < 2 ^ 16) (hseq : sequence < 2 ^ 16) :
    ((echoMessage type id sequence payload).getD 0 0).toNat = type ∧
      be16At (echoMessage type id sequence payload) 4 = id ∧
        be16At (echoMessage type id sequence payload) 6 = sequence ∧
          (echoMessage type id sequence payload).drop 8 = payload := by
  rw [echoMessage]
  generalize 65535 - fold (words (icmpHeader type 0 id sequence ++ payload)).sum = csum
  refine ⟨?_, ?_, ?_, List.drop_left' (length_icmpHeader ..)⟩
  · have hget : ((icmpHeader type csum id sequence ++ payload).getD 0 0) = UInt8.ofNat type := rfl
    rw [hget, UInt8.toNat_ofNat', Nat.mod_eq_of_lt htype]
  · have hat := be16At_append ([UInt8.ofNat type, 0] ++ be16 csum) rfl id
      (be16 sequence ++ payload)
    rw [Nat.mod_eq_of_lt hid] at hat
    exact hat
  · have hat := be16At_append ([UInt8.ofNat type, 0] ++ be16 csum ++ be16 id) rfl sequence payload
    rw [Nat.mod_eq_of_lt hseq] at hat
    exact hat

theorem echoPacket_delivers (htype : type < 256) (hid : id < 2 ^ 16) (hseq : sequence < 2 ^ 16)
    (hlen : payload.length ≤ 1472) :
    Delivers (echoPacket type srcIp dstIp id sequence payload) srcIp dstIp type id sequence
      payload := by
  intro w host hhost
  have hreads : Reads (echoPacket type srcIp dstIp id sequence payload) _ _ _ _ _ :=
    reads_echoPacket
  obtain ⟨h0, h4, h6, hdrop⟩ := echoMessage_fields payload htype hid hseq
  have hle := fold_le (words (ipHeader (20 + (8 + payload.length)) ipProtoIcmp srcIp dstIp 0)).sum
  refine ⟨echoMessage type id sequence payload, ?_, ?_, h0, h4, h6, hdrop⟩
  · rw [handleIp, length_echoPacket, hreads.version, hreads.totalLen, hreads.dstIp,
      if_neg (by omega), if_neg (by simp), if_neg (by omega), if_neg (by simp [hhost]),
      hreads.cleared, internetChecksum_eq (by rw [length_ipHeader]; decide), ok_bind,
      hreads.checksum, if_neg (by omega), hreads.ihl,
      slice_of_le (by rw [length_echoPacket]; omega), ok_bind, drop_echoPacket, hreads.protocol,
      hreads.srcIp, if_pos (by decide), List.take_of_length_le (by rw [length_echoMessage]; omega)]
  · rw [length_echoMessage]
    omega

theorem echoPacket_flags : be16At (echoPacket type srcIp dstIp id sequence payload) 6 = 0x0040 :=
  reads_echoPacket.flags

theorem not_unsplit {packet : Bytes} (h : be16At packet 6 = 0x0040) : ¬ Unsplit packet := by
  intro hunsplit
  have hdf := hunsplit.dontFragment
  rw [IpHeader.dontFragment, h] at hdf
  exact absurd hdf (by decide)

end Packet

/-- The packet of every echo request has the sums, the lengths and the addresses it is to have,
and its destination takes out of it what was put in. But none of these packets is well formed:
the word with the flags is stored with its bytes the other way round, so "Don't Fragment" is
clear and the offset is 64. -/
theorem sendEchoRequest_packet (w : Waiting) (net : Stack) (dstIp : Ip) {id sequence : Nat}
    {payload : Bytes} (hid : id < 2 ^ 16) (hseq : sequence < 2 ^ 16)
    (hlen : payload.length ≤ 1472) :
    let packet := echoPacket icmpEchoRequest net.getLocalIp dstIp id sequence payload
    sendEchoRequest w net dstIp id sequence payload = dispatch w net dstIp packet ∧
      Framed packet payload.length ∧
      Delivers packet net.getLocalIp dstIp icmpEchoRequest id sequence payload ∧
      IpHeader.dontFragment packet = false ∧ IpHeader.moreFragments packet = false ∧
      IpHeader.fragmentOffset packet = 64 ∧
      ¬ WellFormed packet net.getLocalIp dstIp icmpEchoRequest id sequence payload := by
  intro packet
  have htype : icmpEchoRequest < 256 := by decide
  have hflags : be16At packet 6 = 0x0040 := echoPacket_flags
  refine ⟨sendEcho_eq w net dstIp _ _ _ hlen, echoPacket_framed htype hlen,
    echoPacket_delivers htype hid hseq hlen, ?_, ?_, ?_, fun h => not_unsplit hflags h.unsplit⟩
  · rw [IpHeader.dontFragment, hflags]
    decide
  · rw [IpHeader.moreFragments, hflags]
    decide
  · rw [IpHeader.fragmentOffset, hflags]
    rfl

/-- A request to the gateway, with the first bytes that `ping` sends. -/
theorem sendEchoRequest_packet_gateway :
    0xBEEF < 2 ^ 16 ∧ Framed (echoPacket icmpEchoRequest quiet.getLocalIp #v[10, 0, 2, 2] 0xBEEF 0
      [0xDE, 0xAD, 0xBE, 0xEF]) 4 :=
  ⟨by decide, (sendEchoRequest_packet unanswered quiet #v[10, 0, 2, 2] (by decide) (by decide)
    (by decide)).2.1⟩

/-- The word with the flags of that request. -/
theorem gatewayRequest_flags :
    let packet := echoPacket icmpEchoRequest quiet.getLocalIp #v[10, 0, 2, 2] 0xBEEF 0
      [0xDE, 0xAD, 0xBE, 0xEF]
    sendEchoRequest unanswered quiet #v[10, 0, 2, 2] 0xBEEF 0 [0xDE, 0xAD, 0xBE, 0xEF] =
        dispatch unanswered quiet #v[10, 0, 2, 2] packet ∧
      be16At packet 6 = 0x0040 ∧ IpHeader.dontFragment packet = false ∧
      IpHeader.fragmentOffset packet = 64 ∧
      ¬ WellFormed packet quiet.getLocalIp #v[10, 0, 2, 2] icmpEchoRequest 0xBEEF 0
        [0xDE, 0xAD, 0xBE, 0xEF] := by
  intro packet
  have hflags : be16At packet 6 = 0x0040 := by decide
  refine ⟨sendEcho_eq _ _ _ _ _ _ (by decide), hflags, ?_, ?_, fun h =>
    not_unsplit hflags h.unsplit⟩
  · rw [IpHeader.dontFragment, hflags]
    decide
  · rw [IpHeader.fragmentOffset, hflags]
    rfl

end Vibra.Net
