import Vibra.Lib.Checked
import Vibra.Lib.RawDisk

/-! # The network stack

A frame that the network controller received is taken apart by `handleEthernet`; what answers it is
put together and sent. What is printed is left out.
-/

namespace Vibra.Net

open Lib (Bytes Outcome)
open Lib.Outcome (check add slice copyAt copyTail get put)

abbrev Mac := Vector UInt8 6

abbrev Ip := Vector UInt8 4

abbrev Res := Outcome Empty

def field (n : Nat) (buf : Bytes) (off : Nat) : Vector UInt8 n :=
  Vector.ofFn fun i => buf.getD (off + i) 0

/-- `u16::from_be` of a field. -/
def be16At (buf : Bytes) (off : Nat) : Nat :=
  256 * (buf.getD off 0).toNat + (buf.getD (off + 1) 0).toNat

/-- `to_be_bytes` -/
def be16 (n : Nat) : Bytes := [UInt8.ofNat (n / 256), UInt8.ofNat n]

/-- `[buf[off], …, buf[off + n - 1]]` -/
def indices (n : Nat) (buf : Bytes) (off : Nat) : Res (Vector UInt8 n) := do
  check (off + n ≤ buf.length)
  return field n buf off

structure ArpEntry where
  ip : Ip
  mac : Mac
deriving DecidableEq

structure NetInterface where
  mac : Mac
  ip : Ip
  gateway : Ip
  subnetMask : Ip
deriving DecidableEq

def txDescCount : Nat := 8

def rxBufferSize : Nat := 2048

/-- The transmit half of `E1000Controller`: the frame in each descriptor's buffer. -/
structure TxRing where
  frames : List Bytes
  txTail : Nat
  length_frames : frames.length = txDescCount
  txTail_lt : txTail < txDescCount

structure Stack where
  netInterface : Option NetInterface
  arpTable : List ArpEntry
  arpPendingIp : Option Ip
  arpResolvedMac : Option Mac
  e1000 : Option TxRing
  rxPackets : Nat
  rxBytes : Nat
  txPackets : Nat
  txBytes : Nat
  icmpReplyId : Nat
  icmpReplySeq : Nat
  icmpReplyAvail : Bool

/-- What a task that waits finds at each turn of its loop: the answer, if another task has
stored one, and the clock, which has passed the time limit at turn `last`. -/
structure Waiting where
  resolved : Nat → Option Mac
  uptimeMs : Nat → Nat
  last : Nat
  passes : 3000 ≤ (uptimeMs last + 2 ^ 64 - uptimeMs 0) % 2 ^ 64

def init (net : Stack) (mac : Mac) : Stack :=
  { net with
    netInterface := some ⟨mac, #v[10, 0, 2, 15], #v[10, 0, 2, 2], #v[255, 255, 255, 0]⟩ }

namespace Stack

def getLocalMac (net : Stack) : Mac :=
  net.netInterface.elim (Vector.replicate 6 0) NetInterface.mac

def getLocalIp (net : Stack) : Ip :=
  net.netInterface.elim (Vector.replicate 4 0) NetInterface.ip

def getGateway (net : Stack) : Ip :=
  net.netInterface.elim (Vector.replicate 4 0) NetInterface.gateway

def getSubnetMask (net : Stack) : Ip :=
  net.netInterface.elim (Vector.replicate 4 0) NetInterface.subnetMask

end Stack

def broadcastMac : Mac := Vector.replicate 6 0xFF

def broadcastIp : Ip := Vector.replicate 4 0xFF

/-- `e1000::send_packet`: the frame goes into the buffer at the tail. -/
def TxRing.put (ring : TxRing) (data : Bytes) : TxRing where
  frames := ring.frames.set ring.txTail (data.take rxBufferSize)
  txTail := (ring.txTail + 1) % txDescCount
  length_frames := by rw [List.length_set, ring.length_frames]
  txTail_lt := Nat.mod_lt _ (by decide)

def sendPacket (net : Stack) (data : Bytes) : Res (Bool × Stack) :=
  match net.e1000 with
  | none => return (false, net)
  | some ring => do
      let _ ← get ring.frames ring.txTail
      let _ ← add 16 ring.txTail 1
      return (true, { net with e1000 := some (ring.put data) })

def sendEthernet (net : Stack) (dst : Mac) (etherType : Nat) (payload : Bytes) : Res Stack := do
  let src := net.getLocalMac
  let length ← add 64 14 payload.length
  let frame ← copyAt (List.replicate length 0) 0 dst.toList
  let frame ← copyAt frame 6 src.toList
  let frame ← copyAt frame 12 (be16 etherType)
  let frame ← copyTail frame 14 payload
  let (sent, net) ← sendPacket net frame
  if sent then
    return { net with
      txPackets := (net.txPackets + 1) % 2 ^ 64
      txBytes := (net.txBytes + frame.length) % 2 ^ 64 }
  else return net

/-- `ArpPacket`, for Ethernet and IPv4. -/
def arpPacket (opcode : Nat) (senderMac : Mac) (senderIp : Ip) (targetMac : Mac)
    (targetIp : Ip) : Bytes :=
  be16 1 ++ be16 0x0800 ++ [6, 4] ++ be16 opcode ++ senderMac.toList ++ senderIp.toList ++
    targetMac.toList ++ targetIp.toList

def arpOpRequest : Nat := 1

def arpOpReply : Nat := 2

def addEntry (net : Stack) (ip : Ip) (mac : Mac) : Stack :=
  match net.arpTable.findIdx? (·.ip = ip) with
  | some i => { net with arpTable := net.arpTable.modify i fun entry => { entry with mac } }
  | none => { net with arpTable := net.arpTable ++ [⟨ip, mac⟩] }

def sendArpRequest (net : Stack) (targetIp : Ip) (srcMac : Mac) (srcIp : Ip) : Res Stack :=
  sendEthernet net broadcastMac 0x0806
    (arpPacket arpOpRequest srcMac srcIp (Vector.replicate 6 0) targetIp)

def sendArpReply (net : Stack) (targetMac : Mac) (targetIp : Ip) (srcMac : Mac) (srcIp : Ip) :
    Res Stack :=
  sendEthernet net targetMac 0x0806 (arpPacket arpOpReply srcMac srcIp targetMac targetIp)

/-- The loop of `resolve` from a turn on. -/
def awaitReply (w : Waiting) : Nat → Nat → Res (Option Mac)
  | 0, _ => .diverge
  | fuel + 1, turn =>
    match w.resolved turn with
    | some mac => return some mac
    | none =>
      if 3000 ≤ (w.uptimeMs turn + 2 ^ 64 - w.uptimeMs 0) % 2 ^ 64 then return none
      else awaitReply w fuel (turn + 1)

def resolve (w : Waiting) (net : Stack) (targetIp : Ip) (srcMac : Mac) (srcIp : Ip) :
    Res (Option Mac × Stack) :=
  match net.arpTable.find? (·.ip = targetIp) with
  | some entry => return (some entry.mac, net)
  | none => do
      let net ← sendArpRequest net targetIp srcMac srcIp
      let found ← awaitReply w (w.last + 1) 0
      return (found, { net with arpPendingIp := none, arpResolvedMac := found })

def handleArp (net : Stack) (payload : Bytes) : Res Stack :=
  if payload.length < 28 then return net
  else
    let opcode := be16At payload 6
    let senderMac := field 6 payload 8
    let senderIp := field 4 payload 14
    let targetIp := field 4 payload 24
    let localIp := net.getLocalIp
    if opcode = arpOpRequest then
      if targetIp = localIp then
        let net := addEntry net senderIp senderMac
        sendArpReply net senderMac senderIp net.getLocalMac localIp
      else return net
    else if opcode = arpOpReply then
      let net := addEntry net senderIp senderMac
      if net.arpPendingIp = some senderIp then
        return { net with arpResolvedMac := some senderMac }
      else return net
    else return net

/-- The first loop of `internet_checksum` and what follows it: 16-bit words are added up, the
last byte of an odd number as the high half of one. -/
def sumWords : Bytes → Nat → Res Nat
  | [], sum => return sum
  | [a], sum => add 32 sum (256 * a.toNat)
  | a :: b :: rest, sum => do
      let sum ← add 32 sum (256 * a.toNat + b.toNat)
      sumWords rest sum

/-- The loop that folds the carry. -/
def foldCarry : Nat → Nat → Res Nat
  | 0, _ => .diverge
  | fuel + 1, sum =>
    if sum / 2 ^ 16 ≠ 0 then do
      let sum ← add 32 (sum % 2 ^ 16) (sum / 2 ^ 16)
      foldCarry fuel sum
    else return sum

def internetChecksum (data : Bytes) : Res Nat := do
  let sum ← sumWords data 0
  let sum ← foldCarry (sum + 1) sum
  return (2 ^ 32 - 1 - sum) % 2 ^ 16

namespace IpHeader

def version (p : Bytes) : Nat := (p.getD 0 0).toNat / 16 % 16

def ihl (p : Bytes) : Nat := (p.getD 0 0).toNat % 16 * 4

def totalLen (p : Bytes) : Nat := be16At p 2

def protocol (p : Bytes) : Nat := (p.getD 9 0).toNat

def checksum (p : Bytes) : Nat := be16At p 10

def srcIp (p : Bytes) : Ip := field 4 p 12

def dstIp (p : Bytes) : Ip := field 4 p 16

def cleared (p : Bytes) : Bytes := ((p.take 20).set 10 0).set 11 0

end IpHeader

def isSameSubnet (ip1 ip2 mask : Ip) : Bool :=
  ((ip1.zip ip2).zip mask).all fun ((a, b), m) => a &&& m == b &&& m

/-- The header of `send_ip` with its checksum. -/
def ipHeader (totalLen protocol : Nat) (srcIp dstIp : Ip) (csum : Nat) : Bytes :=
  [0x45, 0] ++ be16 totalLen ++ be16 0x3412 ++ be16 0x0040 ++ [64, UInt8.ofNat protocol] ++
    be16 csum ++ srcIp.toList ++ dstIp.toList

def sendIp (w : Waiting) (net : Stack) (dstIp : Ip) (protocol : Nat) (payload : Bytes) :
    Res Stack := do
  let srcIp := net.getLocalIp
  let totalLen ← add 64 20 payload.length
  let csum ← internetChecksum (ipHeader totalLen protocol srcIp dstIp 0)
  let packet ← copyAt (List.replicate totalLen 0) 0 (ipHeader totalLen protocol srcIp dstIp csum)
  let packet ← copyTail packet 20 payload
  let targetIp :=
    if isSameSubnet dstIp srcIp net.getSubnetMask then dstIp else net.getGateway
  let (mac, net) ← resolve w net targetIp net.getLocalMac srcIp
  match mac with
  | some mac => sendEthernet net mac 0x0800 packet
  | none => return net

def ipProtoIcmp : Nat := 1

def icmpEchoRequest : Nat := 8

def icmpEchoReply : Nat := 0

def icmpHeader (type csum id sequence : Nat) : Bytes :=
  [UInt8.ofNat type, 0] ++ be16 csum ++ be16 id ++ be16 sequence

/-- `send_echo_request` and `send_echo_reply`, which differ in the type alone. -/
def sendEcho (type : Nat) (w : Waiting) (net : Stack) (dstIp : Ip) (id sequence : Nat)
    (payload : Bytes) : Res Stack := do
  let length ← add 64 8 payload.length
  let data ← copyAt (List.replicate length 0) 0 (icmpHeader type 0 id sequence)
  let data ← copyTail data 8 payload
  let csum ← internetChecksum data
  let data ← copyAt data 0 (icmpHeader type csum id sequence)
  sendIp w net dstIp ipProtoIcmp data

def sendEchoReply : Waiting → Stack → Ip → Nat → Nat → Bytes → Res Stack := sendEcho icmpEchoReply

def setReplyReceived (net : Stack) (id sequence : Nat) : Stack :=
  { net with icmpReplyId := id, icmpReplySeq := sequence, icmpReplyAvail := true }

def handleIcmp (w : Waiting) (net : Stack) (srcIp : Ip) (data : Bytes) : Res Stack :=
  if data.length < 8 then return net
  else do
    let msgType := (data.getD 0 0).toNat
    let id := be16At data 4
    let sequence := be16At data 6
    let payload ← slice data 8 data.length
    if msgType = icmpEchoRequest then sendEchoReply w net srcIp id sequence payload
    else if msgType = icmpEchoReply then return setReplyReceived net id sequence
    else return net

def handleIp (w : Waiting) (net : Stack) (p : Bytes) : Res Stack :=
  if p.length < 20 then return net
  else if IpHeader.version p ≠ 4 then return net
  else if p.length < IpHeader.totalLen p then return net
  else if IpHeader.dstIp p ≠ net.getLocalIp ∧ IpHeader.dstIp p ≠ broadcastIp then return net
  else do
    let calcCsum ← internetChecksum (IpHeader.cleared p)
    if calcCsum ≠ IpHeader.checksum p then return net
    else
      let data ← slice p (IpHeader.ihl p) (IpHeader.totalLen p)
      if IpHeader.protocol p = ipProtoIcmp then handleIcmp w net (IpHeader.srcIp p) data
      else return net

/-- The counters after a frame. -/
def countFrame (net : Stack) (frame : Bytes) : Stack :=
  { net with
    rxPackets := (net.rxPackets + 1) % 2 ^ 64
    rxBytes := (net.rxBytes + frame.length) % 2 ^ 64 }

def handleEthernet (w : Waiting) (net : Stack) (frame : Bytes) : Res Stack :=
  if frame.length < 14 then return net
  else do
    let net := countFrame net frame
    let dstMac ← indices 6 frame 0
    let _ ← indices 6 frame 6
    let _ ← indices 2 frame 12
    let etherType := be16At frame 12
    if dstMac ≠ broadcastMac ∧ dstMac ≠ net.getLocalMac then return net
    else
      let payload ← slice frame 14 frame.length
      if etherType = 0x0806 then handleArp net payload
      else if etherType = 0x0800 then handleIp w net payload
      else return net

end Vibra.Net
