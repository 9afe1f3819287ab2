import Vibra.Usb.Transfers

/-! # Control transfers of the UHCI host

A TD stands for one packet.
-/

namespace Vibra.Usb.UhciControl

open Lib (Bytes)
open UhciTd (pidIn pidOut maxLenField)

def pidSetup : Nat := 0x2D

def tdActive : Nat := 1 <<< 23

def tdErrorMask : Nat := 1 <<< 22 ||| 1 <<< 20 ||| 1 <<< 19 ||| 1 <<< 18 ||| 1 <<< 17

/-- The arguments of `control`; the maximum packet size is not looked at. -/
structure Request where
  address : Nat
  maxPacket : Nat
  setup : Bytes
  data : Option Bytes
  dirIn : Bool

namespace Request

/-- How much of the data the staging buffer takes, behind the 16 bytes for the setup packet. -/
def dataLen (r : Request) (bufLen : Nat) : Nat :=
  match r.data with
  | some data => if data = [] then 0 else min data.length (bufLen - 16)
  | none => 0

def token (r : Request) (pid len : Nat) : Nat :=
  pid ||| (r.address &&& 0x7F) <<< 8 ||| maxLenField len

/-- The tokens of the chain: setup, data if there is any, status. -/
def tokens (r : Request) (bufLen : Nat) : List Nat :=
  let dataLen := r.dataLen bufLen
  [r.token pidSetup 8] ++
    (if 0 < dataLen then [r.token (if r.dirIn then pidIn else pidOut) dataLen ||| 1 <<< 19]
    else []) ++
    [r.token (if 0 < dataLen ∧ r.dirIn then pidOut else pidIn) 0 ||| 1 <<< 19]

end Request

def actualLen (status : Nat) : Nat := (status &&& 0x7FF) + 1

/-- What the controller has written when the last TD is done: the status of every TD, and what is
in the staging buffer behind the setup packet. -/
structure Answer where
  statuses : List Nat
  staging : Bytes

/-- `control` behind `run_chain`: the length and the caller's data, or an error. -/
def control (bufLen : Nat) (r : Request) (answer : Answer) : Except Unit (Nat × Bytes) :=
  let last := answer.statuses.getLastD tdActive
  if last &&& tdActive ≠ 0 then .error ()
  else if last &&& tdErrorMask ≠ 0 then .error ()
  else
    let data := r.data.getD []
    if 0 < r.dataLen bufLen ∧ r.dirIn then
      let got := min (min (actualLen (answer.statuses.getD 1 0)) (r.dataLen bufLen)) data.length
      .ok (got, answer.staging.take got ++ data.drop got)
    else .ok (r.dataLen bufLen, data)

/-- What a TD puts on the bus. -/
structure Packet where
  pid : Nat
  length : Nat
  toggle : Bool

def packet (token : Nat) : Packet :=
  ⟨token &&& 0xFF, ((token >>> 21) + 1) % 2048, token.testBit 19⟩

def packets (bufLen : Nat) (r : Request) : List Packet := (r.tokens bufLen).map packet

def lengthField (len : Nat) : Nat := (len + 2047) % 2048

/-- The controller runs the chain with a device that has `message` to send: a data packet has at
most the maximum packet size, and the stage gets one packet for the one TD that it has. -/
def answerOf (bufLen : Nat) (r : Request) (message stale : Bytes) : Answer :=
  let sent := message.take (min r.maxPacket ((packets bufLen r).getD 1 ⟨0, 0, false⟩).length)
  if 0 < r.dataLen bufLen ∧ r.dirIn then
    ⟨[lengthField 8, lengthField sent.length, lengthField 0], sent ++ stale.drop sent.length⟩
  else ⟨(r.tokens bufLen).map fun token => lengthField (packet token).length, stale⟩

/-- Data packets of at most the maximum size that hold the data, the first with DATA1. -/
def DataStage (r : Request) (dataLen : Nat) (stage : List Packet) : Prop :=
  (stage.map Packet.length).sum = dataLen ∧
    ∀ i, ∀ packet ∈ stage[i]?, packet.pid = (if r.dirIn then pidIn else pidOut) ∧
      packet.length ≤ r.maxPacket ∧ packet.toggle = decide (i % 2 = 0)

/-- The packets of a control transfer, and what a read returns. -/
structure Conforms (bufLen : Nat) (r : Request) : Prop where
  packets : ∃ stage, DataStage r (r.dataLen bufLen) stage ∧
    packets bufLen r = [⟨pidSetup, 8, false⟩] ++ stage ++
      [⟨if 0 < r.dataLen bufLen ∧ r.dirIn then pidOut else pidIn, 0, true⟩]
  result : r.dirIn → ∀ message stale : Bytes, message.length ≤ r.dataLen bufLen →
    control bufLen r (answerOf bufLen r message stale) =
      .ok (message.length, message ++ (r.data.getD []).drop message.length)

section Fields

variable {bufLen : Nat} {r : Request} {pid len : Nat}

theorem maxLenField_shiftRight (len : Nat) : maxLenField len >>> 21 = len - 1 := by
  unfold maxLenField
  split
  · subst len
    exact Nat.zero_shiftRight 21
  · exact Nat.shiftLeft_shiftRight (len - 1) 21

theorem token_shiftRight (hpid : pid < 2 ^ 8) : r.token pid len >>> 21 = len - 1 := by
  have haddress : (r.address &&& 0x7F) <<< 8 < 2 ^ 21 := by
    have hlow : r.address &&& 0x7F ≤ 0x7F := Nat.and_le_right
    rw [Nat.shiftLeft_eq]
    omega
  have hsmall {n : Nat} (h : n < 2 ^ 21) : n >>> 21 = 0 := by
    rw [Nat.shiftRight_eq_div_pow]
    exact Nat.div_eq_of_lt h
  rw [Request.token, Nat.shiftRight_or_distrib, Nat.shiftRight_or_distrib, hsmall haddress,
    hsmall (Nat.lt_trans hpid (by decide)), maxLenField_shiftRight, Nat.zero_or, Nat.zero_or]

theorem packet_length (hpid : pid < 2 ^ 8) :
    (packet (r.token pid len)).length = (len - 1 + 1) % 2048 ∧
      (packet (r.token pid len ||| 1 <<< 19)).length = (len - 1 + 1) % 2048 := by
  have htoggle : (1 <<< 19) >>> 21 = 0 := by decide
  simp only [packet, Nat.shiftRight_or_distrib, token_shiftRight hpid, htoggle, Nat.or_zero,
    and_self]

theorem status_length (p : Prop) [Decidable p] :
    (packet (r.token (if p then pidOut else pidIn) 0 ||| 1 <<< 19)).length = 1 := by
  have hpid : (if p then pidOut else pidIn) < 2 ^ 8 := by split <;> decide
  exact (packet_length hpid).2

end Fields

/-- Whatever is asked for, the status packet has a byte of data. -/
theorem not_conforms (bufLen : Nat) (r : Request) : ¬Conforms bufLen r := by
  rintro ⟨⟨stage, -, hpackets⟩, -⟩
  have hlast := congrArg (fun ps : List Packet => (ps.getLastD ⟨0, 0, false⟩).length) hpackets
  simp only [packets, Request.tokens, List.map_append, List.map_cons, List.map_nil,
    List.getLastD_concat, status_length] at hlast
  exact absurd hlast Nat.one_ne_zero

/-- A device that answers GET_DESCRIPTOR with a packet without data is said to have sent all the
18 bytes. -/
theorem empty_answer_counted : ¬Conforms 4096
    ⟨1, 64, [0x80, 6, 0, 1, 0, 0, 18, 0], some (List.replicate 18 0), true⟩ := by
  intro hconforms
  have hresult := hconforms.result rfl [] (List.replicate 18 0) (Nat.zero_le _)
  exact absurd hresult (by decide)

end Vibra.Usb.UhciControl
