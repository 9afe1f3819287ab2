import Mathlib.Data.UInt

/-! # What the parser makes of a configuration

Each interface gets one entry with its first bulk or interrupt endpoint of each direction.
-/

/-! ## Configuration descriptors

A configuration is a run of descriptors, each with its length and its type in front.
-/

namespace Vibra.Usb

structure EndpointInfo where
  address : UInt8
  maxPacket : Nat
  interval : UInt8
  attributes : UInt8
  maxBurst : UInt8
deriving DecidableEq, Repr

def EndpointInfo.isIn (e : EndpointInfo) : Bool := e.address &&& 0x80 != 0

structure InterfaceInfo where
  number : UInt8
  classCode : UInt8
  subclass : UInt8
  protocol : UInt8
  inEp : Option EndpointInfo
  outEp : Option EndpointInfo
deriving DecidableEq, Repr

def EndpointInfo.isPipe (e : EndpointInfo) : Bool :=
  e.attributes &&& 0x03 == 2 || e.attributes &&& 0x03 == 3

/-- The arm of an endpoint: the first one of its direction is kept. -/
def addEndpoint (info : EndpointInfo) (iface : InterfaceInfo) (last : Option Bool) :
    InterfaceInfo × Option Bool :=
  if info.isPipe then
    if info.isIn then
      if iface.inEp.isNone then ({ iface with inEp := some info }, some true) else (iface, last)
    else if iface.outEp.isNone then ({ iface with outEp := some info }, some false)
    else (iface, last)
  else (iface, last)

/-- The arm of a companion. -/
def setBurst (isIn : Bool) (burst : UInt8) (iface : InterfaceInfo) : InterfaceInfo :=
  if isIn then
    { iface with inEp := iface.inEp.map fun ep => { ep with maxBurst := burst } }
  else { iface with outEp := iface.outEp.map fun ep => { ep with maxBurst := burst } }

/-- `current`, `last_endpoint_in` and `out`. -/
structure Parser where
  current : Option InterfaceInfo
  last : Option Bool
  out : List InterfaceInfo
deriving DecidableEq, Repr

/-- The `match` over the type of the descriptor at `offset`; no access is out of range as long
as there is an answer. -/
def parseDescriptor (config : List UInt8) (offset len : Nat) (dtype : UInt8) (st : Parser) :
    Option Parser :=
  if dtype = 4 ∧ 9 ≤ len then do
    let number ← config[offset + 2]?
    let classCode ← config[offset + 5]?
    let subclass ← config[offset + 6]?
    let protocol ← config[offset + 7]?
    some ⟨some ⟨number, classCode, subclass, protocol, none, none⟩, none,
      st.out ++ st.current.toList⟩
  else if dtype = 0x30 ∧ 6 ≤ len then
    match st.current, st.last with
    | some iface, some isIn => do
        let burst ← config[offset + 2]?
        some { st with current := some (setBurst isIn burst iface) }
    | _, _ => some st
  else if dtype = 5 ∧ 7 ≤ len then
    match st.current with
    | some iface => do
        let address ← config[offset + 2]?
        let attributes ← config[offset + 3]?
        let low ← config[offset + 4]?
        let high ← config[offset + 5]?
        let interval ← config[offset + 6]?
        let info : EndpointInfo :=
          ⟨address, (low.toNat + 256 * high.toNat) &&& 0x07FF, interval, attributes, 0⟩
        some { st with
          current := some (addEndpoint info iface st.last).1
          last := (addEndpoint info iface st.last).2 }
    | none => some st
  else some st

/-- The loop, and the interface that is still open behind it. -/
def parseLoop (config : List UInt8) : Nat → Nat → Parser → Option (List InterfaceInfo)
  | 0, _, _ => none
  | fuel + 1, offset, st =>
    if offset + 2 ≤ config.length then do
      let len ← config[offset]?
      let dtype ← config[offset + 1]?
      if len.toNat < 2 ∨ config.length < offset + len.toNat then
        some (st.out ++ st.current.toList)
      else
        let st ← parseDescriptor config offset len.toNat dtype st
        parseLoop config fuel (offset + len.toNat) st
    else some (st.out ++ st.current.toList)

/-- The interfaces behind those that are in `out` already. Every turn takes two bytes at
least. -/
def parseInterfaces (config : List UInt8) (out : List InterfaceInfo) :
    Option (List InterfaceInfo) :=
  parseLoop config (config.length + 1) 0 ⟨none, none, out⟩

structure InterfaceDescriptor where
  number : UInt8
  alternate : UInt8
  endpoints : UInt8
  classCode : UInt8
  subclass : UInt8
  protocol : UInt8
  text : UInt8
  extra : List UInt8
  extra_le : extra.length ≤ 246

structure EndpointDescriptor where
  address : UInt8
  attributes : UInt8
  low : UInt8
  high : UInt8
  interval : UInt8
  extra : List UInt8
  extra_le : extra.length ≤ 248

/-- A SuperSpeed Endpoint Companion. -/
structure CompanionDescriptor where
  maxBurst : UInt8
  rest : List UInt8
  rest_ge : 3 ≤ rest.length
  rest_le : rest.length ≤ 252

/-- Any other descriptor, such as that of a class. -/
structure OtherDescriptor where
  dtype : UInt8
  body : List UInt8
  body_le : body.length ≤ 253
  other : dtype ≠ 4 ∧ dtype ≠ 5 ∧ dtype ≠ 0x30

def InterfaceDescriptor.bytes (d : InterfaceDescriptor) : List UInt8 :=
  [UInt8.ofNat (9 + d.extra.length), 4, d.number, d.alternate, d.endpoints, d.classCode,
    d.subclass, d.protocol, d.text] ++ d.extra

def EndpointDescriptor.bytes (d : EndpointDescriptor) : List UInt8 :=
  [UInt8.ofNat (7 + d.extra.length), 5, d.address, d.attributes, d.low, d.high, d.interval] ++
    d.extra

def CompanionDescriptor.bytes (d : CompanionDescriptor) : List UInt8 :=
  [UInt8.ofNat (3 + d.rest.length), 0x30, d.maxBurst] ++ d.rest

def OtherDescriptor.bytes (d : OtherDescriptor) : List UInt8 :=
  [UInt8.ofNat (2 + d.body.length), d.dtype] ++ d.body

/-- An endpoint, with a companion or without one, or something else. -/
inductive Item where
  | endpoint (d : EndpointDescriptor) (companion : Option CompanionDescriptor)
  | other (d : OtherDescriptor)

def Item.bytes : Item → List UInt8
  | .endpoint d companion =>
    d.bytes ++ (companion.map CompanionDescriptor.bytes).getD []
  | .other d => d.bytes

/-- An interface, or an alternate setting of one, with what follows it. -/
structure InterfaceBlock where
  head : InterfaceDescriptor
  items : List Item

def InterfaceBlock.bytes (b : InterfaceBlock) : List UInt8 :=
  b.head.bytes ++ b.items.flatMap Item.bytes

/-- The descriptor of the configuration is one of the `leading` items. -/
structure Configuration where
  leading : List Item
  blocks : List InterfaceBlock

def Configuration.bytes (c : Configuration) : List UInt8 :=
  c.leading.flatMap Item.bytes ++ c.blocks.flatMap InterfaceBlock.bytes

def EndpointDescriptor.info (d : EndpointDescriptor) : EndpointInfo :=
  ⟨d.address, (d.low.toNat + 256 * d.high.toNat) &&& 0x07FF, d.interval, d.attributes, 0⟩

def InterfaceDescriptor.info (d : InterfaceDescriptor) : InterfaceInfo :=
  ⟨d.number, d.classCode, d.subclass, d.protocol, none, none⟩

/-- `bMaxBurst` of the companion, 0 without one. -/
def burstOf (companion : Option CompanionDescriptor) : UInt8 :=
  (companion.map CompanionDescriptor.maxBurst).getD 0

/-- The first endpoint of the kind, with what stands before and behind it. -/
def firstEndpoint (p : EndpointInfo → Bool) :
    List Item → Option (List Item × (EndpointDescriptor × Option CompanionDescriptor) × List Item)
  | [] => none
  | .endpoint d companion :: rest =>
    if p d.info then some ([], (d, companion), rest)
    else (firstEndpoint p rest).map fun r => (.endpoint d companion :: r.1, r.2)
  | .other d :: rest => (firstEndpoint p rest).map fun r => (.other d :: r.1, r.2)

/-- The first bulk or interrupt endpoint of a direction, with the burst of its companion. -/
def endpointOf (isIn : Bool) (items : List Item) : Option EndpointInfo :=
  (firstEndpoint (fun e => e.isPipe && e.isIn == isIn) items).map fun r =>
    { r.2.1.1.info with maxBurst := burstOf r.2.1.2 }

def InterfaceBlock.info (b : InterfaceBlock) : InterfaceInfo :=
  { b.head.info with inEp := endpointOf true b.items, outEp := endpointOf false b.items }

end Vibra.Usb

namespace Vibra.Usb

variable {config before after : List UInt8} {offset fuel : Nat} {st : Parser}

theorem getElem?_isSome {i : Nat} (h : i < config.length) : ∃ b, config[i]? = some b :=
  ⟨config[i], List.getElem?_eq_getElem h⟩

theorem parseDescriptor_isSome {len : Nat} (hlen : offset + len ≤ config.length) (dtype : UInt8)
    (st : Parser) : ∃ st', parseDescriptor config offset len dtype st = some st' := by
  have hget : ∀ k, k < len → ∃ b, config[offset + k]? = some b :=
    fun k hk => getElem?_isSome (by omega)
  rw [parseDescriptor]
  split_ifs with hinterface hcompanion hendpoint
  · obtain ⟨b2, h2⟩ := hget 2 (by omega)
    obtain ⟨b5, h5⟩ := hget 5 (by omega)
    obtain ⟨b6, h6⟩ := hget 6 (by omega)
    obtain ⟨b7, h7⟩ := hget 7 (by omega)
    rw [h2, h5, h6, h7]
    exact ⟨_, rfl⟩
  · obtain ⟨b2, h2⟩ := hget 2 (by omega)
    split
    · rw [h2]
      exact ⟨_, rfl⟩
    · exact ⟨_, rfl⟩
  · obtain ⟨b2, h2⟩ := hget 2 (by omega)
    obtain ⟨b3, h3⟩ := hget 3 (by omega)
    obtain ⟨b4, h4⟩ := hget 4 (by omega)
    obtain ⟨b5, h5⟩ := hget 5 (by omega)
    obtain ⟨b6, h6⟩ := hget 6 (by omega)
    split
    · rw [h2, h3, h4, h5, h6]
      exact ⟨_, rfl⟩
    · exact ⟨_, rfl⟩
  · exact ⟨_, rfl⟩

theorem parseLoop_isSome (h : config.length - offset < fuel) (st : Parser) :
    ∃ out, parseLoop config fuel offset st = some out := by
  induction fuel generalizing offset st with
  | zero => omega
  | succ fuel ih =>
    rw [parseLoop]
    split
    · next hroom =>
        obtain ⟨len, hlen⟩ := getElem?_isSome (show offset < config.length by omega)
        obtain ⟨dtype, hdtype⟩ := getElem?_isSome (show offset + 1 < config.length by omega)
        rw [hlen, hdtype]
        simp only [Option.bind_eq_bind, Option.bind_some]
        split
        · exact ⟨_, rfl⟩
        · next hinside =>
            obtain ⟨st', hst'⟩ := parseDescriptor_isSome
              (show offset + len.toNat ≤ config.length by omega) dtype st
            rw [hst', Option.bind_some]
            exact ih (by omega) st'
    · exact ⟨_, rfl⟩

theorem parseLoop_congr {fuel' : Nat} (h : config.length - offset < fuel)
    (h' : config.length - offset < fuel') (st : Parser) :
    parseLoop config fuel offset st = parseLoop config fuel' offset st := by
  induction fuel generalizing fuel' offset st with
  | zero => omega
  | succ fuel ih =>
    obtain ⟨fuel', rfl⟩ : ∃ m, fuel' = m + 1 := ⟨fuel' - 1, by omega⟩
    rw [parseLoop, parseLoop]
    split
    · next hroom =>
        obtain ⟨len, hlen⟩ := getElem?_isSome (show offset < config.length by omega)
        obtain ⟨dtype, hdtype⟩ := getElem?_isSome (show offset + 1 < config.length by omega)
        rw [hlen, hdtype]
        simp only [Option.bind_eq_bind, Option.bind_some]
        split
        · rfl
        · next hinside =>
            obtain ⟨st', hst'⟩ := parseDescriptor_isSome
              (show offset + len.toNat ≤ config.length by omega) dtype st
            rw [hst', Option.bind_some, Option.bind_some]
            exact ih (by omega) (by omega) st'
    · rfl

/-! ## One descriptor -/

def parseFrom (config : List UInt8) (offset : Nat) (st : Parser) : Option (List InterfaceInfo) :=
  parseLoop config (config.length - offset + 1) offset st

theorem parseFrom_end : parseFrom config config.length st = some (st.out ++ st.current.toList) := by
  rw [parseFrom, parseLoop]
  exact if_neg (by omega)

theorem parseFrom_step {len dtype : UInt8} {rest : List UInt8}
    (hconfig : config = before ++ (len :: dtype :: rest ++ after))
    (hlen : len.toNat = (len :: dtype :: rest).length) :
    parseFrom config before.length st =
      (parseDescriptor config before.length (len :: dtype :: rest).length dtype st).bind
        (parseFrom config (before ++ (len :: dtype :: rest)).length) := by
  have htotal : config.length = before.length + (rest.length + 2) + after.length := by
    rw [hconfig]
    simp only [List.length_append, List.length_cons]
    omega
  have hfirst : config[before.length]? = some len := by
    rw [hconfig, List.getElem?_append_right (Nat.le_refl _), Nat.sub_self]
    rfl
  have hsecond : config[before.length + 1]? = some dtype := by
    rw [hconfig, List.getElem?_append_right (Nat.le_succ _),
      Nat.succ_sub (Nat.le_refl _), Nat.sub_self]
    rfl
  have hcount : (len :: dtype :: rest).length = rest.length + 2 := rfl
  rw [hcount] at hlen ⊢
  rw [parseFrom, parseLoop, if_pos (by omega), hfirst, hsecond]
  simp only [Option.bind_eq_bind, Option.bind_some]
  rw [if_neg (by omega), hlen]
  obtain ⟨st', hst'⟩ := parseDescriptor_isSome
    (show before.length + (rest.length + 2) ≤ config.length by omega) dtype st
  rw [hst', Option.bind_some, Option.bind_some, parseFrom, List.length_append, hcount]
  exact parseLoop_congr (by omega) (by omega) st'

theorem getElem?_middle {bytes : List UInt8} (hconfig : config = before ++ (bytes ++ after))
    {k : Nat} (hk : k < bytes.length) : config[before.length + k]? = bytes[k]? := by
  rw [hconfig, List.getElem?_append_right (by omega), Nat.add_sub_cancel_left,
    List.getElem?_append_left hk]

/-- An endpoint, a companion or another descriptor as the parser takes it. -/
def Parser.endpoint (st : Parser) (d : EndpointDescriptor) : Parser :=
  match st.current with
  | some iface =>
    { st with
      current := some (addEndpoint d.info iface st.last).1
      last := (addEndpoint d.info iface st.last).2 }
  | none => st

def Parser.companion (st : Parser) (d : CompanionDescriptor) : Parser :=
  match st.current, st.last with
  | some iface, some isIn => { st with current := some (setBurst isIn d.maxBurst iface) }
  | _, _ => st

def Parser.item (st : Parser) : Item → Parser
  | .endpoint d companion => companion.toList.foldl Parser.companion (st.endpoint d)
  | .other _ => st

def Parser.head (st : Parser) (d : InterfaceDescriptor) : Parser :=
  ⟨some d.info, none, st.out ++ st.current.toList⟩

theorem parseFrom_interface (d : InterfaceDescriptor)
    (hconfig : config = before ++ (d.bytes ++ after)) :
    parseFrom config before.length st =
      parseFrom config (before ++ d.bytes).length (st.head d) := by
  have hle := d.extra_le
  have hlength : d.bytes.length = 9 + d.extra.length := by
    rw [InterfaceDescriptor.bytes]
    simp only [List.length_append, List.length_cons, List.length_nil]
  have hlen : (UInt8.ofNat (9 + d.extra.length)).toNat = d.bytes.length := by
    rw [UInt8.toNat_ofNat', hlength]
    omega
  have hget : ∀ k, k < 9 → config[before.length + k]? = d.bytes[k]? :=
    fun k hk => getElem?_middle hconfig (by omega)
  have hstep : parseFrom config before.length st =
      (parseDescriptor config before.length d.bytes.length 4 st).bind
        (parseFrom config (before ++ d.bytes).length) := parseFrom_step hconfig hlen
  have hparse : parseDescriptor config before.length d.bytes.length 4 st = some (st.head d) := by
    rw [parseDescriptor, if_pos ⟨rfl, by omega⟩, hget 2 (by decide), hget 5 (by decide),
      hget 6 (by decide), hget 7 (by decide)]
    rfl
  rw [hstep, hparse, Option.bind_some]

theorem parseFrom_endpoint (d : EndpointDescriptor)
    (hconfig : config = before ++ (d.bytes ++ after)) :
    parseFrom config before.length st =
      parseFrom config (before ++ d.bytes).length (st.endpoint d) := by
  have hle := d.extra_le
  have hlength : d.bytes.length = 7 + d.extra.length := by
    rw [EndpointDescriptor.bytes]
    simp only [List.length_append, List.length_cons, List.length_nil]
  have hlen : (UInt8.ofNat (7 + d.extra.length)).toNat = d.bytes.length := by
    rw [UInt8.toNat_ofNat', hlength]
    omega
  have hget : ∀ k, k < 7 → config[before.length + k]? = d.bytes[k]? :=
    fun k hk => getElem?_middle hconfig (by omega)
  have hstep : parseFrom config before.length st =
      (parseDescriptor config before.length d.bytes.length 5 st).bind
        (parseFrom config (before ++ d.bytes).length) := parseFrom_step hconfig hlen
  have hparse : parseDescriptor config before.length d.bytes.length 5 st =
      some (st.endpoint d) := by
    rw [parseDescriptor, if_neg (fun h => absurd h.1 (by decide)),
      if_neg (fun h => absurd h.1 (by decide)), if_pos ⟨rfl, by omega⟩, Parser.endpoint]
    cases st.current with
    | none => rfl
    | some iface =>
      dsimp only
      rw [hget 2 (by decide), hget 3 (by decide), hget 4 (by decide), hget 5 (by decide),
        hget 6 (by decide)]
      rfl
  rw [hstep, hparse, Option.bind_some]

theorem parseFrom_companion (d : CompanionDescriptor)
    (hconfig : config = before ++ (d.bytes ++ after)) :
    parseFrom config before.length st =
      parseFrom config (before ++ d.bytes).length (st.companion d) := by
  have hge := d.rest_ge
  have hle := d.rest_le
  have hlength : d.bytes.length = 3 + d.rest.length := by
    rw [CompanionDescriptor.bytes]
    simp only [List.length_append, List.length_cons, List.length_nil]
  have hlen : (UInt8.ofNat (3 + d.rest.length)).toNat = d.bytes.length := by
    rw [UInt8.toNat_ofNat', hlength]
    omega
  have hburst : config[before.length + 2]? = some d.maxBurst :=
    getElem?_middle hconfig (by omega)
  have hstep : parseFrom config before.length st =
      (parseDescriptor config before.length d.bytes.length 0x30 st).bind
        (parseFrom config (before ++ d.bytes).length) := parseFrom_step hconfig hlen
  have hparse : parseDescriptor config before.length d.bytes.length 0x30 st =
      some (st.companion d) := by
    rw [parseDescriptor, if_neg (fun h => absurd h.1 (by decide)), if_pos ⟨rfl, by omega⟩,
      Parser.companion]
    cases st.current with
    | none => rfl
    | some iface =>
      cases st.last with
      | none => rfl
      | some isIn =>
        dsimp only
        rw [hburst]
        rfl
  rw [hstep, hparse, Option.bind_some]

theorem parseFrom_other (d : OtherDescriptor)
    (hconfig : config = before ++ (d.bytes ++ after)) :
    parseFrom config before.length st = parseFrom config (before ++ d.bytes).length st := by
  have hle := d.body_le
  have hlength : d.bytes.length = 2 + d.body.length := by
    rw [OtherDescriptor.bytes]
    simp only [List.length_append, List.length_cons, List.length_nil]
  have hlen : (UInt8.ofNat (2 + d.body.length)).toNat = d.bytes.length := by
    rw [UInt8.toNat_ofNat', hlength]
    omega
  have hstep : parseFrom config before.length st =
      (parseDescriptor config before.length d.bytes.length d.dtype st).bind
        (parseFrom config (before ++ d.bytes).length) := parseFrom_step hconfig hlen
  have hparse : parseDescriptor config before.length d.bytes.length d.dtype st = some st := by
    obtain ⟨hinterface, hendpoint, hcompanion⟩ := d.other
    rw [parseDescriptor, if_neg (fun h => hinterface h.1), if_neg (fun h => hcompanion h.1),
      if_neg (fun h => hendpoint h.1)]
  rw [hstep, hparse, Option.bind_some]

theorem parseFrom_item (item : Item) (hconfig : config = before ++ (item.bytes ++ after)) :
    parseFrom config before.length st =
      parseFrom config (before ++ item.bytes).length (st.item item) := by
  cases item with
  | other d => exact parseFrom_other d hconfig
  | endpoint d companion =>
    cases companion with
    | none =>
      have hbytes : (Item.endpoint d none).bytes = d.bytes := List.append_nil _
      rw [hbytes] at hconfig ⊢
      exact parseFrom_endpoint d hconfig
    | some c =>
      have hbytes : (Item.endpoint d (some c)).bytes = d.bytes ++ c.bytes := rfl
      rw [hbytes, List.append_assoc] at hconfig
      rw [hbytes, ← List.append_assoc, parseFrom_endpoint d hconfig]
      rw [← List.append_assoc] at hconfig
      exact parseFrom_companion c hconfig

theorem parseFrom_items (items : List Item)
    (hconfig : config = before ++ (items.flatMap Item.bytes ++ after)) :
    parseFrom config before.length st =
      parseFrom config (before ++ items.flatMap Item.bytes).length
        (items.foldl Parser.item st) := by
  induction items generalizing before st with
  | nil => rw [List.flatMap_nil, List.append_nil]; rfl
  | cons item items ih =>
    rw [List.flatMap_cons, List.append_assoc] at hconfig
    rw [List.flatMap_cons, parseFrom_item item hconfig, List.foldl_cons, ← List.append_assoc]
    rw [← List.append_assoc] at hconfig
    exact ih hconfig

def Parser.block (st : Parser) (b : InterfaceBlock) : Parser :=
  b.items.foldl Parser.item (st.head b.head)

theorem parseFrom_blocks (blocks : List InterfaceBlock)
    (hconfig : config = before ++ (blocks.flatMap InterfaceBlock.bytes ++ after)) :
    parseFrom config before.length st =
      parseFrom config (before ++ blocks.flatMap InterfaceBlock.bytes).length
        (blocks.foldl Parser.block st) := by
  induction blocks generalizing before st with
  | nil => rw [List.flatMap_nil, List.append_nil]; rfl
  | cons b blocks ih =>
    rw [List.flatMap_cons, List.append_assoc, InterfaceBlock.bytes, List.append_assoc] at hconfig
    have hhead : parseFrom config before.length st =
        parseFrom config (before ++ b.head.bytes).length (st.head b.head) :=
      parseFrom_interface b.head hconfig
    rw [← List.append_assoc] at hconfig
    have hitems : parseFrom config (before ++ b.head.bytes).length (st.head b.head) =
        parseFrom config (before ++ b.head.bytes ++ b.items.flatMap Item.bytes).length
          (b.items.foldl Parser.item (st.head b.head)) := parseFrom_items b.items hconfig
    rw [← List.append_assoc, List.append_assoc before] at hconfig
    rw [hhead, hitems, List.flatMap_cons, List.foldl_cons, ← List.append_assoc,
      InterfaceBlock.bytes, List.append_assoc before]
    exact ih hconfig

end Vibra.Usb
