import Vibra.Usb.DescriptorParsing

/-! # Whose companion it is

The parser gives a companion to the endpoint that it took last.
-/

namespace Vibra.Usb

def Item.burst : Item → Option UInt8
  | .endpoint _ companion => companion.map CompanionDescriptor.maxBurst
  | .other _ => none

def lastBurst : List Item → Option UInt8
  | [] => none
  | item :: rest => (lastBurst rest).or item.burst

/-- The last companion in the items, if there is one, says what the endpoint's own says. -/
def Keeps (own : UInt8) (items : List Item) : Prop := ∀ burst ∈ lastBurst items, burst = own

/-- Behind each of the endpoints that the parser takes, as far as the next one of them, the
last companion says what that endpoint's own says. -/
def InterfaceBlock.BurstsKept (b : InterfaceBlock) : Prop :=
  match firstEndpoint EndpointInfo.isPipe b.items with
  | none => True
  | some (_, (d, companion), rest) =>
    match firstEndpoint (fun e => e.isPipe && e.isIn == !d.info.isIn) rest with
    | none => Keeps (burstOf companion) rest
    | some (between, (_, companion'), rest') =>
      Keeps (burstOf companion) between ∧ Keeps (burstOf companion') rest'

theorem getD_lastBurst_iff (own : UInt8) (items : List Item) :
    (lastBurst items).getD own = own ↔ Keeps own items := by
  rw [Keeps]
  cases lastBurst items with
  | none => simp
  | some burst => simp

def Without (p : EndpointInfo → Bool) (items : List Item) : Prop :=
  ∀ d companion, Item.endpoint d companion ∈ items → p d.info = false

section FirstEndpoint

variable {p q : EndpointInfo → Bool} {items before rest : List Item} {d : EndpointDescriptor}
  {companion : Option CompanionDescriptor}

theorem firstEndpoint_none (h : firstEndpoint p items = none) : Without p items := by
  induction items with
  | nil => exact fun _ _ hmem => absurd hmem List.not_mem_nil
  | cons item items ih =>
    cases item with
    | other o =>
      rw [firstEndpoint, Option.map_eq_none_iff] at h
      intro d companion hmem
      rcases List.mem_cons.mp hmem with heq | hmem
      · cases heq
      · exact ih h d companion hmem
    | endpoint d companion =>
      rw [firstEndpoint] at h
      split at h
      · cases h
      · next hp =>
          rw [Option.map_eq_none_iff] at h
          intro d' companion' hmem
          rcases List.mem_cons.mp hmem with heq | hmem
          · cases heq
            exact Bool.not_eq_true _ ▸ hp
          · exact ih h d' companion' hmem

theorem firstEndpoint_some (h : firstEndpoint p items = some (before, (d, companion), rest)) :
    items = before ++ .endpoint d companion :: rest ∧ p d.info = true ∧ Without p before := by
  induction items generalizing before with
  | nil => cases h
  | cons item items ih =>
    cases item with
    | other o =>
      rw [firstEndpoint, Option.map_eq_some_iff] at h
      obtain ⟨⟨before', found, rest'⟩, hfound, heq⟩ := h
      cases heq
      obtain ⟨hitems, hp, hwithout⟩ := ih hfound
      refine ⟨by rw [hitems]; rfl, hp, fun d' companion' hmem => ?_⟩
      rcases List.mem_cons.mp hmem with heq | hmem
      · cases heq
      · exact hwithout d' companion' hmem
    | endpoint d' companion' =>
      rw [firstEndpoint] at h
      split at h
      · next hp =>
          cases h
          exact ⟨rfl, hp, fun _ _ hmem => absurd hmem List.not_mem_nil⟩
      · next hnot =>
          rw [Option.map_eq_some_iff] at h
          obtain ⟨⟨before', found, rest'⟩, hfound, heq⟩ := h
          cases heq
          obtain ⟨hitems, hp, hwithout⟩ := ih hfound
          refine ⟨by rw [hitems]; rfl, hp, fun d'' companion'' hmem => ?_⟩
          rcases List.mem_cons.mp hmem with heq | hmem
          · cases heq
            exact Bool.not_eq_true _ ▸ hnot
          · exact hwithout d'' companion'' hmem

theorem firstEndpoint_of_without (h : Without p items) : firstEndpoint p items = none := by
  cases hfound : firstEndpoint p items with
  | none => rfl
  | some found =>
    obtain ⟨before, ⟨d, companion⟩, rest⟩ := found
    obtain ⟨rfl, hp, -⟩ := firstEndpoint_some hfound
    have := h d companion (List.mem_append_right _ List.mem_cons_self)
    rw [hp] at this
    cases this

theorem firstEndpoint_append (h : Without p before) (rest : List Item) :
    firstEndpoint p (before ++ rest) =
      (firstEndpoint p rest).map fun r => (before ++ r.1, r.2) := by
  induction before with
  | nil => simp
  | cons item before ih =>
    have hrest := ih fun d companion hmem => h d companion (List.mem_cons_of_mem item hmem)
    cases item with
    | other o =>
      rw [List.cons_append, firstEndpoint, hrest, Option.map_map]
      rfl
    | endpoint d companion =>
      have hnot := h d companion List.mem_cons_self
      rw [List.cons_append, firstEndpoint, if_neg (by rw [hnot]; decide), hrest,
        Option.map_map]
      rfl

theorem Without.mono (h : Without p items) (himp : ∀ e, q e = true → p e = true) :
    Without q items := by
  intro d companion hmem
  rw [← Bool.not_eq_true]
  intro hq
  have := h d companion hmem
  rw [himp _ hq] at this
  cases this

theorem Without.same {isIn : Bool}
    (h : Without (fun e => e.isPipe && e.isIn == !isIn) items)
    (hmem : Item.endpoint d companion ∈ items) (hpipe : d.info.isPipe = true)
    (hne : d.info.isIn ≠ isIn) : False := by
  have hnot : (d.info.isPipe && d.info.isIn == !isIn) = false := h d companion hmem
  rw [hpipe, Bool.true_and, beq_eq_false_iff_ne] at hnot
  exact hnot (Bool.eq_not.mpr hne)

end FirstEndpoint

/-- The interface with this endpoint of the direction and that one of the other. -/
def InterfaceInfo.with (head : InterfaceInfo) (isIn : Bool) (ep other : Option EndpointInfo) :
    InterfaceInfo :=
  { head with
    inEp := if isIn then ep else other
    outEp := if isIn then other else ep }

section With

variable {head : InterfaceInfo} {isIn : Bool} {ep other : Option EndpointInfo}
  {info : EndpointInfo} {last : Option Bool}

theorem with_swap (head : InterfaceInfo) (isIn : Bool) (ep other : Option EndpointInfo) :
    head.with isIn ep other = head.with (!isIn) other ep := by
  cases isIn <;> rfl

theorem with_inj {ep' other' : Option EndpointInfo} :
    head.with isIn ep other = head.with isIn ep' other' ↔ ep = ep' ∧ other = other' := by
  cases isIn <;> simp [InterfaceInfo.with, and_comm]

theorem setBurst_with (burst : UInt8) :
    setBurst isIn burst (head.with isIn ep other) =
      head.with isIn (ep.map fun e => { e with maxBurst := burst }) other := by
  cases isIn <;> rfl

theorem addEndpoint_first (hpipe : info.isPipe = true) (hin : info.isIn = isIn) :
    addEndpoint info (head.with isIn none other) last =
      (head.with isIn (some info) other, some isIn) := by
  rw [addEndpoint, if_pos hpipe, hin]
  cases isIn <;> rfl

theorem addEndpoint_other
    (h : info.isPipe = true → (if info.isIn = isIn then ep else other).isSome) :
    addEndpoint info (head.with isIn ep other) last = (head.with isIn ep other, last) := by
  rw [addEndpoint]
  split
  · next hpipe =>
      have hsome := h hpipe
      cases hin : info.isIn <;> cases isIn <;> rw [hin] at hsome <;>
        simp_all [InterfaceInfo.with, Option.isSome_iff_ne_none]
  · rfl

end With

def takeItem (st : InterfaceInfo × Option Bool) : Item → InterfaceInfo × Option Bool
  | .endpoint d companion =>
    let (iface, last) := addEndpoint d.info st.1 st.2
    match companion, last with
    | some c, some isIn => (setBurst isIn c.maxBurst iface, last)
    | _, _ => (iface, last)
  | .other _ => st

def InterfaceBlock.parsed (b : InterfaceBlock) : InterfaceInfo :=
  (b.items.foldl takeItem (b.head.info, none)).1

theorem item_takeItem (iface : InterfaceInfo) (last : Option Bool) (out : List InterfaceInfo)
    (item : Item) :
    Parser.item ⟨some iface, last, out⟩ item =
      ⟨some (takeItem (iface, last) item).1, (takeItem (iface, last) item).2, out⟩ := by
  cases item with
  | other d => rfl
  | endpoint d companion =>
    cases companion with
    | none => rfl
    | some c =>
      rw [Parser.item, takeItem, Parser.endpoint]
      dsimp only [Option.toList, List.foldl]
      rw [Parser.companion]
      dsimp only
      cases (addEndpoint d.info iface last).2 <;> rfl

theorem items_takeItem (items : List Item) (iface : InterfaceInfo) (last : Option Bool)
    (out : List InterfaceInfo) :
    items.foldl Parser.item ⟨some iface, last, out⟩ =
      ⟨some (items.foldl takeItem (iface, last)).1, (items.foldl takeItem (iface, last)).2,
        out⟩ := by
  induction items generalizing iface last with
  | nil => rfl
  | cons item items ih => rw [List.foldl_cons, item_takeItem, ih, List.foldl_cons]

theorem blocks_parsed (blocks : List InterfaceBlock) (st : Parser) :
    (blocks.foldl Parser.block st).out ++ (blocks.foldl Parser.block st).current.toList =
      st.out ++ st.current.toList ++ blocks.map InterfaceBlock.parsed := by
  induction blocks generalizing st with
  | nil => rw [List.map_nil, List.append_nil]; rfl
  | cons b blocks ih =>
    rw [List.foldl_cons, ih, List.map_cons, Parser.block, Parser.head, items_takeItem,
      List.append_assoc _ _ (_ :: _)]
    simp [InterfaceBlock.parsed]

theorem leading_item (items : List Item) (out : List InterfaceInfo) :
    items.foldl Parser.item ⟨none, none, out⟩ = ⟨none, none, out⟩ := by
  induction items with
  | nil => rfl
  | cons item items ih =>
    have hitem : Parser.item ⟨none, none, out⟩ item = ⟨none, none, out⟩ := by
      cases item with
      | other d => rfl
      | endpoint d companion => cases companion <;> rfl
    rw [List.foldl_cons, hitem, ih]

theorem parseInterfaces_bytes (c : Configuration) (out : List InterfaceInfo) :
    parseInterfaces c.bytes out = some (out ++ c.blocks.map InterfaceBlock.parsed) := by
  have hall : c.bytes = [] ++
      (c.leading.flatMap Item.bytes ++ c.blocks.flatMap InterfaceBlock.bytes) := rfl
  have hleading : parseFrom c.bytes ([] : List UInt8).length ⟨none, none, out⟩ =
      parseFrom c.bytes ([] ++ c.leading.flatMap Item.bytes).length
        (c.leading.foldl Parser.item ⟨none, none, out⟩) := parseFrom_items c.leading hall
  have hrest : c.bytes =
      c.leading.flatMap Item.bytes ++ (c.blocks.flatMap InterfaceBlock.bytes ++ []) := by
    rw [List.append_nil]
    rfl
  have hblocks : parseFrom c.bytes (c.leading.flatMap Item.bytes).length ⟨none, none, out⟩ =
      parseFrom c.bytes c.bytes.length (c.blocks.foldl Parser.block ⟨none, none, out⟩) :=
    parseFrom_blocks c.blocks hrest
  rw [leading_item, List.nil_append] at hleading
  show parseFrom c.bytes ([] : List UInt8).length ⟨none, none, out⟩ = _
  rw [hleading, hblocks, parseFrom_end, blocks_parsed]
  simp

/-! ## Its endpoints -/

def EndpointInfo.withBurst (e : EndpointInfo) (burst : UInt8) : EndpointInfo :=
  { e with maxBurst := burst }

theorem withBurst_inj {e : EndpointInfo} {a b : UInt8} :
    e.withBurst a = e.withBurst b ↔ a = b :=
  ⟨fun h => congrArg EndpointInfo.maxBurst h, fun h => by rw [h]⟩

theorem takeItem_first {head : InterfaceInfo} {isIn : Bool} {other : Option EndpointInfo}
    {last : Option Bool} {d : EndpointDescriptor} (hpipe : d.info.isPipe = true)
    (hin : d.info.isIn = isIn) (companion : Option CompanionDescriptor) :
    takeItem (head.with isIn none other, last) (.endpoint d companion) =
      (head.with isIn (some (d.info.withBurst (burstOf companion))) other, some isIn) := by
  rw [takeItem, addEndpoint_first hpipe hin]
  cases companion with
  | none => rfl
  | some c =>
    dsimp only
    rw [setBurst_with]
    rfl

theorem foldl_taken {head : InterfaceInfo} {isIn : Bool} {other : Option EndpointInfo}
    {items : List Item}
    (h : ∀ d companion, Item.endpoint d companion ∈ items → d.info.isPipe = true →
      d.info.isIn ≠ isIn → other.isSome) (e : EndpointInfo) (burst : UInt8) :
    items.foldl takeItem (head.with isIn (some (e.withBurst burst)) other, some isIn) =
      (head.with isIn (some (e.withBurst ((lastBurst items).getD burst))) other, some isIn) := by
  induction items generalizing burst with
  | nil => rfl
  | cons item items ih =>
    have hrest := ih fun d companion hmem => h d companion (List.mem_cons_of_mem item hmem)
    have hitem : takeItem (head.with isIn (some (e.withBurst burst)) other, some isIn) item =
        (head.with isIn (some (e.withBurst (item.burst.getD burst))) other, some isIn) := by
      cases item with
      | other d => rfl
      | endpoint d companion =>
        have hother : addEndpoint d.info (head.with isIn (some (e.withBurst burst)) other)
            (some isIn) = (head.with isIn (some (e.withBurst burst)) other, some isIn) := by
          apply addEndpoint_other
          intro hpipe
          split
          · rfl
          · next hne => exact h d companion List.mem_cons_self hpipe hne
        rw [takeItem, hother]
        cases companion with
        | none => rfl
        | some c =>
          dsimp only
          rw [setBurst_with]
          rfl
    have hlast : (lastBurst (item :: items)).getD burst =
        (lastBurst items).getD (item.burst.getD burst) := by
      rw [lastBurst]
      cases lastBurst items <;> rfl
    rw [List.foldl_cons, hitem, hrest, hlast]

theorem foldl_without {head : InterfaceInfo} {items : List Item}
    (h : Without EndpointInfo.isPipe items) :
    items.foldl takeItem (head, none) = (head, none) := by
  induction items with
  | nil => rfl
  | cons item items ih =>
    have hitem : takeItem (head, none) item = (head, none) := by
      cases item with
      | other d => rfl
      | endpoint d companion =>
        have hpipe := h d companion List.mem_cons_self
        rw [takeItem, addEndpoint, if_neg (by rw [hpipe]; decide)]
        cases companion <;> rfl
    rw [List.foldl_cons, hitem, ih fun d companion hmem => h d companion (.tail item hmem)]

theorem info_eq (b : InterfaceBlock) (isIn : Bool) :
    b.info = b.head.info.with isIn (endpointOf isIn b.items) (endpointOf (!isIn) b.items) := by
  cases isIn <;> rfl

section EndpointOf

variable {before rest : List Item} {d : EndpointDescriptor}
  {companion : Option CompanionDescriptor} {isIn : Bool}

theorem endpointOf_first
    (h : Without (fun e => e.isPipe && e.isIn == isIn) before) (hpipe : d.info.isPipe = true)
    (hin : d.info.isIn = isIn) :
    endpointOf isIn (before ++ .endpoint d companion :: rest) =
      some (d.info.withBurst (burstOf companion)) := by
  have hp : (d.info.isPipe && d.info.isIn == isIn) = true := by simp [hpipe, hin]
  rw [endpointOf, firstEndpoint_append h, firstEndpoint, if_pos hp]
  rfl

theorem endpointOf_skip
    (h : Without (fun e => e.isPipe && e.isIn == isIn) before) (hin : d.info.isIn = !isIn) :
    endpointOf isIn (before ++ .endpoint d companion :: rest) = endpointOf isIn rest := by
  have hp : ¬ (d.info.isPipe && d.info.isIn == isIn) = true := by
    rw [hin]
    cases isIn <;> simp
  rw [endpointOf, firstEndpoint_append h, firstEndpoint, if_neg hp, endpointOf, Option.map_map,
    Option.map_map]
  rfl

end EndpointOf

theorem parsed_iff (b : InterfaceBlock) : b.parsed = b.info ↔ b.BurstsKept := by
  rw [InterfaceBlock.parsed, InterfaceBlock.BurstsKept]
  cases hfirst : firstEndpoint EndpointInfo.isPipe b.items with
  | none =>
    have hwithout := firstEndpoint_none hfirst
    have hnone : ∀ isIn, endpointOf isIn b.items = none := by
      intro isIn
      have hmono : Without (fun e => e.isPipe && e.isIn == isIn) b.items :=
        hwithout.mono fun e he => (Bool.and_eq_true_iff.mp he).1
      rw [endpointOf, firstEndpoint_of_without hmono]
      rfl
    rw [foldl_without hwithout, info_eq b true, hnone, hnone]
    exact ⟨fun _ => trivial, fun _ => rfl⟩
  | some found =>
    obtain ⟨before, ⟨d, companion⟩, rest⟩ := found
    obtain ⟨hitems, hpipe, hbefore⟩ := firstEndpoint_some hfirst
    have hmono : ∀ isIn, Without (fun e => e.isPipe && e.isIn == isIn) before :=
      fun isIn => hbefore.mono fun e he => (Bool.and_eq_true_iff.mp he).1
    have hown : endpointOf d.info.isIn b.items =
        some (d.info.withBurst (burstOf companion)) := by
      rw [hitems]
      exact endpointOf_first (hmono _) hpipe rfl
    have hother : endpointOf (!d.info.isIn) b.items = endpointOf (!d.info.isIn) rest := by
      rw [hitems]
      exact endpointOf_skip (hmono _) (Bool.not_not _).symm
    have hstart : b.head.info = b.head.info.with d.info.isIn none none := by
      cases d.info.isIn <;> rfl
    have hfold : b.items.foldl takeItem (b.head.info, none) =
        rest.foldl takeItem
          (b.head.info.with d.info.isIn (some (d.info.withBurst (burstOf companion))) none,
            some d.info.isIn) := by
      rw [hitems, List.foldl_append, foldl_without hbefore, List.foldl_cons]
      conv_lhs => rw [hstart]
      rw [takeItem_first hpipe rfl]
    rw [hfold, info_eq b d.info.isIn, hown, hother]
    dsimp only
    cases hsecond : firstEndpoint (fun e => e.isPipe && e.isIn == !d.info.isIn) rest with
    | none =>
      have hnone : endpointOf (!d.info.isIn) rest = none := by
        rw [endpointOf, hsecond]
        rfl
      have htaken : ∀ d' companion', Item.endpoint d' companion' ∈ rest →
          d'.info.isPipe = true → d'.info.isIn ≠ d.info.isIn →
            (none : Option EndpointInfo).isSome :=
        fun _ _ hmem hpipe' hne => ((firstEndpoint_none hsecond).same hmem hpipe' hne).elim
      rw [foldl_taken htaken, hnone, with_inj, Option.some_inj, withBurst_inj,
        getD_lastBurst_iff]
      exact and_iff_left rfl
    | some found =>
      obtain ⟨between, ⟨d', companion'⟩, rest'⟩ := found
      obtain ⟨hrest, hother', hbetween⟩ := firstEndpoint_some hsecond
      obtain ⟨hpipe', hin'⟩ := Bool.and_eq_true_iff.mp hother'
      have hin' : d'.info.isIn = !d.info.isIn := eq_of_beq hin'
      have hsecondOf : endpointOf (!d.info.isIn) rest =
          some (d'.info.withBurst (burstOf companion')) := by
        rw [hrest]
        exact endpointOf_first hbetween hpipe' hin'
      have htaken : ∀ d'' companion'', Item.endpoint d'' companion'' ∈ between →
          d''.info.isPipe = true → d''.info.isIn ≠ d.info.isIn →
            (none : Option EndpointInfo).isSome :=
        fun _ _ hmem hpipe'' hne => (hbetween.same hmem hpipe'' hne).elim
      rw [hsecondOf, hrest, List.foldl_append, foldl_taken htaken, List.foldl_cons,
        with_swap, takeItem_first hpipe' hin', foldl_taken fun _ _ _ _ _ => rfl,
        with_swap _ d.info.isIn, with_inj, Option.some_inj, Option.some_inj, withBurst_inj,
        withBurst_inj, getD_lastBurst_iff, getD_lastBurst_iff]
      exact and_comm

/-- The entries behind those that are there are the right ones exactly when in no interface a
burst is lost. Any bytes are parsed to the end, with no access out of range. -/
theorem parseInterfaces_iff (c : Configuration) (config : List UInt8) (out : List InterfaceInfo) :
    (parseInterfaces c.bytes out = some (out ++ c.blocks.map InterfaceBlock.info) ↔
      ∀ b ∈ c.blocks, b.BurstsKept) ∧
    ∃ result, parseInterfaces config out = some result := by
  constructor
  · rw [parseInterfaces_bytes, Option.some_inj, List.append_right_inj, List.map_inj_left]
    exact ⟨fun h b hb => (parsed_iff b).mp (h b hb), fun h b hb => (parsed_iff b).mpr (h b hb)⟩
  · exact parseLoop_isSome (by omega) _

/-- A storage interface with two bulk IN endpoints, of which the second bursts. -/
def twoInputs : Configuration where
  leading := []
  blocks :=
    [⟨⟨0, 0, 2, 8, 6, 0x50, 0, [], by decide⟩,
      [.endpoint ⟨0x81, 2, 0, 4, 0, [], by decide⟩ none,
        .endpoint ⟨0x82, 2, 0, 4, 0, [], by decide⟩ (some ⟨7, [0, 0, 0], by decide, by decide⟩)]⟩]

theorem twoInputs_burst :
    parseInterfaces twoInputs.bytes [] ≠ some (twoInputs.blocks.map InterfaceBlock.info) := by
  decide

end Vibra.Usb
