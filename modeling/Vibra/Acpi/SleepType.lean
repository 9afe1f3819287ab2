import Vibra.Lib.Bytes
import Vibra.Lib.Checked
import Mathlib.Data.Nat.Bitwise
import Mathlib.Tactic.Ring

/-! # The sleep type in the DSDT

The value for S5 is searched in the bytes of the AML code.
-/

namespace Vibra.Acpi

open Lib (Outcome Memory)

/-- `parse_pkg_length`: the bytes of the encoding, and the length. -/
def parsePkgLength (bytes : List UInt8) (pos : Nat) : Option (Nat × Nat) := do
  let first ← bytes[pos]?
  let extra := first.toNat >>> 6
  if extra = 0 then
    return (1, first.toNat &&& 0x3F)
  else if extra = 1 then
    let second ← bytes[pos + 1]?
    return (2, (first.toNat &&& 0x0F) <<< 8 ||| second.toNat)
  else if extra = 2 then
    let second ← bytes[pos + 1]?
    let third ← bytes[pos + 2]?
    return (3, (first.toNat &&& 0x0F) <<< 16 ||| second.toNat <<< 8 ||| third.toNat)
  else
    let second ← bytes[pos + 1]?
    let third ← bytes[pos + 2]?
    let fourth ← bytes[pos + 3]?
    return (4, (first.toNat &&& 0x0F) <<< 24 ||| second.toNat <<< 16 ||| third.toNat <<< 8 |||
      fourth.toNat)

/-- `_S5_` -/
def signature : List UInt8 := [0x5F, 0x53, 0x35, 0x5F]

def packageOp : UInt8 := 0x12

/-- The element at `cursor`. The loop over the elements is left in its first turn. -/
def firstElement (bytes : List UInt8) (cursor limit : Nat) : Outcome Empty (Option Nat) :=
  if cursor < limit then do
    let lead ← Outcome.get bytes cursor
    if lead = 0x0A then return some (bytes.getD (cursor + 1) 0).toNat
    else if lead = 0x00 then return some 0
    else if lead = 0x01 then return some 1
    else if lead = 0x0B then
      let low := (bytes.getD (cursor + 1) 0).toNat
      let high := (bytes.getD (cursor + 2) 0).toNat
      return some (low ||| high <<< 8)
    else return none
  else return none

/-- The search from `index` on. Each turn goes on by a byte at least. -/
def search (bytes : List UInt8) : (fuel index : Nat) → Outcome Empty (Option Nat)
  | 0, _ => .diverge
  | fuel + 1, index =>
    if index + 4 ≤ bytes.length then do
      let window ← Outcome.slice bytes index (index + 4)
      if window ≠ signature then search bytes fuel (index + 1)
      else
        let after := index + 4
        if bytes[after]? ≠ some packageOp then search bytes fuel (index + 4)
        else
          match parsePkgLength bytes (after + 1) with
          | none => search bytes fuel (index + 4)
          | some (headerLen, pkgLen) => do
              let cursor := after + 1 + headerLen + 1
              let limit := min (after + 1 + pkgLen) bytes.length
              match ← firstElement bytes cursor limit with
              | some slpTyp => return some slpTyp
              | none => search bytes fuel (index + 4)
    else return none

/-- `DSDT` -/
def dsdtSignature : List UInt8 := [0x44, 0x53, 0x44, 0x54]

/-- `size_of::<SdtHeader>()` -/
def sdtHeaderSize : Nat := 36

def parseS5SlpTyp (m : Memory) (dsdtPhys : Nat) : Outcome Empty (Option Nat) :=
  if m.slice dsdtPhys 4 ≠ dsdtSignature then .ok none
  else
    let length := m.le32 (dsdtPhys + 4)
    if length < sdtHeaderSize ∨ 1024 * 1024 < length then .ok none
    else
      let bytes := m.slice dsdtPhys length
      search bytes (bytes.length + 1) 0

variable {bytes : List UInt8} {fuel index cursor limit : Nat}

def element (bytes : List UInt8) (cursor : Nat) : Option Nat :=
  let lead := bytes.getD cursor 0
  if lead = 0x0A then some (bytes.getD (cursor + 1) 0).toNat
  else if lead = 0x00 then some 0
  else if lead = 0x01 then some 1
  else if lead = 0x0B then
    some ((bytes.getD (cursor + 1) 0).toNat ||| (bytes.getD (cursor + 2) 0).toNat <<< 8)
  else none

theorem firstElement_eq (h : limit ≤ bytes.length) :
    firstElement bytes cursor limit = .ok (if cursor < limit then element bytes cursor else none) := by
  unfold firstElement element
  split
  case isFalse => rfl
  case isTrue hlt =>
      have hcursor : cursor < bytes.length := Nat.lt_of_lt_of_le hlt h
      rw [Outcome.get_of_lt hcursor, List.getD_eq_getElem _ _ hcursor, Outcome.ok_bind]
      dsimp only
      repeat' split
      all_goals rfl

/-- The four characters stand at `index`. -/
def NameAt (bytes : List UInt8) (index : Nat) : Prop := (bytes.drop index).take 4 = signature

instance : Decidable (NameAt bytes index) := inferInstanceAs (Decidable (_ = _))

def found (bytes : List UInt8) (index : Nat) : Option Nat :=
  if bytes[index + 4]? = some packageOp then
    match parsePkgLength bytes (index + 5) with
    | none => none
    | some (headerLen, pkgLen) =>
      if index + 5 + headerLen + 1 < min (index + 5 + pkgLen) bytes.length then
        element bytes (index + 5 + headerLen + 1)
      else none
  else none

theorem search_succ (hroom : index + 4 ≤ bytes.length) :
    search bytes (fuel + 1) index =
      if NameAt bytes index then
        match found bytes index with
        | some slpTyp => .ok (some slpTyp)
        | none => search bytes fuel (index + 4)
      else search bytes fuel (index + 1) := by
  have hslice : (Outcome.slice bytes index (index + 4) : Outcome Empty (List UInt8)) =
      .ok ((bytes.drop index).take 4) := by
    rw [Outcome.slice_of_le ⟨Nat.le_add_right _ _, hroom⟩, Nat.add_sub_cancel_left]
  rw [search, if_pos hroom, hslice, Outcome.ok_bind]
  by_cases hname : NameAt bytes index
  · have hwindow : (bytes.drop index).take 4 = signature := hname
    rw [if_pos hname, if_neg (not_not_intro hwindow), found]
    by_cases hop : bytes[index + 4]? = some packageOp
    · rw [if_pos hop]
      simp only [ne_eq, hop, not_true_eq_false, if_false]
      cases hparse : parsePkgLength bytes (index + 4 + 1) with
      | none => rfl
      | some lengths =>
        obtain ⟨headerLen, pkgLen⟩ := lengths
        simp only
        rw [firstElement_eq (Nat.min_le_right _ _), Outcome.ok_bind]
        split <;> simp_all
    · rw [if_neg hop]
      simp only [ne_eq, hop, not_false_eq_true, if_true]
  · have hwindow : (bytes.drop index).take 4 ≠ signature := hname
    rw [if_neg hname, if_pos hwindow]

theorem search_past (hroom : bytes.length < index + 4) :
    search bytes (fuel + 1) index = .ok none := by
  rw [search, if_neg (Nat.not_le_of_lt hroom)]
  rfl

theorem search_safe (h : bytes.length < fuel + index) (hindex : index ≤ bytes.length) :
    (search bytes fuel index).Safe := by
  induction fuel generalizing index with
  | zero => omega
  | succ fuel ih =>
    by_cases hroom : index + 4 ≤ bytes.length
    · rw [search_succ hroom]
      split
      · split
        · trivial
        · exact ih (by omega) hroom
      · exact ih (by omega) (by omega)
    · rw [search_past (Nat.lt_of_not_le hroom)]
      trivial

theorem search_none (hnone : ∀ i, index ≤ i → NameAt bytes i → found bytes i = none)
    (h : bytes.length < fuel + index) (hindex : index ≤ bytes.length) :
    search bytes fuel index = .ok none := by
  induction fuel generalizing index with
  | zero => omega
  | succ fuel ih =>
    by_cases hroom : index + 4 ≤ bytes.length
    · rw [search_succ hroom]
      split
      case isTrue hname =>
          rw [hnone index (Nat.le_refl _) hname]
          exact ih (fun i hi => hnone i (by omega)) (by omega) hroom
      case isFalse => exact ih (fun i hi => hnone i (by omega)) (by omega) (by omega)
    · exact search_past (Nat.lt_of_not_le hroom)

theorem search_reach {place : Nat} (hplace : index ≤ place)
    (hnone : ∀ i, i < place → NameAt bytes i → found bytes i = none ∧ i + 4 ≤ place)
    (hroom : place + 4 ≤ bytes.length) (h : bytes.length < fuel + index) :
    ∃ fuel', bytes.length < fuel' + place ∧ search bytes fuel index = search bytes fuel' place := by
  induction fuel generalizing index with
  | zero => omega
  | succ fuel ih =>
    rcases Nat.eq_or_lt_of_le hplace with rfl | hlt
    · exact ⟨fuel + 1, h, rfl⟩
    · rw [search_succ (by omega)]
      split
      case isTrue hname =>
          obtain ⟨hfound, hapart⟩ := hnone index hlt hname
          rw [hfound]
          exact ih hapart (by omega)
      case isFalse => exact ih hlt (by omega)

/-! ## The encoding of the package -/

/-- A length in `more + 1` bytes. -/
structure PkgLength where
  value : Nat
  more : Nat
  fits : more = 0 ∧ value < 2 ^ 6 ∨ 0 < more ∧ more ≤ 3 ∧ value < 2 ^ (4 + 8 * more)

/-- With more bytes, the first one has the low four bits of the length. -/
def PkgLength.encode (l : PkgLength) : List UInt8 :=
  if l.more = 0 then [UInt8.ofNat l.value]
  else UInt8.ofNat (64 * l.more + l.value % 16) ::
    (List.range l.more).map fun i => UInt8.ofNat (l.value / 2 ^ (4 + 8 * i))

inductive AmlInteger where
  | zero
  | one
  | byte (n : UInt8)
  | word (n : UInt16)
  | dword (n : UInt32)

namespace AmlInteger

def value : AmlInteger → Nat
  | zero => 0
  | one => 1
  | byte n => n.toNat
  | word n => n.toNat
  | dword n => n.toNat

def encode : AmlInteger → List UInt8
  | zero => [0x00]
  | one => [0x01]
  | byte n => [0x0A, n]
  | word n => 0x0B :: Memory.toLe16 n.toNat
  | dword n => 0x0C :: Memory.toLe32 n.toNat

def isDword : AmlInteger → Bool
  | dword _ => true
  | _ => false

end AmlInteger

theorem length_pkgLength (l : PkgLength) : l.encode.length = l.more + 1 := by
  unfold PkgLength.encode
  split <;> simp [*]

/-- What the parser makes of the length: its low bits are the high ones. -/
def PkgLength.misread (l : PkgLength) : Nat :=
  match l.more with
  | 0 => l.value
  | 1 => l.value % 16 * 2 ^ 8 + l.value / 2 ^ 4
  | 2 => l.value % 16 * 2 ^ 16 + l.value / 2 ^ 4 % 2 ^ 8 * 2 ^ 8 + l.value / 2 ^ 12
  | _ => l.value % 16 * 2 ^ 24 + l.value / 2 ^ 4 % 2 ^ 8 * 2 ^ 16 + l.value / 2 ^ 12 % 2 ^ 8 * 2 ^ 8 +
      l.value / 2 ^ 20

theorem getElem?_of_drop {pos : Nat} {data rest : List UInt8} (h : bytes.drop pos = data ++ rest)
    {k : Nat} (hk : k < data.length) : bytes[pos + k]? = data[k]? := by
  rw [← List.getElem?_drop, h, List.getElem?_append_left hk]

theorem lead_shift {k n : Nat} (hk : k ≤ 3) (hn : n < 64) :
    (UInt8.ofNat (64 * k + n)).toNat >>> 6 = k := by
  rw [UInt8.toNat_ofNat', Nat.shiftRight_eq_div_pow]
  omega

theorem lead_low {k n : Nat} (hn : n < 16) :
    (UInt8.ofNat (64 * k + n)).toNat &&& 0x0F = n := by
  rw [UInt8.toNat_ofNat']
  have hand := Nat.and_two_pow_sub_one_eq_mod ((64 * k + n) % 2 ^ 8) 4
  rw [show 2 ^ 4 - 1 = 0x0F from rfl] at hand
  rw [hand]
  omega

theorem shiftLeft_or {a b i : Nat} (hb : b < 2 ^ i) : a <<< i ||| b = a * 2 ^ i + b := by
  rw [← Nat.shiftLeft_add_eq_or_of_lt hb, Nat.shiftLeft_eq]

theorem shiftLeft_or_shiftLeft (i j : Nat) {a b : Nat} (hb : b < 2 ^ i) :
    a <<< (i + j) ||| b <<< j = (a * 2 ^ i + b) <<< j := by
  rw [Nat.shiftLeft_add, ← Nat.shiftLeft_or_distrib, shiftLeft_or hb]

theorem parsePkgLength_eq {l : PkgLength} {pos : Nat} {rest : List UInt8}
    (h : bytes.drop pos = l.encode ++ rest) :
    parsePkgLength bytes pos = some (l.more + 1, l.misread) := by
  obtain ⟨value, more, fits⟩ := l
  have hat (k : Nat) (hk : k < more + 1) :
      bytes[pos + k]? = (PkgLength.encode ⟨value, more, fits⟩)[k]? :=
    getElem?_of_drop h (by rw [length_pkgLength]; exact hk)
  have hlast {n : Nat} (hn : n < 2 ^ 8) : (UInt8.ofNat n).toNat = n := by
    rw [UInt8.toNat_ofNat', Nat.mod_eq_of_lt hn]
  have hfirst : bytes[pos]? = _ := hat 0 (Nat.succ_pos more)
  have hbyte (k : Nat) : (UInt8.ofNat (value / 2 ^ k)).toNat = value / 2 ^ k % 2 ^ 8 :=
    UInt8.toNat_ofNat'
  have hmid (k : Nat) : value / 2 ^ k % 2 ^ 8 < 2 ^ 8 := Nat.mod_lt _ (by decide)
  have hlow : value % 16 < 16 := Nat.mod_lt _ (by decide)
  rcases fits with ⟨rfl, hvalue⟩ | ⟨hpos, hmore, hvalue⟩
  · have hshift := lead_shift (Nat.zero_le 3) hvalue
    have hand := Nat.and_two_pow_sub_one_eq_mod value 6
    have hbyte : (UInt8.ofNat value).toNat = value := hlast (by omega)
    rw [Nat.mul_zero, Nat.zero_add, hbyte] at hshift
    simp only [PkgLength.encode, if_true, List.getElem?_cons_zero] at hfirst
    simp only [parsePkgLength, hfirst, Option.bind_eq_bind, Option.bind_some, hbyte, hshift,
      if_true]
    rw [Nat.mod_eq_of_lt hvalue] at hand
    exact congrArg (fun n => some (1, n)) hand
  · have hshift := lead_shift hmore (Nat.lt_trans hlow (by decide : 16 < 64))
    have hand : (UInt8.ofNat (64 * more + value % 16)).toNat &&& 0x0F = value % 16 := lead_low hlow
    have hne : more ≠ 0 := Nat.pos_iff_ne_zero.mp hpos
    simp only [PkgLength.encode, if_neg hne, List.getElem?_cons_zero] at hfirst
    have hmore' : more = 1 ∨ more = 2 ∨ more = 3 := by omega
    have hat' (k : Nat) (hk : k < more) :
        bytes[pos + (k + 1)]? = some (UInt8.ofNat (value / 2 ^ (4 + 8 * k))) := by
      rw [hat (k + 1) (by omega)]
      simp [PkgLength.encode, hne, hk]
    have h2 : bytes[pos + 1]? = some (UInt8.ofNat (value / 2 ^ 4)) := hat' 0 hpos
    rcases hmore' with rfl | rfl | rfl
    · have hone : value / 2 ^ 4 < 2 ^ 8 := by omega
      simp only [parsePkgLength, hfirst, h2, Option.bind_eq_bind, Option.bind_some, hshift, hand,
        hlast hone, PkgLength.misread, shiftLeft_or hone]
      rfl
    · have h3 : bytes[pos + 2]? = some (UInt8.ofNat (value / 2 ^ 12)) := hat' 1 (by decide)
      have hone : value / 2 ^ 12 < 2 ^ 8 := by omega
      have hjoin : (value % 16) <<< 16 ||| (value / 2 ^ 4 % 2 ^ 8) <<< 8 ||| value / 2 ^ 12 =
          value % 16 * 2 ^ 16 + value / 2 ^ 4 % 2 ^ 8 * 2 ^ 8 + value / 2 ^ 12 := by
        rw [shiftLeft_or_shiftLeft 8 8 (hmid 4), shiftLeft_or hone]
        ring
      simp only [parsePkgLength, hfirst, h2, h3, Option.bind_eq_bind, Option.bind_some, hshift,
        hand, hbyte, Nat.mod_eq_of_lt hone, PkgLength.misread, hjoin]
      rfl
    · have h3 : bytes[pos + 2]? = some (UInt8.ofNat (value / 2 ^ 12)) := hat' 1 (by decide)
      have h4 : bytes[pos + 3]? = some (UInt8.ofNat (value / 2 ^ 20)) := hat' 2 (by decide)
      have hone : value / 2 ^ 20 < 2 ^ 8 := by omega
      have hjoin : (value % 16) <<< 24 ||| (value / 2 ^ 4 % 2 ^ 8) <<< 16 |||
            (value / 2 ^ 12 % 2 ^ 8) <<< 8 ||| value / 2 ^ 20 =
          value % 16 * 2 ^ 24 + value / 2 ^ 4 % 2 ^ 8 * 2 ^ 16 + value / 2 ^ 12 % 2 ^ 8 * 2 ^ 8 +
            value / 2 ^ 20 := by
        rw [shiftLeft_or_shiftLeft 8 16 (hmid 4), shiftLeft_or_shiftLeft 8 8 (hmid 12),
          shiftLeft_or hone]
        ring
      simp only [parsePkgLength, hfirst, h2, h3, h4, Option.bind_eq_bind, Option.bind_some, hshift,
        hand, hbyte, Nat.mod_eq_of_lt hone, PkgLength.misread, hjoin]
      rfl

theorem getD_of_drop {pos : Nat} {data rest : List UInt8} (h : bytes.drop pos = data ++ rest)
    {k : Nat} (hk : k < data.length) : bytes.getD (pos + k) 0 = data.getD k 0 := by
  rw [List.getD_eq_getElem?_getD, getElem?_of_drop h hk, List.getD_eq_getElem?_getD]

theorem word_bytes (n : Nat) (hn : n < 2 ^ 16) :
    (UInt8.ofNat n).toNat ||| (UInt8.ofNat (n / 256)).toNat <<< 8 = n := by
  rw [UInt8.toNat_ofNat', UInt8.toNat_ofNat', Nat.or_comm,
    shiftLeft_or (Nat.mod_lt n (by decide : 0 < 2 ^ 8))]
  omega

theorem element_eq {n : AmlInteger} {rest : List UInt8}
    (h : bytes.drop cursor = n.encode ++ rest) :
    element bytes cursor = if n.isDword then none else some (n.value % 2 ^ 16) := by
  have hat (k : Nat) (hk : k < n.encode.length) := getD_of_drop h hk
  cases n with
  | zero =>
    have hlead : bytes.getD cursor 0 = 0x00 := hat 0 (by decide)
    rw [element, hlead]
    rfl
  | one =>
    have hlead : bytes.getD cursor 0 = 0x01 := hat 0 (by decide)
    rw [element, hlead]
    rfl
  | byte n =>
    have hlead : bytes.getD cursor 0 = 0x0A := hat 0 (Nat.succ_pos _)
    have hvalue : bytes.getD (cursor + 1) 0 = n := hat 1 (Nat.succ_lt_succ (Nat.succ_pos _))
    have hlt := n.toNat_lt
    have hmod : n.toNat % 2 ^ 16 = n.toNat := Nat.mod_eq_of_lt (by omega)
    rw [element, hlead, hvalue, AmlInteger.value, hmod]
    rfl
  | word n =>
    have hlead : bytes.getD cursor 0 = 0x0B := hat 0 (Nat.succ_pos _)
    have hlow : bytes.getD (cursor + 1) 0 = UInt8.ofNat n.toNat := hat 1 (Nat.lt_of_sub_pos (by exact Nat.two_pos))
    have hhigh : bytes.getD (cursor + 2) 0 = UInt8.ofNat (n.toNat / 256) := hat 2 (Nat.lt_succ_self 2)
    have hmod : n.toNat % 2 ^ 16 = n.toNat := Nat.mod_eq_of_lt n.toNat_lt
    have hvalue := word_bytes n.toNat n.toNat_lt
    rw [element, hlead, hlow, hhigh, hvalue, AmlInteger.value, hmod]
    rfl
  | dword n =>
    have hlead : bytes.getD cursor 0 = 0x0C := hat 0 (Nat.succ_pos _)
    rw [element, hlead]
    rfl

/-- The package with an integer in front. Its length counts from the length on. -/
structure SleepPackage where
  length : PkgLength
  count : UInt8
  first : AmlInteger
  rest : List UInt8
  measures : length.value = length.encode.length + 1 + first.encode.length + rest.length

/-- `Name(_S5_, Package(..) {..})` -/
def SleepPackage.encode (p : SleepPackage) : List UInt8 :=
  0x08 :: (signature ++ packageOp :: (p.length.encode ++ p.count :: (p.first.encode ++ p.rest)))

/-- A table with the package in it. -/
structure DsdtParts where
  oem : List UInt8
  before : List UInt8
  package : SleepPackage
  behind : List UInt8

namespace DsdtParts

def length (t : DsdtParts) : Nat :=
  8 + t.oem.length + t.before.length + t.package.encode.length + t.behind.length

def encode (t : DsdtParts) : List UInt8 :=
  dsdtSignature ++ (Memory.toLe32 t.length ++ (t.oem ++ (t.before ++
    (t.package.encode ++ t.behind))))

def place (t : DsdtParts) : Nat := 8 + t.oem.length + t.before.length + 1

end DsdtParts

/-- No other place with the four characters has a package behind it. -/
structure Dsdt extends DsdtParts where
  header : oem.length = sdtHeaderSize - 8
  small : toDsdtParts.length ≤ 1024 * 1024
  once : ∀ i, NameAt toDsdtParts.encode i →
    toDsdtParts.encode[i + 4]? = some packageOp → i = toDsdtParts.place

/-- The length is in two or three bytes, and all but its highest bits are 0: read with its bits in
the other order, it is shorter than what is in front of the first element. -/
def PkgLength.Misjudged (l : PkgLength) : Prop :=
  l.more = 1 ∧ l.value % 2 ^ 4 = 0 ∧ l.value ≤ 3 * 2 ^ 4 ∨
  l.more = 2 ∧ l.value % 2 ^ 12 = 0 ∧ l.value ≤ 4 * 2 ^ 12

instance (l : PkgLength) : Decidable l.Misjudged := inferInstanceAs (Decidable (_ ∨ _))

theorem PkgLength.misread_iff {l : PkgLength} (hpos : l.more + 2 < l.value)
    (hsmall : l.value < 2 ^ 20) : l.more + 2 < l.misread ↔ ¬ l.Misjudged := by
  obtain ⟨value, more, fits⟩ := l
  have hmore : more = 0 ∨ more = 1 ∨ more = 2 ∨ more = 3 := by omega
  simp only at hpos hsmall fits
  -- the four fields of a length
  obtain ⟨y, x, hx, rfl⟩ : ∃ y x, x < 2 ^ 4 ∧ value = 2 ^ 4 * y + x :=
    ⟨_, _, Nat.mod_lt _ (by decide), (Nat.div_add_mod _ _).symm⟩
  obtain ⟨z, w, hw, rfl⟩ : ∃ z w, w < 2 ^ 8 ∧ y = 2 ^ 8 * z + w :=
    ⟨_, _, Nat.mod_lt _ (by decide), (Nat.div_add_mod _ _).symm⟩
  have hlow : (2 ^ 4 * (2 ^ 8 * z + w) + x) % 16 = x := by omega
  have hhigh : (2 ^ 4 * (2 ^ 8 * z + w) + x) / 2 ^ 4 = 2 ^ 8 * z + w := by omega
  have hmid : (2 ^ 8 * z + w) % 2 ^ 8 = w := by omega
  have htop : (2 ^ 4 * (2 ^ 8 * z + w) + x) / 2 ^ 12 = z := by omega
  have hend : (2 ^ 4 * (2 ^ 8 * z + w) + x) / 2 ^ 20 = 0 := Nat.div_eq_of_lt hsmall
  have hz : z % 2 ^ 8 = z := by omega
  have hfour : (2 ^ 4 * (2 ^ 8 * z + w) + x) % 2 ^ 4 = x := hlow
  have htwelve : (2 ^ 4 * (2 ^ 8 * z + w) + x) % 2 ^ 12 = 2 ^ 4 * w + x := by omega
  rcases hmore with rfl | rfl | rfl | rfl
  · simp only [misread, Misjudged]
    omega
  · simp only [misread, Misjudged, hlow, hhigh, hfour, true_and, Nat.reduceEqDiff, false_and,
      or_false]
    clear hlow hhigh hmid htop hend hz hfour htwelve
    rcases Nat.eq_zero_or_pos x with rfl | hpos
    · omega
    · omega
  · simp only [misread, Misjudged, hlow, hhigh, hmid, htop, htwelve, true_and, Nat.reduceEqDiff,
      false_and, false_or]
    clear hlow hhigh hmid htop hend hz hfour htwelve
    rcases Nat.eq_zero_or_pos x with rfl | hpos
    · rcases Nat.eq_zero_or_pos w with rfl | hpos
      · omega
      · omega
    · omega
  · simp only [misread, Misjudged, hlow, hhigh, hmid, htop, hend, hz]
    clear hlow hhigh hmid htop hend hz hfour htwelve
    omega

namespace Dsdt

variable (t : Dsdt)

theorem length_encode : t.encode.length = t.length := by
  simp only [DsdtParts.encode, DsdtParts.length, List.length_append, Memory.length_toLe32]
  have hsig : dsdtSignature.length = 4 := rfl
  omega

theorem drop_encode : t.encode.drop (t.place - 1) = t.package.encode ++ t.behind := by
  have hfront : t.place - 1 =
      (dsdtSignature ++ (Memory.toLe32 t.length ++ (t.oem ++ t.before))).length := by
    simp only [DsdtParts.place, List.length_append, Memory.length_toLe32]
    have hsig : dsdtSignature.length = 4 := rfl
    omega
  have hsplit : t.encode = (dsdtSignature ++ (Memory.toLe32 t.length ++ (t.oem ++ t.before))) ++
      (t.package.encode ++ t.behind) := by
    simp only [DsdtParts.encode, List.append_assoc]
  rw [hsplit, hfront, List.drop_left]

theorem drop_place (k : Nat) :
    t.encode.drop (t.place + k) = (t.package.encode ++ t.behind).drop (k + 1) := by
  have hplace : t.place + k = (t.place - 1) + (k + 1) := by
    rw [DsdtParts.place]
    omega
  rw [hplace, ← List.drop_drop, drop_encode]

theorem nameAt_place : NameAt t.encode t.place := by
  have hdrop := t.drop_place 0
  rw [Nat.add_zero] at hdrop
  rw [NameAt, hdrop]
  rfl

theorem packageOp_place : t.encode[t.place + 4]? = some packageOp := by
  have hdrop := t.drop_place 4
  have hhead := congrArg List.head? hdrop
  rw [List.head?_drop] at hhead
  exact hhead

theorem place_room : t.place + 5 + t.package.length.more + 2 + t.package.first.encode.length ≤
    t.encode.length := by
  rw [length_encode]
  simp only [DsdtParts.length, DsdtParts.place, SleepPackage.encode, List.length_cons,
    List.length_append, length_pkgLength]
  have hsig : signature.length = 4 := rfl
  omega

theorem apart {i : Nat} (hi : i < t.place) (hname : NameAt t.encode i) : i + 4 ≤ t.place := by
  by_contra hover
  obtain ⟨k, hk, hplace⟩ : ∃ k, k < 4 ∧ t.place - 1 = i + k := ⟨t.place - 1 - i, by omega, by omega⟩
  have hop : t.encode[i + k]? = some 0x08 := by
    have hhead := congrArg List.head? t.drop_encode
    rw [List.head?_drop, hplace] at hhead
    exact hhead
  have hchar : signature[k]? = some 0x08 := by
    rw [← hname, List.getElem?_take_of_lt hk, List.getElem?_drop]
    exact hop
  have hnone : ∀ c ∈ signature, c ≠ 0x08 := by simp [signature]
  exact hnone _ (List.mem_of_getElem? hchar) rfl

theorem found_other {i : Nat} (hi : i ≠ t.place) (hname : NameAt t.encode i) :
    found t.encode i = none :=
  if_neg fun hop => hi (t.once i hname hop)

theorem length_bounds :
    t.package.length.more + 2 < t.package.length.value ∧ t.package.length.value < 2 ^ 20 := by
  have hmeasures := t.package.measures
  have hsmall := t.small
  have hfirst : 0 < t.package.first.encode.length := by
    cases t.package.first <;> exact Nat.succ_pos _
  rw [length_pkgLength] at hmeasures
  simp only [DsdtParts.length, SleepPackage.encode, List.length_cons, List.length_append,
    length_pkgLength] at hsmall
  omega

theorem found_place : found t.encode t.place =
    if t.package.length.Misjudged ∨ t.package.first.isDword then none
    else some (t.package.first.value % 2 ^ 16) := by
  have hlength : t.encode.drop (t.place + 5) = t.package.length.encode ++
      (t.package.count :: (t.package.first.encode ++ t.package.rest) ++ t.behind) := by
    rw [drop_place, ← List.append_assoc]
    rfl
  have hfirst : t.encode.drop (t.place + 5 + (t.package.length.more + 1) + 1) =
      t.package.first.encode ++ (t.package.rest ++ t.behind) := by
    rw [← List.drop_drop, ← List.drop_drop, hlength, ← length_pkgLength, List.drop_left,
      ← List.append_assoc]
    rfl
  have hroom := t.place_room
  have hlimit := PkgLength.misread_iff t.length_bounds.1 t.length_bounds.2
  rw [found, if_pos t.packageOp_place, parsePkgLength_eq hlength]
  dsimp only
  by_cases hmisjudged : t.package.length.Misjudged
  · have hshort : ¬ t.place + 5 + (t.package.length.more + 1) + 1 <
        min (t.place + 5 + t.package.length.misread) t.encode.length := by
      intro hlt
      exact hlimit.mp (by omega) hmisjudged
    rw [if_neg hshort, if_pos (Or.inl hmisjudged)]
  · have hread := hlimit.mpr hmisjudged
    have hpos : 0 < t.package.first.encode.length := by
      cases t.package.first <;> exact Nat.succ_pos _
    rw [if_pos (by omega), element_eq hfirst]
    simp only [hmisjudged, false_or]

end Dsdt

theorem parse_eq (t : Dsdt) (m : Memory) (phys : Nat) :
    parseS5SlpTyp (m.put phys t.encode) phys = search t.encode (t.encode.length + 1) 0 := by
  have hself : (m.put phys t.encode).slice phys t.encode.length = t.encode := Memory.slice_put_self
  have hlength := t.length_encode
  have hsmall := t.small
  have hlarge : sdtHeaderSize ≤ t.length := by
    have hheader := t.header
    rw [sdtHeaderSize] at hheader ⊢
    rw [DsdtParts.length]
    omega
  rw [sdtHeaderSize] at hlarge
  have hsig : (m.put phys t.encode).slice phys 4 = dsdtSignature := by
    rw [← Memory.take_slice (n := t.encode.length) (by omega), hself]
    rfl
  have hfield : (m.put phys t.encode).le32 (phys + 4) = t.length := by
    have hbytes : ∀ i < 4, (m.put phys t.encode) (phys + 4 + i) =
        (Memory.toLe32 t.length).getD i 0 := by
      intro i hi
      rw [Nat.add_assoc, Memory.put_add (by omega), List.getD_eq_getElem?_getD,
        ← List.getElem?_drop]
      show ((Memory.toLe32 t.length ++ _)[i]?).getD 0 = _
      rw [List.getElem?_append_left hi, List.getD_eq_getElem?_getD]
    rw [Memory.le32_of_bytes hbytes, Nat.mod_eq_of_lt (by omega)]
  rw [parseS5SlpTyp, if_neg (not_not_intro hsig)]
  simp only [hfield]
  rw [if_neg (by rw [sdtHeaderSize]; omega), ← hlength, hself]

theorem parse_safe (m : Memory) (phys : Nat) : (parseS5SlpTyp m phys).Safe := by
  unfold parseS5SlpTyp
  split
  · trivial
  · dsimp only
    split
    · trivial
    · exact search_safe (Nat.lt_succ_self _) (Nat.zero_le _)

/-- The parser returns, whatever the memory holds. In a DSDT with one package of S5 it finds the
low 16 bits of the first element, unless that element is a double word or the length of the package
is misjudged. -/
theorem sleepType_iff (m : Memory) (phys : Nat) :
    (parseS5SlpTyp m phys).Safe ∧ ∀ t : Dsdt,
      parseS5SlpTyp (m.put phys t.encode) phys = .ok (some (t.package.first.value % 2 ^ 16)) ↔
        ¬ (t.package.length.Misjudged ∨ t.package.first.isDword) := by
  refine ⟨parse_safe m phys, fun t => ?_⟩
  have hroom := t.place_room
  obtain ⟨fuel, hfuel, hreach⟩ := search_reach (Nat.zero_le t.place)
    (fun i hi hname => ⟨t.found_other (Nat.ne_of_lt hi) hname, t.apart hi hname⟩)
    (by omega : t.place + 4 ≤ t.encode.length) (Nat.lt_succ_self t.encode.length)
  rw [parse_eq, hreach]
  obtain ⟨fuel, rfl⟩ : ∃ n, fuel = n + 1 := ⟨fuel - 1, by omega⟩
  rw [search_succ (by omega), if_pos t.nameAt_place, t.found_place]
  by_cases hbad : t.package.length.Misjudged ∨ t.package.first.isDword
  · rw [if_pos hbad]
    have hnone : search t.encode fuel (t.place + 4) = .ok none :=
      search_none (fun i hi hname => t.found_other (by omega) hname) (by omega) (by omega)
    rw [hnone]
    exact iff_of_false nofun (not_not_intro hbad)
  · rw [if_neg hbad]
    exact iff_of_true rfl hbad

/-- A table with a package of 16 bytes, whose length is in two bytes, and the sleep type 5. -/
def longLengthParts : DsdtParts where
  oem := List.replicate 28 0
  before := []
  package := {
    length := ⟨16, 1, .inr (by decide)⟩
    count := 7
    first := .byte 5
    rest := [0x0A, 5, 0x0A, 0, 0x0A, 0, 0x0A, 0, 0x0A, 0, 0]
    measures := rfl }
  behind := []

def longLength : Dsdt where
  toDsdtParts := longLengthParts
  header := rfl
  small := by decide
  once := by
    have hbelow : ∀ i < longLengthParts.encode.length, NameAt longLengthParts.encode i →
        longLengthParts.encode[i + 4]? = some packageOp → i = longLengthParts.place := by
      decide
    intro i hname hop
    have hi := (List.getElem?_eq_some_iff.mp hop).1
    exact hbelow i (Nat.lt_of_le_of_lt (Nat.le_add_right i 4) hi) hname hop

/-- The value 5 is not found. -/
theorem sleepType_missed : ¬ ∀ (t : Dsdt) (m : Memory) (phys : Nat),
    parseS5SlpTyp (m.put phys t.encode) phys = .ok (some (t.package.first.value % 2 ^ 16)) := by
  intro h
  have hfound := h longLength (fun _ => 0) 0
  rw [parse_eq] at hfound
  have hnone : search longLength.encode (longLength.encode.length + 1) 0 = .ok none := by
    decide
  exact absurd (hnone.symm.trans hfound) nofun

end Vibra.Acpi
