import Mathlib.Data.List.DropRight
import Mathlib.Data.List.Flatten
import Vibra.Lib.Utf16
import Vibra.Ext.Utf8

/-! # Directory records

A record as the format lays it out: numbers in both byte orders, an identifier, and a system use
area of entries, of which those marked `NM` carry pieces of a longer name.
-/

/-! ## ISO 9660 volumes

`fs/iso9660.rs`: the volume descriptors, directory records with their names, and look-up by path.
-/

namespace Vibra.Iso

open Lib (Outcome Bytes RawDisk u16At u32At)
open Lib.Outcome
open Fat32 (FsError Name)
open Ext (isCont secondOk low6 fromUtf8)

abbrev Res := Outcome FsError

def vdLba : Nat := 16
def defaultBlock : Nat := 2048
def maxDirBytes : Nat := 64 * 1024 * 1024

structure Record where
  name : Name
  lba : Nat
  size : Nat
  isDir : Bool
deriving DecidableEq, Repr

/-- `read_abs`: `len` bytes from a byte of the disk on. -/
def readAbs (disk : RawDisk) (byteOffset len : Nat) : Res Bytes :=
  if len = 0 then .ok []
  else do
    let start := byteOffset % 512
    let sectors := (start + len + 511) / 512
    let tmp ← ofOption .ioError (disk.read (byteOffset / 512) (sectors * 512))
    return (tmp.drop start).take len

def replacement : Char := Char.ofNat 0xFFFD

/-- `String::from_utf8_lossy`: as many bytes as could start a character are replaced by one. -/
def fromUtf8Lossy : Bytes → Name
  | [] => []
  | a :: tail =>
    if a < 0x80 then Char.ofNat a.toNat :: fromUtf8Lossy tail
    else
      match tail with
      | [] => [replacement]
      | b :: tail₂ =>
        if 0xC2 ≤ a ∧ a ≤ 0xDF then
          if isCont b then
            Char.ofNat (a.toNat % 32 * 64 + low6 b) :: fromUtf8Lossy tail₂
          else replacement :: fromUtf8Lossy (b :: tail₂)
        else if 0xE0 ≤ a ∧ a ≤ 0xF4 ∧ secondOk a b then
          match tail₂ with
          | [] => [replacement]
          | c :: tail₃ =>
            if ¬ isCont c then replacement :: fromUtf8Lossy (c :: tail₃)
            else if a ≤ 0xEF then
              Char.ofNat (a.toNat % 16 * 4096 + low6 b * 64 + low6 c) :: fromUtf8Lossy tail₃
            else
              match tail₃ with
              | [] => [replacement]
              | d :: tail₄ =>
                if isCont d then
                  Char.ofNat (a.toNat % 8 * 262144 + low6 b * 4096 + low6 c * 64 +
                    low6 d) :: fromUtf8Lossy tail₄
                else replacement :: fromUtf8Lossy (d :: tail₄)
        else replacement :: fromUtf8Lossy (b :: tail₂)

def trimDots (text : Name) : Name := text.rdropWhile (· = '.')

def semicolon : UInt8 := 0x3B

def isoName (raw : Bytes) : Name := trimDots (fromUtf8Lossy (raw.takeWhile (· ≠ semicolon)))

def bigUnits : Bytes → List Nat
  | hi :: lo :: rest => (hi.toNat * 256 + lo.toNat) :: bigUnits rest
  | _ => []

def jolietName (raw : Bytes) : Name :=
  trimDots (Lib.Utf16.decode ((bigUnits raw).takeWhile (· ≠ semicolon.toNat)))

/-- The entries that the loop of `rock_ridge_name` comes to; each has four bytes or more, so as
many turns as there are bytes are enough. -/
def systemEntries : Nat → Bytes → List Bytes
  | 0, _ => []
  | fuel + 1, sys =>
    if 4 ≤ sys.length then
      let len := (sys.getD 2 0).toNat
      if len < 4 ∨ len > sys.length then []
      else sys.take len :: systemEntries fuel (sys.drop len)
    else []

/-- A turn of that loop: the name so far, and whether there is one. -/
def nameStep (st : Name × Bool) (entry : Bytes) : Name × Bool :=
  if entry.take 2 = [0x4E, 0x4D] ∧ entry.length > 4 then
    if entry.getD 4 0 &&& 1 = 0 then (st.1 ++ (fromUtf8 (entry.drop 5)).getD [], true) else st
  else st

def rockRidgeName (sys : Bytes) : Option Name :=
  let (out, found) := (systemEntries sys.length sys).foldl nameStep ([], false)
  if found ∧ out ≠ [] then some out else none

def parseRecord (record : Bytes) (joliet : Bool) : Option Record :=
  if record.length < 34 then none
  else
    let len := (record.getD 0 0).toNat
    if len < 34 ∨ len > record.length then none
    else
      let lba := u32At record 2
      let size := u32At record 10
      let flags := record.getD 25 0
      let nameLen := (record.getD 32 0).toNat
      if 33 + nameLen > len then none
      else
        let rawName := (record.drop 33).take nameLen
        if nameLen = 1 ∧ rawName.getD 0 0 ≤ 1 then none
        else
          let sysStart := 33 + nameLen + if nameLen % 2 = 0 then 1 else 0
          let sys := if sysStart < len then (record.take len).drop sysStart else []
          let name :=
            if joliet then jolietName rawName else (rockRidgeName sys).getD (isoName rawName)
          if name = [] then none else some ⟨name, lba, size, flags &&& 2 ≠ 0⟩

/-- The loop of `list` over the bytes of a directory, from byte `i` on, with fuel. -/
def listLoop (blockSize : Nat) (joliet : Bool) (data : Bytes) : Nat → Nat → Res (List Record)
  | 0, _ => .diverge
  | fuel + 1, i =>
    if i < data.length then
      let len := (data.getD i 0).toNat
      if len = 0 then
        let next := (i / blockSize + 1) * blockSize
        if next ≤ i then .ok [] else listLoop blockSize joliet data fuel next
      else if i + len > data.length then .ok []
      else do
        let here := (parseRecord ((data.drop i).take len) joliet).toList
        let rest ← listLoop blockSize joliet data fuel (i + len)
        return here ++ rest
    else .ok []

/-! ## Volumes -/

structure IsoFs where
  disk : RawDisk
  blockSize : Nat
  rootLba : Nat
  rootSize : Nat
  joliet : Bool

/-- What the loop over the volume descriptors has found: the size of a block and the root of the
primary descriptor, and the root of a Joliet one. -/
structure Descriptors where
  primary : Option (Nat × Nat × Nat)
  supplementary : Option (Nat × Nat)

def Descriptors.step (found : Descriptors) (vd : Bytes) : Descriptors :=
  let root := (u32At vd (156 + 2), u32At vd (156 + 10))
  if vd.getD 0 0 = 1 then
    let block := u16At vd 128
    { found with primary := some (if block = 0 then defaultBlock else block, root) }
  else if vd.getD 0 0 = 2 then
    let esc := (vd.drop 88).take 3
    if esc = [0x25, 0x2F, 0x40] ∨ esc = [0x25, 0x2F, 0x43] ∨ esc = [0x25, 0x2F, 0x45] then
      { found with supplementary := some root }
    else found
  else found

/-- The loop over at most so many descriptors from the `i`-th on. -/
def descriptorLoop (disk : RawDisk) : Nat → Nat → Descriptors → Descriptors
  | 0, _, found => found
  | more + 1, i, found =>
    match readAbs disk ((vdLba + i) * defaultBlock) defaultBlock with
    | .ok vd =>
      if (vd.drop 1).take 5 ≠ [0x43, 0x44, 0x30, 0x30, 0x31] then found
      else if vd.getD 0 0 = 255 then found
      else descriptorLoop disk more (i + 1) (found.step vd)
    | _ => found

def IsoFs.new (disk : RawDisk) : Res IsoFs := do
  let found := descriptorLoop disk 32 0 ⟨none, none⟩
  let (blockSize, primary) ← ofOption .invalidPath found.primary
  let (rootLba, rootSize) := found.supplementary.getD primary
  if rootLba = 0 ∨ rootSize = 0 then .err .invalidPath
  else return ⟨disk, blockSize, rootLba, rootSize, found.supplementary.isSome⟩

namespace IsoFs

variable (fs : IsoFs)

/-- `list`: the records of the directory at a block. -/
def list (lba size : Nat) : Res (List Record) := do
  let size := min size maxDirBytes
  if size = 0 then .ok []
  else
    let data ← readAbs fs.disk (lba * fs.blockSize) size
    listLoop fs.blockSize fs.joliet data (data.length + 1) 0

def findLoop : List Name → Nat → Nat → Res (Option Record)
  | [], _, _ => .ok none
  | part :: rest, lba, size => do
      let records ← fs.list lba size
      match records.find? fun r => r.name = part with
      | none => return none
      | some found =>
        if rest = [] then return some found
        else if found.isDir then findLoop rest found.lba found.size
        else return none

def find (path : Name) : Res (Option Record) :=
  fs.findLoop (Lib.Path.parts '/' path) fs.rootLba fs.rootSize

end IsoFs

end Vibra.Iso

namespace Vibra.Iso

open Lib (Bytes Memory u32At)
open Fat32 (Name utf8)
open Ext (fromUtf8)

/-- An entry of the system use area: a piece of a name, or something else. -/
inductive SystemEntry where
  | nm (flags : UInt8) (text : Name)
  | other (first second version : UInt8) (data : Bytes) (h : ¬ (first = 0x4E ∧ second = 0x4D))

namespace SystemEntry

def bytes : SystemEntry → Bytes
  | nm flags text => [0x4E, 0x4D, UInt8.ofNat (5 + (utf8 text).length), 1, flags] ++ utf8 text
  | other a b version data _ => [a, b, UInt8.ofNat (4 + data.length), version] ++ data

def piece : SystemEntry → Option (UInt8 × Name)
  | nm flags text => some (flags, text)
  | other .. => none

end SystemEntry

def Continued (piece : UInt8 × Name) : Prop := piece.1 &&& 1 ≠ 0

instance (piece : UInt8 × Name) : Decidable (Continued piece) := inferInstanceAs (Decidable (_ ≠ _))

/-- The byte that makes the length of an identifier even with that of its length byte. -/
def evenPad (identifier : Bytes) : Bytes := if identifier.length % 2 = 0 then [0] else []

def systemBytes (system : List SystemEntry) (zeros : Nat) : Bytes :=
  system.flatMap SystemEntry.bytes ++ List.replicate zeros 0

def bothEndian32 (n : Nat) : Bytes := Memory.toLe32 n ++ (Memory.toLe32 n).reverse

def bothEndian16 (n : Nat) : Bytes := Memory.toLe16 n ++ (Memory.toLe16 n).reverse

/-- A directory record. -/
structure DirRecord where
  attrLength : UInt8
  lba : Nat
  size : Nat
  date : Bytes
  flags : UInt8
  unitSize : UInt8
  gap : UInt8
  volume : Nat
  identifier : Bytes
  system : List SystemEntry
  zeros : Nat
  lba_lt : lba < 2 ^ 32
  size_lt : size < 2 ^ 32
  length_date : date.length = 7
  identifier_ne : identifier ≠ []
  fits : 33 + identifier.length + (evenPad identifier).length +
    (systemBytes system zeros).length ≤ 255

namespace DirRecord

variable (r : DirRecord)

def length : Nat :=
  33 + r.identifier.length + (evenPad r.identifier).length + (systemBytes r.system r.zeros).length

def front : Bytes :=
  r.attrLength :: bothEndian32 r.lba ++ bothEndian32 r.size ++ r.date ++
    [r.flags, r.unitSize, r.gap] ++ bothEndian16 r.volume

def bytes : Bytes :=
  UInt8.ofNat r.length :: r.front ++ UInt8.ofNat r.identifier.length :: r.identifier ++
    evenPad r.identifier ++ systemBytes r.system r.zeros

def Dot : Prop := r.identifier = [0] ∨ r.identifier = [1]

instance : Decidable r.Dot := inferInstanceAs (Decidable (_ ∨ _))

def MultiExtent : Prop := r.flags &&& 0x80 ≠ 0

instance : Decidable r.MultiExtent := inferInstanceAs (Decidable (_ ≠ _))

def pieces : List (UInt8 × Name) := r.system.filterMap SystemEntry.piece

def pieced : Name := r.pieces.flatMap Prod.snd

def plainName : Name :=
  trimDots ((r.identifier.takeWhile (· ≠ semicolon)).map fun b => Char.ofNat b.toNat)

def name (joliet : Bool) : Name :=
  if joliet then jolietName r.identifier else if r.pieces = [] then r.plainName else r.pieced

/-- The record has a name, in every part of it: one in Joliet, or one in the characters of the
format and, if there are pieces, one of these. -/
structure Named (joliet : Bool) : Prop where
  wide : joliet = true → jolietName r.identifier ≠ []
  ascii : joliet = false → ∀ b ∈ r.identifier, b.toNat < 0x80
  plain : joliet = false → r.plainName ≠ []
  pieced : joliet = false → r.pieces ≠ [] → r.pieced ≠ []

def shown (joliet : Bool) : Record := ⟨r.name joliet, r.lba, r.size, r.flags &&& 2 ≠ 0⟩

/-- The pieces that are continued hold no text; or they hold all of it, and it is the plain name. -/
def Whole : Prop :=
  (∀ p ∈ r.pieces, Continued p → p.2 = []) ∨
    ((∀ p ∈ r.pieces, ¬ Continued p → p.2 = []) ∧ r.pieced = r.plainName)

def heard (joliet : Bool) : Name :=
  if joliet then jolietName r.identifier
  else
    let text := (r.pieces.filter fun p => ¬ Continued p).flatMap Prod.snd
    if text = [] then r.plainName else text

theorem length_evenPad (identifier : Bytes) :
    (evenPad identifier).length = if identifier.length % 2 = 0 then 1 else 0 := by
  unfold evenPad
  split <;> rfl

theorem length_front : r.front.length = 31 := by
  simp [front, bothEndian32, bothEndian16, Memory.toLe32, Memory.toLe16, r.length_date]

theorem length_bytes : r.bytes.length = r.length := by
  simp only [bytes, List.length_append, List.length_cons, length_front, length]
  omega

theorem length_le : r.length ≤ 255 := r.fits

theorem length_pos : 34 ≤ r.length := by
  have h := List.length_pos_of_ne_nil r.identifier_ne
  unfold length
  omega

theorem bytes_zero : (r.bytes.getD 0 0).toNat = r.length := by
  have hle := r.length_le
  rw [bytes, List.cons_append, List.cons_append, List.cons_append, List.getD_cons_zero,
    UInt8.toNat_ofNat_of_lt' (by simpa using Nat.lt_succ_of_le hle)]

theorem bytes_lba : u32At r.bytes 2 = r.lba := by
  have hsplit : r.bytes = [UInt8.ofNat r.length, r.attrLength] ++ (Memory.toLe32 r.lba ++
      ((Memory.toLe32 r.lba).reverse ++ (bothEndian32 r.size ++ (r.date ++
        ([r.flags, r.unitSize, r.gap] ++ (bothEndian16 r.volume ++
          (UInt8.ofNat r.identifier.length :: (r.identifier ++ (evenPad r.identifier ++
            systemBytes r.system r.zeros))))))))) := by
    simp [bytes, front, bothEndian32]
  rw [hsplit]
  exact Lib.u32At_append _ _ r.lba_lt

theorem bytes_size : u32At r.bytes 10 = r.size := by
  have hsplit : r.bytes = (UInt8.ofNat r.length :: r.attrLength :: bothEndian32 r.lba) ++
      (Memory.toLe32 r.size ++ ((Memory.toLe32 r.size).reverse ++ (r.date ++
        ([r.flags, r.unitSize, r.gap] ++ (bothEndian16 r.volume ++
          (UInt8.ofNat r.identifier.length :: (r.identifier ++ (evenPad r.identifier ++
            systemBytes r.system r.zeros)))))))) := by
    simp [bytes, front, bothEndian32]
  rw [hsplit]
  exact Lib.u32At_append (UInt8.ofNat r.length :: r.attrLength :: bothEndian32 r.lba) _ r.size_lt

theorem bytes_flags : r.bytes.getD 25 0 = r.flags := by
  have hsplit : r.bytes = (UInt8.ofNat r.length :: r.attrLength :: bothEndian32 r.lba ++
      bothEndian32 r.size ++ r.date) ++ (r.flags :: r.unitSize :: r.gap :: (bothEndian16 r.volume ++
          (UInt8.ofNat r.identifier.length :: (r.identifier ++ (evenPad r.identifier ++
            systemBytes r.system r.zeros))))) := by
    simp [bytes, front]
  have hlen : (UInt8.ofNat r.length :: r.attrLength :: bothEndian32 r.lba ++
      bothEndian32 r.size ++ r.date).length = 25 := by
    simp [bothEndian32, Memory.toLe32, Memory.toLe16, r.length_date]
  rw [hsplit]
  have h := Lib.getD_append_add (UInt8.ofNat r.length :: r.attrLength :: bothEndian32 r.lba ++
      bothEndian32 r.size ++ r.date) (r.flags :: r.unitSize :: r.gap :: (bothEndian16 r.volume ++
          (UInt8.ofNat r.identifier.length :: (r.identifier ++ (evenPad r.identifier ++
            systemBytes r.system r.zeros))))) 0
  rw [hlen] at h
  exact h

theorem drop_bytes : r.bytes.drop 32 = UInt8.ofNat r.identifier.length :: (r.identifier ++
    (evenPad r.identifier ++ systemBytes r.system r.zeros)) := by
  have hsplit : r.bytes = (UInt8.ofNat r.length :: r.front) ++
      (UInt8.ofNat r.identifier.length :: (r.identifier ++ (evenPad r.identifier ++
        systemBytes r.system r.zeros))) := by
    simp [bytes]
  rw [hsplit]
  exact List.drop_left' (by rw [List.length_cons, length_front])

theorem bytes_nameLen : (r.bytes.getD 32 0).toNat = r.identifier.length := by
  have hlen := r.fits
  have hget : r.bytes.getD 32 0 = (r.bytes.drop 32).getD 0 0 := by
    simp [List.getD_eq_getElem?_getD, List.getElem?_drop]
  rw [hget, r.drop_bytes, List.getD_cons_zero, UInt8.toNat_ofNat_of_lt']
  change r.identifier.length < 256
  omega

theorem bytes_identifier : (r.bytes.drop 33).take r.identifier.length = r.identifier := by
  have hdrop : r.bytes.drop 33 = (r.bytes.drop 32).drop 1 := by rw [List.drop_drop]
  rw [hdrop, r.drop_bytes, List.drop_succ_cons, List.drop_zero, List.take_left]

theorem bytes_system : r.bytes.drop (33 + r.identifier.length + (evenPad r.identifier).length) =
    systemBytes r.system r.zeros := by
  have hdrop : r.bytes.drop (33 + r.identifier.length + (evenPad r.identifier).length) =
      (r.bytes.drop 32).drop (1 + r.identifier.length + (evenPad r.identifier).length) := by
    rw [List.drop_drop]
    congr 1
    omega
  rw [hdrop, r.drop_bytes, ← List.append_assoc, ← List.cons_append]
  apply List.drop_left'
  simp only [List.length_cons, List.length_append]
  omega

end DirRecord

/-! ## Names -/

theorem fromUtf8Lossy_ascii {raw : Bytes} (h : ∀ b ∈ raw, b.toNat < 0x80) :
    fromUtf8Lossy raw = raw.map fun b => Char.ofNat b.toNat := by
  induction raw with
  | nil => rfl
  | cons a tail ih =>
    have ha : a < 0x80 := UInt8.lt_iff_toNat_lt.mpr (h a (List.mem_cons_self ..))
    rw [List.map_cons, ← ih fun b hb => h b (List.mem_cons_of_mem a hb)]
    conv_lhs => unfold fromUtf8Lossy
    rw [if_pos ha]

theorem isoName_ascii {raw : Bytes} (h : ∀ b ∈ raw, b.toNat < 0x80) :
    isoName raw = trimDots ((raw.takeWhile (· ≠ semicolon)).map fun b => Char.ofNat b.toNat) := by
  rw [isoName, fromUtf8Lossy_ascii]
  exact fun b hb => h b ((List.takeWhile_sublist _).mem hb)

theorem SystemEntry.length_bytes (e : SystemEntry) : 4 ≤ e.bytes.length := by
  cases e <;> simp [bytes]

theorem SystemEntry.bytes_two (e : SystemEntry) (h : e.bytes.length < 256) (rest : Bytes) :
    ((e.bytes ++ rest).getD 2 0).toNat = e.bytes.length := by
  cases e with
  | nm flags text =>
    simp only [bytes, List.length_append, List.length_cons, List.length_nil] at h ⊢
    rw [List.append_assoc]
    simp only [List.cons_append, List.getD_cons_succ, List.getD_cons_zero]
    rw [UInt8.toNat_ofNat_of_lt' (show _ < 256 by omega)]
  | other a b version data hab =>
    simp only [bytes, List.length_append, List.length_cons, List.length_nil] at h ⊢
    rw [List.append_assoc]
    simp only [List.cons_append, List.getD_cons_succ, List.getD_cons_zero]
    rw [UInt8.toNat_ofNat_of_lt' (show _ < 256 by omega)]

theorem systemEntries_eq {system : List SystemEntry} {zeros fuel : Nat}
    (h : ∀ e ∈ system, e.bytes.length < 256) (hfuel : (systemBytes system zeros).length ≤ fuel) :
    systemEntries fuel (systemBytes system zeros) = system.map SystemEntry.bytes := by
  induction system generalizing fuel with
  | nil =>
    cases fuel with
    | zero => rfl
    | succ fuel =>
      rw [systemEntries, systemBytes, List.flatMap_nil, List.nil_append]
      split
      next hlen =>
        rw [List.length_replicate] at hlen
        rw [List.getD_replicate _ (by omega)]
        rfl
      · rfl
  | cons e system ih =>
    have he := e.length_bytes
    have hsplit : systemBytes (e :: system) zeros = e.bytes ++ systemBytes system zeros := by
      rw [systemBytes, List.flatMap_cons, List.append_assoc]
      rfl
    rw [hsplit] at hfuel ⊢
    rw [List.length_append] at hfuel
    obtain ⟨fuel, rfl⟩ : ∃ k, fuel = k + 1 := ⟨fuel - 1, by omega⟩
    have hlen := e.bytes_two (h e (List.mem_cons_self ..)) (systemBytes system zeros)
    have hrest := ih (fun e' he' => h e' (List.mem_cons_of_mem e he'))
      (show (systemBytes system zeros).length ≤ fuel by omega)
    rw [systemEntries, if_pos (by rw [List.length_append]; omega)]
    simp only [hlen]
    rw [if_neg (by rw [List.length_append]; omega), List.take_left, List.drop_left, hrest,
      List.map_cons]

theorem nameStep_bytes (st : Name × Bool) (e : SystemEntry) :
    nameStep st e.bytes =
      match e.piece with
      | some p => if Continued p then st else (st.1 ++ p.2, true)
      | none => st := by
  cases e with
  | nm flags text =>
    have hnm : (SystemEntry.nm flags text).bytes.take 2 = [0x4E, 0x4D] ∧
        (SystemEntry.nm flags text).bytes.length > 4 := by
      constructor
      · rfl
      · simp [SystemEntry.bytes]
    rw [nameStep, if_pos hnm]
    change (if flags &&& 1 = 0 then (st.1 ++ (fromUtf8 (utf8 text)).getD [], true) else st) =
      if ¬ flags &&& 1 = 0 then st else (st.1 ++ text, true)
    rw [Ext.fromUtf8_utf8, Option.getD_some, ite_not]
  | other a b version data hab =>
    rw [nameStep, if_neg]
    · rfl
    · rintro ⟨htake, -⟩
      apply hab
      have hpair : [a, b] = [0x4E, 0x4D] := htake
      exact ⟨(List.cons.inj hpair).1, (List.cons.inj (List.cons.inj hpair).2).1⟩

theorem foldl_nameStep (system : List SystemEntry) (st : Name × Bool) :
    (system.map SystemEntry.bytes).foldl nameStep st =
      let heard := (system.filterMap SystemEntry.piece).filter fun p => ¬ Continued p
      (st.1 ++ heard.flatMap Prod.snd, st.2 || !heard.isEmpty) := by
  induction system generalizing st with
  | nil => simp
  | cons e system ih =>
    rw [List.map_cons, List.foldl_cons, ih, nameStep_bytes]
    cases hp : e.piece with
    | none => simp [hp]
    | some p =>
      by_cases hc : Continued p
      · simp [hp, hc]
      · simp [hp, hc]

namespace DirRecord

variable {r : DirRecord} {joliet : Bool}

theorem entry_lt {e : SystemEntry} (he : e ∈ r.system) : e.bytes.length < 256 := by
  have hfits := r.fits
  have hle : e.bytes.length ≤ (r.system.flatMap SystemEntry.bytes).length := by
    rw [List.flatMap_def]
    exact (List.sublist_flatten_of_mem (List.mem_map_of_mem he)).length_le
  rw [systemBytes, List.length_append] at hfits
  omega

theorem rockRidgeName_eq (r : DirRecord) :
    (rockRidgeName (systemBytes r.system r.zeros)).getD r.plainName = r.heard false := by
  have hfold : (r.system.map SystemEntry.bytes).foldl nameStep ([], false) =
      ((r.pieces.filter fun p => ¬ Continued p).flatMap Prod.snd,
        !(r.pieces.filter fun p => ¬ Continued p).isEmpty) := foldl_nameStep r.system ([], false)
  rw [rockRidgeName, systemEntries_eq (fun e => entry_lt) (Nat.le_refl _), hfold]
  simp only [heard, Bool.false_eq_true, if_false]
  by_cases htext : (r.pieces.filter fun p => ¬ Continued p).flatMap Prod.snd = []
  · rw [if_pos htext, if_neg fun h => h.2 htext, Option.getD_none]
  · have hfound : r.pieces.filter (fun p => ¬ Continued p) ≠ [] := by
      intro hnil
      rw [hnil] at htext
      exact htext rfl
    rw [if_neg htext, if_pos ⟨by simpa using hfound, htext⟩, Option.getD_some]

theorem dot_iff : r.identifier.length = 1 ∧ r.identifier.getD 0 0 ≤ 1 ↔ r.Dot := by
  unfold Dot
  constructor
  · rintro ⟨hlen, hle⟩
    obtain ⟨b, hb⟩ := List.length_eq_one_iff.mp hlen
    rw [hb, List.getD_cons_zero] at hle
    rw [hb]
    have hb : b.toNat ≤ 1 := UInt8.le_iff_toNat_le.mp hle
    have hcases : b.toNat = 0 ∨ b.toNat = 1 := by omega
    rcases hcases with h | h
    · exact .inl (congrArg (fun x => [x]) (UInt8.toNat_inj.mp h))
    · exact .inr (congrArg (fun x => [x]) (UInt8.toNat_inj.mp h))
  · rintro (h | h)
    · rw [h]
      decide
    · rw [h]
      decide

theorem Named.heard_ne (h : r.Named joliet) : r.heard joliet ≠ [] := by
  unfold heard
  cases joliet with
  | true => exact h.wide rfl
  | false =>
    simp only [Bool.false_eq_true, if_false]
    split
    · exact h.plain rfl
    · assumption

theorem parseRecord_bytes (h : ¬ r.Dot → r.Named joliet) :
    parseRecord r.bytes joliet =
      if r.Dot then none else some { r.shown joliet with name := r.heard joliet } := by
  have hlen := r.length_pos
  have hsum : r.length = 33 + r.identifier.length + (evenPad r.identifier).length +
      (systemBytes r.system r.zeros).length := rfl
  unfold parseRecord
  simp only [r.length_bytes, r.bytes_zero, r.bytes_nameLen, r.bytes_identifier, dot_iff]
  rw [if_neg (by omega), if_neg (by omega), if_neg (by omega)]
  by_cases hdot : r.Dot
  · rw [if_pos hdot, if_pos hdot]
  rw [if_neg hdot, if_neg hdot, ← length_evenPad]
  have hsys : (if 33 + r.identifier.length + (evenPad r.identifier).length < r.length then
      (r.bytes.take r.length).drop (33 + r.identifier.length + (evenPad r.identifier).length)
      else []) = systemBytes r.system r.zeros := by
    split
    · rw [← r.length_bytes, List.take_length, r.bytes_system]
    next hend => exact (List.length_eq_zero_iff.mp (by omega)).symm
  have hname : (if joliet then jolietName r.identifier else
      (rockRidgeName (systemBytes r.system r.zeros)).getD (isoName r.identifier)) =
        r.heard joliet := by
    cases joliet with
    | true => rfl
    | false =>
      rw [if_neg Bool.false_ne_true, isoName_ascii ((h hdot).ascii rfl)]
      exact rockRidgeName_eq r
  simp only [hsys, hname]
  rw [if_neg (h hdot).heard_ne, r.bytes_lba, r.bytes_size, r.bytes_flags]
  rfl

theorem flatMap_filter_iff {α β : Type} {f : α → List β} {p : α → Prop} [DecidablePred p]
    {xs : List α} :
    (xs.filter p).flatMap f = xs.flatMap f ↔ ∀ x ∈ xs, ¬ p x → f x = [] := by
  induction xs with
  | nil => simp
  | cons x xs ih =>
    rw [List.forall_mem_cons, ← ih, List.flatMap_cons]
    by_cases hp : p x
    · rw [List.filter_cons_of_pos (by simpa using hp), List.flatMap_cons,
        List.append_cancel_left_eq]
      exact ⟨fun h => ⟨fun hn => absurd hp hn, h⟩, fun h => h.2⟩
    · rw [List.filter_cons_of_neg (by simpa using hp)]
      constructor
      · intro h
        have hle : ((xs.filter p).flatMap f).length ≤ (xs.flatMap f).length :=
          (List.Sublist.flatMap List.filter_sublist f).length_le
        have hlen := congrArg List.length h
        rw [List.length_append] at hlen
        have hx : f x = [] := List.length_eq_zero_iff.mp (by omega)
        refine ⟨fun _ => hx, ?_⟩
        rw [h, hx, List.nil_append]
      · rintro ⟨hx, hrest⟩
        rw [hx hp, List.nil_append, hrest]

theorem heard_iff (h : r.Named false) : r.heard false = r.name false ↔ r.Whole := by
  unfold heard name Whole
  simp only [Bool.false_eq_true, if_false]
  have hfilter : ((r.pieces.filter fun p => ¬ Continued p).flatMap Prod.snd = r.pieced) ↔
      ∀ p ∈ r.pieces, Continued p → p.2 = [] := by
    rw [pieced, flatMap_filter_iff]
    simp only [not_not]
  have hnil : ((r.pieces.filter fun p => ¬ Continued p).flatMap Prod.snd = []) ↔
      ∀ p ∈ r.pieces, ¬ Continued p → p.2 = [] := by
    simp [List.flatMap_eq_nil_iff]
  by_cases hpieces : r.pieces = []
  · rw [hpieces]
    simp
  · have hne := h.pieced rfl hpieces
    rw [if_neg hpieces]
    by_cases htext : (r.pieces.filter fun p => ¬ Continued p).flatMap Prod.snd = []
    · rw [if_pos htext, ← hfilter, ← hnil, htext]
      constructor
      · exact fun hplain => .inr ⟨rfl, hplain.symm⟩
      · rintro (habs | ⟨-, hplain⟩)
        · exact absurd habs.symm hne
        · exact hplain.symm
    · rw [if_neg htext, hfilter, ← hnil]
      exact ⟨Or.inl, fun h => h.resolve_right fun h => htext h.1⟩

end DirRecord

end Vibra.Iso
