import Vibra.Lib.Bytes
import Vibra.Lib.Checked

/-! # The SMBIOS tables

The structures of a table are of different lengths, and each has a set of strings behind it that
ends with two NULs. The walk over the structures is right.
-/

namespace Vibra.Acpi.Smbios

open Lib (Outcome Memory)

def u16At (m : Memory) (addr offset : Nat) : Nat := m.le16 (addr + offset)

def u32At (m : Memory) (addr offset : Nat) : Nat := m.le32 (addr + offset)

def u64At (m : Memory) (addr offset : Nat) : Nat :=
  u32At m addr offset + 2 ^ 32 * u32At m addr (offset + 4)

/-- `_SM3_` -/
def anchor3 : List UInt8 := [0x5F, 0x53, 0x4D, 0x33, 0x5F]

/-- `_SM_` -/
def anchor2 : List UInt8 := [0x5F, 0x53, 0x4D, 0x5F]

/-- The virtual address of the table and the number of structures; 0 stands for "up to type 127". -/
def parseEntry (m : Memory) (hhdm addr : Nat) : Option (Nat × Nat) :=
  let signature := m.slice addr 5
  if signature = anchor3 then
    let table := u64At m addr 0x10
    if table = 0 then none else some (hhdm + table, 0)
  else if signature = anchor2 then
    let table := u32At m addr 0x18
    let count := u16At m addr 0x1C
    if table = 0 then none else some (hhdm + table, count)
  else none

def isPrintable (byte : UInt8) : Bool := 0x20 ≤ byte && byte < 0x7F

/-- The inner loop of `string_at`: the text, and the address of the NUL. -/
def textAt (m : Memory) : (fuel pointer : Nat) → Outcome Empty (List UInt8 × Nat)
  | 0, _ => .diverge
  | fuel + 1, pointer =>
    let byte := m pointer
    if byte = 0 then .ok ([], pointer)
    else do
      let (text, last) ← textAt m fuel (pointer + 1)
      return (if isPrintable byte then byte :: text else text, last)

/-- The outer loop, with `room` numbers left up to 128. -/
def stringFrom (m : Memory) (fuel index : Nat) :
    (room current pointer : Nat) → Outcome Empty (List UInt8)
  | 0, _, _ => .ok []
  | room + 1, current, pointer => do
      let (text, last) ← textAt m fuel pointer
      if current = index then return text
      else if text.isEmpty then return []
      else stringFrom m fuel index room (current + 1) (last + 1)

def stringAt (m : Memory) (fuel strings : Nat) (index : UInt8) : Outcome Empty (List UInt8) :=
  if index = 0 then .ok [] else stringFrom m fuel index.toNat 128 1 strings

/-- The end of a set of strings, with `room` bytes left up to the limit. -/
def setEnd (m : Memory) (strings : Nat) : (room pointer : Nat) → Nat
  | 0, _ => strings
  | room + 1, pointer =>
    if m pointer = 0 ∧ m (pointer + 1) = 0 then pointer + 2
    else setEnd m strings room (pointer + 1)

/-- A call of `visit`. -/
structure Visit where
  kind : UInt8
  formatted : Nat
  strings : Nat

/-- The calls of `visit` from `addr` on. -/
def walkFrom (m : Memory) (count : Nat) : (fuel seen addr : Nat) → Outcome Empty (List Visit)
  | 0, _, _ => .diverge
  | fuel + 1, seen, addr =>
    let kind := m addr
    let length := (m (addr + 1)).toNat
    if length < 4 then .ok []
    else
      let strings := addr + length
      let visit : Visit := ⟨kind, addr, strings⟩
      let next := setEnd m strings 4096 strings
      let seen := seen + 1
      if kind = 127 ∨ 512 < seen then .ok [visit]
      else if count ≠ 0 ∧ count ≤ seen then .ok [visit]
      else do
        let visits ← walkFrom m count fuel seen next
        return visit :: visits

def walk (m : Memory) (table count : Nat) : Outcome Empty (List Visit) :=
  walkFrom m count 513 0 table

variable {m : Memory} {fuel room addr pointer : Nat}

/-- The bytes of `data` are in the memory at `addr`. -/
def Stored (m : Memory) (addr : Nat) (data : List UInt8) : Prop := m.slice addr data.length = data

theorem stored_append {data data' : List UInt8} :
    Stored m addr (data ++ data') ↔ Stored m addr data ∧ Stored m (addr + data.length) data' := by
  rw [Stored, List.length_append, Memory.slice_add]
  exact ⟨fun h => List.append_inj h (Memory.length_slice _ _ _), fun ⟨h, h'⟩ => congrArg₂ _ h h'⟩

theorem stored_cons {byte : UInt8} {data : List UInt8} :
    Stored m addr (byte :: data) ↔ m addr = byte ∧ Stored m (addr + 1) data := by
  have happend : Stored m addr ([byte] ++ data) ↔ _ := stored_append
  have hone : Stored m addr [byte] ↔ m addr = byte := by
    rw [Stored, Memory.slice, List.length_singleton, List.range_one, List.map_singleton,
      List.singleton_inj, Nat.add_zero]
  rwa [hone] at happend

def packed (texts : List (List UInt8)) : List UInt8 := texts.flatMap (· ++ [0])

theorem packed_cons (text : List UInt8) (texts : List (List UInt8)) :
    packed (text :: texts) = text ++ 0 :: packed texts := by
  rw [packed, List.flatMap_cons, List.append_assoc]
  rfl

/-- A structure: the number of its type, the rest of its formatted part behind the length, and its
strings. -/
structure Structure where
  kind : UInt8
  body : List UInt8
  strings : List (List UInt8)
  long : 4 ≤ body.length + 2
  short : body.length + 2 < 256
  texts : ∀ s ∈ strings, s ≠ [] ∧ 0 ∉ s
  small : (packed strings).length ≤ 4095

namespace Structure

def set (s : Structure) : List UInt8 :=
  if s.strings = [] then [0, 0] else packed s.strings ++ [0]

def encode (s : Structure) : List UInt8 :=
  s.kind :: UInt8.ofNat (s.body.length + 2) :: (s.body ++ s.set)

end Structure

/-- The calls of `visit` that are due for the structures from `addr` on. -/
def visits : (addr : Nat) → List Structure → List Visit
  | _, [] => []
  | addr, s :: ss =>
    ⟨s.kind, addr, addr + (s.body.length + 2)⟩ :: visits (addr + s.encode.length) ss

/-- The structures end with the last one: no other is of type 127, and the count stands for them
all, or the last one is of type 127. -/
structure Ends (count : Nat) (ss : List Structure) : Prop where
  nonempty : ss ≠ []
  inside : ∀ s ∈ ss.dropLast, s.kind ≠ 127
  counted : count = 0 ∨ ss.length ≤ count
  last : count = ss.length ∨ (ss.getLast nonempty).kind = 127

inductive Version where
  | two
  | three

def EntryAt (m : Memory) (addr table count : Nat) : Version → Prop
  | .two => m.slice addr 4 = anchor2 ∧ u32At m addr 0x18 = table ∧ u16At m addr 0x1C = count
  | .three => m.slice addr 5 = anchor3 ∧ u64At m addr 0x10 = table ∧ count = 0

/-- A memory with an entry point at `addr` and its table. -/
structure Firmware where
  memory : Memory
  hhdm : Nat
  addr : Nat
  version : Version
  table : Nat
  count : Nat
  structures : List Structure
  present : table ≠ 0
  entry : EntryAt memory addr table count version
  stored : Stored memory (hhdm + table) (structures.flatMap Structure.encode)
  many : structures.length ≤ 512
  ends : Ends count structures

/-- The string of an index from 1 on; 0 stands for "no string". -/
def textOf (strings : List (List UInt8)) (index : Nat) : List UInt8 :=
  match index with
  | 0 => []
  | d + 1 => (strings.getD d []).filter isPrintable

/-- Every string with printable characters has one of the numbers up to 128, and no string in front
of it is without. -/
def Readable (strings : List (List UInt8)) : Prop :=
  ∀ d < 255, (strings.getD d []).filter isPrintable ≠ [] →
    d < 128 ∧ ∀ s ∈ strings.take d, s.filter isPrintable ≠ []

theorem textAt_eq {text rest : List UInt8} (h : Stored m pointer (text ++ 0 :: rest))
    (htext : 0 ∉ text) (hfuel : text.length < fuel) :
    textAt m fuel pointer = .ok (text.filter isPrintable, pointer + text.length) := by
  induction text generalizing pointer fuel with
  | nil =>
    obtain ⟨fuel, rfl⟩ := Nat.exists_eq_succ_of_ne_zero (Nat.ne_of_gt hfuel)
    rw [textAt]
    exact if_pos (stored_cons.mp h).1
  | cons byte text ih =>
    obtain ⟨fuel, rfl⟩ := Nat.exists_eq_succ_of_ne_zero (Nat.ne_of_gt (Nat.zero_lt_of_lt hfuel))
    obtain ⟨hbyte, hrest⟩ := stored_cons.mp h
    rw [List.mem_cons, not_or] at htext
    have hne : m pointer ≠ 0 := hbyte ▸ Ne.symm htext.1
    have hgo := ih hrest htext.2 (Nat.lt_of_succ_lt_succ hfuel)
    rw [textAt]
    dsimp only
    rw [if_neg hne, hgo, Outcome.ok_bind, Outcome.pure_eq, hbyte, List.filter_cons,
      List.length_cons, Nat.add_assoc, Nat.add_comm 1]

/-- What the reader makes of the string with `d` others in front of it. -/
def readString (strings : List (List UInt8)) (room d : Nat) : List UInt8 :=
  if d < room ∧ ∀ s ∈ strings.take d, s.filter isPrintable ≠ [] then
    (strings.getD d []).filter isPrintable
  else []

theorem readString_succ (s : List UInt8) (strings : List (List UInt8)) (room d : Nat) :
    readString (s :: strings) (room + 1) (d + 1) =
      if s.filter isPrintable = [] then [] else readString strings room d := by
  have hall : (∀ text ∈ (s :: strings).take (d + 1), text.filter isPrintable ≠ []) ↔
      s.filter isPrintable ≠ [] ∧ ∀ text ∈ strings.take d, text.filter isPrintable ≠ [] := by
    rw [List.take_succ_cons, List.forall_mem_cons]
  simp only [readString, List.getD_cons_succ, hall, Nat.add_lt_add_iff_right]
  by_cases hblank : s.filter isPrintable = []
  · rw [if_pos hblank, if_neg fun h => h.2.1 hblank]
  · simp only [ne_eq, hblank, not_false_eq_true, true_and, if_false]

theorem stringFrom_eq {strings : List (List UInt8)} {current d : Nat}
    (h : Stored m pointer (packed strings ++ [0]))
    (htexts : ∀ s ∈ strings, 0 ∉ s ∧ s.length < fuel) (hfuel : 0 < fuel) :
    stringFrom m fuel (current + d) room current pointer = .ok (readString strings room d) := by
  induction strings generalizing pointer room current d with
  | nil =>
    have hread : readString [] room d = [] := by simp [readString]
    cases room with
    | zero => rw [hread]; rfl
    | succ room =>
      have htext : textAt m fuel pointer = .ok ([].filter isPrintable, pointer) :=
        textAt_eq h List.not_mem_nil hfuel
      rw [stringFrom, htext, Outcome.ok_bind, hread]
      dsimp only
      split <;> rfl
  | cons s strings ih =>
    cases room with
    | zero => simp [stringFrom, readString]
    | succ room =>
      obtain ⟨hs, hlen⟩ := htexts s (List.mem_cons_self)
      rw [packed_cons, List.append_assoc, List.cons_append] at h
      have hrest := (stored_cons.mp (stored_append.mp h).2).2
      rw [stringFrom, textAt_eq h hs hlen, Outcome.ok_bind]
      dsimp only
      cases d with
      | zero => simp [readString]
      | succ d =>
        rw [if_neg (by omega)]
        rw [readString_succ]
        by_cases hblank : s.filter isPrintable = []
        · rw [if_pos (by rw [hblank]; rfl), if_pos hblank]
          rfl
        · have hgo := @ih room _ (current + 1) d hrest
            fun s hs => htexts s (List.mem_cons_of_mem _ hs)
          rw [Nat.add_assoc, Nat.add_comm 1 d] at hgo
          rw [if_neg (by rwa [List.isEmpty_iff]), if_neg hblank, hgo]

theorem readString_iff {strings : List (List UInt8)} {d : Nat} :
    readString strings 128 d = (strings.getD d []).filter isPrintable ↔
      ((strings.getD d []).filter isPrintable ≠ [] →
        d < 128 ∧ ∀ s ∈ strings.take d, s.filter isPrintable ≠ []) := by
  rw [readString]
  by_cases hreach : d < 128 ∧ ∀ s ∈ strings.take d, s.filter isPrintable ≠ []
  · rw [if_pos hreach]
    exact iff_of_true rfl fun _ => hreach
  · rw [if_neg hreach]
    exact ⟨fun h hne => absurd h.symm hne, fun h => (not_imp_comm.mp h hreach).symm⟩

namespace Structure

variable {s : Structure}

theorem length_text {text : List UInt8} (h : text ∈ s.strings) : text.length < 4096 := by
  have hmem : text ++ [0] ∈ s.strings.map (· ++ [0]) := List.mem_map_of_mem h
  have hlength := (List.sublist_flatten_of_mem hmem).length_le
  have hsmall := s.small
  rw [← List.flatMap_def, ← packed, List.length_append] at hlength
  omega

theorem set_stored (h : Stored m pointer s.set) :
    Stored m pointer (packed s.strings ++ [0]) := by
  rw [set] at h
  split at h
  case isTrue hempty =>
      rw [hempty]
      have hnuls : Stored m pointer ([0] ++ [0]) := h
      exact (stored_append.mp hnuls).1
  case isFalse => exact h

theorem stringAt_iff (h : Stored m pointer s.set) (hfuel : 4096 ≤ fuel) (index : UInt8) :
    stringAt m fuel pointer index = .ok (textOf s.strings index.toNat) ↔
      ∀ d, index.toNat = d + 1 → (s.strings.getD d []).filter isPrintable ≠ [] →
        d < 128 ∧ ∀ text ∈ s.strings.take d, text.filter isPrintable ≠ [] := by
  rw [stringAt]
  by_cases hzero : index = 0
  · rw [if_pos hzero, hzero]
    exact iff_of_true rfl (fun d hd => nomatch hd)
  · rw [if_neg hzero]
    obtain ⟨d, hd⟩ : ∃ d, index.toNat = d + 1 :=
      Nat.exists_eq_succ_of_ne_zero fun h => hzero (UInt8.toNat_inj.mp h)
    have hread : stringFrom m fuel (1 + d) 128 1 pointer = .ok (readString s.strings 128 d) :=
      stringFrom_eq (set_stored h)
        (fun text ht => ⟨(s.texts text ht).2, Nat.lt_of_lt_of_le (length_text ht) hfuel⟩)
        (Nat.lt_of_lt_of_le (by decide) hfuel)
    rw [hd, Nat.add_comm d, hread, Nat.add_comm 1, textOf]
    constructor
    · intro heq d' hd'
      rw [← Nat.succ.inj hd']
      exact readString_iff.mp (Outcome.ok.inj heq)
    · intro hall
      exact congrArg _ (readString_iff.mpr (hall d rfl))

end Structure

theorem setEnd_text {text rest : List UInt8} {strings : Nat} (h : Stored m pointer (text ++ rest))
    (htext : 0 ∉ text) :
    setEnd m strings (text.length + room) pointer =
      setEnd m strings room (pointer + text.length) := by
  induction text generalizing pointer with
  | nil => rw [List.length_nil, Nat.zero_add, Nat.add_zero]
  | cons byte text ih =>
    obtain ⟨hbyte, hrest⟩ := stored_cons.mp h
    rw [List.mem_cons, not_or] at htext
    have hne : m pointer ≠ 0 := hbyte ▸ Ne.symm htext.1
    rw [List.length_cons, Nat.add_right_comm, setEnd, if_neg fun h => hne h.1, ih hrest htext.2,
      Nat.add_assoc, Nat.add_comm 1]

theorem setEnd_strings {strings : Nat} {text : List UInt8} {texts : List (List UInt8)}
    (h : Stored m pointer (packed (text :: texts) ++ [0]))
    (htexts : ∀ s ∈ text :: texts, s ≠ [] ∧ 0 ∉ s)
    (hroom : (packed (text :: texts)).length ≤ room) :
    setEnd m strings room pointer = pointer + (packed (text :: texts)).length + 1 := by
  induction texts generalizing pointer text room with
  | nil =>
    obtain ⟨htext, -⟩ := List.forall_mem_cons.mp htexts
    have hpacked : packed [text] = text ++ [0] := packed_cons text []
    rw [hpacked, List.length_append, List.length_singleton] at hroom ⊢
    rw [hpacked, List.append_assoc] at h
    obtain ⟨room, rfl⟩ := Nat.exists_eq_add_of_le hroom
    obtain ⟨hnul, hlast⟩ := stored_cons.mp (stored_append.mp h).2
    rw [Nat.add_assoc, setEnd_text h htext.2, Nat.add_comm 1, setEnd,
      if_pos ⟨hnul, (stored_cons.mp hlast).1⟩, Nat.add_assoc]
    rfl
  | cons next texts ih =>
    obtain ⟨htext, hrest⟩ := List.forall_mem_cons.mp htexts
    obtain ⟨hne, hnul⟩ := hrest next List.mem_cons_self
    obtain ⟨first, tail, rfl⟩ := List.exists_cons_of_ne_nil hne
    rw [packed_cons, List.length_append, List.length_cons] at hroom ⊢
    rw [packed_cons, List.append_assoc, List.cons_append] at h
    obtain ⟨room, rfl⟩ := Nat.exists_eq_add_of_le hroom
    obtain ⟨-, hnext⟩ := stored_cons.mp (stored_append.mp h).2
    have hfirst : m (pointer + text.length + 1) ≠ 0 := by
      rw [packed_cons] at hnext
      rw [(stored_cons.mp hnext).1]
      intro hzero
      exact hnul (hzero ▸ List.mem_cons_self)
    have hgo := ih hnext hrest
      (Nat.le_add_right (packed ((first :: tail) :: texts)).length room)
    rw [Nat.add_assoc, setEnd_text h htext.2, Nat.add_right_comm, setEnd,
      if_neg fun h => hfirst h.2, hgo]
    omega

namespace Structure

variable (s : Structure)

theorem length_encode : s.encode.length = s.body.length + 2 + s.set.length := by
  rw [encode, List.length_cons, List.length_cons, List.length_append]
  omega

theorem setEnd_eq (h : Stored m pointer s.set) :
    setEnd m pointer 4096 pointer = pointer + s.set.length := by
  have htexts := s.texts
  have hsmall := s.small
  rw [set] at h ⊢
  cases hstrings : s.strings with
  | nil =>
    rw [hstrings, if_pos rfl] at h
    obtain ⟨hnul, hlast⟩ := stored_cons.mp h
    rw [if_pos rfl, setEnd, if_pos ⟨hnul, (stored_cons.mp hlast).1⟩]
    rfl
  | cons text texts =>
    rw [hstrings] at h htexts hsmall
    rw [if_neg (List.cons_ne_nil _ _)] at h ⊢
    rw [setEnd_strings h htexts (Nat.le_succ_of_le hsmall), List.length_append, Nat.add_assoc]
    rfl

end Structure

theorem walkFrom_succ {count seen : Nat} {s : Structure} (h : Stored m addr s.encode) :
    walkFrom m count (fuel + 1) seen addr =
      let visit : Visit := ⟨s.kind, addr, addr + (s.body.length + 2)⟩
      if s.kind = 127 ∨ 512 < seen + 1 then .ok [visit]
      else if count ≠ 0 ∧ count ≤ seen + 1 then .ok [visit]
      else do
        let visits ← walkFrom m count fuel (seen + 1) (addr + s.encode.length)
        return visit :: visits := by
  have hlength := s.length_encode
  obtain ⟨hkind, h⟩ := stored_cons.mp h
  obtain ⟨hlong, h⟩ := stored_cons.mp h
  have hbyte : (m (addr + 1)).toNat = s.body.length + 2 := by
    rw [hlong, UInt8.toNat_ofNat', Nat.mod_eq_of_lt s.short]
  have hset : Stored m (addr + (s.body.length + 2)) s.set := by
    rw [Nat.add_comm _ 2, ← Nat.add_assoc]
    exact (stored_append.mp h).2
  have hend := s.setEnd_eq hset
  rw [Nat.add_assoc, ← hlength] at hend
  rw [walkFrom]
  dsimp only
  rw [hbyte, if_neg (Nat.not_lt_of_le s.long), hkind, hend]

theorem walkFrom_eq {count seen : Nat} {s : Structure} {ss : List Structure}
    (h : Stored m addr ((s :: ss).flatMap Structure.encode))
    (hinside : ∀ t ∈ (s :: ss).dropLast, t.kind ≠ 127)
    (hmany : seen + (s :: ss).length ≤ 512)
    (hcounted : count = 0 ∨ seen + (s :: ss).length ≤ count)
    (hlast : count = seen + (s :: ss).length ∨
      ((s :: ss).getLast (List.cons_ne_nil _ _)).kind = 127)
    (hfuel : (s :: ss).length ≤ fuel) :
    walkFrom m count fuel seen addr = .ok (visits addr (s :: ss)) := by
  induction ss generalizing s seen addr fuel with
  | nil =>
    obtain ⟨fuel, rfl⟩ : ∃ n, fuel = n + 1 :=
      Nat.exists_eq_succ_of_ne_zero (Nat.ne_of_gt hfuel)
    rw [List.length_singleton] at hlast
    rw [walkFrom_succ (stored_append.mp h).1]
    dsimp only
    rcases hlast with hlast | hlast
    · have hdone : count ≠ 0 ∧ count ≤ seen + 1 := by omega
      rw [if_pos hdone, ite_self]
      rfl
    · have hkind : s.kind = 127 := hlast
      rw [if_pos (Or.inl hkind)]
      rfl
  | cons t ss ih =>
    obtain ⟨fuel, rfl⟩ : ∃ n, fuel = n + 1 :=
      Nat.exists_eq_succ_of_ne_zero (Nat.ne_of_gt (Nat.lt_of_lt_of_le (Nat.succ_pos _) hfuel))
    rw [List.flatMap_cons] at h
    obtain ⟨hfirst, hrest⟩ := stored_append.mp h
    obtain ⟨hkind, hinside⟩ := List.forall_mem_cons.mp hinside
    rw [List.length_cons] at hmany hcounted hlast hfuel
    have hpos : 0 < (t :: ss).length := Nat.succ_pos _
    have hgo := @ih _ _ (seen + 1) _ hrest hinside (by omega) (by omega)
      (hlast.imp_left fun h => by omega) (Nat.le_of_succ_le_succ hfuel)
    have hearly : ¬ (s.kind = 127 ∨ 512 < seen + 1) := not_or_intro hkind (by omega)
    have hopen : ¬ (count ≠ 0 ∧ count ≤ seen + 1) := by omega
    rw [walkFrom_succ hfirst]
    dsimp only
    rw [if_neg hearly, if_neg hopen, hgo]
    rfl

theorem walk_eq (f : Firmware) :
    walk f.memory (f.hhdm + f.table) f.count = .ok (visits (f.hhdm + f.table) f.structures) := by
  obtain ⟨s, ss, hcons⟩ := List.exists_cons_of_ne_nil f.ends.nonempty
  have hstored := f.stored
  have hinside := f.ends.inside
  have hmany := f.many
  have hcounted := f.ends.counted
  have hlast := f.ends.last
  simp only [hcons] at hstored hinside hmany hcounted hlast ⊢
  exact walkFrom_eq hstored hinside (by omega) (by omega) (hlast.imp_left (by omega)) (by omega)

theorem parseEntry_iff (f : Firmware) :
    parseEntry f.memory f.hhdm f.addr = some (f.hhdm + f.table, f.count) ↔ f.version = .three := by
  have hentry := f.entry
  cases hversion : f.version with
  | two =>
    rw [hversion] at hentry
    have hshort : f.memory.slice f.addr 5 ≠ anchor2 := fun h => by
      have hlength := congrArg List.length h
      rw [Memory.length_slice] at hlength
      contradiction
    have hother : f.memory.slice f.addr 5 ≠ anchor3 := fun h => by
      have hprefix : (f.memory.slice f.addr 5).take 4 = f.memory.slice f.addr 4 :=
        Memory.take_slice (by decide)
      rw [h, hentry.1] at hprefix
      contradiction
    rw [parseEntry, if_neg hother, if_neg hshort]
    exact iff_of_false nofun nofun
  | three =>
    rw [hversion] at hentry
    obtain ⟨hanchor, htable, hcount⟩ := hentry
    rw [parseEntry, if_pos hanchor, htable, if_neg f.present, hcount]
    exact iff_of_true rfl rfl

theorem set_visited {ss : List Structure} (h : Stored m addr (ss.flatMap Structure.encode)) :
    ∀ p ∈ (visits addr ss).zip ss, Stored m p.1.strings p.2.set := by
  induction ss generalizing addr with
  | nil => exact nofun
  | cons s ss ih =>
    rw [List.flatMap_cons] at h
    obtain ⟨hfirst, hrest⟩ := stored_append.mp h
    refine List.forall_mem_cons.mpr ⟨?_, ih hrest⟩
    have hbody := (stored_cons.mp (stored_cons.mp hfirst).2).2
    rw [Nat.add_comm _ 2, ← Nat.add_assoc]
    exact (stored_append.mp hbody).2

theorem map_visits (ss : List Structure) (addr : Nat) :
    ((visits addr ss).zip ss).map Prod.snd = ss := by
  induction ss generalizing addr with
  | nil => rfl
  | cons s ss ih => exact congrArg (s :: ·) (ih _)

namespace Firmware

/-- What the reader makes of the firmware is what is there: the table is found, each structure is
visited once and in order, and the strings of their sets are read. -/
structure Decoded (f : Firmware) : Prop where
  found : parseEntry f.memory f.hhdm f.addr = some (f.hhdm + f.table, f.count)
  walked : walk f.memory (f.hhdm + f.table) f.count = .ok (visits (f.hhdm + f.table) f.structures)
  read : ∀ p ∈ (visits (f.hhdm + f.table) f.structures).zip f.structures,
    ∀ (index : UInt8) (fuel : Nat), 4096 ≤ fuel →
      stringAt f.memory fuel p.1.strings index = .ok (textOf p.2.strings index.toNat)

end Firmware

theorem strings_iff {s : Structure} (h : Stored m pointer s.set) :
    (∀ (index : UInt8) (fuel : Nat), 4096 ≤ fuel →
      stringAt m fuel pointer index = .ok (textOf s.strings index.toNat)) ↔ Readable s.strings := by
  constructor
  · intro hread d hd
    have hindex : (UInt8.ofNat (d + 1)).toNat = d + 1 := by
      rw [UInt8.toNat_ofNat', Nat.mod_eq_of_lt (by omega)]
    exact (Structure.stringAt_iff h (Nat.le_refl _) _).mp (hread _ _ (Nat.le_refl _)) d hindex
  · intro hreadable index fuel hfuel
    refine (Structure.stringAt_iff h hfuel index).mpr fun d hd => hreadable d ?_
    have hlt := index.toNat_lt
    omega

/-- The firmware is decoded exactly when its entry point is of version 3 and its strings are
readable. -/
theorem decoded_iff (f : Firmware) :
    f.Decoded ↔ f.version = .three ∧ ∀ s ∈ f.structures, Readable s.strings := by
  have hstrings : (∀ p ∈ (visits (f.hhdm + f.table) f.structures).zip f.structures,
      Readable p.2.strings) ↔ ∀ s ∈ f.structures, Readable s.strings := by
    conv_rhs => rw [← map_visits f.structures (f.hhdm + f.table)]
    rw [List.forall_mem_map]
  rw [← hstrings, ← parseEntry_iff]
  constructor
  · intro h
    exact ⟨h.found, fun p hp => (strings_iff (set_visited f.stored p hp)).mp (h.read p hp)⟩
  · intro ⟨hfound, hreadable⟩
    exact ⟨hfound, walk_eq f,
      fun p hp => (strings_iff (set_visited f.stored p hp)).mpr (hreadable p hp)⟩

/-- An entry point of version 2, whose table has only the structure at the end. -/
def oldFirmware : Firmware where
  memory :=
    Memory.put (Memory.put (fun _ => 0) 0 anchor2) 0x18 [0x20, 0, 0, 0, 1, 0, 0, 0, 127, 4, 0, 0]
  hhdm := 0
  addr := 0
  version := .two
  table := 0x20
  count := 1
  structures := [⟨127, [0, 0], [], by decide, by decide, by decide, by decide⟩]
  present := by decide
  entry := ⟨by decide, by decide, by decide⟩
  stored := by
    unfold Stored
    decide
  many := by decide
  ends := ⟨by decide, by decide, by decide, by decide⟩

/-- It is not found. -/
theorem version2_missed : ¬ ∀ f : Firmware, f.Decoded := by
  intro h
  have hfound := (h oldFirmware).found
  have hnone : parseEntry oldFirmware.memory 0 0 = none := by decide
  exact absurd (hnone.symm.trans hfound) nofun

end Vibra.Acpi.Smbios
