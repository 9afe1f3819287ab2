import Vibra.Disk.PartitionTable
import Vibra.Lib.Utf16

/-! # Decoding a GPT

A table of records, one after the other from the first block of the table on, and the list of
partitions that it stands for.
-/

namespace Vibra.Disk

open Lib (Memory)
open Lib.Utf16 (PairFree charOf)

def toLe64 (n : Nat) : List UInt8 := Memory.toLe32 n ++ Memory.toLe32 (n / 2 ^ 32)

/-- An entry of a table whose entries have `entrySize` bytes. -/
structure GptRecord (entrySize : Nat) where
  typeGuid : List UInt8
  uniqueGuid : List UInt8
  firstLba : Nat
  lastLba : Nat
  attributes : List UInt8
  units : List Nat
  reserved : List UInt8
  length_typeGuid : typeGuid.length = 16
  length_uniqueGuid : uniqueGuid.length = 16
  firstLba_lt : firstLba < 2 ^ 64
  lastLba_lt : lastLba < 2 ^ 64
  length_attributes : attributes.length = 8
  length_units : units.length = 36
  units_lt : ∀ c ∈ units, c < 2 ^ 16
  length_reserved : reserved.length + 128 = entrySize

namespace GptRecord

variable {entrySize : Nat} (r : GptRecord entrySize)

def encode : List UInt8 :=
  r.typeGuid ++ r.uniqueGuid ++ toLe64 r.firstLba ++ toLe64 r.lastLba ++ r.attributes ++
    r.units.flatMap Memory.toLe16 ++ r.reserved

def Used : Prop := r.typeGuid ≠ List.replicate 16 0 ∧ r.firstLba ≤ r.lastLba

instance : Decidable r.Used := inferInstanceAs (Decidable (_ ∧ _))

def nameUnits : List Nat := r.units.takeWhile (· ≠ 0)

def kind : PartKind :=
  if r.typeGuid = guidEfiSystem then .efi
  else if r.typeGuid = guidLinuxData then .linux
  else if r.typeGuid = guidMsBasicData then .data
  else .unknown

/-- The partition of a used record at a position counted from 0, on a device whose blocks are
`ratio` sectors. -/
def partition (ratio i : Nat) : Option TableEntry :=
  if r.Used then
    some
      { index := i + 1
        startLba := r.firstLba * ratio
        sectors := (r.lastLba - r.firstLba + 1) * ratio
        kind := r.kind
        label := Lib.Utf16.decode r.nameUnits }
  else none

/-- The position fits a byte, the extent fits 64 bits and no surrogate pair stands in the name. -/
structure Fits (ratio i : Nat) : Prop where
  index : i < 255
  start : r.firstLba * ratio < 2 ^ 64
  sectors : (r.lastLba - r.firstLba + 1) * ratio < 2 ^ 64
  name : PairFree r.nameUnits

theorem length_names {units : List Nat} : (units.flatMap Memory.toLe16).length = 2 * units.length := by
  induction units with
  | nil => rfl
  | cons c units ih =>
    rw [List.flatMap_cons, List.length_append, ih, Memory.length_toLe16, List.length_cons]
    omega

theorem length_encode : r.encode.length = entrySize := by
  have h := r.length_reserved
  simp only [encode, toLe64, List.length_append, Memory.length_toLe32, length_names,
    r.length_typeGuid, r.length_uniqueGuid, r.length_attributes, r.length_units]
  omega

end GptRecord

/-! ## What is read from a record -/

section Holds

def Holds (m : Memory) (addr : Nat) (bytes : List UInt8) : Prop :=
  ∀ i < bytes.length, m (addr + i) = bytes.getD i 0

variable {m : Memory} {addr : Nat} {bytes bytes' : List UInt8}

theorem Holds.front (h : Holds m addr (bytes ++ bytes')) : Holds m addr bytes := by
  intro i hi
  rw [h i (by rw [List.length_append]; omega), List.getD_append _ _ _ _ hi]

theorem Holds.back (h : Holds m addr (bytes ++ bytes')) :
    Holds m (addr + bytes.length) bytes' := by
  intro i hi
  rw [Nat.add_assoc, h (bytes.length + i) (by rw [List.length_append]; omega),
    List.getD_append_right _ _ _ _ (Nat.le_add_right _ _), Nat.add_sub_cancel_left]

theorem Holds.slice (h : Holds m addr bytes) : m.slice addr bytes.length = bytes := by
  apply List.ext_getElem (Memory.length_slice _ _ _)
  intro i _ hi
  simp only [Memory.slice, List.getElem_map, List.getElem_range]
  rw [h i hi, List.getD_eq_getElem _ _ hi]

theorem Holds.u64At {n : Nat} (h : Holds m addr (toLe64 n)) (hn : n < 2 ^ 64) :
    u64At m addr = n := by
  have hlo : m.le32 addr = n % 2 ^ 32 := Memory.le32_of_bytes (Holds.front h)
  have hhi : m.le32 (addr + 4) = n / 2 ^ 32 % 2 ^ 32 := Memory.le32_of_bytes (Holds.back h)
  rw [Disk.u64At, hlo, hhi]
  omega

theorem char_eq {c : Nat} (h : c < 2 ^ 16) :
    (if 0xD800 ≤ c ∧ c < 0xE000 then '?' else Char.ofNat c) = charOf c := by
  by_cases hsurrogate : 0xD800 ≤ c ∧ c < 0xE000
  · rw [if_pos hsurrogate, charOf, if_neg]
    unfold Nat.isValidChar
    omega
  · rw [if_neg hsurrogate, charOf, if_pos]
    unfold Nat.isValidChar
    omega

theorem Holds.utf16Name {units : List Nat} (hunits : ∀ c ∈ units, c < 2 ^ 16)
    (h : Holds m addr (units.flatMap Memory.toLe16)) :
    utf16Name m addr units.length = (units.takeWhile (· ≠ 0)).map charOf := by
  induction units generalizing addr with
  | nil => rfl
  | cons c units ih =>
    rw [List.flatMap_cons] at h
    have hunit : m.le16 addr = c := by
      rw [Memory.le16_of_bytes h.front, Nat.mod_eq_of_lt (hunits c List.mem_cons_self)]
    rw [List.length_cons, Disk.utf16Name, hunit]
    by_cases hzero : c = 0
    · rw [if_pos hzero, List.takeWhile_cons_of_neg (by simpa using hzero)]
      rfl
    · have hrest := ih (fun d hd => hunits d (List.mem_cons_of_mem c hd)) h.back
      have hchar : (if 0xD800 ≤ c ∧ c < 0xE000 then '?' else Char.ofNat c) = charOf c :=
        char_eq (hunits c List.mem_cons_self)
      rw [if_neg hzero, List.takeWhile_cons_of_pos (by simpa using hzero), List.map_cons, hchar]
      exact congrArg _ hrest

end Holds

namespace GptRecord

variable {entrySize : Nat} {r : GptRecord entrySize} {entry : Memory} {ratio i : Nat}

theorem fields (h : Holds entry 0 r.encode) :
    entry.slice 0 16 = r.typeGuid ∧ u64At entry 32 = r.firstLba ∧ u64At entry 40 = r.lastLba ∧
      utf16Name entry 56 36 = r.nameUnits.map charOf := by
  have hname := h.front.back
  have hlast := h.front.front.front.back
  have hfirst := h.front.front.front.front.back
  have htype := h.front.front.front.front.front.front
  simp only [List.length_append, r.length_typeGuid, r.length_uniqueGuid, r.length_attributes,
    toLe64, Memory.length_toLe32, Nat.zero_add, Nat.reduceAdd] at hname hlast hfirst
  refine ⟨?_, Holds.u64At hfirst r.firstLba_lt, Holds.u64At hlast r.lastLba_lt, ?_⟩
  · have hslice := htype.slice
    rwa [r.length_typeGuid] at hslice
  · have hnamed := Holds.utf16Name r.units_lt hname
    rwa [r.length_units] at hnamed

/-- What the code makes of a record: its index and its size are cut to their widths, an extent that
does not fit is passed over, and each unit of the name stands by itself. -/
def parsed (r : GptRecord entrySize) (ratio i : Nat) : Option TableEntry :=
  if r.Used ∧ r.firstLba * ratio < 2 ^ 64 ∧
      (r.lastLba - r.firstLba + 1) % 2 ^ 64 * ratio < 2 ^ 64 then
    some
      { index := (i + 1) % 2 ^ 8
        startLba := r.firstLba * ratio
        sectors := (r.lastLba - r.firstLba + 1) % 2 ^ 64 * ratio
        kind := r.kind
        label := r.nameUnits.map charOf }
  else none

theorem gptPartition_eq (h : Holds entry 0 r.encode) (disk : BlockSource) (i : Nat) :
    gptPartition disk i entry = r.parsed disk.ratio i := by
  unfold parsed
  rcases fields h with ⟨htype, hfirst, hlast, hname⟩
  have hcode : gptPartition disk i entry =
      if r.typeGuid = List.replicate 16 0 ∨ r.lastLba < r.firstLba then none
      else (checked (r.firstLba * disk.ratio)).bind fun startLba =>
        (checked ((r.lastLba - r.firstLba + 1) % 2 ^ 64 * disk.ratio)).bind fun sectors =>
          some { index := (i + 1) % 2 ^ 8, startLba, sectors, kind := r.kind
                 label := r.nameUnits.map charOf } := by
    unfold gptPartition
    simp only [htype, hfirst, hlast, hname]
    rfl
  rw [hcode]
  by_cases hused : r.Used
  · have hpass : ¬ (r.typeGuid = List.replicate 16 0 ∨ r.lastLba < r.firstLba) :=
      not_or.mpr ⟨hused.1, Nat.not_lt.mpr hused.2⟩
    rw [if_neg hpass]
    by_cases hstart : r.firstLba * disk.ratio < 2 ^ 64
    · by_cases hsectors : (r.lastLba - r.firstLba + 1) % 2 ^ 64 * disk.ratio < 2 ^ 64
      · rw [if_pos ⟨hused, hstart, hsectors⟩, checked, checked, if_pos hstart, if_pos hsectors]
        rfl
      · rw [if_neg fun hall => hsectors hall.2.2, checked, checked, if_pos hstart, if_neg hsectors]
        rfl
    · rw [if_neg fun hall => hstart hall.2.1, checked, if_neg hstart]
      rfl
  · have hpass : r.typeGuid = List.replicate 16 0 ∨ r.lastLba < r.firstLba := by
      by_contra hno
      exact hused ⟨(not_or.mp hno).1, Nat.not_lt.mp (not_or.mp hno).2⟩
    rw [if_pos hpass, if_neg fun hall => hused hall.1]

theorem parsed_eq_iff (hpos : 0 < ratio) :
    r.parsed ratio i = r.partition ratio i ↔ (r.Used → r.Fits ratio i) := by
  unfold parsed partition
  by_cases hused : r.Used
  · rw [if_pos hused]
    constructor
    · intro heq _
      split at heq
      · rename_i hall
        have hfields := Option.some.inj heq
        injection hfields with hindex _ hsectors _ hlabel
        have hsize : (r.lastLba - r.firstLba + 1) % 2 ^ 64 = r.lastLba - r.firstLba + 1 :=
          Nat.eq_of_mul_eq_mul_right hpos hsectors
        refine ⟨by omega, hall.2.1, ?_, (Lib.Utf16.map_charOf_iff _).mp hlabel⟩
        rw [← hsize]
        exact hall.2.2
      · cases heq
    · intro hfits
      have hfit := hfits hused
      have hle := Nat.le_mul_of_pos_right (r.lastLba - r.firstLba + 1) hpos
      have hsize : (r.lastLba - r.firstLba + 1) % 2 ^ 64 = r.lastLba - r.firstLba + 1 :=
        Nat.mod_eq_of_lt (Nat.lt_of_le_of_lt hle hfit.sectors)
      have hindex : (i + 1) % 2 ^ 8 = i + 1 := by
        have := hfit.index
        omega
      rw [hsize, hindex, if_pos ⟨hused, hfit.start, hfit.sectors⟩,
        (Lib.Utf16.map_charOf_iff _).mpr hfit.name]
  · rw [if_neg hused, if_neg fun hall => hused hall.1]
    exact ⟨fun _ h => absurd h hused, fun _ => rfl⟩

theorem isSome_partition (h : (r.parsed ratio i).isSome) : (r.partition ratio i).isSome := by
  unfold parsed at h
  split at h
  · rename_i hall
    rw [partition, if_pos hall.1]
    rfl
  · cases h

theorem getD_encode {records : List (GptRecord entrySize)} (hi : records[i]? = some r) {a : Nat}
    (ha : a < entrySize) :
    (records.flatMap encode).getD (i * entrySize + a) 0 = r.encode.getD a 0 := by
  induction records generalizing i with
  | nil => cases hi
  | cons r' records ih =>
    rw [List.flatMap_cons]
    cases i with
    | zero =>
      cases hi
      rw [Nat.zero_mul, Nat.zero_add, List.getD_append _ _ _ _ (by rw [length_encode]; exact ha)]
    | succ i =>
      rw [List.getD_append_right _ _ _ _ (by rw [length_encode, Nat.succ_mul]; omega),
        length_encode, Nat.succ_mul, show i * entrySize + entrySize + a - entrySize =
          i * entrySize + a by omega]
      exact ih hi

end GptRecord

/-! ## Tables -/

theorem filterMap_eq_iff {α β : Type} {f g : α → Option β} {l : List α}
    (h : ∀ a ∈ l, (f a).isSome → (g a).isSome) :
    l.filterMap f = l.filterMap g ↔ ∀ a ∈ l, f a = g a := by
  constructor
  · induction l with
    | nil => simp
    | cons a l ih =>
      have hrest : ∀ b ∈ l, (f b).isSome → (g b).isSome :=
        fun b hb => h b (List.mem_cons_of_mem a hb)
      have hshorter : (l.filterMap f).length ≤ (l.filterMap g).length := by
        clear ih h
        induction l with
        | nil => exact Nat.le_refl 0
        | cons b l ih =>
          have hb := hrest b List.mem_cons_self
          have hl := ih fun c hc => hrest c (List.mem_cons_of_mem b hc)
          cases hf : f b with
          | none =>
            cases hg : g b with
            | none => simpa [hf, hg] using hl
            | some y => simpa [hf, hg] using Nat.le_succ_of_le hl
          | some x =>
            rcases Option.isSome_iff_exists.mp (hb (by rw [hf]; rfl)) with ⟨y, hg⟩
            simpa [hf, hg] using hl
      intro heq
      have ha := h a List.mem_cons_self
      cases hf : f a with
      | none =>
        cases hg : g a with
        | none =>
          rw [List.filterMap_cons_none hf, List.filterMap_cons_none hg] at heq
          simpa [hf, hg] using ih hrest heq
        | some y =>
          rw [List.filterMap_cons_none hf, List.filterMap_cons_some hg] at heq
          have hlen := congrArg List.length heq
          rw [List.length_cons] at hlen
          omega
      | some x =>
        rcases Option.isSome_iff_exists.mp (ha (by rw [hf]; rfl)) with ⟨y, hg⟩
        rw [List.filterMap_cons_some hf, List.filterMap_cons_some hg] at heq
        injection heq with hxy hl
        simpa [hf, hg, hxy] using ih hrest hl
  · intro h
    exact List.filterMap_congr h

/-- The records lie one after the other from the block `entriesLba` of a disk on, behind a header
with a correct CRC. -/
structure GptTable (disk : BlockSource) (entriesLba : Nat) {entrySize : Nat}
    (records : List (GptRecord entrySize)) : Prop where
  sectorSize : disk.sectorSize = 512 ∨ disk.sectorSize = 4096
  le_entrySize : 128 ≤ entrySize
  entrySize_le : entrySize ≤ disk.sectorSize
  count : records.length ≤ 1024
  header : ∃ hdr, disk.readLba 1 512 = some hdr ∧ hdr.slice 0 8 = gptSig ∧ 92 ≤ hdr.le32 12 ∧
    hdr.le32 12 ≤ 512 ∧
    (crc32 ((hdr.put 16 [0, 0, 0, 0]).slice 0 (hdr.le32 12))).toNat = hdr.le32 16 ∧
    u64At hdr 72 = entriesLba ∧ hdr.le32 80 = records.length ∧ hdr.le32 84 = entrySize
  blocks : ∀ k, k * disk.sectorSize < records.length * entrySize →
    entriesLba + k < 2 ^ 64 ∧ ∃ block, disk.readLba (entriesLba + k) disk.sectorSize = some block ∧
      ∀ a < disk.sectorSize, k * disk.sectorSize + a < records.length * entrySize →
        block a = (records.flatMap GptRecord.encode).getD (k * disk.sectorSize + a) 0

section Tables

variable {disk : BlockSource} {entriesLba entrySize : Nat} {records : List (GptRecord entrySize)}

def decoded (ratio : Nat) (records : List (GptRecord entrySize)) : List TableEntry :=
  (List.range records.length).filterMap fun i => records[i]?.bind (·.partition ratio i)

theorem GptTable.ss (h : GptTable disk entriesLba records) : disk.ss = disk.sectorSize := by
  have := h.sectorSize
  unfold BlockSource.ss
  omega

theorem GptTable.entryBytes (h : GptTable disk entriesLba records) {i : Nat}
    {r : GptRecord entrySize} (hi : records[i]? = some r) :
    ∃ entry, gptEntryBytes disk ⟨entriesLba, records.length, entrySize⟩ i = some entry ∧
      Holds entry 0 r.encode := by
  have hlt : i < records.length := (List.getElem?_eq_some_iff.mp hi).1
  have hend : i * entrySize + entrySize ≤ records.length * entrySize := by
    rw [← Nat.succ_mul]
    exact Nat.mul_le_mul_right entrySize hlt
  have hsize := h.le_entrySize
  have hss : 0 < disk.sectorSize := by
    have := h.entrySize_le
    omega
  have hpos := Nat.div_add_mod' (i * entrySize) disk.sectorSize
  have hmod := Nat.mod_lt (i * entrySize) hss
  rcases h.blocks (i * entrySize / disk.sectorSize) (by omega) with ⟨hlba, block, hread, hblock⟩
  unfold gptEntryBytes
  simp only [h.ss, checked, if_pos hlba, Option.bind_eq_bind, Option.bind_some, hread]
  by_cases hstraddle : disk.sectorSize < i * entrySize % disk.sectorSize + entrySize
  · rcases h.blocks (i * entrySize / disk.sectorSize + 1) (by rw [Nat.succ_mul]; omega)
      with ⟨_, second, hread', hsecond⟩
    simp only [if_pos hstraddle, Nat.add_assoc entriesLba, hread', Option.bind_some]
    refine ⟨_, rfl, ?_⟩
    intro a ha
    rw [r.length_encode] at ha
    rw [← GptRecord.getD_encode hi ha, Nat.zero_add]
    dsimp only
    by_cases hin : i * entrySize % disk.sectorSize + a < disk.sectorSize
    · rw [if_pos hin, hblock _ hin (by omega)]
      congr 1
      omega
    · have hle := h.entrySize_le
      rw [if_neg hin, hsecond _ (by omega) (by rw [Nat.succ_mul]; omega)]
      congr 1
      rw [Nat.succ_mul]
      omega
  · rw [if_neg hstraddle]
    refine ⟨_, rfl, ?_⟩
    intro a ha
    rw [r.length_encode] at ha
    rw [← GptRecord.getD_encode hi ha, Nat.zero_add]
    dsimp only
    rw [hblock _ (by omega) (by omega)]
    congr 1
    omega

theorem gptPartitions_parsed {h : GptHeader} {f : Nat → Option TableEntry} {entries : List Nat}
    (hf : ∀ i ∈ entries, ∃ entry, gptEntryBytes disk h i = some entry ∧
      gptPartition disk i entry = f i) :
    gptPartitions disk h entries = some (entries.filterMap f) := by
  induction entries with
  | nil => rfl
  | cons i rest ih =>
    rcases hf i List.mem_cons_self with ⟨entry, hbytes, hpart⟩
    simp only [gptPartitions, Option.bind_eq_bind, hbytes, Option.bind_some, hpart,
      ih fun j hj => hf j (List.mem_cons_of_mem i hj), List.filterMap_cons]
    cases f i <;> rfl

theorem GptTable.parseGpt_eq (h : GptTable disk entriesLba records) :
    (parseGpt disk).getD [] =
      (List.range records.length).filterMap fun i => records[i]?.bind (·.parsed disk.ratio i) := by
  rcases h.header with ⟨hdr, hread, hsig, hmin, hmax, hcrc, hlba, hnum, hsize⟩
  have hle := h.entrySize_le
  have hge := h.le_entrySize
  have hcount := h.count
  have h4096 : entrySize ≤ 4096 := by
    have := h.sectorSize
    omega
  by_cases hnone : records.length = 0
  · have hheader : gptHeader disk = none := by
      simp only [gptHeader, Option.bind_eq_bind, hread, Option.bind_some, hnum]
      exact if_neg fun hall => hall.2.2.2.2.2.2.1 hnone
    rw [parseGpt, hheader, hnone]
    rfl
  · have hheader : gptHeader disk = some ⟨entriesLba, records.length, entrySize⟩ := by
      simp only [gptHeader, Option.bind_eq_bind, hread, Option.bind_some, hlba, hnum, hsize, h.ss]
      exact if_pos ⟨hsig, hmin, hmax, hcrc, hge, h4096, hnone, hcount, hle⟩
    have hparts : gptPartitions disk ⟨entriesLba, records.length, entrySize⟩
        (List.range records.length) = some ((List.range records.length).filterMap fun i =>
          records[i]?.bind (·.parsed disk.ratio i)) := by
      apply gptPartitions_parsed
      intro i hi
      have hrec := List.getElem?_eq_getElem (List.mem_range.mp hi)
      rcases h.entryBytes hrec with ⟨entry, hbytes, hholds⟩
      rw [hrec]
      exact ⟨entry, hbytes, GptRecord.gptPartition_eq hholds disk i⟩
    simp only [parseGpt, hheader, Option.bind_eq_bind, Option.bind_some, hparts]
    split
    · rename_i hempty
      rw [hempty]
      rfl
    · rfl

theorem parseGpt_decodes (h : GptTable disk entriesLba records) :
    (parseGpt disk).getD [] = decoded disk.ratio records ↔
      ∀ (i : Nat) (r : GptRecord entrySize), records[i]? = some r → r.Used →
        r.Fits disk.ratio i := by
  have hpos : 0 < disk.ratio := lt_max_of_lt_right Nat.one_pos
  rw [h.parseGpt_eq, decoded, filterMap_eq_iff]
  · constructor
    · intro heq i r hi
      have hlt : i < records.length := (List.getElem?_eq_some_iff.mp hi).1
      have hsame := heq i (List.mem_range.mpr hlt)
      rw [hi, Option.bind_some, Option.bind_some] at hsame
      exact (GptRecord.parsed_eq_iff hpos).mp hsame
    · intro hfits i hi
      have hrec := List.getElem?_eq_getElem (List.mem_range.mp hi)
      rw [hrec, Option.bind_some, Option.bind_some]
      exact (GptRecord.parsed_eq_iff hpos).mpr (hfits i _ hrec)
  · intro i hi hsome
    have hrec := List.getElem?_eq_getElem (List.mem_range.mp hi)
    rw [hrec, Option.bind_some] at hsome ⊢
    exact GptRecord.isSome_partition hsome

theorem parseGpt_eq_iff (parts : List TableEntry) :
    parseGpt disk = (if parts = [] then none else some parts) ↔ (parseGpt disk).getD [] = parts := by
  have hne : parseGpt disk ≠ some [] := by
    intro h
    rcases Option.bind_eq_some_iff.mp h with ⟨_, _, h⟩
    rcases Option.bind_eq_some_iff.mp h with ⟨parts', _, h⟩
    split at h
    · cases h
    · rename_i hsome
      exact hsome (Option.some.inj h)
  cases hparse : parseGpt disk with
  | none =>
    by_cases hparts : parts = []
    · simp [hparts]
    · simp [hparts, Ne.symm hparts]
  | some parts' =>
    have hparts' : parts' ≠ [] := by
      rintro rfl
      exact hne hparse
    by_cases hparts : parts = []
    · simp [hparts, hparts']
    · simp [hparts]

/-- The partitions of a GPT: exactly those of its used records, in order and scaled, as long as each
used record fits. -/
theorem parseGpt_decodes_iff (h : GptTable disk entriesLba records) :
    parseGpt disk = (if decoded disk.ratio records = [] then none
        else some (decoded disk.ratio records)) ↔
      ∀ (i : Nat) (r : GptRecord entrySize), records[i]? = some r → r.Used →
        r.Fits disk.ratio i := by
  rw [parseGpt_eq_iff]
  exact parseGpt_decodes h

/-- A header for `n` entries of 128 bytes from block 2 on. -/
def headerOf (n crc : Nat) : Memory :=
  (((((Memory.put (fun _ => 0) 0 gptSig).put 12 (Memory.toLe32 92)).put 16
    (Memory.toLe32 crc)).put 72 (toLe64 2)).put 80 (Memory.toLe32 n)).put 84 (Memory.toLe32 128)

def HeaderFits (n crc : Nat) : Prop :=
  let hdr := headerOf n crc
  hdr.slice 0 8 = gptSig ∧ 92 ≤ hdr.le32 12 ∧ hdr.le32 12 ≤ 512 ∧
    (crc32 ((hdr.put 16 [0, 0, 0, 0]).slice 0 (hdr.le32 12))).toNat = hdr.le32 16 ∧
    u64At hdr 72 = 2 ∧ hdr.le32 80 = n ∧ hdr.le32 84 = 128

instance (n crc : Nat) : Decidable (HeaderFits n crc) := inferInstanceAs (Decidable (_ ∧ _))

/-- A disk of 512-byte blocks with a header and records. -/
def tableDisk (crc : Nat) (records : List (GptRecord 128)) : BlockSource where
  sectorSize := 512
  read _ := none
  readLba lba _ :=
    if lba = 1 then some (headerOf records.length crc)
    else some fun a => (records.flatMap GptRecord.encode).getD ((lba - 2) * 512 + a) 0

theorem gptTable_tableDisk {crc : Nat} {records : List (GptRecord 128)}
    (hcount : records.length ≤ 1024) (hheader : HeaderFits records.length crc) :
    GptTable (tableDisk crc records) 2 records where
  sectorSize := Or.inl rfl
  le_entrySize := Nat.le_refl 128
  entrySize_le := (by decide : 128 ≤ 512)
  count := hcount
  header := ⟨headerOf records.length crc, rfl, hheader⟩
  blocks := by
    intro k hk
    have hsector : (tableDisk crc records).sectorSize = 512 := rfl
    rw [hsector] at hk ⊢
    refine ⟨by omega, _, if_neg (by omega), ?_⟩
    intro a _ _
    rw [Nat.add_sub_cancel_left]

/-- A record of one block with a type, and a name that starts with two units. -/
def recordWith (guid first second : Nat) (hfirst : first < 2 ^ 16)
    (hsecond : second < 2 ^ 16) : GptRecord 128 where
  typeGuid := UInt8.ofNat guid :: List.replicate 15 0
  uniqueGuid := List.replicate 16 0
  firstLba := 40
  lastLba := 40
  attributes := List.replicate 8 0
  units := first :: second :: List.replicate 34 0
  reserved := []
  length_typeGuid := rfl
  length_uniqueGuid := rfl
  firstLba_lt := by decide
  lastLba_lt := by decide
  length_attributes := rfl
  length_units := rfl
  units_lt := by
    intro c hc
    simp only [List.mem_cons, List.mem_replicate] at hc
    omega
  length_reserved := rfl

def unusedRecord : GptRecord 128 := recordWith 0 0 0 (by decide) (by decide)

def plainRecord : GptRecord 128 := recordWith 1 65 0 (by decide) (by decide)

def pairRecord : GptRecord 128 := recordWith 1 0xD83D 0xDE00 (by decide) (by decide)

theorem getElem?_last (n : Nat) :
    (List.replicate n unusedRecord ++ [plainRecord])[n]? = some plainRecord := by
  simp

theorem headersFit : HeaderFits 1 4252174340 ∧ HeaderFits 256 2807602091 := by
  decide +kernel

/-- One partition is decoded. -/
theorem parseGpt_decodes_plain :
    parseGpt (tableDisk 4252174340 [plainRecord]) =
      some [⟨1, 40, 1, .unknown, ['A']⟩] := by
  have hfits : ∀ (i : Nat) (r : GptRecord 128), [plainRecord][i]? = some r → r.Used →
      r.Fits (tableDisk 4252174340 [plainRecord]).ratio i := by
    intro i r hi _
    cases i with
    | zero =>
      cases hi
      exact ⟨by decide, by decide, by decide, by decide⟩
    | succ i => cases hi
  have htable : GptTable (tableDisk 4252174340 [plainRecord]) 2 [plainRecord] :=
    gptTable_tableDisk (by decide) headersFit.1
  rw [(parseGpt_decodes_iff htable).mpr hfits]
  decide

/-- The used record at position 256 is given the index 0, and the pair of surrogates is read as two
question marks. -/
theorem parseGpt_decodes_fails :
    let records := List.replicate 255 unusedRecord ++ [plainRecord]
    GptTable (tableDisk 2807602091 records) 2 records ∧
      (parseGpt (tableDisk 2807602091 records)).getD [] ≠
        decoded (tableDisk 2807602091 records).ratio records ∧
      GptTable (tableDisk 4252174340 [pairRecord]) 2 [pairRecord] ∧
      (parseGpt (tableDisk 4252174340 [pairRecord])).getD [] ≠
        decoded (tableDisk 4252174340 [pairRecord]).ratio [pairRecord] := by
  intro records
  have hlen : records.length = 256 := by
    rw [List.length_append, List.length_replicate]
    rfl
  have hlarge : GptTable (tableDisk 2807602091 records) 2 records := by
    apply gptTable_tableDisk
    · omega
    · rw [hlen]
      exact headersFit.2
  have hpair : GptTable (tableDisk 4252174340 [pairRecord]) 2 [pairRecord] :=
    gptTable_tableDisk (by decide) headersFit.1
  refine ⟨hlarge, ?_, hpair, ?_⟩
  · intro heq
    have hlast : records[255]? = some plainRecord := getElem?_last 255
    have hfits := (parseGpt_decodes hlarge).mp heq 255 plainRecord hlast (by decide)
    exact absurd hfits.index (by decide)
  · intro heq
    have hfits := (parseGpt_decodes hpair).mp heq 0 pairRecord rfl (by decide)
    exact absurd hfits.name (by decide)

end Tables

end Vibra.Disk
