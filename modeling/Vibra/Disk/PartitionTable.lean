import Vibra.Disk.Partition
import Vibra.Fat32.Directory

/-! # Partition tables

The table of a disk is an MBR with a chain of logical partitions, or a GPT. Either gives
partitions with an index of a byte, from which their names are made.
-/

namespace Vibra.Disk

open Fat32 (Name)
open Lib (Memory)

/-- What a disk answers to reads: of its first sector, and of `len` bytes from a block on. -/
structure BlockSource where
  sectorSize : Nat
  read : Nat → Option Memory
  readLba : Nat → Nat → Option Memory

inductive PartKind where
  | efi
  | data
  | linux
  | unknown
deriving DecidableEq

structure TableEntry where
  index : Nat
  startLba : Nat
  sectors : Nat
  kind : PartKind
  label : Name
deriving DecidableEq

namespace BlockSource

variable (disk : BlockSource)

def ss : Nat := max disk.sectorSize 512

def ratio : Nat := max (disk.ss / 512) 1

end BlockSource

def u64At (m : Memory) (off : Nat) : Nat := m.le32 off + 2 ^ 32 * m.le32 (off + 4)

def kindFromMbr (ptype : Nat) : PartKind :=
  if ptype ∈ [0x01, 0x04, 0x06, 0x0B, 0x0C, 0x0E, 0x11, 0x14, 0x16, 0x1B, 0x1C, 0x1E] then .data
  else if ptype ∈ [0x07, 0x17, 0x27] then .data
  else if ptype = 0x83 then .linux
  else if ptype = 0xEF then .efi
  else .unknown

def readMbrSector (disk : BlockSource) (lba : Nat) : Option Memory := do
  let buf ← disk.readLba lba disk.ss
  if buf 510 = 0x55 ∧ buf 511 = 0xAA then some buf else none

def mbrEntry (sector : Memory) (index : Nat) : Nat × Nat × Nat :=
  let off := 446 + index * 16
  ((sector (off + 4)).toNat, sector.le32 (off + 8), sector.le32 (off + 12))

/-- The partition that an entry describes. -/
def mbrPartition (disk : BlockSource) (index ptype start sectors : Nat) : TableEntry where
  index
  startLba := saturating 64 (start * disk.ratio)
  sectors := saturating 64 (sectors * disk.ratio)
  kind := kindFromMbr ptype
  label := []

/-- The primary entries, with the start of the extended partition. -/
def mbrPrimary (disk : BlockSource) (sector0 : Memory) :
    List Nat → List TableEntry × Option Nat → List TableEntry × Option Nat
  | [], acc => acc
  | i :: rest, (parts, extended) =>
    let (ptype, start, sectors) := mbrEntry sector0 i
    if ptype = 0 ∨ sectors = 0 then mbrPrimary disk sector0 rest (parts, extended)
    else if ptype = 0xEE then mbrPrimary disk sector0 rest (parts, extended)
    else if ptype = 0x05 ∨ ptype = 0x0F ∨ ptype = 0x85 then
      mbrPrimary disk sector0 rest (parts, some start)
    else
      mbrPrimary disk sector0 rest
        (parts ++ [mbrPartition disk ((i + 1) % 2 ^ 8) ptype start sectors], extended)

/-- The first entry of a link is a logical partition, with a start from the link on. -/
def mbrOwn (disk : BlockSource) (ebrLba index : Nat) (ebr : Memory) (parts : List TableEntry) :
    Option (List TableEntry × Nat) :=
  let (ptype, relStart, sectors) := mbrEntry ebr 0
  if ptype = 0 ∨ sectors = 0 then some (parts, index)
  else do
    let start ← checked (ebrLba + relStart)
    some (parts ++ [mbrPartition disk index ptype start sectors], saturating 8 (index + 1))

/-- The chain of logical partitions. `none` is an address that overflows. -/
def mbrLogical (disk : BlockSource) (extended : Nat) :
    Nat → Nat → Nat → List TableEntry → Option (List TableEntry)
  | 0, _, _, parts => some parts
  | n + 1, ebrLba, index, parts =>
    match readMbrSector disk ebrLba with
    | none => some parts
    | some ebr => do
      let (parts, index) ← mbrOwn disk ebrLba index ebr parts
      -- The second entry is the next link, with a start from the extended partition on.
      let (nextType, nextRel, nextSectors) := mbrEntry ebr 1
      if nextType = 0 ∨ nextSectors = 0 then some parts
      else do
        let next ← checked (extended + nextRel)
        if next = ebrLba then some parts else mbrLogical disk extended n next index parts

/-- The primary partitions and then the logical ones. -/
def mbrPartitions (disk : BlockSource) (sector0 : Memory) : Option (List TableEntry) :=
  match mbrPrimary disk sector0 [0, 1, 2, 3] ([], none) with
  | (parts, none) => some parts
  | (parts, some extended) => mbrLogical disk extended 128 extended 5 parts

def parseMbr (disk : BlockSource) (sector0 : Memory) : Option (List TableEntry) := do
  let parts ← mbrPartitions disk sector0
  if parts = [] then none else some parts

def crc32 (data : List UInt8) : UInt32 :=
  let step (crc : UInt32) (_ : Nat) : UInt32 :=
    (crc >>> 1) ^^^ (0xEDB88320 &&& (0 - (crc &&& 1)))
  ~~~data.foldl (fun crc b => (List.range 8).foldl step (crc ^^^ b.toUInt32)) 0xFFFFFFFF

def gptSig : List UInt8 := [0x45, 0x46, 0x49, 0x20, 0x50, 0x41, 0x52, 0x54]

def guidMsBasicData : List UInt8 :=
  [0xA2, 0xA0, 0xD0, 0xEB, 0xE5, 0xB9, 0x33, 0x44, 0x87, 0xC0, 0x68, 0xB6, 0xB7, 0x26, 0x99, 0xC7]

def guidEfiSystem : List UInt8 :=
  [0x28, 0x73, 0x2A, 0xC1, 0x1F, 0xF8, 0xD2, 0x11, 0xBA, 0x4B, 0x00, 0xA0, 0xC9, 0x3E, 0xC9, 0x3B]

def guidLinuxData : List UInt8 :=
  [0xAF, 0x3D, 0xC6, 0x0F, 0x83, 0x84, 0x72, 0x47, 0x8E, 0x79, 0x3D, 0x69, 0xD8, 0x47, 0x7D, 0xE4]

/-- Units up to the first zero, with a mark for surrogates. -/
def utf16Name (entry : Memory) (off : Nat) : Nat → Name
  | 0 => []
  | n + 1 =>
    let c := entry.le16 off
    if c = 0 then []
    else (if 0xD800 ≤ c ∧ c < 0xE000 then '?' else Char.ofNat c) :: utf16Name entry (off + 2) n

structure GptHeader where
  entriesLba : Nat
  numEntries : Nat
  entrySize : Nat

def gptHeader (disk : BlockSource) : Option GptHeader := do
  let hdr ← disk.readLba 1 512
  let headerSize := hdr.le32 12
  let entriesLba := u64At hdr 72
  let numEntries := hdr.le32 80
  let entrySize := hdr.le32 84
  if hdr.slice 0 8 = gptSig ∧ 92 ≤ headerSize ∧ headerSize ≤ 512 ∧
      (crc32 ((hdr.put 16 [0, 0, 0, 0]).slice 0 headerSize)).toNat = hdr.le32 16 ∧
      128 ≤ entrySize ∧ entrySize ≤ 4096 ∧ numEntries ≠ 0 ∧ numEntries ≤ 1024 ∧
      entrySize ≤ disk.ss then
    some ⟨entriesLba, numEntries, entrySize⟩
  else none

/-- The bytes of an entry, from one block or from two in a row. -/
def gptEntryBytes (disk : BlockSource) (h : GptHeader) (i : Nat) : Option Memory := do
  let byteOffset := i * h.entrySize
  let lba ← checked (h.entriesLba + byteOffset / disk.ss)
  let inSector := byteOffset % disk.ss
  let sector ← disk.readLba lba disk.ss
  if disk.ss < inSector + h.entrySize then do
    let second ← disk.readLba (lba + 1) disk.ss
    some fun a => if inSector + a < disk.ss then sector (inSector + a)
      else second (inSector + a - disk.ss)
  else some fun a => sector (inSector + a)

/-- The partition of an entry, unless the entry is passed over. -/
def gptPartition (disk : BlockSource) (i : Nat) (entry : Memory) : Option TableEntry := do
  let first := u64At entry 32
  let last := u64At entry 40
  if entry.slice 0 16 = List.replicate 16 0 ∨ last < first then none
  else
    let startLba ← checked (first * disk.ratio)
    let sectors ← checked ((last - first + 1) % 2 ^ 64 * disk.ratio)
    some
      { index := (i + 1) % 2 ^ 8
        startLba
        sectors
        kind :=
          if entry.slice 0 16 = guidEfiSystem then .efi
          else if entry.slice 0 16 = guidLinuxData then .linux
          else if entry.slice 0 16 = guidMsBasicData then .data
          else .unknown
        label := utf16Name entry 56 36 }

/-- The loop over the entries; a block that cannot be read gives up the table. -/
def gptPartitions (disk : BlockSource) (h : GptHeader) : List Nat → Option (List TableEntry)
  | [] => some []
  | i :: rest => do
    let entry ← gptEntryBytes disk h i
    let parts ← gptPartitions disk h rest
    pure ((gptPartition disk i entry).toList ++ parts)

def parseGpt (disk : BlockSource) : Option (List TableEntry) := do
  let h ← gptHeader disk
  let parts ← gptPartitions disk h (List.range h.numEntries)
  if parts = [] then none else some parts

def hasProtective (sector0 : Memory) : Bool :=
  [0, 1, 2, 3].any fun i => (mbrEntry sector0 i).1 = 0xEE

def readPartitions (disk : BlockSource) : List TableEntry :=
  match disk.read 0 with
  | none => []
  | some sector0 =>
    match if hasProtective sector0 then parseGpt disk else none with
    | some parts => parts
    | none =>
      match parseMbr disk sector0 with
      | some parts => parts
      | none => (parseGpt disk).getD []

/-! ## The indices of a table -/

variable (disk : BlockSource)

theorem mbrPrimary_indices (sector0 : Memory) (entries : List Nat)
    (acc : List TableEntry × Option Nat) :
    ∃ used : List Nat, used.Sublist entries ∧
      (mbrPrimary disk sector0 entries acc).1.map (·.index) =
        acc.1.map (·.index) ++ used.map fun i => (i + 1) % 2 ^ 8 := by
  induction entries generalizing acc with
  | nil => exact ⟨[], List.Sublist.refl _, (List.append_nil _).symm⟩
  | cons i rest ih =>
    obtain ⟨parts, extended⟩ := acc
    rw [mbrPrimary]
    dsimp only
    split
    · obtain ⟨used, hused, h⟩ := ih (parts, extended)
      exact ⟨used, hused.cons _, h⟩
    · split
      · obtain ⟨used, hused, h⟩ := ih (parts, extended)
        exact ⟨used, hused.cons _, h⟩
      · split
        · obtain ⟨used, hused, h⟩ := ih (parts, some (mbrEntry sector0 i).2.1)
          exact ⟨used, hused.cons _, h⟩
        · obtain ⟨used, hused, h⟩ := ih (parts ++ [mbrPartition disk ((i + 1) % 2 ^ 8)
            (mbrEntry sector0 i).1 (mbrEntry sector0 i).2.1 (mbrEntry sector0 i).2.2], extended)
          refine ⟨i :: used, hused.cons_cons _, h.trans ?_⟩
          simp [mbrPartition]

variable {disk}

def Fresh (parts : List TableEntry) (index : Nat) : Prop :=
  (parts.map (·.index)).Nodup ∧ ∀ p ∈ parts, p.index < index

theorem Fresh.own {ebrLba index index' : Nat} {ebr : Memory} {parts parts' : List TableEntry}
    (h : Fresh parts index) (hlt : index < 2 ^ 8 - 1)
    (hown : mbrOwn disk ebrLba index ebr parts = some (parts', index')) :
    Fresh parts' index' ∧ index' ≤ index + 1 := by
  unfold mbrOwn at hown
  dsimp only at hown
  split at hown
  · obtain ⟨rfl, rfl⟩ := Prod.mk.inj (Option.some.inj hown)
    exact ⟨h, Nat.le_succ _⟩
  · obtain ⟨start, -, hpair⟩ := Option.bind_eq_some_iff.mp hown
    obtain ⟨rfl, rfl⟩ := Prod.mk.inj (Option.some.inj hpair)
    have hnext : saturating 8 (index + 1) = index + 1 := by
      unfold saturating
      omega
    rw [hnext]
    refine ⟨⟨?_, fun p hp => ?_⟩, le_refl _⟩
    · rw [List.map_append, List.map_singleton]
      refine h.1.append (List.nodup_singleton _) ?_
      rw [List.disjoint_singleton]
      intro hmem
      obtain ⟨p, hp, heq⟩ := List.mem_map.mp hmem
      exact (h.2 p hp).ne heq
    · rcases List.mem_append.mp hp with hp | hp
      · exact Nat.lt_succ_of_lt (h.2 p hp)
      · rw [List.mem_singleton.mp hp]
        exact Nat.lt_succ_self index

theorem Fresh.logical {extended n ebrLba index : Nat} {parts parts' : List TableEntry}
    (h : Fresh parts index) (hroom : index + n < 2 ^ 8)
    (hchain : mbrLogical disk extended n ebrLba index parts = some parts') :
    (parts'.map (·.index)).Nodup := by
  induction n generalizing ebrLba index parts with
  | zero =>
    obtain rfl := Option.some.inj hchain
    exact h.1
  | succ n ih =>
    rw [mbrLogical] at hchain
    split at hchain
    · obtain rfl := Option.some.inj hchain
      exact h.1
    next ebr _ =>
      obtain ⟨⟨parts₁, index₁⟩, hown, hrest⟩ := Option.bind_eq_some_iff.mp hchain
      obtain ⟨hfresh, hle⟩ := h.own (by omega) hown
      dsimp only at hrest
      split at hrest
      · obtain rfl := Option.some.inj hrest
        exact hfresh.1
      · obtain ⟨next, -, hlink⟩ := Option.bind_eq_some_iff.mp hrest
        split at hlink
        · obtain rfl := Option.some.inj hlink
          exact hfresh.1
        · exact ih hfresh (by omega) hlink

theorem parseMbr_indices {sector0 : Memory} {parts : List TableEntry}
    (h : parseMbr disk sector0 = some parts) : (parts.map (·.index)).Nodup := by
  obtain ⟨used, hused, hprimary⟩ := mbrPrimary_indices disk sector0 [0, 1, 2, 3] ([], none)
  obtain ⟨parts', hparts', hsome⟩ := Option.bind_eq_some_iff.mp h
  have hnodup : (parts'.map (·.index)).Nodup := by
    unfold mbrPartitions at hparts'
    generalize mbrPrimary disk sector0 [0, 1, 2, 3] ([], none) = primary at hparts' hprimary
    obtain ⟨primaries, extended⟩ := primary
    dsimp only at hprimary
    rw [List.map_nil, List.nil_append] at hprimary
    have hsub : (primaries.map (·.index)).Sublist [1, 2, 3, 4] := by
      rw [hprimary]
      exact hused.map fun i => (i + 1) % 2 ^ 8
    have hfresh : Fresh primaries 5 := by
      refine ⟨hsub.nodup (by decide), fun p hp => ?_⟩
      have hmem := hsub.subset (List.mem_map_of_mem hp)
      simp only [List.mem_cons, List.not_mem_nil, or_false] at hmem
      omega
    cases extended with
    | none =>
      obtain rfl := Option.some.inj hparts'
      exact hfresh.1
    | some extended => exact hfresh.logical (by decide) hparts'
  split at hsome
  · cases hsome
  · obtain rfl := Option.some.inj hsome
    exact hnodup

def gptUsed (disk : BlockSource) (h : GptHeader) (i : Nat) : Bool :=
  ((gptEntryBytes disk h i).bind (gptPartition disk i)).isSome

/-- The numbers of the used entries, counted from zero. -/
def gptNumbers (disk : BlockSource) : List Nat :=
  match gptHeader disk with
  | none => []
  | some h => (List.range h.numEntries).filter (gptUsed disk h)

theorem gptPartition_index {i : Nat} {entry : Memory} {p : TableEntry}
    (h : gptPartition disk i entry = some p) : p.index = (i + 1) % 2 ^ 8 := by
  unfold gptPartition at h
  dsimp only at h
  split at h
  · cases h
  · obtain ⟨startLba, -, h⟩ := Option.bind_eq_some_iff.mp h
    obtain ⟨sectors, -, h⟩ := Option.bind_eq_some_iff.mp h
    rw [← Option.some.inj h]

theorem gptPartitions_indices {h : GptHeader} {entries : List Nat} {parts : List TableEntry}
    (hparts : gptPartitions disk h entries = some parts) :
    parts.map (·.index) = (entries.filter (gptUsed disk h)).map fun i => (i + 1) % 2 ^ 8 := by
  induction entries generalizing parts with
  | nil =>
    obtain rfl := Option.some.inj hparts
    rfl
  | cons i rest ih =>
    obtain ⟨entry, hentry, hparts⟩ := Option.bind_eq_some_iff.mp hparts
    obtain ⟨parts', hrest, hparts⟩ := Option.bind_eq_some_iff.mp hparts
    rw [← Option.some.inj hparts, List.map_append, ih hrest]
    have hused : gptUsed disk h i = (gptPartition disk i entry).isSome := by
      rw [gptUsed, hentry, Option.bind_some]
    cases hp : gptPartition disk i entry with
    | none =>
      rw [List.filter_cons_of_neg (by rw [hused, hp]; decide)]
      rfl
    | some p =>
      rw [List.filter_cons_of_pos (by rw [hused, hp]; rfl), List.map_cons,
        ← gptPartition_index hp]
      rfl

theorem parseGpt_indices {parts : List TableEntry} (h : parseGpt disk = some parts) :
    parts.map (·.index) = (gptNumbers disk).map fun i => (i + 1) % 2 ^ 8 := by
  obtain ⟨header, hheader, h⟩ := Option.bind_eq_some_iff.mp h
  obtain ⟨parts', hparts, h⟩ := Option.bind_eq_some_iff.mp h
  split at h
  · cases h
  · rw [← Option.some.inj h, gptPartitions_indices hparts, gptNumbers, hheader]

def ReadsGpt (disk : BlockSource) : Prop :=
  ∃ sector0, disk.read 0 = some sector0 ∧ (parseGpt disk).isSome ∧
    (hasProtective sector0 ∨ parseMbr disk sector0 = none)

def DistinctEntries (disk : BlockSource) : Prop :=
  ReadsGpt disk → ∀ i ∈ gptNumbers disk, ∀ j ∈ gptNumbers disk, i % 2 ^ 8 = j % 2 ^ 8 → i = j

theorem nodup_gptNumbers : (gptNumbers disk).Nodup := by
  unfold gptNumbers
  split
  · exact List.nodup_nil
  · exact List.nodup_range.filter _

theorem parseGpt_nodup {parts : List TableEntry} (h : parseGpt disk = some parts) :
    (parts.map (·.index)).Nodup ↔
      ∀ i ∈ gptNumbers disk, ∀ j ∈ gptNumbers disk, i % 2 ^ 8 = j % 2 ^ 8 → i = j := by
  rw [parseGpt_indices h, List.nodup_map_iff_inj_on nodup_gptNumbers]
  refine forall₄_congr fun i _ j _ => ?_
  have hmod : (i + 1) % 2 ^ 8 = (j + 1) % 2 ^ 8 ↔ i % 2 ^ 8 = j % 2 ^ 8 := by omega
  rw [hmod]

theorem readPartitions_nodup :
    ((readPartitions disk).map (·.index)).Nodup ↔ DistinctEntries disk := by
  unfold readPartitions
  split
  next hread =>
    refine ⟨fun _ hgpt => ?_, fun _ => List.nodup_nil⟩
    obtain ⟨sector0, hsome, -⟩ := hgpt
    rw [hread] at hsome
    cases hsome
  next sector0 hread =>
    have hgpt : ReadsGpt disk ↔ (parseGpt disk).isSome ∧
        (hasProtective sector0 ∨ parseMbr disk sector0 = none) :=
      ⟨fun ⟨_, h, hrest⟩ => by rwa [← Option.some.inj (hread.symm.trans h)] at hrest,
        fun h => ⟨_, hread, h⟩⟩
    rw [DistinctEntries, hgpt]
    cases hparse : parseGpt disk with
    | none =>
      simp only [ite_self, Option.isSome_none, Bool.false_eq_true, false_and, false_imp_iff,
        iff_true, Option.getD_none]
      split
      next parts hmbr => exact parseMbr_indices hmbr
      · exact List.nodup_nil
    | some parts =>
      by_cases hprotective : hasProtective sector0
      · simp only [hprotective, if_true, Option.isSome_some, true_or, and_self, true_imp_iff]
        exact parseGpt_nodup hparse
      · simp only [hprotective, Bool.false_eq_true, if_false, Option.isSome_some, true_and,
          false_or, Option.getD_some]
        cases hmbr : parseMbr disk sector0 with
        | none => simpa using parseGpt_nodup hparse
        | some mbr => simpa using parseMbr_indices hmbr

end Vibra.Disk
