import Mathlib.Data.List.Range
import Vibra.Disk.PartitionTable

/-! # Where partitions come from

Each partition that `read_partitions` returns comes from an entry of the first sector, from a link
of the chain of logical partitions, or from an entry of a GPT.
-/

namespace Vibra.Disk

open Lib (Memory)

/-- What a partition comes from: an entry of the first sector, the link at an LBA, an entry of the
GPT. -/
inductive Origin where
  | primary (entry : Nat)
  | logical (ebr : Nat)
  | gpt (entry : Nat)

def Signed (sector : Memory) : Prop := sector 510 = 0x55 ∧ sector 511 = 0xAA

instance (sector : Memory) : Decidable (Signed sector) := inferInstanceAs (Decidable (_ ∧ _))

/-- A header of a GPT with its signature and its CRC. -/
def GptValid (disk : BlockSource) : Prop :=
  ∃ hdr, disk.readLba 1 512 = some hdr ∧ hdr.slice 0 8 = gptSig ∧ 92 ≤ hdr.le32 12 ∧
    hdr.le32 12 ≤ 512 ∧
    (crc32 ((hdr.put 16 [0, 0, 0, 0]).slice 0 (hdr.le32 12))).toNat = hdr.le32 16

/-- The link that a logical partition comes from. -/
def Origin.ebr : Origin → Option Nat
  | .logical lba => some lba
  | .primary _ => none
  | .gpt _ => none

/-- What a partition rests on. -/
def Origin.Valid (disk : BlockSource) : Origin → Prop
  | .primary _ => ∃ sector0, disk.read 0 = some sector0 ∧ Signed sector0
  | .logical lba => ∃ ebr, disk.readLba lba disk.ss = some ebr ∧ Signed ebr
  | .gpt _ => GptValid disk

def UsedEntry (sector : Memory) (i : Nat) : Prop :=
  (mbrEntry sector i).1 ≠ 0 ∧ (mbrEntry sector i).2.2 ≠ 0

def ExtendedEntry (sector : Memory) (i : Nat) : Prop :=
  UsedEntry sector i ∧ ((mbrEntry sector i).1 = 0x05 ∨ (mbrEntry sector i).1 = 0x0F ∨
    (mbrEntry sector i).1 = 0x85)

def PrimaryEntry (sector : Memory) (i : Nat) : Prop :=
  UsedEntry sector i ∧ (mbrEntry sector i).1 ≠ 0xEE ∧ ¬ ExtendedEntry sector i

instance (sector : Memory) (i : Nat) : Decidable (UsedEntry sector i) :=
  inferInstanceAs (Decidable (_ ∧ _))

instance (sector : Memory) (i : Nat) : Decidable (ExtendedEntry sector i) :=
  inferInstanceAs (Decidable (_ ∧ _))

instance (sector : Memory) (i : Nat) : Decidable (PrimaryEntry sector i) :=
  inferInstanceAs (Decidable (_ ∧ _))

def primaryAt (disk : BlockSource) (sector0 : Memory) (i : Nat) : TableEntry :=
  mbrPartition disk ((i + 1) % 2 ^ 8) (mbrEntry sector0 i).1 (mbrEntry sector0 i).2.1
    (mbrEntry sector0 i).2.2

def primaries (disk : BlockSource) (sector0 : Memory) (entries : List Nat) :
    List (Origin × TableEntry) :=
  (entries.filter (PrimaryEntry sector0 ·)).map fun i => (.primary i, primaryAt disk sector0 i)

/-- The start of the extended partition: the last entry counts. -/
def extendedStart (sector0 : Memory) : List Nat → Option Nat → Option Nat
  | [], start => start
  | i :: rest, start =>
    extendedStart sector0 rest
      (if ExtendedEntry sector0 i then some (mbrEntry sector0 i).2.1 else start)

theorem mbrPrimary_eq (disk : BlockSource) (sector0 : Memory) (entries : List Nat)
    (parts : List TableEntry) (extended : Option Nat) :
    mbrPrimary disk sector0 entries (parts, extended) =
      (parts ++ (primaries disk sector0 entries).map (·.2),
        extendedStart sector0 entries extended) := by
  induction entries generalizing parts extended with
  | nil => simp [mbrPrimary, primaries, extendedStart]
  | cons i rest ih =>
    rw [mbrPrimary, extendedStart, primaries]
    dsimp only
    by_cases hunused : (mbrEntry sector0 i).1 = 0 ∨ (mbrEntry sector0 i).2.2 = 0
    · have hused : ¬ UsedEntry sector0 i := by
        rintro ⟨htype, hsize⟩
        exact hunused.elim htype hsize
      have hprimary : ¬ PrimaryEntry sector0 i := fun h => hused h.1
      have hextended : ¬ ExtendedEntry sector0 i := fun h => hused h.1
      rw [if_pos hunused, ih, List.filter_cons_of_neg (by simpa using hprimary),
        if_neg hextended, primaries]
    · have hused : UsedEntry sector0 i := not_or.mp hunused
      rw [if_neg hunused]
      by_cases hprotective : (mbrEntry sector0 i).1 = 0xEE
      · have hprimary : ¬ PrimaryEntry sector0 i := fun h => h.2.1 hprotective
        have hextended : ¬ ExtendedEntry sector0 i := by
          rintro ⟨_, h⟩
          omega
        rw [if_pos hprotective, ih, List.filter_cons_of_neg (by simpa using hprimary),
          if_neg hextended, primaries]
      · rw [if_neg hprotective]
        by_cases hcontainer : (mbrEntry sector0 i).1 = 0x05 ∨ (mbrEntry sector0 i).1 = 0x0F ∨
            (mbrEntry sector0 i).1 = 0x85
        · have hextended : ExtendedEntry sector0 i := ⟨hused, hcontainer⟩
          have hprimary : ¬ PrimaryEntry sector0 i := fun h => h.2.2 hextended
          rw [if_pos hcontainer, ih, List.filter_cons_of_neg (by simpa using hprimary),
            if_pos hextended, primaries]
        · have hextended : ¬ ExtendedEntry sector0 i := fun h => hcontainer h.2
          have hprimary : PrimaryEntry sector0 i := ⟨hused, hprotective, hextended⟩
          rw [if_neg hcontainer, ih, List.filter_cons_of_pos (by simpa using hprimary),
            if_neg hextended, primaries, List.map_cons, List.map_cons, List.append_assoc]
          rfl

/-! ## The chain -/

section Chain

variable (disk : BlockSource) (extended : Nat)

/-- The link that a link names. One that names itself is the last. -/
def nextLink (lba : Nat) : Option Nat :=
  (readMbrSector disk lba).bind fun ebr =>
    if UsedEntry ebr 1 ∧ extended + (mbrEntry ebr 1).2.1 ≠ lba then
      some (extended + (mbrEntry ebr 1).2.1)
    else none

/-- The link after `k` others, if the chain is that long. -/
def linkAfter : Nat → Nat → Option Nat
  | 0, lba => (readMbrSector disk lba).map fun _ => lba
  | k + 1, lba => (nextLink disk extended lba).bind (linkAfter k)

def UsedLink (lba : Nat) : Prop := ∃ ebr, readMbrSector disk lba = some ebr ∧ UsedEntry ebr 0

instance (lba : Nat) : Decidable (UsedLink disk lba) :=
  match h : readMbrSector disk lba with
  | none => isFalse fun ⟨ebr, hebr, _⟩ => by rw [h] at hebr; cases hebr
  | some ebr =>
    decidable_of_iff (UsedEntry ebr 0)
      ⟨fun hused => ⟨ebr, h, hused⟩,
        fun ⟨ebr', hebr', hused⟩ => by rw [h] at hebr'; cases hebr'; exact hused⟩

/-- The logical partition of a link. -/
def logicalAt (index lba : Nat) : Option (Origin × TableEntry) :=
  (readMbrSector disk lba).map fun ebr =>
    (.logical lba, mbrPartition disk index (mbrEntry ebr 0).1 (lba + (mbrEntry ebr 0).2.1)
      (mbrEntry ebr 0).2.2)

/-- The logical partitions of some links, with indices from `index` on. -/
def logicals : Nat → List Nat → List (Origin × TableEntry)
  | _, [] => []
  | index, lba :: links =>
    if UsedLink disk lba then
      (logicalAt disk index lba).toList ++ logicals (saturating 8 (index + 1)) links
    else logicals index links

def links (n lba : Nat) : List Nat := (List.range n).filterMap fun k => linkAfter disk extended k lba

variable {disk extended}

theorem links_unreadable {n lba : Nat} (h : readMbrSector disk lba = none) :
    links disk extended n lba = [] := by
  apply List.filterMap_eq_nil_iff.mpr
  intro k _
  cases k with
  | zero => rw [linkAfter, h, Option.map_none]
  | succ k => rw [linkAfter, nextLink, h, Option.bind_none, Option.bind_none]

theorem links_succ {n lba : Nat} {ebr : Memory} (h : readMbrSector disk lba = some ebr) :
    links disk extended (n + 1) lba =
      lba :: ((nextLink disk extended lba).map (links disk extended n)).getD [] := by
  have hhead : linkAfter disk extended 0 lba = some lba := by rw [linkAfter, h, Option.map_some]
  rw [links, List.range_succ_eq_map]
  simp only [List.filterMap_cons, hhead, List.filterMap_map]
  congr 1
  cases hnext : nextLink disk extended lba with
  | none =>
    apply List.filterMap_eq_nil_iff.mpr
    intro k _
    rw [Function.comp_apply, linkAfter, hnext, Option.bind_none]
  | some next =>
    rw [Option.map_some, Option.getD_some, links]
    apply List.filterMap_congr
    intro k _
    rw [Function.comp_apply, linkAfter, hnext, Option.bind_some]

theorem start_lt (sector : Memory) (i : Nat) : (mbrEntry sector i).2.1 < 2 ^ 32 := by
  have h := Memory.le32_lt sector (446 + i * 16 + 8)
  exact h

theorem mbrLogical_eq {n lba index : Nat} {parts : List TableEntry} (hext : extended < 2 ^ 32)
    (hlba : lba < 2 ^ 33) :
    mbrLogical disk extended n lba index parts =
      some (parts ++ (logicals disk index (links disk extended n lba)).map (·.2)) := by
  induction n generalizing lba index parts with
  | zero => simp [mbrLogical, links, logicals]
  | succ n ih =>
    rw [mbrLogical]
    cases hread : readMbrSector disk lba with
    | none => simp [links_unreadable hread, logicals]
    | some ebr =>
      have hnext := start_lt ebr 1
      have hfits : checked (extended + (mbrEntry ebr 1).2.1) =
          some (extended + (mbrEntry ebr 1).2.1) := if_pos (by omega)
      rw [links_succ hread, logicals]
      -- The link's own entry, and then the rest of the chain.
      have hrest : ∀ parts' index', (do
          if (mbrEntry ebr 1).1 = 0 ∨ (mbrEntry ebr 1).2.2 = 0 then some parts'
          else do
            let next ← checked (extended + (mbrEntry ebr 1).2.1)
            if next = lba then some parts' else mbrLogical disk extended n next index' parts') =
          some (parts' ++ (logicals disk index'
            (((nextLink disk extended lba).map (links disk extended n)).getD [])).map (·.2)) := by
        intro parts' index'
        rw [nextLink, hread, Option.bind_some]
        by_cases hunused : (mbrEntry ebr 1).1 = 0 ∨ (mbrEntry ebr 1).2.2 = 0
        · have hlast : ¬ (UsedEntry ebr 1 ∧ extended + (mbrEntry ebr 1).2.1 ≠ lba) := by
            rintro ⟨⟨htype, hsize⟩, _⟩
            exact hunused.elim htype hsize
          rw [if_pos hunused, if_neg hlast]
          simp [logicals]
        · have hused : UsedEntry ebr 1 := not_or.mp hunused
          rw [if_neg hunused, hfits, Option.bind_eq_bind, Option.bind_some]
          by_cases hself : extended + (mbrEntry ebr 1).2.1 = lba
          · rw [if_pos hself, if_neg fun h => h.2 hself]
            simp [logicals]
          · rw [if_neg hself, if_pos ⟨hused, hself⟩, ih (by omega)]
            rfl
      by_cases hunused : (mbrEntry ebr 0).1 = 0 ∨ (mbrEntry ebr 0).2.2 = 0
      · have hown : mbrOwn disk lba index ebr parts = some (parts, index) := by
          unfold mbrOwn
          exact if_pos hunused
        have hlink : ¬ UsedLink disk lba := by
          rintro ⟨ebr', hebr', htype, hsize⟩
          rw [hread] at hebr'
          cases hebr'
          exact hunused.elim htype hsize
        rw [if_neg hlink]
        exact (congrArg (· >>= _) hown).trans (hrest parts index)
      · have hstart := start_lt ebr 0
        have hown : mbrOwn disk lba index ebr parts =
            some (parts ++ [mbrPartition disk index (mbrEntry ebr 0).1
              (lba + (mbrEntry ebr 0).2.1) (mbrEntry ebr 0).2.2], saturating 8 (index + 1)) := by
          have hsum : checked (lba + (mbrEntry ebr 0).2.1) =
              some (lba + (mbrEntry ebr 0).2.1) := if_pos (by omega)
          unfold mbrOwn
          dsimp only
          rw [if_neg hunused, hsum]
          rfl
        have hlink : UsedLink disk lba := ⟨ebr, hread, not_or.mp hunused⟩
        rw [if_pos hlink, logicalAt, hread, Option.map_some, Option.toList_some,
          List.singleton_append, List.map_cons, List.append_cons]
        exact (congrArg (· >>= _) hown).trans (hrest _ _)

end Chain

section Table

variable (disk : BlockSource)

/-- The partitions of an MBR: those of its own entries and those of the chain. -/
def mbrReported (sector0 : Memory) : List (Origin × TableEntry) :=
  primaries disk sector0 [0, 1, 2, 3] ++
    match extendedStart sector0 [0, 1, 2, 3] none with
    | none => []
    | some extended => logicals disk 5 (links disk extended 128 extended)

def gptEntries (h : GptHeader) (entries : List Nat) : List (Origin × TableEntry) :=
  entries.filterMap fun i =>
    ((gptEntryBytes disk h i).bind (gptPartition disk i)).map fun p => (.gpt i, p)

/-- The partitions of a GPT, if it can be parsed. -/
def gptReported : List (Origin × TableEntry) :=
  match parseGpt disk, gptHeader disk with
  | some _, some h => gptEntries disk h (List.range h.numEntries)
  | _, _ => []

def GptFirst (sector0 : Memory) : Prop := hasProtective sector0 ∧ (parseGpt disk).isSome

instance (sector0 : Memory) : Decidable (GptFirst disk sector0) :=
  inferInstanceAs (Decidable (_ ∧ _))

/-- The partitions of a disk with what they come from. -/
def reported : List (Origin × TableEntry) :=
  match disk.read 0 with
  | none => []
  | some sector0 =>
    if GptFirst disk sector0 then gptReported disk
    else if (parseMbr disk sector0).isSome then mbrReported disk sector0
    else gptReported disk

variable {disk}

theorem extendedStart_lt {sector0 : Memory} {entries : List Nat} {start : Option Nat}
    (hstart : ∀ e, start = some e → e < 2 ^ 32) :
    ∀ e, extendedStart sector0 entries start = some e → e < 2 ^ 32 := by
  induction entries generalizing start with
  | nil => exact hstart
  | cons i rest ih =>
    apply ih
    intro e he
    split at he
    · cases he
      exact start_lt sector0 i
    · exact hstart e he

theorem parseMbr_eq (sector0 : Memory) :
    parseMbr disk sector0 =
      if mbrReported disk sector0 = [] then none
      else some ((mbrReported disk sector0).map (·.2)) := by
  have hparts : mbrPartitions disk sector0 = some ((mbrReported disk sector0).map (·.2)) := by
    rw [mbrPartitions, mbrPrimary_eq, mbrReported]
    cases hext : extendedStart sector0 [0, 1, 2, 3] none with
    | none => simp
    | some extended =>
      have hlt := extendedStart_lt (fun _ h => by cases h) extended hext
      rw [List.map_append]
      exact mbrLogical_eq hlt (by omega)
  rw [parseMbr, hparts, Option.bind_eq_bind, Option.bind_some]
  simp only [List.map_eq_nil_iff]

theorem gptPartitions_eq {h : GptHeader} {entries : List Nat} {parts : List TableEntry}
    (hparts : gptPartitions disk h entries = some parts) :
    parts = (gptEntries disk h entries).map (·.2) := by
  induction entries generalizing parts with
  | nil =>
    cases hparts
    rfl
  | cons i rest ih =>
    rcases Option.bind_eq_some_iff.mp hparts with ⟨entry, hentry, hparts⟩
    rcases Option.bind_eq_some_iff.mp hparts with ⟨parts', hrest, hparts⟩
    rw [← Option.some.inj hparts, ih hrest, gptEntries]
    cases hp : gptPartition disk i entry with
    | none => simp [hentry, hp, gptEntries]
    | some p => simp [hentry, hp, gptEntries]

theorem gptReported_map : (gptReported disk).map (·.2) = (parseGpt disk).getD [] := by
  unfold gptReported
  cases hparse : parseGpt disk with
  | none => rfl
  | some parts =>
    rcases Option.bind_eq_some_iff.mp hparse with ⟨h, hheader, hbody⟩
    rcases Option.bind_eq_some_iff.mp hbody with ⟨parts', hparts, hsome⟩
    split at hsome
    · cases hsome
    · cases hsome
      simp only [hheader, Option.getD_some]
      exact (gptPartitions_eq hparts).symm

theorem readPartitions_eq {sector0 : Memory} (hread : disk.read 0 = some sector0) :
    readPartitions disk =
      if GptFirst disk sector0 then (parseGpt disk).getD []
      else (parseMbr disk sector0).getD ((parseGpt disk).getD []) := by
  unfold readPartitions
  rw [hread]
  by_cases hprotective : hasProtective sector0 = true
  · cases hparse : parseGpt disk with
    | none => cases hmbr : parseMbr disk sector0 <;> simp [GptFirst, hprotective, hparse, hmbr]
    | some parts => simp [GptFirst, hprotective, hparse]
  · cases hmbr : parseMbr disk sector0 <;> simp [GptFirst, hprotective, hmbr]

theorem reported_map : (reported disk).map (·.2) = readPartitions disk := by
  unfold reported
  cases hread : disk.read 0 with
  | none =>
    unfold readPartitions
    rw [hread]
    rfl
  | some sector0 =>
    rw [readPartitions_eq hread]
    dsimp only
    by_cases hfirst : GptFirst disk sector0
    · rw [if_pos hfirst, if_pos hfirst, gptReported_map]
    · rw [if_neg hfirst, if_neg hfirst, parseMbr_eq]
      by_cases hempty : mbrReported disk sector0 = []
      · rw [if_pos hempty, if_neg (by simp), gptReported_map]
        rfl
      · rw [if_neg hempty, Option.isSome_some, if_pos rfl]
        rfl

theorem gptValid_of_parse (h : (parseGpt disk).isSome) : GptValid disk := by
  rcases Option.isSome_iff_exists.mp h with ⟨parts, hparts⟩
  rcases Option.bind_eq_some_iff.mp hparts with ⟨header, hheader, _⟩
  rcases Option.bind_eq_some_iff.mp hheader with ⟨hdr, hread, hchecks⟩
  dsimp only at hchecks
  split at hchecks
  · rename_i h
    exact ⟨hdr, hread, h.1, h.2.1, h.2.2.1, h.2.2.2.1⟩
  · cases hchecks

theorem valid_gptReported : ∀ x ∈ gptReported disk, x.1.Valid disk ∧ x.1.ebr = none := by
  intro x hx
  unfold gptReported at hx
  split at hx
  · rename_i hparse _
    rcases List.mem_filterMap.mp hx with ⟨i, _, hi⟩
    rcases Option.map_eq_some_iff.mp hi with ⟨p, _, rfl⟩
    exact ⟨gptValid_of_parse (by rw [hparse]; rfl), rfl⟩
  · cases hx

theorem signed_of_readMbrSector {lba : Nat} {ebr : Memory}
    (h : readMbrSector disk lba = some ebr) :
    ∃ ebr, disk.readLba lba disk.ss = some ebr ∧ Signed ebr := by
  rcases Option.bind_eq_some_iff.mp h with ⟨buf, hread, hsigned⟩
  split at hsigned
  · rename_i h
    exact ⟨buf, hread, h⟩
  · cases hsigned

theorem valid_logicals (index : Nat) (chain : List Nat) :
    ∀ x ∈ logicals disk index chain, x.1.Valid disk := by
  induction chain generalizing index with
  | nil =>
    intro x hx
    cases hx
  | cons lba chain ih =>
    intro x hx
    rw [logicals] at hx
    split at hx
    · rename_i hused
      rcases hused with ⟨ebr, hebr, _⟩
      rw [logicalAt, hebr] at hx
      rcases List.mem_append.mp hx with hx | hx
      · cases List.mem_singleton.mp hx
        exact signed_of_readMbrSector hebr
      · exact ih _ x hx
    · exact ih _ x hx

theorem ebrs_logicals (index : Nat) (chain : List Nat) :
    (logicals disk index chain).filterMap (·.1.ebr) = chain.filter (UsedLink disk ·) := by
  induction chain generalizing index with
  | nil => rfl
  | cons lba chain ih =>
    rw [logicals]
    by_cases hused : UsedLink disk lba
    · rcases hused with ⟨ebr, hebr, hentry⟩
      have hlink : UsedLink disk lba := ⟨ebr, hebr, hentry⟩
      rw [if_pos hlink, List.filter_cons_of_pos (by simpa using hlink), logicalAt, hebr, ← ih]
      rfl
    · rw [if_neg hused, List.filter_cons_of_neg (by simpa using hused), ih]

theorem ebrs_primaries (sector0 : Memory) (entries : List Nat) :
    (primaries disk sector0 entries).filterMap (·.1.ebr) = [] := by
  apply List.filterMap_eq_nil_iff.mpr
  intro x hx
  rcases List.mem_map.mp hx with ⟨i, _, rfl⟩
  rfl

/-! ## Only real partitions -/

variable (disk) in
/-- Every partition rests on a sector that carries its mark or on a valid GPT, no link gives two
logical partitions, and a disk with neither mark nor GPT has none. -/
structure OnlyReal : Prop where
  valid : ∀ x ∈ reported disk, x.1.Valid disk
  distinct : ((reported disk).filterMap (·.1.ebr)).Nodup
  unmarked : ∀ sector0, disk.read 0 = some sector0 → ¬ Signed sector0 → ¬ GptValid disk →
    readPartitions disk = []

variable (disk) in
/-- The chain of the extended partition never comes back to a link that describes a partition. -/
def ChainOnce (extended : Nat) : Prop :=
  ∀ i j, i < j → j < 128 → ∀ lba, linkAfter disk extended i extended = some lba →
    linkAfter disk extended j extended = some lba → ¬ UsedLink disk lba

variable (disk) in
/-- The first sector is marked where its entries count, and the chain is not walked around. -/
structure MbrSound (sector0 : Memory) : Prop where
  primary : Signed sector0 ∨ ∀ i < 4, ¬ PrimaryEntry sector0 i
  marked : Signed sector0 ∨ GptValid disk
  once : ∀ extended, extendedStart sector0 [0, 1, 2, 3] none = some extended →
    ChainOnce disk extended

variable (disk) in
def TableSound : Prop :=
  ∀ sector0, disk.read 0 = some sector0 → ¬ GptFirst disk sector0 →
    (parseMbr disk sector0).isSome → MbrSound disk sector0

theorem chainOnce_iff {extended : Nat} :
    ((links disk extended 128 extended).filter (UsedLink disk ·)).Nodup ↔
      ChainOnce disk extended := by
  rw [List.Nodup, List.pairwise_filter, links, List.pairwise_filterMap, List.pairwise_iff_getElem]
  simp only [List.length_range, List.getElem_range, decide_eq_true_eq]
  constructor
  · intro h i j hij hj lba hi hlba hused
    exact h i j (by omega) hj hij lba hi lba hlba hused hused rfl
  · intro h i j _ hj hij lba hi lba' hlba' hused _ heq
    exact h i j hij hj lba hi (heq ▸ hlba') hused

theorem primaries_nil_iff {sector0 : Memory} :
    primaries disk sector0 [0, 1, 2, 3] = [] ↔ ∀ i < 4, ¬ PrimaryEntry sector0 i := by
  rw [primaries, List.map_eq_nil_iff, List.filter_eq_nil_iff]
  constructor
  · intro h i hi
    have hmem : i ∈ [0, 1, 2, 3] := by
      simp only [List.mem_cons, List.not_mem_nil, or_false]
      omega
    simpa using h i hmem
  · intro h i hmem
    have hi : i < 4 := by
      simp only [List.mem_cons, List.not_mem_nil, or_false] at hmem
      omega
    simpa using h i hi

theorem ebrs_mbrReported {sector0 : Memory} :
    ((mbrReported disk sector0).filterMap (·.1.ebr)).Nodup ↔
      ∀ extended, extendedStart sector0 [0, 1, 2, 3] none = some extended →
        ChainOnce disk extended := by
  rw [mbrReported, List.filterMap_append, ebrs_primaries, List.nil_append]
  cases extendedStart sector0 [0, 1, 2, 3] none with
  | none => simp
  | some extended =>
    simp only [ebrs_logicals, Option.some.injEq, forall_eq']
    exact chainOnce_iff

theorem valid_mbrReported {sector0 : Memory} (hread : disk.read 0 = some sector0) :
    (∀ x ∈ mbrReported disk sector0, x.1.Valid disk) ↔
      Signed sector0 ∨ ∀ i < 4, ¬ PrimaryEntry sector0 i := by
  constructor
  · intro h
    by_cases hnil : primaries disk sector0 [0, 1, 2, 3] = []
    · exact Or.inr (primaries_nil_iff.mp hnil)
    · rcases List.exists_mem_of_ne_nil _ hnil with ⟨x, hx⟩
      rcases List.mem_map.mp hx with ⟨i, _, rfl⟩
      rcases h _ (List.mem_append_left _ hx) with ⟨sector, hsector, hsigned⟩
      rw [hread] at hsector
      cases hsector
      exact Or.inl hsigned
  · intro h x hx
    rcases List.mem_append.mp hx with hx | hx
    · rcases h with hsigned | hnone
      · rcases List.mem_map.mp hx with ⟨i, _, rfl⟩
        exact ⟨sector0, hread, hsigned⟩
      · rw [primaries_nil_iff.mpr hnone] at hx
        cases hx
    · split at hx
      · cases hx
      · exact valid_logicals _ _ x hx

theorem onlyReal_gpt (h : reported disk = gptReported disk) : OnlyReal disk where
  valid := by
    rw [h]
    exact fun x hx => (valid_gptReported x hx).1
  distinct := by
    rw [h, List.filterMap_eq_nil_iff.mpr fun x hx => (valid_gptReported x hx).2]
    exact List.nodup_nil
  unmarked := by
    intro sector0 hread _ hgpt
    have hnone : parseGpt disk = none := by
      cases hparse : parseGpt disk with
      | none => rfl
      | some parts => exact absurd (gptValid_of_parse (by rw [hparse]; rfl)) hgpt
    rw [← reported_map, h, gptReported_map, hnone]
    rfl

theorem onlyReal_iff : OnlyReal disk ↔ TableSound disk := by
  unfold TableSound
  cases hread : disk.read 0 with
  | none =>
    have hnone : reported disk = [] := by rw [reported, hread]
    constructor
    · intro _ sector0 h
      cases h
    · intro _
      refine ⟨by simp [hnone], by simp [hnone], ?_⟩
      intro sector0 h
      rw [hread] at h
      cases h
  | some sector0 =>
    have hreported : reported disk =
        if GptFirst disk sector0 then gptReported disk
        else if (parseMbr disk sector0).isSome then mbrReported disk sector0
        else gptReported disk := by rw [reported, hread]
    simp only [Option.some.injEq, forall_eq']
    by_cases hfirst : GptFirst disk sector0
    · rw [if_pos hfirst] at hreported
      exact ⟨fun _ h => absurd hfirst h, fun _ => onlyReal_gpt hreported⟩
    · by_cases hmbr : (parseMbr disk sector0).isSome
      · rw [if_neg hfirst, if_pos hmbr] at hreported
        have hsome : readPartitions disk ≠ [] := by
          rw [parseMbr_eq] at hmbr
          rw [← reported_map, hreported, Ne, List.map_eq_nil_iff]
          intro hnil
          rw [if_pos hnil] at hmbr
          cases hmbr
        constructor
        · intro h _ _
          refine ⟨(valid_mbrReported hread).mp (hreported ▸ h.valid), ?_,
            ebrs_mbrReported.mp (hreported ▸ h.distinct)⟩
          by_contra hmarked
          exact hsome (h.unmarked sector0 hread (fun hs => hmarked (Or.inl hs))
            fun hg => hmarked (Or.inr hg))
        · intro h
          have hsound := h hfirst hmbr
          refine ⟨?_, ?_, ?_⟩
          · rw [hreported]
            exact (valid_mbrReported hread).mpr hsound.primary
          · rw [hreported]
            exact ebrs_mbrReported.mpr hsound.once
          · intro sector hsector hunsigned hgpt
            rw [hread] at hsector
            cases hsector
            exact (hsound.marked.elim hunsigned hgpt).elim
      · rw [if_neg hfirst, if_neg hmbr] at hreported
        exact ⟨fun _ _ h => absurd h hmbr, fun _ => onlyReal_gpt hreported⟩

/-- Where every reported partition comes from, and when they are all real: exactly when the entries
of the first sector are marked or not listened to, and the chain is not walked around. -/
theorem readPartitions_onlyReal (disk : BlockSource) :
    (reported disk).map (·.2) = readPartitions disk ∧ (OnlyReal disk ↔ TableSound disk) :=
  ⟨reported_map, onlyReal_iff⟩

def sectorOf (bytes : List (Nat × UInt8)) : Memory := fun a => (bytes.lookup a).getD 0

/-- A first sector without its mark, with a used entry. -/
def unmarkedDisk : BlockSource where
  sectorSize := 512
  read _ := some (sectorOf [(450, 0x83), (454, 8), (458, 100)])
  readLba _ _ := none

/-- An extended partition whose two links name each other. -/
def circularDisk : BlockSource where
  sectorSize := 512
  read _ := some (sectorOf [(450, 0x05), (454, 10), (458, 100), (510, 0x55), (511, 0xAA)])
  readLba lba _ := some (sectorOf
    [(450, 0x83), (454, 1), (458, 1), (466, 0x05), (470, if lba = 10 then 1 else 0), (474, 1),
      (510, 0x55), (511, 0xAA)])

theorem onlyReal_fails : ¬ OnlyReal unmarkedDisk ∧ ¬ OnlyReal circularDisk := by
  constructor
  · intro h
    have hsound := onlyReal_iff.mp h _ rfl (by decide) (by decide)
    exact absurd hsound.primary (by decide)
  · intro h
    have hsound := onlyReal_iff.mp h _ rfl (by decide) (by decide +kernel)
    have hextended : extendedStart (sectorOf [(450, 0x05), (454, 10), (458, 100), (510, 0x55),
        (511, 0xAA)]) [0, 1, 2, 3] none = some 10 := by decide
    exact hsound.once 10 hextended 0 2 (by decide) (by decide) 10 (by decide)
      (by decide) (by decide)

end Table

end Vibra.Disk
