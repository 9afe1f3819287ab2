import Vibra.Disk.PartitionOrigins

/-! # The ranges that a partition table gives

What holds of the partitions of a disk holds of the ranges in its table: those of the used
entries of the first sector and of the links of the chain, or those of the used entries of a GPT,
in sectors of 512 bytes.
-/

namespace Vibra.Disk

open Lib (Memory)

section Ranges

variable (disk : BlockSource) (Q : (start sectors : Nat) → Prop)

/-- The range of an entry, its start counted from `base`. -/
def MbrRange (base : Nat) (sector : Memory) (i : Nat) : Prop :=
  Q (saturating 64 ((base + (mbrEntry sector i).2.1) * disk.ratio))
    (saturating 64 ((mbrEntry sector i).2.2 * disk.ratio))

def MbrRanges (sector0 : Memory) : Prop :=
  (∀ i < 4, PrimaryEntry sector0 i → MbrRange disk Q 0 sector0 i) ∧
    ∀ extended, extendedStart sector0 [0, 1, 2, 3] none = some extended →
      ∀ lba ∈ links disk extended 128 extended, ∀ ebr, readMbrSector disk lba = some ebr →
        UsedEntry ebr 0 → MbrRange disk Q lba ebr 0

/-- An entry with a type and a range that can be counted in sectors of 512 bytes. -/
def GptUsed (entry : Memory) : Prop :=
  entry.slice 0 16 ≠ List.replicate 16 0 ∧ u64At entry 32 ≤ u64At entry 40 ∧
    u64At entry 32 * disk.ratio < 2 ^ 64 ∧
    (u64At entry 40 - u64At entry 32 + 1) % 2 ^ 64 * disk.ratio < 2 ^ 64

def GptRange (entry : Memory) : Prop :=
  Q (u64At entry 32 * disk.ratio) ((u64At entry 40 - u64At entry 32 + 1) % 2 ^ 64 * disk.ratio)

def GptRanges : Prop :=
  ∀ h, gptHeader disk = some h → ∀ i < h.numEntries, ∀ entry,
    gptEntryBytes disk h i = some entry → GptUsed disk entry → GptRange disk Q entry

/-- The ranges of the table that is listened to. -/
def Ranges : Prop :=
  ∀ sector0, disk.read 0 = some sector0 →
    if GptFirst disk sector0 ∨ parseMbr disk sector0 = none then
      (parseGpt disk).isSome → GptRanges disk Q
    else MbrRanges disk Q sector0

theorem primaries_ranges (sector0 : Memory) :
    (∀ x ∈ primaries disk sector0 [0, 1, 2, 3], Q x.2.startLba x.2.sectors) ↔
      ∀ i < 4, PrimaryEntry sector0 i → MbrRange disk Q 0 sector0 i := by
  have hmem : ∀ i, i ∈ [0, 1, 2, 3] ↔ i < 4 := by
    intro i
    simp only [List.mem_cons, List.not_mem_nil, or_false]
    omega
  have hrange : ∀ i, MbrRange disk Q 0 sector0 i ↔
      Q (primaryAt disk sector0 i).startLba (primaryAt disk sector0 i).sectors := by
    intro i
    rw [MbrRange, Nat.zero_add]
    rfl
  simp only [primaries, List.forall_mem_map, List.mem_filter, hmem, decide_eq_true_eq, hrange,
    and_imp]

theorem logicals_ranges (index : Nat) (chain : List Nat) :
    (∀ x ∈ logicals disk index chain, Q x.2.startLba x.2.sectors) ↔
      ∀ lba ∈ chain, ∀ ebr, readMbrSector disk lba = some ebr → UsedEntry ebr 0 →
        MbrRange disk Q lba ebr 0 := by
  induction chain generalizing index with
  | nil =>
    exact iff_of_true (fun x h => absurd h List.not_mem_nil)
      fun _ h => absurd h List.not_mem_nil
  | cons lba chain ih =>
    rw [logicals, List.forall_mem_cons]
    by_cases hused : UsedLink disk lba
    · obtain ⟨ebr, hebr, hentry⟩ := hused
      rw [if_pos ⟨ebr, hebr, hentry⟩, List.forall_mem_append, ih, logicalAt, hebr]
      refine and_congr_left fun _ => ?_
      constructor
      · intro h ebr' hebr' _
        cases hebr'
        exact h _ List.mem_cons_self
      · intro h x hx
        cases List.mem_singleton.mp hx
        exact h ebr rfl hentry
    · rw [if_neg hused, ih]
      refine (and_iff_right ?_).symm
      intro ebr hebr hentry
      exact absurd ⟨ebr, hebr, hentry⟩ hused

theorem mbr_ranges (sector0 : Memory) :
    (∀ x ∈ mbrReported disk sector0, Q x.2.startLba x.2.sectors) ↔ MbrRanges disk Q sector0 := by
  rw [mbrReported, List.forall_mem_append, primaries_ranges, MbrRanges]
  refine and_congr_right fun _ => ?_
  cases hext : extendedStart sector0 [0, 1, 2, 3] none with
  | none =>
    refine iff_of_true (fun x h => absurd h List.not_mem_nil) ?_
    intro extended h
    cases h
  | some extended =>
    dsimp only
    rw [logicals_ranges]
    constructor
    · intro h extended' hsame
      cases hsame
      exact h
    · intro h
      exact h extended rfl

theorem gptPartition_ranges (i : Nat) (entry : Memory) :
    (∀ p, gptPartition disk i entry = some p → Q p.startLba p.sectors) ↔
      (GptUsed disk entry → GptRange disk Q entry) := by
  unfold gptPartition GptUsed
  dsimp only
  by_cases hskip : entry.slice 0 16 = List.replicate 16 0 ∨ u64At entry 40 < u64At entry 32
  · rw [if_pos hskip]
    refine iff_of_true (fun p h => by cases h) ?_
    rintro ⟨htype, horder, _⟩
    exact (hskip.elim htype (Nat.not_lt_of_le horder)).elim
  · obtain ⟨htype, horder⟩ := not_or.mp hskip
    rw [if_neg hskip]
    unfold checked
    by_cases hstart : u64At entry 32 * disk.ratio < 2 ^ 64
    · by_cases hsectors : (u64At entry 40 - u64At entry 32 + 1) % 2 ^ 64 * disk.ratio < 2 ^ 64
      · rw [if_pos hstart, if_pos hsectors]
        constructor
        · intro h _
          exact h _ rfl
        · intro h p hp
          cases hp
          exact h ⟨htype, Nat.le_of_not_lt horder, hstart, hsectors⟩
      · rw [if_pos hstart, if_neg hsectors]
        exact iff_of_true (fun p h => by cases h) fun h => absurd h.2.2.2 hsectors
    · rw [if_neg hstart]
      exact iff_of_true (fun p h => by cases h) fun h => absurd h.2.2.1 hstart

theorem gpt_ranges : (∀ x ∈ gptReported disk, Q x.2.startLba x.2.sectors) ↔
    ((parseGpt disk).isSome → GptRanges disk Q) := by
  unfold gptReported
  cases hparse : parseGpt disk with
  | none => exact iff_of_true (fun x h => absurd h List.not_mem_nil) fun h => by cases h
  | some parts =>
    obtain ⟨h, hheader, _⟩ := Option.bind_eq_some_iff.mp hparse
    have hsome : ((some parts).isSome → GptRanges disk Q) ↔ GptRanges disk Q :=
      ⟨fun h => h rfl, fun h _ => h⟩
    rw [hheader, hsome, GptRanges, hheader]
    dsimp only
    constructor
    · intro hall h' hh' i hi entry hentry
      cases hh'
      rw [← gptPartition_ranges disk Q i]
      intro p hp
      refine hall (.gpt i, p) (List.mem_filterMap.mpr ⟨i, List.mem_range.mpr hi, ?_⟩)
      rw [hentry, Option.bind_some, hp]
      rfl
    · intro hall x hx
      obtain ⟨i, hi, hsome⟩ := List.mem_filterMap.mp hx
      obtain ⟨p, hp, rfl⟩ := Option.map_eq_some_iff.mp hsome
      obtain ⟨entry, hentry, hp⟩ := Option.bind_eq_some_iff.mp hp
      have hused := hall h rfl i (List.mem_range.mp hi) entry hentry
      exact (gptPartition_ranges disk Q i entry).mpr hused p hp

theorem ranges_iff : (∀ p ∈ readPartitions disk, Q p.startLba p.sectors) ↔ Ranges disk Q := by
  rw [← reported_map, List.forall_mem_map]
  unfold reported Ranges
  cases hread : disk.read 0 with
  | none =>
    refine iff_of_true (fun x h => absurd h List.not_mem_nil) ?_
    intro sector0 h
    cases h
  | some sector0 =>
    have hall : (∀ s, some sector0 = some s →
        if GptFirst disk s ∨ parseMbr disk s = none then
          (parseGpt disk).isSome → GptRanges disk Q
        else MbrRanges disk Q s) ↔
        if GptFirst disk sector0 ∨ parseMbr disk sector0 = none then
          (parseGpt disk).isSome → GptRanges disk Q
        else MbrRanges disk Q sector0 := by
      constructor
      · intro h
        exact h sector0 rfl
      · intro h s hs
        cases hs
        exact h
    rw [hall]
    dsimp only
    by_cases hfirst : GptFirst disk sector0
    · rw [if_pos hfirst, if_pos (.inl hfirst), gpt_ranges]
    · rw [if_neg hfirst]
      cases hmbr : parseMbr disk sector0 with
      | none => rw [Option.isSome_none, if_neg nofun, if_pos (.inr rfl), gpt_ranges]
      | some parts =>
        rw [Option.isSome_some, if_pos rfl, if_neg (by simpa using hfirst), mbr_ranges]

end Ranges

end Vibra.Disk
