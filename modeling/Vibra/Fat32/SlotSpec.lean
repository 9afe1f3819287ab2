import Vibra.Fat32.ReadOnly
import Vibra.Fat32.RangeSpec

/-! # Slots of a directory

Free slots, and the clusters that directories get. A directory only ever grows
by a cluster of zeros behind its last one.
-/

namespace Vibra.Fat32

open Lib (Memory Prog Write LinkTable)
open Lib.Prog (wp)
open Lib.LinkTable (Partition)

variable {geo : Fat32Geo} {m m' : Memory}

/-- The first `count` sectors from `base` on have been filled with zeros. -/
def ZeroedSectors (m : Memory) (base count : Nat) (m' : Memory) : Prop :=
  ∀ a, m' a = if 512 * base ≤ a ∧ a < 512 * (base + count) then 0 else m a

theorem replay_zeros (base count : Nat) :
    ZeroedSectors m base count (Prog.replay disk ((List.range count).map fun index =>
      (⟨base + index, fun _ => 0, .data⟩ : Write Sector Origin)) m) := by
  induction count with
  | zero =>
    intro a
    rw [if_neg (by omega)]
    rfl
  | succ count ih =>
    intro a
    rw [List.range_succ, List.map_append, Prog.replay_append]
    simp only [List.map_cons, List.map_nil, Prog.replay_cons, Prog.replay_nil]
    by_cases hin : a < 512 * (base + count) ∨ 512 * (base + count) + 512 ≤ a
    · rw [disk_write_of_outside hin, ih a]
      congr 1
      rw [eq_iff_iff]
      omega
    · obtain ⟨i, rfl⟩ : ∃ i, a = 512 * (base + count) + i := ⟨a - 512 * (base + count), by omega⟩
      rw [disk_write_add (by omega), if_pos (by omega)]

section Slots

variable {G : Memory → Write Sector Origin → Prop} {E : FsError → Memory → Prop}

theorem zeroCluster_spec {cluster : Nat} {Q : Unit → Memory → Prop}
    (hG : ∀ count m' w, count ≤ geo.sectorsPerCluster →
      ZeroedSectors m (geo.dataStartSector + (cluster - 2) * geo.sectorsPerCluster) count m' →
      DataWrite geo cluster w → G m' w)
    (hQ : ∀ m', ZeroedSectors m (geo.dataStartSector + (cluster - 2) * geo.sectorsPerCluster)
      geo.sectorsPerCluster m' → Q () m') :
    wp disk G Q E
      (zeroCluster geo (geo.dataStartSector + (cluster - 2) * geo.sectorsPerCluster)) m := by
  refine Prog.wp_writeAll.mpr ⟨fun before w after h => ?_, hQ _ (replay_zeros _ _)⟩
  have hlen : before.length < geo.sectorsPerCluster := by
    have := congrArg List.length h
    simp at this
    omega
  have hbefore : before = (List.range before.length).map fun index =>
      ⟨geo.dataStartSector + (cluster - 2) * geo.sectorsPerCluster + index, fun _ => 0, .data⟩ := by
    have htake := congrArg (List.take before.length) h
    rw [List.take_left, ← List.map_take, List.take_range, Nat.min_eq_left (by omega)] at htake
    exact htake.symm
  have hw : (⟨geo.dataStartSector + (cluster - 2) * geo.sectorsPerCluster + before.length,
      fun _ => 0, .data⟩ : Write Sector Origin) = w := by
    have hget := congrArg (fun l => l[before.length]?) h
    simpa [hlen] using hget
  rw [hbefore]
  refine hG _ _ w (by omega) (replay_zeros _ _) ?_
  rw [← hw]
  exact ⟨rfl, by simp only; omega, by simp only; omega⟩

theorem clusterAddr_eq (geo : Fat32Geo) (cluster : Nat) :
    512 * (geo.dataStartSector + (cluster - 2) * geo.sectorsPerCluster) =
      geo.clusterAddr cluster := rfl

theorem ZeroedSectors.sameFat (hgeo : geo.Valid) {cluster count : Nat}
    (h : ZeroedSectors m (geo.dataStartSector + (cluster - 2) * geo.sectorsPerCluster) count m') :
    ∀ a, geo.InFat a → m' a = m a := by
  intro a ha
  rw [h a, if_neg]
  rintro ⟨hlo, -⟩
  refine clusterAddr_not_inFat hgeo cluster (a - geo.clusterAddr cluster) ?_
  unfold Fat32Geo.clusterAddr
  rwa [Nat.add_sub_cancel' hlo]

end Slots

/-! ## Slots in order -/

def sectorSlots (sector : Nat) : Nat → List (Nat × Nat)
  | 0 => []
  | count + 1 => slotOffsets.map (Prod.mk sector) ++ sectorSlots (sector + 1) count

def dirSlots (geo : Fat32Geo) (clusters : List Nat) : List (Nat × Nat) :=
  clusters.flatMap fun cluster =>
    sectorSlots (geo.dataStartSector + (cluster - 2) * geo.sectorsPerCluster) geo.sectorsPerCluster

theorem mem_sectorSlots {slot : Nat × Nat} {sector count : Nat} :
    slot ∈ sectorSlots sector count ↔
      sector ≤ slot.1 ∧ slot.1 < sector + count ∧ slot.2 ∈ slotOffsets := by
  induction count generalizing sector with
  | zero =>
    simp only [sectorSlots, List.not_mem_nil, false_iff]
    omega
  | succ count ih =>
    obtain ⟨a, b⟩ := slot
    rw [sectorSlots, List.mem_append, ih, List.mem_map]
    constructor
    · rintro (⟨offset, hoff, heq⟩ | ⟨hlo, hhi, hoff⟩)
      · obtain ⟨rfl, rfl⟩ := Prod.mk.inj heq
        exact ⟨Nat.le_refl _, by omega, hoff⟩
      · exact ⟨by omega, by omega, hoff⟩
    · rintro ⟨hlo, hhi, hoff⟩
      rcases Nat.eq_or_lt_of_le hlo with heq | hlt
      · exact Or.inl ⟨b, hoff, Prod.ext heq rfl⟩
      · exact Or.inr ⟨hlt, by omega, hoff⟩

theorem mem_dirSlots {slot : Nat × Nat} {clusters : List Nat} :
    slot ∈ dirSlots geo clusters ↔ ∃ c ∈ clusters,
      geo.dataStartSector + (c - 2) * geo.sectorsPerCluster ≤ slot.1 ∧
      slot.1 < geo.dataStartSector + (c - 2) * geo.sectorsPerCluster + geo.sectorsPerCluster ∧
      slot.2 ∈ slotOffsets := by
  simp only [dirSlots, List.mem_flatMap, mem_sectorSlots]

def slotAddr (slot : Nat × Nat) : Nat := 512 * slot.1 + slot.2

def freeAt (m : Memory) (slot : Nat × Nat) : Bool :=
  m (slotAddr slot) == 0x00 || m (slotAddr slot) == 0xE5

def scanAt (m : Memory) (st : ScanState) (slot : Nat × Nat) : ScanState :=
  scanSlot st slot.1 (disk.read m slot.1) slot.2

theorem scanAt_done {st : ScanState} (h : st.done = true) (slot : Nat × Nat) :
    scanAt m st slot = st := by
  simp [scanAt, scanSlot, h]

theorem foldl_scanAt_done {st : ScanState} (h : st.done = true) (slots : List (Nat × Nat)) :
    slots.foldl (scanAt m) st = st := by
  induction slots with
  | nil => rfl
  | cons slot slots ih => rw [List.foldl_cons, scanAt_done h, ih]

theorem scanSector_eq (st : ScanState) (sector : Nat) :
    scanSector st sector (disk.read m sector) =
      (slotOffsets.map (Prod.mk sector)).foldl (scanAt m) st := by
  rw [List.foldl_map]
  rfl

/-- What `read_dir` collects from the clusters. -/
def scanDir (geo : Fat32Geo) (m : Memory) (clusters : List Nat) : List (DirSlot × Name) :=
  ((dirSlots geo clusters).foldl (scanAt m) ⟨[], [], false⟩).result

section Reading

variable {G : Memory → Write Sector Origin → Prop} {E : FsError → Memory → Prop}

theorem wp_scanSectors {Q : ScanState → Memory → Prop} {sector count : Nat} {st : ScanState} :
    wp disk G Q E (scanSectors sector count st) m ↔
      Q ((sectorSlots sector count).foldl (scanAt m) st) m := by
  induction count generalizing sector st with
  | zero => exact Iff.rfl
  | succ count ih =>
    simp only [scanSectors, Prog.wp_bind, wp_readSector, sectorSlots, List.foldl_append,
      scanSector_eq]
    generalize (slotOffsets.map (Prod.mk sector)).foldl (scanAt m) st = st'
    by_cases hdone : st'.done = true
    · rw [if_pos hdone, Prog.wp_pure, foldl_scanAt_done hdone]
    · rw [if_neg hdone, ih]

theorem wp_scanClusters {Q : ScanState → Memory → Prop} {clusters : List Nat} {st : ScanState}
    (h : ∀ c ∈ clusters, 2 ≤ c) :
    wp disk G Q E (scanClusters geo clusters st) m ↔
      Q ((dirSlots geo clusters).foldl (scanAt m) st) m := by
  induction clusters generalizing st with
  | nil => exact Iff.rfl
  | cons cluster rest ih =>
    have hrest := fun st => @ih st (fun c hc => h c (by simp [hc]))
    simp only [scanClusters, clusterToSector_eq (h cluster (by simp)), Prog.wp_bind,
      wp_scanSectors, dirSlots, List.flatMap_cons, List.foldl_append]
    generalize (sectorSlots _ _).foldl (scanAt m) st = st'
    by_cases hdone : st'.done = true
    · rw [if_pos hdone, Prog.wp_pure, foldl_scanAt_done hdone]
    · rw [if_neg hdone, hrest, dirSlots]

theorem two_le_of_mem_walk {room cluster : Nat} (h : 2 ≤ cluster) :
    ∀ c ∈ walk geo m room cluster, 2 ≤ c := by
  induction room generalizing cluster with
  | zero => simp [walk]
  | succ room ih =>
    intro c hc
    simp only [walk] at hc
    split at hc
    · rw [List.mem_singleton] at hc
      omega
    next hend =>
      rcases List.mem_cons.mp hc with rfl | hc
      · exact h
      · refine ih ?_ c hc
        simp only [endsChain, Bool.or_eq_true, decide_eq_true_eq, not_or] at hend
        omega

theorem two_le_of_mem_chainOf {start : Nat} : ∀ c ∈ chainOf geo m start, 2 ≤ c := by
  unfold chainOf
  split
  · simp
  · exact two_le_of_mem_walk (by omega)

@[simp] theorem wp_readDir {Q : List (DirSlot × Name) → Memory → Prop} {dirCluster : Nat} :
    wp disk G Q E (readDir geo dirCluster) m ↔
      Q (scanDir geo m (chainOf geo m dirCluster)) m := by
  simp only [readDir, Prog.wp_bind, wp_chain, wp_scanClusters two_le_of_mem_chainOf, Prog.wp_pure,
    scanDir]

@[simp] theorem wp_findInDir {Q : Option DirSlot → Memory → Prop} {dirCluster : Nat}
    {name : Name} : wp disk G Q E (findInDir geo dirCluster name) m ↔
      Q (((scanDir geo m (chainOf geo m dirCluster)).find? fun e =>
        eqIgnoreAsciiCase e.2 name).map Prod.fst) m := by
  simp only [findInDir, Prog.wp_bind, wp_readDir, Prog.wp_pure]

theorem find_sectorSlots_succ (sector count : Nat) :
    (sectorSlots sector (count + 1)).find? (freeAt m) =
      ((slotOffsets.find? fun offset => disk.read m sector offset == 0x00 ||
        disk.read m sector offset == 0xE5).map (Prod.mk sector)).or
        ((sectorSlots (sector + 1) count).find? (freeAt m)) := by
  rw [sectorSlots, List.find?_append, List.find?_map]
  rfl

theorem wp_freeSlotInSectors {Q : Option (Nat × Nat) → Memory → Prop} {sector count : Nat} :
    wp disk G Q E (freeSlotInSectors sector count) m ↔
      Q ((sectorSlots sector count).find? (freeAt m)) m := by
  induction count generalizing sector with
  | zero => exact Iff.rfl
  | succ count ih =>
    simp only [freeSlotInSectors, Prog.wp_bind, wp_readSector, find_sectorSlots_succ]
    cases slotOffsets.find? fun offset => disk.read m sector offset == 0x00 ||
        disk.read m sector offset == 0xE5 with
    | some offset => exact Iff.rfl
    | none => exact ih

theorem wp_freeSlotInClusters {Q : Option (Nat × Nat) → Memory → Prop} {clusters : List Nat}
    (h : ∀ c ∈ clusters, 2 ≤ c) :
    wp disk G Q E (freeSlotInClusters geo clusters) m ↔
      Q ((dirSlots geo clusters).find? (freeAt m)) m := by
  induction clusters with
  | nil => exact Iff.rfl
  | cons cluster rest ih =>
    have hrest := ih (fun c hc => h c (by simp [hc]))
    simp only [freeSlotInClusters, clusterToSector_eq (h cluster (by simp)), Prog.wp_bind,
      wp_freeSlotInSectors, dirSlots, List.flatMap_cons, List.find?_append]
    cases (sectorSlots _ _).find? (freeAt m) with
    | some slot => exact Iff.rfl
    | none => exact hrest

end Reading

/-- The tables and memories that a cut can leave while a directory grows. -/
def GrowCut (geo : Fat32Geo) (m : Memory) (l : List Nat) (rest : List (List Nat)) (m' : Memory) :
    Prop :=
  Extending geo m l rest m' ∧
    ∀ a, ¬ geo.InFat a → ¬ geo.InFsInfo a →
      (∀ d, links geo m d = .free → geo.InRange d →
        ¬ (geo.clusterAddr d ≤ a ∧ a < geo.clusterAddr d + geo.clusterSize)) → m' a = m a

structure Grown (geo : Fat32Geo) (m : Memory) (l : List Nat) (rest : List (List Nat)) (d : Nat)
    (m' : Memory) : Prop where
  range : geo.InRange d
  free : links geo m d = .free
  part : Partition (links geo m') geo.InRange ((l ++ [d]) :: rest)
  top : ∀ c, geo.HasEntry c → fatTop geo m' c = fatTop geo m c
  copies : Copies geo m → Copies geo m'
  zeros : ∀ i < geo.clusterSize, m' (geo.clusterAddr d + i) = 0
  frame : ∀ a, ¬ geo.InFat a → ¬ geo.InFsInfo a →
    ¬ (geo.clusterAddr d ≤ a ∧ a < geo.clusterAddr d + geo.clusterSize) → m' a = m a

theorem findFreeSlot_spec {G : Memory → Write Sector Origin → Prop}
    {E : FsError → Memory → Prop} (hgeo : geo.Sound) {start : Nat} {l : List Nat}
    {rest : List (List Nat)}
    (hpart : Partition (links geo m) geo.InRange ((start :: l) :: rest))
    (hG : ∀ m' w, GrowCut geo m (start :: l) rest m' → RangeWrite geo w → G m' w)
    {Q : Nat × Nat → Memory → Prop}
    (hfound : ∀ slot, (dirSlots geo (start :: l)).find? (freeAt m) = some slot → Q slot m)
    (hfull : (dirSlots geo (start :: l)).find? (freeAt m) = none → E .diskFull m)
    (hgrown : ∀ d m', (dirSlots geo (start :: l)).find? (freeAt m) = none →
      Grown geo m (start :: l) rest d m' →
      Q (geo.dataStartSector + (d - 2) * geo.sectorsPerCluster, 0) m') :
    wp disk G Q E (findFreeSlot geo start) m := by
  have hchain : chainOf geo m start = start :: l := chainOf_eq hpart List.mem_cons_self
  simp only [findFreeSlot, Prog.wp_bind, wp_chain, hchain]
  rw [wp_freeSlotInClusters fun c hc => (hpart.dom_of_mem List.mem_cons_self hc).1]
  cases hfind : (dirSlots geo (start :: l)).find? (freeAt m) with
  | some slot => exact hfound slot hfind
  | none =>
    obtain ⟨pre, last, hl⟩ : ∃ pre last, start :: l = pre ++ [last] :=
      ⟨_, _, (List.dropLast_concat_getLast (List.cons_ne_nil start l)).symm⟩
    have hlast : (start :: l).getLastD start = last := by
      rw [hl]
      simp
    rw [hlast]
    rw [hl] at hpart hG hgrown hfull hfind
    simp only [Prog.wp_bind]
    refine allocCluster_extend hgeo hpart (hfull hfind)
      (fun m' w hdata hext hw => hG m' w ⟨hext, fun a hf hi _ => hdata a hf hi⟩ (Or.inl hw))
      fun d m₁ hd hfree hframe hpart₁ => ?_
    simp only [clusterToSector_eq hd.1, Prog.wp_bind]
    refine zeroCluster_spec (fun count m₂ w hcount hz hw => ?_) fun m₂ hz => ?_
    · obtain ⟨-, -, hlinks⟩ := frame_of_sameFat hgeo (hz.sameFat hgeo.toValid)
      refine hG m₂ w ⟨Or.inr ⟨d, hfree, Or.inr (hlinks.partition hpart₁)⟩,
        fun a hf hi hout => ?_⟩ (Or.inr ⟨d, hd, hw⟩)
      rw [hz a, if_neg, hframe.data a hf hi]
      have hcs := hgeo.cluster
      have := hout d hfree hd
      unfold Fat32Geo.clusterAddr at this
      omega
    · obtain ⟨htop, hcopies, hlinks⟩ := frame_of_sameFat hgeo (hz.sameFat hgeo.toValid)
      have hcs := hgeo.cluster
      rw [Prog.wp_pure]
      refine hgrown d m₂ hfind ⟨hd, hfree, hlinks.partition hpart₁,
        fun c hc => (htop c hc).trans (hframe.top c hc), fun h => hcopies (hframe.copies h), ?_, ?_⟩
      · intro i hi
        rw [hz, if_pos]
        unfold Fat32Geo.clusterAddr
        omega
      · intro a hf hi hout
        rw [hz a, if_neg, hframe.data a hf hi]
        unfold Fat32Geo.clusterAddr at hout
        omega

end Vibra.Fat32
