import Mathlib.Data.List.TakeWhile
import Vibra.Disk.PartitionTable

/-! # The registry of disks

Each driver's devices are probed in turn. A device that opens and has sectors is
registered with its partitions, under a name made of a number and its table's indices.
-/

namespace Vibra.Disk

open Fat32 (Name)

inductive DriverKind where
  | ahci
  | ide
  | nvme
  | atapi
  | usb
deriving DecidableEq

inductive EntryKind where
  | disk
  | partition

structure DiskEntry where
  name : Name
  kind : EntryKind
  sectors : Nat
  offset : Nat
  driver : DriverKind

/-- A device that opens, with its number of 512-byte sectors. -/
structure Found where
  sectors : Nat
  source : BlockSource

/-- `disk_info`, and whether the disk can be created. -/
structure NvmeInfo where
  blocks : Nat
  blockSize : Nat
  disk : Option BlockSource

structure DiskManager where
  disks : List DiskEntry

namespace DiskManager

variable (mgr : DiskManager)

def new : DiskManager := ⟨[]⟩

def addEntry (entry : DiskEntry) : DiskManager := ⟨mgr.disks ++ [entry]⟩

def findByName (name : Name) : Option Nat := mgr.disks.findIdx? (·.name = name)

def removeByDriver (driver : DriverKind) : DiskManager × Nat :=
  let kept := mgr.disks.filter (·.driver ≠ driver)
  (⟨kept⟩, mgr.disks.length - kept.length)

def count : Nat := mgr.disks.length

def digits (n : Nat) : Name := Nat.toDigits 10 n

def sdName (n : Nat) : Name := ['s', 'd', Char.ofNat ('a'.toNat + n % 26)]

def srName (n : Nat) : Name := ['s', 'r'] ++ digits n

def partName (diskName : Name) (index : Nat) : Name :=
  let endsWithDigit := (diskName.getLast?.map Char.isDigit).getD false
  if endsWithDigit then diskName ++ 'p' :: digits index else diskName ++ digits index

def diskEntry (diskName : Name) (driver : DriverKind) (found : Found) : DiskEntry :=
  ⟨diskName, .disk, found.sectors, 0, driver⟩

def partitionEntry (diskName : Name) (driver : DriverKind) (p : TableEntry) : DiskEntry :=
  ⟨partName diskName p.index, .partition, p.sectors, p.startLba, driver⟩

/-- The disk and its partitions, with how many entries they are. -/
def register (diskName : Name) (driver : DriverKind) (found : Found) : DiskManager × Nat :=
  let mgr := mgr.addEntry (diskEntry diskName driver found)
  let parts := readPartitions found.source
  (parts.foldl (fun mgr p => mgr.addEntry (partitionEntry diskName driver p)) mgr,
    1 + parts.length)

/-- A device that does not open or has no sectors is passed over. -/
def probeOne (name : Nat → Name) (driver : DriverKind) :
    DiskManager × Nat × Nat → Option Found × Nat → DiskManager × Nat × Nat
  | (mgr, added, disks), (none, _) => (mgr, added, disks)
  | (mgr, added, disks), (some found, offset) =>
    if found.sectors = 0 then (mgr, added, disks)
    else
      let (mgr, n) := mgr.register (name offset) driver found
      (mgr, added + n, disks + 1)

def probeEach (name : Nat → Name) (driver : DriverKind) (devices : List (Option Found)) :
    DiskManager × Nat × Nat :=
  devices.zipIdx.foldl (probeOne name driver) (mgr, 0, 0)

def probeAhci (ports : List (Option Found)) : DiskManager × Nat × Nat :=
  mgr.probeEach sdName .ahci ports

def probeIde (firstIndex : Nat) (infos : List (Option Found)) : DiskManager × Nat × Nat :=
  mgr.probeEach (fun offset => sdName (firstIndex + offset)) .ide infos

def nvmeFound (info : NvmeInfo) : Option Found := do
  let source ← info.disk
  if info.blocks = 0 ∨ info.blockSize = 0 then none
  else some ⟨saturating 64 (info.blocks * info.blockSize) / 512, source⟩

def probeNvme (firstIndex : Nat) (info : Option NvmeInfo) : DiskManager × Nat × Nat :=
  mgr.probeEach (fun _ => sdName firstIndex) .nvme [info.bind nvmeFound]

def probeAtapi (ports : List (Option Found)) : DiskManager × Nat × Nat :=
  mgr.probeEach srName .atapi ports

def probeUsb (firstIndex : Nat) (infos : List (Option Found)) : DiskManager × Nat :=
  let (mgr, added, _) := mgr.probeEach (fun offset => sdName (firstIndex + offset)) .usb infos
  (mgr, added)

end DiskManager

/-- What the drivers find. A device that does not open is `none`. -/
structure Machine where
  ahci : List (Option Found)
  ide : List (Option Found)
  nvme : Option NvmeInfo
  atapi : List (Option Found)
  usb : List (Option Found)

namespace DiskManager

variable (mgr : DiskManager)

def probe (m : Machine) : DiskManager × Nat :=
  let (mgr, added, disks) := mgr.probeAhci m.ahci
  let (mgr, ideAdded, ideDisks) := mgr.probeIde disks m.ide
  let nvmeFirst := disks + ideDisks
  let (mgr, nvmeAdded, nvmeDisks) := mgr.probeNvme nvmeFirst m.nvme
  let atapiFirst := nvmeFirst + nvmeDisks
  let (mgr, atapiAdded, atapiCount) := mgr.probeAtapi m.atapi
  let (mgr, usbAdded) := mgr.probeUsb (atapiFirst + atapiCount) m.usb
  (mgr, added + ideAdded + nvmeAdded + atapiAdded + usbAdded)

/-- The entries of USB disks are made anew from what the driver sees now. -/
def refreshUsb (usb : List (Option Found)) : DiskManager × Nat × Nat :=
  let (mgr, removed) := mgr.removeByDriver .usb
  let (mgr, added) := mgr.probeUsb mgr.count usb
  (mgr, removed, added)

def run (m : Machine) (refreshes : List (List (Option Found))) : DiskManager :=
  refreshes.foldl (fun mgr usb => (mgr.refreshUsb usb).1) (new.probe m).1

end DiskManager

end Vibra.Disk

/-! ## Names and the disks they identify

A registered name is that of a disk, or that of a disk with an index of its partition table.
-/

namespace Vibra.Disk

open Fat32 (Name)

namespace DiskManager

theorem digits_injective : Function.Injective digits := fun n m h => by
  rw [← Nat.ofDigitChars_ten_toDigits (n := n), ← Nat.ofDigitChars_ten_toDigits (n := m)]
  exact congrArg (fun cs => Nat.ofDigitChars 10 cs 0) h

theorem isDigit_of_mem_digits {n : Nat} {c : Char} (h : c ∈ digits n) : c.isDigit :=
  Nat.isDigit_of_mem_toDigits (by decide) (by decide) h

theorem digits_ne_nil (n : Nat) : digits n ≠ [] := Nat.toDigits_ne_nil

theorem sdName_inj {n m : Nat} : sdName n = sdName m ↔ n % 26 = m % 26 := by
  have hletters : ∀ k < 26, ∀ l < 26,
      Char.ofNat ('a'.toNat + k) = Char.ofNat ('a'.toNat + l) → k = l := by decide
  simp only [sdName, List.cons.injEq, and_true, true_and]
  exact ⟨hletters _ (Nat.mod_lt _ (by decide)) _ (Nat.mod_lt _ (by decide)), fun h => by rw [h]⟩

theorem srName_inj {n m : Nat} : srName n = srName m ↔ n = m := by
  rw [srName, srName, List.append_cancel_left_eq]
  exact digits_injective.eq_iff

theorem sdName_ne_srName (n m : Nat) : sdName n ≠ srName m := by
  simp [sdName, srName]

theorem partName_sdName (n i : Nat) : partName (sdName n) i = sdName n ++ digits i := by
  have hletters : ∀ k < 26, (Char.ofNat ('a'.toNat + k)).isDigit = false := by decide
  have hlast : (sdName n).getLast? = some (Char.ofNat ('a'.toNat + n % 26)) := rfl
  rw [partName, hlast, Option.map_some, hletters _ (Nat.mod_lt n (by decide))]
  rfl

theorem partName_srName (n i : Nat) : partName (srName n) i = srName n ++ 'p' :: digits i := by
  have hlast : (srName n).getLast? = some ((digits n).getLast (digits_ne_nil n)) := by
    rw [srName, List.getLast?_append_of_ne_nil _ (digits_ne_nil n),
      List.getLast?_eq_some_getLast (digits_ne_nil n)]
  rw [partName, hlast]
  simp [isDigit_of_mem_digits (List.getLast_mem (digits_ne_nil n))]

end DiskManager

open DiskManager

/-- A disk that a probe registers, by its number. -/
structure NamedDisk where
  driver : DriverKind
  number : Nat
  found : Found

namespace NamedDisk

variable (d : NamedDisk)

def name : Name := if d.driver = .atapi then srName d.number else sdName d.number

def entries : List DiskEntry :=
  diskEntry d.name d.driver d.found ::
    (readPartitions d.found.source).map (partitionEntry d.name d.driver)

variable {d} {d' : NamedDisk}

theorem name_eq_iff : d.name = d'.name ↔
    (d.driver = .atapi ∧ d'.driver = .atapi ∧ d.number = d'.number) ∨
      (d.driver ≠ .atapi ∧ d'.driver ≠ .atapi ∧ d.number % 26 = d'.number % 26) := by
  unfold name
  split
  next h =>
    split
    next h' => simp [h, h', srName_inj]
    next h' => simp [h, h', (sdName_ne_srName _ _).symm]
  next h =>
    split
    next h' => simp [h, h', sdName_ne_srName]
    next h' => simp [h, h', sdName_inj]

theorem partName_name (d : NamedDisk) (i : Nat) :
    partName d.name i = d.name ++ (if d.driver = .atapi then ['p'] else []) ++ digits i := by
  unfold name
  split
  · simp [partName_srName]
  · simp [partName_sdName]

theorem partName_injective (d : NamedDisk) : Function.Injective (partName d.name) := by
  intro i j h
  rw [partName_name, partName_name, List.append_cancel_left_eq] at h
  exact digits_injective h

theorem partName_ne_name (d : NamedDisk) (i : Nat) : partName d.name i ≠ d.name := by
  rw [partName_name, List.append_assoc]
  intro h
  have hnil := List.append_right_eq_self.mp h
  exact digits_ne_nil i (List.append_eq_nil_iff.mp hnil).2

def diskPart : Name → Name
  | 's' :: 'd' :: c :: _ => ['s', 'd', c]
  | name => name.takeWhile (· ≠ 'p')

theorem diskPart_srName (n : Nat) (rest : Name) :
    diskPart (srName n ++ 'p' :: rest) = srName n ∧ diskPart (srName n) = srName n := by
  have hnot : ∀ c ∈ srName n, decide (c ≠ 'p') = true := fun c hc => by
    rcases List.mem_append.mp hc with hc | hc
    · rcases List.mem_pair.mp hc with rfl | rfl <;> rfl
    · have hdigit := isDigit_of_mem_digits hc
      refine decide_eq_true fun hp => ?_
      rw [hp] at hdigit
      cases hdigit
  constructor
  · change List.takeWhile (fun c => decide (c ≠ 'p')) (srName n ++ 'p' :: rest) = srName n
    rw [List.takeWhile_append_of_pos hnot, List.takeWhile_cons_of_neg (by decide), List.append_nil]
  · exact List.takeWhile_eq_self_iff.mpr hnot

theorem diskPart_name (d : NamedDisk) : diskPart d.name = d.name := by
  unfold name
  split
  · exact (diskPart_srName _ []).2
  · rfl

theorem diskPart_partName (d : NamedDisk) (i : Nat) : diskPart (partName d.name i) = d.name := by
  unfold name
  split
  · rw [partName_srName]
    exact (diskPart_srName _ _).1
  · rw [partName_sdName]
    rfl

theorem map_name_entries (d : NamedDisk) : d.entries.map (·.name) =
    d.name :: (readPartitions d.found.source).map fun p => partName d.name p.index := by
  simp [entries, diskEntry, partitionEntry, Function.comp_def]

theorem diskPart_of_mem {d : NamedDisk} {n : Name} (h : n ∈ d.entries.map (·.name)) :
    diskPart n = d.name := by
  rw [map_name_entries] at h
  rcases List.mem_cons.mp h with rfl | h
  · exact diskPart_name d
  · obtain ⟨p, -, rfl⟩ := List.mem_map.mp h
    exact diskPart_partName d p.index

theorem name_mem_entries (d : NamedDisk) : d.name ∈ d.entries.map (·.name) := by
  rw [map_name_entries]
  exact List.mem_cons_self

theorem entries_disjoint_iff {d d' : NamedDisk} :
    List.Disjoint (d.entries.map (·.name)) (d'.entries.map (·.name)) ↔ d.name ≠ d'.name := by
  refine ⟨fun h heq => ?_, fun hne n hn hn' => ?_⟩
  · have hmem := name_mem_entries d'
    rw [← heq] at hmem
    exact h (name_mem_entries d) hmem
  · exact hne ((diskPart_of_mem hn).symm.trans (diskPart_of_mem hn'))

theorem entries_nodup_iff (d : NamedDisk) :
    (d.entries.map (·.name)).Nodup ↔ DistinctEntries d.found.source := by
  rw [map_name_entries, List.nodup_cons, ← readPartitions_nodup,
    ← List.nodup_map_iff (partName_injective d), List.map_map]
  refine and_iff_right fun h => ?_
  obtain ⟨p, -, hp⟩ := List.mem_map.mp h
  exact partName_ne_name d p.index hp

end NamedDisk

/-- The letters of the disks differ, and so do the entries of each partition table. -/
def DistinctDisks (disks : List NamedDisk) : Prop :=
  ((disks.filter (·.driver ≠ .atapi)).map (·.number % 26)).Nodup ∧
    ∀ d ∈ disks, DistinctEntries d.found.source

def Numbered (disks : List NamedDisk) : Prop :=
  ((disks.filter (·.driver = .atapi)).map (·.number)).Nodup

theorem pairwise_name_iff {disks : List NamedDisk} (h : Numbered disks) :
    disks.Pairwise (fun d d' => d.name ≠ d'.name) ↔
      ((disks.filter (·.driver ≠ .atapi)).map (·.number % 26)).Nodup := by
  have hatapi : disks.Pairwise fun d d' =>
      d.driver = .atapi → d'.driver = .atapi → d.number ≠ d'.number := by
    simpa [Numbered, List.Nodup, List.pairwise_map, List.pairwise_filter] using h
  simp only [List.Nodup, List.pairwise_map, List.pairwise_filter, decide_eq_true_eq]
  constructor
  · intro hall
    refine hall.imp ?_
    intro d d' hne hd hd' heq
    exact hne (NamedDisk.name_eq_iff.mpr (Or.inr ⟨hd, hd', heq⟩))
  · intro hletters
    refine (hletters.and hatapi).imp ?_
    rintro d d' ⟨hletter, hnumber⟩ heq
    rcases NamedDisk.name_eq_iff.mp heq with ⟨hd, hd', hnum⟩ | ⟨hd, hd', hnum⟩
    · exact hnumber hd hd' hnum
    · exact hletter hd hd' hnum

theorem entries_nodup_iff {disks : List NamedDisk} (h : Numbered disks) :
    ((disks.flatMap NamedDisk.entries).map (·.name)).Nodup ↔ DistinctDisks disks := by
  rw [List.map_flatMap, List.nodup_flatMap, and_comm, DistinctDisks, ← pairwise_name_iff h]
  refine and_congr ?_ ?_
  · exact ⟨fun hall => hall.imp fun {_ _} hd => NamedDisk.entries_disjoint_iff.mp hd,
      fun hall => hall.imp fun {_ _} hd => NamedDisk.entries_disjoint_iff.mpr hd⟩
  · exact forall₂_congr fun d _ => d.entries_nodup_iff

/-- The disk of a device, if it opens and has sectors. -/
def namedOne (driver : DriverKind) (number : Nat → Nat) (device : Option Found × Nat) :
    Option NamedDisk :=
  device.1.bind fun found =>
    if found.sectors = 0 then none else some ⟨driver, number device.2, found⟩

def named (driver : DriverKind) (number : Nat → Nat) (devices : List (Option Found)) :
    List NamedDisk :=
  devices.zipIdx.filterMap (namedOne driver number)

namespace DiskManager

theorem foldl_addEntry (mgr : DiskManager) (entry : TableEntry → DiskEntry)
    (parts : List TableEntry) :
    parts.foldl (fun mgr p => mgr.addEntry (entry p)) mgr = ⟨mgr.disks ++ parts.map entry⟩ := by
  induction parts generalizing mgr with
  | nil => simp
  | cons p parts ih =>
    rw [List.foldl_cons, ih, addEntry, List.map_cons, List.append_assoc, List.singleton_append]

theorem register_eq (mgr : DiskManager) (d : NamedDisk) :
    mgr.register d.name d.driver d.found = (⟨mgr.disks ++ d.entries⟩, d.entries.length) := by
  rw [register, foldl_addEntry]
  simp [addEntry, NamedDisk.entries, Nat.add_comm]

theorem foldl_probeOne {name : Nat → Name} {driver : DriverKind} {number : Nat → Nat}
    (hname : ∀ n found, name n = NamedDisk.name ⟨driver, number n, found⟩)
    (devices : List (Option Found × Nat)) (mgr : DiskManager) (added disks : Nat) :
    devices.foldl (probeOne name driver) (mgr, added, disks) =
      (⟨mgr.disks ++ (devices.filterMap (namedOne driver number)).flatMap NamedDisk.entries⟩,
        added + ((devices.filterMap (namedOne driver number)).flatMap NamedDisk.entries).length,
        disks + (devices.filterMap (namedOne driver number)).length) := by
  induction devices generalizing mgr added disks with
  | nil => simp
  | cons device devices ih =>
    obtain ⟨found, offset⟩ := device
    cases found with
    | none =>
      rw [List.foldl_cons, probeOne, ih]
      rfl
    | some found =>
      rw [List.foldl_cons, probeOne]
      by_cases hzero : found.sectors = 0
      · rw [if_pos hzero, ih, List.filterMap_cons_none (by simp [namedOne, hzero])]
      · rw [if_neg hzero, hname offset found]
        have hreg := register_eq mgr ⟨driver, number offset, found⟩
        dsimp only at hreg ⊢
        rw [hreg, ih, List.filterMap_cons_some (b := ⟨driver, number offset, found⟩)
          (by simp [namedOne, hzero])]
        simp [Nat.add_assoc, Nat.add_comm 1]

theorem probeEach_eq (mgr : DiskManager) {name : Nat → Name} (driver : DriverKind)
    (number : Nat → Nat) (hname : ∀ n found, name n = NamedDisk.name ⟨driver, number n, found⟩)
    (devices : List (Option Found)) :
    mgr.probeEach name driver devices =
      (⟨mgr.disks ++ (named driver number devices).flatMap NamedDisk.entries⟩,
        ((named driver number devices).flatMap NamedDisk.entries).length,
        (named driver number devices).length) := by
  rw [probeEach, foldl_probeOne hname, Nat.zero_add, Nat.zero_add]
  rfl

def probed (m : Machine) : List NamedDisk :=
  let ahci := named .ahci id m.ahci
  let ide := named .ide (ahci.length + ·) m.ide
  let nvme := named .nvme (fun _ => ahci.length + ide.length) [m.nvme.bind nvmeFound]
  let atapi := named .atapi id m.atapi
  let first := ahci.length + ide.length + nvme.length + atapi.length
  ahci ++ ide ++ nvme ++ atapi ++ named .usb (first + ·) m.usb

/-- The disks after a refresh: USB disks are numbered from the count of entries on. -/
def refreshed (disks : List NamedDisk) (usb : List (Option Found)) : List NamedDisk :=
  let kept := disks.filter (·.driver ≠ .usb)
  kept ++ named .usb ((kept.flatMap NamedDisk.entries).length + ·) usb

def registered (m : Machine) (refreshes : List (List (Option Found))) : List NamedDisk :=
  refreshes.foldl refreshed (probed m)

theorem probe_disks (m : Machine) :
    (new.probe m).1.disks = (probed m).flatMap NamedDisk.entries := by
  have hahci := fun mgr => probeEach_eq mgr .ahci id (fun n _ => show sdName n = _ from rfl) m.ahci
  have hide := fun mgr k =>
    probeEach_eq mgr .ide (k + ·) (fun n _ => show sdName (k + n) = _ from rfl) m.ide
  have hnvme := fun mgr k =>
    probeEach_eq mgr .nvme (fun _ => k) (fun _ _ => show sdName k = _ from rfl)
      [m.nvme.bind nvmeFound]
  have hatapi := fun mgr =>
    probeEach_eq mgr .atapi id (fun n _ => show srName n = _ from rfl) m.atapi
  have husb := fun mgr k =>
    probeEach_eq mgr .usb (k + ·) (fun n _ => show sdName (k + n) = _ from rfl) m.usb
  simp only [probe, probeAhci, hahci, probeIde, hide, probeNvme, hnvme, probeAtapi, hatapi,
    probeUsb, husb, probed, List.flatMap_append]
  rfl

theorem entries_filter (disks : List NamedDisk) (driver : DriverKind) :
    (disks.flatMap NamedDisk.entries).filter (·.driver ≠ driver) =
      (disks.filter (·.driver ≠ driver)).flatMap NamedDisk.entries := by
  induction disks with
  | nil => rfl
  | cons d disks ih =>
    have hd : ∀ e ∈ d.entries, e.driver = d.driver := by
      intro e he
      rcases List.mem_cons.mp he with rfl | he
      · rfl
      · obtain ⟨p, -, rfl⟩ := List.mem_map.mp he
        rfl
    rw [List.flatMap_cons, List.filter_append, ih]
    by_cases hdriver : d.driver = driver
    · rw [List.filter_cons_of_neg (by simpa using hdriver),
        List.filter_eq_nil_iff.mpr fun e he => by simpa [hd e he] using hdriver, List.nil_append]
    · rw [List.filter_cons_of_pos (by simpa using hdriver), List.flatMap_cons,
        List.filter_eq_self.mpr fun e he => by simpa [hd e he] using hdriver]

theorem refreshUsb_disks {mgr : DiskManager} {disks : List NamedDisk}
    (h : mgr.disks = disks.flatMap NamedDisk.entries) (usb : List (Option Found)) :
    (mgr.refreshUsb usb).1.disks = (refreshed disks usb).flatMap NamedDisk.entries := by
  have husb := fun mgr k =>
    probeEach_eq mgr .usb (k + ·) (fun n _ => show sdName (k + n) = _ from rfl) usb
  simp only [refreshUsb, removeByDriver, probeUsb, husb, refreshed, count, h, entries_filter,
    List.flatMap_append]

theorem run_disks (m : Machine) (refreshes : List (List (Option Found))) :
    (run m refreshes).disks = (registered m refreshes).flatMap NamedDisk.entries := by
  induction refreshes using List.reverseRecOn with
  | nil => exact probe_disks m
  | append_singleton refreshes usb ih =>
    rw [run, registered, List.foldl_append, List.foldl_append]
    exact refreshUsb_disks ih usb

/-! ### Drives for compact discs -/

theorem driver_of_mem_named {driver : DriverKind} {number : Nat → Nat}
    {devices : List (Option Found)} {d : NamedDisk} (h : d ∈ named driver number devices) :
    d.driver = driver := by
  obtain ⟨⟨device, offset⟩, -, hd⟩ := List.mem_filterMap.mp h
  obtain ⟨found, -, hfound⟩ := Option.bind_eq_some_iff.mp hd
  split at hfound
  · cases hfound
  · rw [← Option.some.inj hfound]

theorem filter_named_ne {driver : DriverKind} (h : driver ≠ .atapi) (number : Nat → Nat)
    (devices : List (Option Found)) :
    (named driver number devices).filter (·.driver = .atapi) = [] :=
  List.filter_eq_nil_iff.mpr fun d hd => by simpa [driver_of_mem_named hd] using h

theorem numbers_sublist (devices : List (Option Found × Nat)) :
    ((devices.filterMap (namedOne .atapi id)).map (·.number)).Sublist (devices.map Prod.snd) := by
  induction devices with
  | nil => exact List.Sublist.refl _
  | cons device devices ih =>
    cases h : namedOne .atapi id device with
    | none =>
      rw [List.filterMap_cons_none h]
      exact ih.cons _
    | some d =>
      have hnumber : d.number = device.2 := by
        obtain ⟨found, -, hfound⟩ := Option.bind_eq_some_iff.mp h
        split at hfound
        · cases hfound
        · rw [← Option.some.inj hfound]
          rfl
      rw [List.filterMap_cons_some h, List.map_cons, List.map_cons, hnumber]
      exact ih.cons_cons _

theorem numbered_named (devices : List (Option Found)) : Numbered (named .atapi id devices) := by
  have hzip : (devices.zipIdx.map Prod.snd).Nodup := by
    rw [List.zipIdx_map_snd]
    exact List.nodup_range'
  exact ((numbers_sublist devices.zipIdx).nodup hzip).sublist (List.filter_sublist.map _)

theorem numbered_probed (m : Machine) : Numbered (probed m) := by
  have hatapi := numbered_named m.atapi
  rw [Numbered] at hatapi ⊢
  simp only [probed, List.filter_append, ne_eq, reduceCtorEq, not_false_eq_true, filter_named_ne,
    List.nil_append, List.append_nil]
  exact hatapi

theorem numbered_refreshed {disks : List NamedDisk} (h : Numbered disks)
    (usb : List (Option Found)) : Numbered (refreshed disks usb) := by
  have hkept : (disks.filter (·.driver ≠ .usb)).filter (·.driver = .atapi) =
      disks.filter (·.driver = .atapi) := by
    rw [List.filter_filter]
    refine List.filter_congr fun d _ => ?_
    cases d.driver <;> rfl
  rw [Numbered, refreshed, List.filter_append, hkept, filter_named_ne (by decide), List.append_nil]
  exact h

theorem numbered_registered (m : Machine) (refreshes : List (List (Option Found))) :
    Numbered (registered m refreshes) := by
  induction refreshes using List.reverseRecOn with
  | nil => exact numbered_probed m
  | append_singleton refreshes usb ih =>
    rw [registered, List.foldl_append]
    exact numbered_refreshed ih usb

def Identifies (mgr : DiskManager) : Prop :=
  (mgr.disks.map (·.name)).Nodup ∧
    ∀ i entry, mgr.disks[i]? = some entry → mgr.findByName entry.name = some i

theorem identifies_iff {mgr : DiskManager} :
    mgr.Identifies ↔ (mgr.disks.map (·.name)).Nodup := by
  refine ⟨And.left, fun h => ⟨h, fun i entry hentry => ?_⟩⟩
  obtain ⟨hlt, hget⟩ := List.getElem?_eq_some_iff.mp hentry
  rw [findByName, List.findIdx?_eq_some_iff_getElem]
  refine ⟨hlt, by simp [hget], fun j hj => ?_⟩
  rw [decide_eq_true_eq, ← hget]
  intro heq
  have hmap : (mgr.disks.map (·.name))[j]? = (mgr.disks.map (·.name))[i]? := by
    rw [List.getElem?_map, List.getElem?_map, List.getElem?_eq_getElem (hj.trans hlt),
      List.getElem?_eq_getElem hlt, Option.map_some, Option.map_some, heq]
  exact hj.ne ((List.getElem?_inj (by simpa using hj.trans hlt) h).mp hmap)

/-- After a probe and any number of refreshes, names identify the entries exactly if the
registered disks are distinct. -/
theorem names_identify_iff (m : Machine) (refreshes : List (List (Option Found))) :
    (run m refreshes).Identifies ↔ DistinctDisks (registered m refreshes) := by
  rw [identifies_iff, run_disks, entries_nodup_iff (numbered_registered m refreshes)]

/-- Of two SATA ports the first is silent, so the second is `sdb`, and so is the IDE disk
after one SATA disk. -/
def silentPort : Machine where
  ahci := [none, some ⟨8, ⟨512, fun _ => none, fun _ _ => none⟩⟩]
  ide := [some ⟨8, ⟨512, fun _ => none, fun _ _ => none⟩⟩]
  nvme := none
  atapi := []
  usb := []

theorem names_identify_fails : ¬ (run silentPort []).Identifies := by
  have hnames : (run silentPort []).disks.map (·.name) = [['s', 'd', 'b'], ['s', 'd', 'b']] := rfl
  rintro ⟨h, -⟩
  rw [hnames] at h
  revert h
  decide

end DiskManager

end Vibra.Disk
