import Vibra.Disk.Ranges
import Vibra.Disk.Registry

/-! # Units of the registry

A device has blocks of its own size, and each driver makes of what the device reports a number of
512-byte sectors:
-/

namespace Vibra.Disk

open Fat32 (FsError)
open Lib (Memory)

/-! ## Windows -/

/-- A device as the block layer sees it: bytes, of which the sectors count 512. -/
def flat (capacity sectorSize : Nat) : DiskIo Memory where
  read m sector len :=
    (m, if sector * 512 + len ≤ capacity then .ok (m.slice (sector * 512) len)
      else .error .ioError)
  write m sector data :=
    if sector * 512 + data.length ≤ capacity then (m.put (sector * 512) data, .ok ())
    else (m, .error .ioError)
  sectorSize

/-- What `DiskManager::open` returns. -/
inductive Window where
  | whole
  | part (window : PartitionDisk)

def Window.ofEntry (e : DiskEntry) : Window :=
  if e.sectors = 0 then .whole else .part ⟨e.offset, e.sectors⟩

/-- `WholeDisk` hands the calls on. -/
def Window.exec {σ : Type} (w : Window) (inner : DiskIo σ) (p : Parent σ) (call : WindowCall) :
    Parent σ × Bool :=
  match w, call with
  | .part d, call => d.exec inner p call
  | .whole, .read sector len =>
    let (p, result) := p.read inner sector len
    (p, result.toBool)
  | .whole, .write sector data =>
    let (p, result) := p.write inner sector data
    (p, result.toBool)
  | .whole, .readLba lba len =>
    let ss := max inner.sectorSize 512
    let (p, result) := p.read inner (lba * ss / 512) (min len ss)
    (p, result.toBool)

/-- A call that succeeds reads or writes the byte. -/
def Window.Reaches (w : Window) (capacity sectorSize x : Nat) : Prop :=
  ∃ m call, (w.exec (flat capacity sectorSize) ⟨m, []⟩ call).2 = true ∧
    ∃ r ∈ (w.exec (flat capacity sectorSize) ⟨m, []⟩ call).1.requests,
      r.sector * 512 ≤ x ∧ x < r.sector * 512 + r.len

section Windows

variable {capacity sectorSize : Nat} {m : Memory} {d : PartitionDisk}

theorem read_flat (sector len : Nat) :
    ((⟨m, []⟩ : Parent Memory).read (flat capacity sectorSize) sector len).1.requests =
        [⟨sector, len⟩] ∧
      (((⟨m, []⟩ : Parent Memory).read (flat capacity sectorSize) sector len).2.toBool = true ↔
        sector * 512 + len ≤ capacity) := by
  refine ⟨rfl, ?_⟩
  change (if sector * 512 + len ≤ capacity then _ else _ : Except FsError _).toBool = true ↔ _
  split
  case isTrue h => exact iff_of_true rfl h
  case isFalse h => exact iff_of_false Bool.noConfusion h

theorem write_flat (sector : Nat) (data : List UInt8) :
    ((⟨m, []⟩ : Parent Memory).write (flat capacity sectorSize) sector data).1.requests =
        [⟨sector, data.length⟩] ∧
      (((⟨m, []⟩ : Parent Memory).write (flat capacity sectorSize) sector data).2.toBool = true ↔
        sector * 512 + data.length ≤ capacity) := by
  refine ⟨rfl, ?_⟩
  change (if sector * 512 + data.length ≤ capacity then (_, _) else (_, _) :
    Memory × Except FsError Unit).2.toBool = true ↔ _
  split
  case isTrue h => exact iff_of_true rfl h
  case isFalse h => exact iff_of_false Bool.noConfusion h

theorem part_request {call : WindowCall}
    (h : (d.exec (flat capacity sectorSize) ⟨m, []⟩ call).2 = true) :
    ∃ r, (d.exec (flat capacity sectorSize) ⟨m, []⟩ call).1.requests = [r] ∧
      d.offset ≤ r.sector ∧ r.sector * 512 + r.len ≤ capacity := by
  cases call with
  | read sector len =>
    simp only [PartitionDisk.exec, PartitionDisk.read] at h ⊢
    cases hcheck : d.check sector len with
    | error e => simp only [hcheck] at h; cases h
    | ok u =>
      cases htarget : checked (d.offset + sector) with
      | none => simp only [hcheck, htarget] at h; cases h
      | some target =>
        obtain rfl := PartitionDisk.checked_eq_some htarget
        simp only [hcheck, htarget] at h ⊢
        exact ⟨_, (read_flat _ len).1, Nat.le_add_right _ _, (read_flat _ len).2.mp h⟩
  | write sector data =>
    simp only [PartitionDisk.exec, PartitionDisk.write] at h ⊢
    cases hcheck : d.check sector data.length with
    | error e => simp only [hcheck] at h; cases h
    | ok u =>
      cases htarget : checked (d.offset + sector) with
      | none => simp only [hcheck, htarget] at h; cases h
      | some target =>
        obtain rfl := PartitionDisk.checked_eq_some htarget
        simp only [hcheck, htarget] at h ⊢
        exact ⟨_, (write_flat _ data).1, Nat.le_add_right _ _, (write_flat _ data).2.mp h⟩
  | readLba lba len =>
    simp only [PartitionDisk.exec, PartitionDisk.readLba] at h ⊢
    cases hbyte : d.lbaByte (flat capacity sectorSize).sectorSize lba with
    | none => simp only [hbyte] at h; cases h
    | some byte =>
      have hsum := PartitionDisk.lbaByte_eq_some hbyte
      simp only [hbyte] at h ⊢
      by_cases hmod : byte % 512 ≠ 0
      · rw [if_pos hmod] at h
        cases h
      · rw [if_neg hmod] at h ⊢
        exact ⟨_, (read_flat _ len).1, by dsimp only; omega, (read_flat _ len).2.mp h⟩

theorem exec_readLba (hoffset : d.offset * 512 < 2 ^ 64) (len : Nat) :
    d.exec (flat capacity sectorSize) ⟨m, []⟩ (.readLba 0 len) =
      (((⟨m, []⟩ : Parent Memory).read (flat capacity sectorSize) d.offset len).1,
        ((⟨m, []⟩ : Parent Memory).read (flat capacity sectorSize) d.offset len).2.toBool) := by
  have hbyte : d.lbaByte (flat capacity sectorSize).sectorSize 0 = some (d.offset * 512) := by
    have hbase : checked (d.offset * 512) = some (d.offset * 512) := if_pos hoffset
    have hrel : checked (0 * max sectorSize 512) = some 0 := by
      rw [Nat.zero_mul]
      rfl
    have hsize : (flat capacity sectorSize).sectorSize = sectorSize := rfl
    simp only [PartitionDisk.lbaByte, hsize, hbase, hrel, Option.bind_eq_bind, Option.bind_some,
      Nat.add_zero]
  have hmod : ¬ d.offset * 512 % 512 ≠ 0 := not_not_intro (Nat.mul_mod_left _ _)
  have hdiv : d.offset * 512 / 512 = d.offset := Nat.mul_div_cancel _ (by decide)
  simp only [PartitionDisk.exec, PartitionDisk.readLba, hbyte, if_neg hmod, hdiv]

theorem part_reaches {x : Nat} (hoffset : d.offset * 512 ≤ x) (hx : x < capacity)
    (hcapacity : capacity ≤ 2 ^ 64) : (Window.part d).Reaches capacity sectorSize x := by
  obtain ⟨len, hlen⟩ : ∃ len, d.offset * 512 + len = capacity :=
    ⟨capacity - d.offset * 512, by omega⟩
  have hexec := @exec_readLba capacity sectorSize (fun _ => 0) d (by omega) len
  refine ⟨fun _ => 0, .readLba 0 len, ?_, ⟨d.offset, len⟩, ?_, hoffset, hlen ▸ hx⟩
  · rw [Window.exec, hexec]
    exact (read_flat _ _).2.mpr (Nat.le_of_eq hlen)
  · rw [Window.exec, hexec, (read_flat _ _).1]
    exact List.mem_singleton_self _

theorem reaches_iff (e : DiskEntry) (hpos : 0 < capacity) (hcapacity : capacity ≤ 2 ^ 64) :
    (∀ x, (Window.ofEntry e).Reaches capacity sectorSize x ↔
      e.offset * 512 ≤ x ∧ x < (e.offset + e.sectors) * 512) ↔
      e.sectors ≠ 0 ∧ (e.offset + e.sectors) * 512 = capacity := by
  by_cases hzero : e.sectors = 0
  · refine iff_of_false (fun h => ?_) fun h => h.1 hzero
    have hreach : (Window.ofEntry e).Reaches capacity sectorSize 0 := by
      rw [Window.ofEntry, if_pos hzero]
      have hread := @read_flat capacity sectorSize (fun _ => 0) 0 1
      refine ⟨fun _ => 0, .read 0 1, hread.2.mpr (by omega), ⟨0, 1⟩, ?_, Nat.le_refl _, Nat.one_pos⟩
      exact List.mem_singleton_self _
    have hinside := (h 0).mp hreach
    rw [hzero] at hinside
    omega
  · rw [Window.ofEntry, if_neg hzero]
    have hbelow : ∀ x, (Window.part ⟨e.offset, e.sectors⟩).Reaches capacity sectorSize x →
        e.offset * 512 ≤ x ∧ x < capacity := by
      rintro x ⟨m, call, hsuccess, r, hr, hlow, hhigh⟩
      obtain ⟨r', hrequests, hoffset, hend⟩ := part_request hsuccess
      rw [Window.exec, hrequests] at hr
      cases List.mem_singleton.mp hr
      dsimp only at hoffset
      omega
    constructor
    · intro h
      have hlast := hbelow _ ((h ((e.offset + e.sectors) * 512 - 1)).mpr (by omega))
      have hend := (h (capacity - 1)).mp (part_reaches (by dsimp only; omega) (by omega) hcapacity)
      exact ⟨hzero, by omega⟩
    · intro ⟨_, hend⟩ x
      rw [hend]
      exact ⟨hbelow x, fun hx => part_reaches hx.1 hx.2 hcapacity⟩

end Windows

/-- What the table parser reads of a device. -/
structure Reads where
  read : Nat → Option Memory
  readLba : Nat → Nat → Option Memory

def Reads.source (r : Reads) (sectorSize : Nat) : BlockSource := ⟨sectorSize, r.read, r.readLba⟩

def word2 (words : Nat → Nat) (i : Nat) : Nat := words i + 2 ^ 16 * words (i + 1)

def word4 (words : Nat → Nat) (i : Nat) : Nat := word2 words i + 2 ^ 32 * word2 words (i + 2)

/-- A SATA or IDE drive and its IDENTIFY answer. The size of a block of more than 256 words is in
words 117 and 118, the number of blocks in 60 and 61, and in 100 to 103 with 48-bit addresses. -/
structure AtaDrive extends Reads where
  blocks : Nat
  blockSize : Nat
  words : Nat → Nat
  positive : 0 < blockSize
  whole : 512 ∣ blockSize
  limit : blocks ≤ 2 ^ 48
  plain : word2 words 60 = min blocks (2 ^ 28 - 1)
  extended : (words 83).testBit 10 = true → word4 words 100 = blocks
  small : (words 83).testBit 10 = false → blocks < 2 ^ 28 ∧ word4 words 100 = 0
  long : (words 106).testBit 12 = decide (blockSize ≠ 512)
  size : blockSize ≠ 512 → word2 words 117 = blockSize / 2

/-- An NVMe namespace; the format in use gives the size of a block as a power of two. -/
structure NvmeNamespace extends Reads where
  blocks : Nat
  lbads : Nat
  whole : 9 ≤ lbads

/-- A drive that answers READ CAPACITY(10), with the last address in 32 bits. -/
structure ScsiDrive extends Reads where
  blocks : Nat
  blockSize : Nat
  nonempty : 0 < blocks
  positive : 0 < blockSize
  whole : 512 ∣ blockSize
  limit : blockSize < 2 ^ 32

namespace AtaDrive

variable (d : AtaDrive)

/-- `sector_size` of `identify_once`, which reads the upper one of the two words. -/
def identifiedSize : Nat :=
  if (d.words 106).testBit 12 then
    (if 0 < d.words 118 then d.words 118 * 2 % 2 ^ 16 else 512)
  else 512

/-- What `probe_ahci` finds. -/
def ahci : Option Found :=
  some ⟨word4 d.words 100, d.source (if d.identifiedSize = 0 then 512 else d.identifiedSize)⟩

/-- `sectors` of the IDE driver's `probe`. -/
def ideSectors : Nat :=
  if (d.words 83).testBit 10 ∧ word4 d.words 100 ≠ 0 then word4 d.words 100
  else word2 d.words 60

/-- What `probe_ide` finds. -/
def ide : Option Found := some ⟨d.ideSectors, d.source 512⟩

end AtaDrive

namespace NvmeNamespace

variable (d : NvmeNamespace)

/-- `block_size` of `identify_namespace`. -/
def blockSize : Nat := if 9 ≤ d.lbads ∧ d.lbads ≤ 16 then 2 ^ d.lbads else 512

def info : NvmeInfo := ⟨d.blocks, d.blockSize, some (d.source d.blockSize)⟩

end NvmeNamespace

namespace ScsiDrive

variable (d : ScsiDrive)

def lastLba : Nat := min (d.blocks - 1) (2 ^ 32 - 1)

/-- `sectors_512`, and what `probe_atapi` finds. -/
def atapi : Option Found :=
  some ⟨saturating 64 ((d.lastLba + 1) * d.blockSize) / 512, d.source d.blockSize⟩

/-- What `UsbDisk::new` accepts. -/
def usb : Option Found := if d.blockSize ≠ 512 then none else some ⟨d.lastLba + 1, d.source 512⟩

end ScsiDrive

inductive Device where
  | ahci (d : AtaDrive)
  | ide (d : AtaDrive)
  | nvme (d : NvmeNamespace)
  | atapi (d : ScsiDrive)
  | usb (d : ScsiDrive)

namespace Device

def driver : Device → DriverKind
  | ahci _ => .ahci
  | ide _ => .ide
  | nvme _ => .nvme
  | atapi _ => .atapi
  | usb _ => .usb

/-- In bytes. -/
def capacity : Device → Nat
  | ahci d => d.blocks * d.blockSize
  | ide d => d.blocks * d.blockSize
  | nvme d => d.blocks * 2 ^ d.lbads
  | atapi d => d.blocks * d.blockSize
  | usb d => d.blocks * d.blockSize

def found : Device → Option Found
  | ahci d => d.ahci
  | ide d => d.ide
  | nvme d => DiskManager.nvmeFound d.info
  | atapi d => d.atapi
  | usb d => d.usb

/-- The driver can express the size of the device. -/
def Sized : Device → Prop
  | ahci d => d.blockSize = 512
  | ide d => d.blockSize = 512
  | nvme d => d.lbads ≤ 16 ∧ d.blocks * 2 ^ d.lbads < 2 ^ 64
  | atapi d => d.blocks ≤ 2 ^ 32
  | usb d => d.blocks ≤ 2 ^ 32

def Has (dev : Device) (found : Found) : Prop := dev.found = some found ∧ found.sectors ≠ 0

end Device

/-! ### Sizes -/

theorem blocks_eq_iff {n bs : Nat} (hn : n ≠ 0) : n * 512 = n * bs ↔ bs = 512 := by
  rw [Nat.mul_right_inj hn]
  exact eq_comm

theorem AtaDrive.ideSectors_eq (d : AtaDrive) : d.ideSectors = d.blocks := by
  unfold ideSectors
  cases hbit : (d.words 83).testBit 10 with
  | true =>
    rw [d.extended hbit]
    by_cases hblocks : d.blocks = 0
    · rw [if_neg (fun h => h.2 hblocks), d.plain, hblocks, Nat.zero_min]
    · exact if_pos ⟨rfl, hblocks⟩
  | false =>
    have hsmall := (d.small hbit).1
    rw [if_neg (fun h => Bool.noConfusion h.1), d.plain]
    omega

theorem NvmeNamespace.sized_iff (d : NvmeNamespace) (hblocks : d.blocks ≠ 0) :
    saturating 64 (d.blocks * d.blockSize) / 512 * 512 = d.blocks * 2 ^ d.lbads ↔
      d.lbads ≤ 16 ∧ d.blocks * 2 ^ d.lbads < 2 ^ 64 := by
  obtain ⟨k, hk⟩ : ∃ k, d.lbads = 9 + k := Nat.exists_eq_add_of_le d.whole
  have hsplit : d.blocks * 2 ^ d.lbads = d.blocks * 2 ^ k * 512 := by
    rw [hk, Nat.pow_add, Nat.mul_comm (2 ^ 9), ← Nat.mul_assoc]
  unfold saturating blockSize
  by_cases hbads : d.lbads ≤ 16
  · rw [if_pos ⟨d.whole, hbads⟩, hsplit]
    omega
  · have hlarge : d.blocks * 2 ^ 1 ≤ d.blocks * 2 ^ k :=
      Nat.mul_le_mul_left _ (Nat.pow_le_pow_right (by decide) (by omega))
    rw [if_neg (fun h => hbads h.2), hsplit]
    omega

theorem ScsiDrive.lastLba_succ (d : ScsiDrive) : d.lastLba + 1 = min d.blocks (2 ^ 32) := by
  have hnonempty := d.nonempty
  unfold lastLba
  omega

theorem ScsiDrive.sized_iff (d : ScsiDrive) :
    (d.lastLba + 1) * d.blockSize = d.blocks * d.blockSize ↔ d.blocks ≤ 2 ^ 32 := by
  rw [Nat.mul_right_cancel_iff d.positive, d.lastLba_succ]
  exact min_eq_left_iff

namespace Device

theorem sized_iff {dev : Device} {found : Found} (h : dev.Has found) :
    found.sectors * 512 = dev.capacity ↔ dev.Sized := by
  obtain ⟨hfound, hsectors⟩ := h
  cases dev with
  | ahci d =>
    cases Option.some.inj hfound
    cases hbit : (d.words 83).testBit 10 with
    | true =>
      dsimp only at hsectors ⊢
      rw [d.extended hbit] at hsectors ⊢
      exact blocks_eq_iff hsectors
    | false => exact absurd (d.small hbit).2 hsectors
  | ide d =>
    cases Option.some.inj hfound
    dsimp only at hsectors ⊢
    rw [d.ideSectors_eq] at hsectors ⊢
    exact blocks_eq_iff hsectors
  | nvme d =>
    by_cases hpos : d.blocks = 0 ∨ d.blockSize = 0
    · have hnone : (nvme d).found = none := if_pos hpos
      rw [hnone] at hfound
      cases hfound
    · have hsome : (nvme d).found =
          some ⟨saturating 64 (d.blocks * d.blockSize) / 512, d.source d.blockSize⟩ := if_neg hpos
      cases Option.some.inj (hsome.symm.trans hfound)
      exact d.sized_iff (not_or.mp hpos).1
  | atapi d =>
    cases Option.some.inj hfound
    have hlt : (d.lastLba + 1) * d.blockSize ≤ 2 ^ 64 - 1 := by
      have hbs := d.limit
      have hlast : d.lastLba + 1 ≤ 2 ^ 32 := by
        rw [d.lastLba_succ]
        exact Nat.min_le_right _ _
      have hmul := Nat.mul_le_mul hlast (Nat.le_sub_one_of_lt hbs)
      omega
    have hdvd : 512 ∣ (d.lastLba + 1) * d.blockSize := Dvd.dvd.mul_left d.whole _
    dsimp only
    rw [saturating, Nat.min_eq_left hlt, Nat.div_mul_cancel hdvd]
    exact d.sized_iff
  | usb d =>
    by_cases hbs : d.blockSize = 512
    · have hsome : (usb d).found = some ⟨d.lastLba + 1, d.source 512⟩ :=
        if_neg (not_not_intro hbs)
      cases Option.some.inj (hsome.symm.trans hfound)
      have hsized := d.sized_iff
      rw [hbs] at hsized
      rw [capacity, hbs]
      exact hsized
    · have hnone : (usb d).found = none := if_pos hbs
      rw [hnone] at hfound
      cases hfound

theorem Sized.capacity_le {dev : Device} (h : dev.Sized) : dev.capacity ≤ 2 ^ 64 := by
  cases dev with
  | ahci d | ide d =>
    have hblocks := d.limit
    have hbs : d.blockSize = 512 := h
    rw [capacity, hbs]
    omega
  | nvme d => exact h.2.le
  | atapi d | usb d =>
    have hblocks : d.blocks ≤ 2 ^ 32 := h
    exact (Nat.mul_le_mul hblocks d.limit.le).trans_eq (Nat.pow_add 2 32 32).symm

end Device

namespace NamedDisk

variable (d : NamedDisk)

theorem disk_entry {P : DiskEntry → Prop} :
    (∀ e ∈ d.entries, e.kind = .disk → P e) ↔
      P (DiskManager.diskEntry d.name d.driver d.found) := by
  rw [entries, List.forall_mem_cons, List.forall_mem_map]
  constructor
  · intro h
    exact h.1 rfl
  · intro h
    exact ⟨fun _ => h, fun p _ hkind => EntryKind.noConfusion hkind⟩

theorem forall_entries {P : DiskEntry → Prop} :
    (∀ e ∈ d.entries, P e) ↔ (∀ e ∈ d.entries, e.kind = .disk → P e) ∧
      ∀ e ∈ d.entries, e.kind = .partition → P e := by
  constructor
  · intro h
    exact ⟨fun e he _ => h e he, fun e he _ => h e he⟩
  · intro ⟨hdisk, hpartition⟩ e he
    cases hkind : e.kind with
    | disk => exact hdisk e he hkind
    | partition => exact hpartition e he hkind

theorem partition_entries {P : DiskEntry → Prop} :
    (∀ e ∈ d.entries, e.kind = .partition → P e) ↔
      ∀ p ∈ readPartitions d.found.source,
        P (DiskManager.partitionEntry d.name d.driver p) := by
  rw [entries, List.forall_mem_cons, List.forall_mem_map]
  constructor
  · intro h p hp
    exact h.2 p hp rfl
  · intro h
    exact ⟨fun hkind => EntryKind.noConfusion hkind, fun p hp _ => h p hp⟩

end NamedDisk

/-- The devices of a machine. A port may be silent. -/
structure Hardware where
  ahci : List (Option AtaDrive)
  ide : List AtaDrive
  nvme : Option NvmeNamespace
  atapi : List (Option ScsiDrive)
  usb : List ScsiDrive

namespace Hardware

def usbFound (usb : List ScsiDrive) : List (Option Found) := (usb.filterMap ScsiDrive.usb).map some

def machine (hw : Hardware) : Machine where
  ahci := hw.ahci.map (·.bind AtaDrive.ahci)
  ide := (hw.ide.filter (·.ideSectors ≠ 0)).map AtaDrive.ide
  nvme := hw.nvme.map NvmeNamespace.info
  atapi := hw.atapi.map (·.bind ScsiDrive.atapi)
  usb := usbFound hw.usb

/-- The devices that are there after the last refresh. -/
def Present (hw : Hardware) (refreshes : List (List ScsiDrive)) : Device → Prop
  | .ahci d => some d ∈ hw.ahci
  | .ide d => d ∈ hw.ide
  | .nvme d => hw.nvme = some d
  | .atapi d => some d ∈ hw.atapi
  | .usb d => d ∈ refreshes.getLast?.getD hw.usb

def run (hw : Hardware) (refreshes : List (List ScsiDrive)) : DiskManager :=
  DiskManager.run hw.machine (refreshes.map usbFound)

def disks (hw : Hardware) (refreshes : List (List ScsiDrive)) : List NamedDisk :=
  DiskManager.registered hw.machine (refreshes.map usbFound)

end Hardware

section Registered

variable {P : DriverKind → Found → Prop}

theorem forall_named {driver : DriverKind} {number : Nat → Nat} {devices : List (Option Found)} :
    (∀ d ∈ named driver number devices, P d.driver d.found) ↔
      ∀ found, some found ∈ devices → found.sectors ≠ 0 → P driver found := by
  constructor
  · intro h found hmem hsectors
    obtain ⟨i, hi⟩ := List.mem_iff_getElem?.mp hmem
    refine h ⟨driver, number i, found⟩ (List.mem_filterMap.mpr ⟨(some found, i), ?_, ?_⟩)
    · exact List.mem_zipIdx_iff_getElem?.mpr hi
    · exact if_neg hsectors
  · intro h d hd
    obtain ⟨⟨device, i⟩, hzip, hone⟩ := List.mem_filterMap.mp hd
    obtain ⟨found, hfound, hsome⟩ := Option.bind_eq_some_iff.mp hone
    have hmem := List.mem_zipIdx_iff_getElem?.mp hzip
    dsimp only at hfound hmem
    rw [hfound] at hmem
    split at hsome
    case isTrue => cases hsome
    case isFalse hsectors =>
        cases hsome
        exact h found (List.mem_of_getElem? hmem) hsectors

open DiskManager in
theorem forall_probed {m : Machine} : (∀ d ∈ probed m, P d.driver d.found) ↔
    (∀ found, some found ∈ m.ahci → found.sectors ≠ 0 → P .ahci found) ∧
    (∀ found, some found ∈ m.ide → found.sectors ≠ 0 → P .ide found) ∧
    (∀ found, some found ∈ [m.nvme.bind nvmeFound] → found.sectors ≠ 0 → P .nvme found) ∧
    (∀ found, some found ∈ m.atapi → found.sectors ≠ 0 → P .atapi found) ∧
    ∀ found, some found ∈ m.usb → found.sectors ≠ 0 → P .usb found := by
  rw [probed]
  simp only [List.forall_mem_append, forall_named, and_assoc]

theorem forall_refreshed {disks : List NamedDisk} {usb : List (Option Found)} :
    (∀ d ∈ DiskManager.refreshed disks usb, P d.driver d.found) ↔
      (∀ d ∈ disks, d.driver ≠ .usb → P d.driver d.found) ∧
        ∀ found, some found ∈ usb → found.sectors ≠ 0 → P .usb found := by
  rw [DiskManager.refreshed, List.forall_mem_append, forall_named]
  refine and_congr_left fun _ => ?_
  simp only [List.mem_filter, decide_eq_true_eq, and_imp]

end Registered

/-! ### From the lists of the drivers to the devices -/

section Ports

variable {α : Type} {f : α → Option Found} {Q : Found → Prop}

theorem forall_ports {ports : List (Option α)} :
    (∀ found, some found ∈ ports.map (·.bind f) → found.sectors ≠ 0 → Q found) ↔
      ∀ a, some a ∈ ports → ∀ found, f a = some found ∧ found.sectors ≠ 0 → Q found := by
  constructor
  · intro h a ha found hfound
    exact h found (List.mem_map.mpr ⟨some a, ha, hfound.1⟩) hfound.2
  · intro h found hmem hsectors
    obtain ⟨port, hport, hbind⟩ := List.mem_map.mp hmem
    obtain ⟨a, rfl, hfound⟩ := Option.bind_eq_some_iff.mp hbind
    exact h a hport found ⟨hfound, hsectors⟩

theorem forall_usbFound {usb : List ScsiDrive} :
    (∀ found, some found ∈ Hardware.usbFound usb → found.sectors ≠ 0 → Q found) ↔
      ∀ d ∈ usb, ∀ found, d.usb = some found ∧ found.sectors ≠ 0 → Q found := by
  constructor
  · intro h d hd found hfound
    refine h found (List.mem_map.mpr ⟨found, ?_, rfl⟩) hfound.2
    exact List.mem_filterMap.mpr ⟨d, hd, hfound.1⟩
  · intro h found hmem hsectors
    obtain ⟨found', hfound', hsame⟩ := List.mem_map.mp hmem
    obtain ⟨d, hd, hfound⟩ := List.mem_filterMap.mp hfound'
    rw [Option.some.inj hsame] at hfound
    exact h d hd found ⟨hfound, hsectors⟩

theorem forall_ide {drives : List AtaDrive} :
    (∀ found, some found ∈ (drives.filter (·.ideSectors ≠ 0)).map AtaDrive.ide →
        found.sectors ≠ 0 → Q found) ↔
      ∀ d ∈ drives, ∀ found, d.ide = some found ∧ found.sectors ≠ 0 → Q found := by
  constructor
  · intro h d hd found hfound
    refine h found (List.mem_map.mpr ⟨d, List.mem_filter.mpr ⟨hd, ?_⟩, hfound.1⟩) hfound.2
    have hsectors : d.ideSectors ≠ 0 := by
      have hzero := hfound.2
      rw [← Option.some.inj hfound.1] at hzero
      exact hzero
    exact decide_eq_true hsectors
  · intro h found hmem hsectors
    obtain ⟨d, hd, hfound⟩ := List.mem_map.mp hmem
    exact h d (List.mem_filter.mp hd).1 found ⟨hfound, hsectors⟩

theorem forall_nvme {nvme : Option NvmeNamespace} :
    (∀ found, some found ∈ [(nvme.map NvmeNamespace.info).bind DiskManager.nvmeFound] →
        found.sectors ≠ 0 → Q found) ↔
      ∀ d, nvme = some d → ∀ found, DiskManager.nvmeFound d.info = some found ∧
        found.sectors ≠ 0 → Q found := by
  constructor
  · rintro h d rfl found hfound
    exact h found (List.mem_singleton.mpr hfound.1.symm) hfound.2
  · intro h found hmem hsectors
    cases nvme with
    | none => cases List.mem_singleton.mp hmem
    | some d => exact h d rfl found ⟨(List.mem_singleton.mp hmem).symm, hsectors⟩

end Ports

theorem Device.forall_iff {R : Device → Prop} : (∀ dev, R dev) ↔
    (∀ d, R (.ahci d)) ∧ (∀ d, R (.ide d)) ∧ (∀ d, R (.nvme d)) ∧ (∀ d, R (.atapi d)) ∧
      ∀ d, R (.usb d) := by
  constructor
  · intro h
    exact ⟨fun d => h _, fun d => h _, fun d => h _, fun d => h _, fun d => h _⟩
  · rintro ⟨hahci, hide, hnvme, hatapi, husb⟩ dev
    cases dev with
    | ahci d => exact hahci d
    | ide d => exact hide d
    | nvme d => exact hnvme d
    | atapi d => exact hatapi d
    | usb d => exact husb d

theorem Hardware.forall_disks {P : DriverKind → Found → Prop} (hw : Hardware)
    (refreshes : List (List ScsiDrive)) :
    (∀ d ∈ hw.disks refreshes, P d.driver d.found) ↔
      ∀ dev, hw.Present refreshes dev → ∀ found, dev.Has found → P dev.driver found := by
  induction refreshes using List.reverseRecOn generalizing P with
  | nil =>
    have hprobed := @forall_probed P hw.machine
    rw [Device.forall_iff]
    exact hprobed.trans (and_congr forall_ports (and_congr forall_ide
      (and_congr forall_nvme (and_congr forall_ports forall_usbFound))))
  | append_singleton refreshes usb ih =>
    have hdisks : hw.disks (refreshes ++ [usb]) =
        DiskManager.refreshed (hw.disks refreshes) (usbFound usb) := by
      rw [disks, DiskManager.registered, List.map_append, List.foldl_append]
      rfl
    have hlast : (refreshes ++ [usb]).getLast?.getD hw.usb = usb := by
      rw [List.getLast?_concat]
      rfl
    rw [hdisks, forall_refreshed, @ih fun driver found => driver ≠ .usb → P driver found,
      forall_usbFound, Device.forall_iff, Device.forall_iff]
    constructor
    · rintro ⟨⟨hahci, hide, hnvme, hatapi, _⟩, husb⟩
      refine ⟨fun d hd found h => hahci d hd found h (by simp [Device.driver]),
        fun d hd found h => hide d hd found h (by simp [Device.driver]),
        fun d hd found h => hnvme d hd found h (by simp [Device.driver]),
        fun d hd found h => hatapi d hd found h (by simp [Device.driver]), fun d hd found h => ?_⟩
      rw [Present, hlast] at hd
      exact husb d hd found h
    · rintro ⟨hahci, hide, hnvme, hatapi, husb⟩
      refine ⟨⟨fun d hd found h _ => hahci d hd found h, fun d hd found h _ => hide d hd found h,
        fun d hd found h _ => hnvme d hd found h, fun d hd found h _ => hatapi d hd found h,
        fun d hd found h hne => absurd rfl hne⟩, fun d hd found h => ?_⟩
      refine husb d ?_ found h
      rw [Present, hlast]
      exact hd

/-! ## What the registry says -/

namespace Hardware

variable (hw : Hardware) (refreshes : List (List ScsiDrive))

/-- The entry is one that the registry has for the device. -/
def OfDevice (dev : Device) (found : Found) (e : DiskEntry) : Prop :=
  hw.Present refreshes dev ∧ dev.Has found ∧
    ∃ number, ⟨dev.driver, number, found⟩ ∈ hw.disks refreshes ∧
      e ∈ (NamedDisk.mk dev.driver number found).entries

def Throughout (R : Device → Found → DiskEntry → Prop) : Prop :=
  ∀ e ∈ (hw.run refreshes).disks, ∀ dev found, hw.OfDevice refreshes dev found e → R dev found e

def SizesRight : Prop :=
  hw.Throughout refreshes fun dev _ e => e.kind = .disk → e.sectors * 512 = dev.capacity

def PartitionsFit : Prop :=
  hw.Throughout refreshes fun _ found e => e.kind = .partition →
    e.offset + e.sectors ≤ found.sectors ∧ e.offset + e.sectors < 2 ^ 64

/-- The window of each entry gives access to its bytes of the device and to no others. -/
def WindowsExact : Prop :=
  hw.Throughout refreshes fun dev found e => ∀ x,
    (Window.ofEntry e).Reaches dev.capacity found.source.sectorSize x ↔
      e.offset * 512 ≤ x ∧ x < (e.offset + e.sectors) * 512

variable {hw refreshes}

theorem mem_run_disks {d : NamedDisk} {e : DiskEntry} (hd : d ∈ hw.disks refreshes)
    (he : e ∈ d.entries) : e ∈ (hw.run refreshes).disks := by
  rw [run, DiskManager.run_disks]
  exact List.mem_flatMap.mpr ⟨d, hd, he⟩

theorem exists_disk {dev : Device} {found : Found} (hpresent : hw.Present refreshes dev)
    (hfound : dev.Has found) : ∃ number, ⟨dev.driver, number, found⟩ ∈ hw.disks refreshes := by
  by_contra hnone
  have hall := (forall_disks (P := fun driver found' =>
    ¬ (driver = dev.driver ∧ found' = found)) hw refreshes).mp fun d hd hsame => by
      refine hnone ⟨d.number, ?_⟩
      rw [← hsame.1, ← hsame.2]
      exact hd
  exact hall dev hpresent found hfound ⟨rfl, rfl⟩

theorem throughout_iff {R : Device → Found → DiskEntry → Prop} {S : Device → Found → Prop}
    (h : ∀ dev found, dev.Has found → ∀ number,
      (∀ e ∈ (NamedDisk.mk dev.driver number found).entries, R dev found e) ↔ S dev found) :
    hw.Throughout refreshes R ↔
      ∀ dev, hw.Present refreshes dev → ∀ found, dev.Has found → S dev found := by
  constructor
  · intro hall dev hpresent found hfound
    obtain ⟨number, hd⟩ := exists_disk hpresent hfound
    rw [← h dev found hfound number]
    intro e he
    exact hall e (mem_run_disks hd he) dev found ⟨hpresent, hfound, number, hd, he⟩
  · intro hall e _ dev found ⟨hpresent, hfound, number, _, he⟩
    exact (h dev found hfound number).mpr (hall dev hpresent found hfound) e he

theorem sizes_iff : hw.SizesRight refreshes ↔
    ∀ dev, hw.Present refreshes dev → ∀ found, dev.Has found → dev.Sized := by
  refine throughout_iff fun dev found hfound number => ?_
  exact (NamedDisk.disk_entry _).trans (Device.sized_iff hfound)

theorem partitions_iff : hw.PartitionsFit refreshes ↔
    ∀ dev, hw.Present refreshes dev → ∀ found, dev.Has found →
      Ranges found.source fun start sectors =>
        start + sectors ≤ found.sectors ∧ start + sectors < 2 ^ 64 := by
  refine throughout_iff fun dev found _ number => ?_
  exact (NamedDisk.partition_entries _).trans (ranges_iff found.source fun start sectors =>
    start + sectors ≤ found.sectors ∧ start + sectors < 2 ^ 64)

theorem windows_iff : hw.SizesRight refreshes ∧ hw.WindowsExact refreshes ↔
    ∀ dev, hw.Present refreshes dev → ∀ found, dev.Has found → dev.Sized ∧
      Ranges found.source fun start sectors =>
        sectors ≠ 0 ∧ (start + sectors) * 512 = dev.capacity := by
  have hboth : hw.SizesRight refreshes ∧ hw.WindowsExact refreshes ↔
      hw.Throughout refreshes fun dev found e =>
        (e.kind = .disk → e.sectors * 512 = dev.capacity) ∧ ∀ x,
          (Window.ofEntry e).Reaches dev.capacity found.source.sectorSize x ↔
            e.offset * 512 ≤ x ∧ x < (e.offset + e.sectors) * 512 := by
    constructor
    · intro ⟨hsizes, hwindows⟩ e he dev found hof
      exact ⟨hsizes e he dev found hof, hwindows e he dev found hof⟩
    · intro h
      exact ⟨fun e he dev found hof => (h e he dev found hof).1,
        fun e he dev found hof => (h e he dev found hof).2⟩
  rw [hboth]
  refine throughout_iff fun dev found hfound number => ?_
  rw [NamedDisk.forall_entries, NamedDisk.disk_entry, NamedDisk.partition_entries]
  by_cases hsized : dev.Sized
  · have hcapacity : found.sectors * 512 = dev.capacity := (Device.sized_iff hfound).mpr hsized
    have hpos : 0 < dev.capacity := by
      have hsectors := hfound.2
      omega
    have hreaches := fun e => @reaches_iff dev.capacity found.source.sectorSize e hpos
      hsized.capacity_le
    rw [← ranges_iff, iff_true_intro hsized, true_and]
    simp only [hreaches]
    constructor
    · intro h p hp
      exact (h.2 p hp).2
    · intro h
      refine ⟨⟨fun _ => hcapacity, hfound.2, ?_⟩, fun p hp => ⟨fun hkind => ?_, h p hp⟩⟩
      · change (0 + found.sectors) * 512 = dev.capacity
        rw [Nat.zero_add, hcapacity]
      · cases hkind
  · refine iff_of_false (fun h => hsized ?_) fun h => hsized h.1
    exact (Device.sized_iff hfound).mp (h.1.1 rfl)

/-- After a probe and any number of refreshes: the sizes are right exactly where the drivers can
express those of the devices, the partitions fit exactly where the ranges of the tables do, and
the windows are exact, too, exactly where all ranges end with their devices. -/
theorem registry_iff (hw : Hardware) (refreshes : List (List ScsiDrive)) :
    (hw.SizesRight refreshes ↔
      ∀ dev, hw.Present refreshes dev → ∀ found, dev.Has found → dev.Sized) ∧
    (hw.PartitionsFit refreshes ↔
      ∀ dev, hw.Present refreshes dev → ∀ found, dev.Has found →
        Ranges found.source fun start sectors =>
          start + sectors ≤ found.sectors ∧ start + sectors < 2 ^ 64) ∧
    (hw.SizesRight refreshes ∧ hw.WindowsExact refreshes ↔
      ∀ dev, hw.Present refreshes dev → ∀ found, dev.Has found → dev.Sized ∧
        Ranges found.source fun start sectors =>
          sectors ≠ 0 ∧ (start + sectors) * 512 = dev.capacity) :=
  ⟨sizes_iff, partitions_iff, windows_iff⟩

def advancedDrive : AtaDrive where
  read := fun _ => none
  readLba := fun _ _ => none
  blocks := 8
  blockSize := 4096
  words := fun i =>
    if i = 60 ∨ i = 100 then 8 else if i = 83 then 0x400 else if i = 106 then 0x1000
    else if i = 117 then 2048 else 0
  positive := by decide
  whole := by decide
  limit := by decide
  plain := rfl
  extended := fun _ => rfl
  small := by decide
  long := by decide
  size := fun _ => rfl

def advancedHardware : Hardware := ⟨[some advancedDrive], [], none, [], []⟩

/-- It is registered with eight sectors. -/
theorem registry_undersized : ¬ ((∀ hw refreshes, SizesRight hw refreshes) ∧
    (∀ hw refreshes, PartitionsFit hw refreshes) ∧ ∀ hw refreshes, WindowsExact hw refreshes) := by
  intro h
  have hpresent : advancedHardware.Present [] (.ahci advancedDrive) := List.mem_singleton_self _
  have hfound : (Device.ahci advancedDrive).Has ⟨8, advancedDrive.source 512⟩ :=
    ⟨rfl, by decide⟩
  have hsized : advancedDrive.blockSize = 512 :=
    sizes_iff.mp (h.1 advancedHardware []) _ hpresent _ hfound
  exact absurd hsized (by decide)

end Hardware

end Vibra.Disk
