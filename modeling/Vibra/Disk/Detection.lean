import Vibra.Ext.Volume
import Vibra.Fat32.ReadOnly

/-! # The detection of file systems

The checks are made in order, on bytes that other file systems leave to boot loaders or to their
files: a boot sector that looks like FAT or a partition table hides an ext volume, and a volume
taken for FAT32 may be one that the driver refuses.
-/

namespace Vibra.Disk

open Lib (Memory Bytes RawDisk u16At u32At u16At_slice u32At_slice)
open Lib.Memory (le16 le32)
open Fat32 (FsError Fat32BootSector Fat32Fs isPowerOfTwo)
open Ext (ExtSuperblock)

inductive FsType where
  | ntfs
  | exfat
  | fat12
  | fat16
  | fat32
  | iso9660
  | gpt
  | mbr
  | ext2
  | ext3
  | ext4
  | unknown
deriving DecidableEq

def fatFamily (s : Bytes) : Option FsType :=
  if s.length < 512 then none
  else
    let bps := u16At s 11
    let spc := (s.getD 13 0).toNat
    let reserved := u16At s 14
    let fatCount := (s.getD 16 0).toNat
    let rootEntries := u16At s 17
    let total16 := u16At s 19
    let fat16 := u16At s 22
    let total32 := u32At s 32
    let fat32 := u32At s 36
    if bps ∉ [512, 1024, 2048, 4096] ∨ spc = 0 ∨ isPowerOfTwo spc = false then none
    else if reserved = 0 ∨ fatCount = 0 ∨ 4 < fatCount then none
    else
      let fatSize := if fat16 ≠ 0 then fat16 else fat32
      if fatSize = 0 then none
      else
        let total := if total16 ≠ 0 then total16 else total32
        if total < reserved then none
        else if fat16 = 0 ∧ fat32 ≠ 0 ∧ rootEntries = 0 then some .fat32
        else
          let rootDirSectors := (rootEntries * 32 + bps - 1) / bps
          let dataStart := reserved + fatCount * fatSize + rootDirSectors
          if total ≤ dataStart then none
          else
            let clusters := (total - dataStart) / spc
            some (if clusters < 4085 then .fat12 else if clusters < 65525 then .fat16 else .fat32)

/-- `NTFS    ` -/
def ntfsId : Bytes := [0x4E, 0x54, 0x46, 0x53, 0x20, 0x20, 0x20, 0x20]

/-- `EXFAT   ` -/
def exfatId : Bytes := [0x45, 0x58, 0x46, 0x41, 0x54, 0x20, 0x20, 0x20]

/-- `CD001` -/
def isoId : Bytes := [0x43, 0x44, 0x30, 0x30, 0x31]

def bootSignature (s : Bytes) : Bool := s.getD 510 0 == 0x55 && s.getD 511 0 == 0xAA

/-- Whether the type of one of the four partitions in the boot sector is such a one. -/
def anyPartition (p : UInt8 → Bool) (s : Bytes) : Bool :=
  (List.range 4).any fun i => p (s.getD (446 + i * 16 + 4) 0)

def protective (s : Bytes) : Bool := anyPartition (· == 0xEE) s

def hasPartition (s : Bytes) : Bool := anyPartition (· != 0) s

/-- The generation by the features of the superblock. -/
def extGeneration (compat incompat roCompat : Nat) : FsType :=
  if incompat &&& (0x40 ||| 0x80 ||| 0x200) ≠ 0 ∨ roCompat &&& 0x200 ≠ 0 then .ext4
  else if compat &&& 0x4 ≠ 0 then .ext3
  else .ext2

/-- The descriptor in sector 16 of a CD. -/
def hasPvd (disk : RawDisk) : Bool :=
  match disk.read 64 2048 with
  | some pvd => (pvd.drop 1).take 5 == isoId
  | none => false

def detectFsType (disk : RawDisk) : FsType :=
  match disk.read 0 2048 with
  | none => .unknown
  | some s =>
    if (s.drop 3).take 8 = ntfsId then .ntfs
    else if (s.drop 3).take 8 = exfatId then .exfat
    else
      match (if bootSignature s then fatFamily s else none) with
      | some family => family
      | none =>
        if hasPvd disk then .iso9660
        else if bootSignature s && protective s then .gpt
        else if bootSignature s && hasPartition s then .mbr
        else if u16At s (1024 + 56) = Ext.extMagic then
          extGeneration (u32At s (1024 + 92)) (u32At s (1024 + 96)) (u32At s (1024 + 100))
        else .unknown

/-- `fs_name` of a superblock; the compatible features are read for it alone. -/
def fsName (compat : Nat) (sb : ExtSuperblock) : FsType :=
  if sb.featureIncompat &&& (0x40 ||| Ext.incompat64bit) ≠ 0 ∨ sb.featureRoCompat &&& 0x200 ≠ 0 ∨
      sb.featureIncompat &&& 0x200 ≠ 0 then .ext4
  else if compat &&& 0x4 ≠ 0 then .ext3
  else .ext2

/-- What `fs_type` reports for the 1024 bytes that `Ext2Fs::new` reads. -/
def extFsType (buf : Bytes) : Except FsError FsType := do
  let sb ← ExtSuperblock.parse buf
  return fsName (u32At buf 92) sb

variable {m : Memory} {sectors : Nat}

def HasId (m : Memory) : Prop := m.slice 3 8 = ntfsId ∨ m.slice 3 8 = exfatId

def LooksFat (m : Memory) : Prop :=
  bootSignature (m.slice 0 2048) = true ∧ fatFamily (m.slice 0 2048) ≠ none

def LooksPartitioned (m : Memory) : Prop :=
  bootSignature (m.slice 0 2048) = true ∧ hasPartition (m.slice 0 2048) = true

def LooksIso (m : Memory) : Prop := m.slice 32769 5 = isoId

theorem window_slice {addr off len n : Nat} (h : off + len ≤ n) :
    ((m.slice addr n).drop off).take len = m.slice (addr + off) len := by
  rw [Memory.drop_slice (by omega), Memory.take_slice (by omega)]

theorem hasPvd_iff (h : 68 ≤ sectors) :
    hasPvd (RawDisk.ofMemory sectors m) = true ↔ LooksIso m := by
  rw [hasPvd, RawDisk.read_ofMemory m (by omega)]
  dsimp only
  rw [beq_iff_eq, window_slice (by decide)]
  rfl

theorem detect_eq (h : 4 ≤ sectors) (hid : ¬ HasId m) :
    detectFsType (RawDisk.ofMemory sectors m) =
      match (if bootSignature (m.slice 0 2048) then fatFamily (m.slice 0 2048) else none) with
      | some family => family
      | none =>
        if hasPvd (RawDisk.ofMemory sectors m) then .iso9660
        else if bootSignature (m.slice 0 2048) && protective (m.slice 0 2048) then .gpt
        else if bootSignature (m.slice 0 2048) && hasPartition (m.slice 0 2048) then .mbr
        else if le16 m 1080 = Ext.extMagic then
          extGeneration (le32 m 1116) (le32 m 1120) (le32 m 1124)
        else .unknown := by
  obtain ⟨hntfs, hexfat⟩ := not_or.mp hid
  have hdetect : (RawDisk.ofMemory sectors m).read 0 2048 = some (m.slice (512 * 0) 2048) :=
    RawDisk.read_ofMemory m (by omega)
  rw [detectFsType, hdetect]
  dsimp only
  rw [Nat.mul_zero, window_slice (by decide), if_neg hntfs, if_neg hexfat,
    u16At_slice m (by decide), u32At_slice m (by decide), u32At_slice m (by decide),
    u32At_slice m (by decide)]

theorem fatFamily_mem {s : Bytes} {t : FsType} (h : fatFamily s = some t) :
    t = .fat12 ∨ t = .fat16 ∨ t = .fat32 := by
  unfold fatFamily at h
  dsimp only at h
  repeat' split at h
  all_goals first | contradiction | (cases h; simp)

/-- An ext volume of 64 KiB at least, with the driver that has mounted it. -/
structure ExtVolume where
  sectors : Nat
  memory : Memory
  driver : Ext.Ext2Fs
  large : 128 ≤ sectors
  noId : ¬ HasId memory
  mounted : Ext.Ext2Fs.new (RawDisk.ofMemory sectors memory) = .ok driver

def ExtVolume.fsType (v : ExtVolume) : FsType := fsName (le32 v.memory 1116) v.driver.superblock

/-- A CD with its volume descriptor. -/
structure IsoImage where
  sectors : Nat
  memory : Memory
  large : 68 ≤ sectors
  noId : ¬ HasId memory
  formatted : LooksIso memory

/-- A volume that is taken for FAT32. -/
structure Fat32Volume where
  sectors : Nat
  memory : Memory
  detected : detectFsType (RawDisk.ofMemory sectors memory) = .fat32

theorem extGeneration_eq (compat : Nat) (sb : ExtSuperblock) :
    extGeneration compat sb.featureIncompat sb.featureRoCompat = fsName compat sb := by
  have hbits : sb.featureIncompat &&& (0x40 ||| 0x80 ||| 0x200) ≠ 0 ↔
      sb.featureIncompat &&& (0x40 ||| 0x80) ≠ 0 ∨ sb.featureIncompat &&& 0x200 ≠ 0 := by
    rw [Nat.and_or_distrib_left _ (0x40 ||| 0x80), ne_eq, Nat.or_eq_zero_iff, not_and_or]
  exact if_congr (by rw [hbits, or_right_comm, or_assoc, Ext.incompat64bit]) rfl rfl

theorem generation_mem (compat incompat roCompat : Nat) :
    extGeneration compat incompat roCompat ∈ [.ext2, .ext3, .ext4] := by
  unfold extGeneration
  split
  · decide
  · split <;> decide

theorem extFsType_of_new {fs : Ext.Ext2Fs}
    (h : Ext.Ext2Fs.new (RawDisk.ofMemory sectors m) = .ok fs) :
    extFsType (m.slice 1024 1024) = .ok (fsName (le32 m 1116) fs.superblock) := by
  obtain ⟨buf, hread, h⟩ := Lib.Outcome.bind_eq_ok h
  have hbuf : m.slice 1024 1024 = buf := by
    cases hdisk : (RawDisk.ofMemory sectors m).read 2 1024 with
    | none =>
      rw [hdisk] at hread
      cases hread
    | some found =>
      rw [hdisk] at hread
      rw [← Lib.Outcome.ok.inj hread]
      exact (RawDisk.faithful_ofMemory sectors m 2 1024 found hdisk).symm
  have hcompat : u32At buf 92 = le32 m 1116 := by
    rw [← hbuf]
    exact u32At_slice m (by decide)
  rw [hbuf, extFsType, ← hcompat]
  clear hbuf hread hcompat
  cases hparse : ExtSuperblock.parse buf with
  | error e =>
    rw [hparse] at h
    cases h
  | ok sb =>
    rw [hparse] at h
    dsimp only at h
    split at h
    case h_1 => cases h
    case h_2 =>
        split at h
        case isTrue => cases h
        case isFalse =>
            split at h
            case isTrue => cases h
            case isFalse =>
                obtain ⟨blockSize, _, h⟩ := Lib.Outcome.bind_eq_ok h
                split at h
                case isTrue => cases h
                case isFalse =>
                    obtain ⟨perBlock, _, h⟩ := Lib.Outcome.bind_eq_ok h
                    obtain ⟨root, _, h⟩ := Lib.Outcome.bind_eq_ok h
                    split at h
                    case isTrue => cases h
                    case isFalse =>
                        rw [← Lib.Outcome.ok.inj h]
                        rfl

theorem ExtVolume.detected (v : ExtVolume) : le16 v.memory 1080 = Ext.extMagic ∧
    extGeneration (le32 v.memory 1116) (le32 v.memory 1120) (le32 v.memory 1124) = v.fsType := by
  have h : _ = Except.ok v.fsType := extFsType_of_new v.mounted
  rw [extFsType, ExtSuperblock.parse] at h
  dsimp only at h
  split at h
  case isTrue => cases h
  case isFalse =>
      split at h
      case isTrue => cases h
      case isFalse hmagic =>
          rw [u16At_slice _ (by decide), not_not] at hmagic
          refine ⟨hmagic, ?_⟩
          have hname := Except.ok.inj h
          rw [← extGeneration_eq] at hname
          dsimp only at hname
          rwa [u32At_slice _ (by decide), u32At_slice _ (by decide), u32At_slice _ (by decide)]
            at hname

theorem ExtVolume.fsType_mem (v : ExtVolume) : v.fsType ∈ [.ext2, .ext3, .ext4] := by
  rw [← v.detected.2]
  exact generation_mem _ _ _

theorem protective_imp {s : Bytes} (h : protective s = true) : hasPartition s = true := by
  rw [protective, anyPartition, List.any_eq_true] at h
  rw [hasPartition, anyPartition, List.any_eq_true]
  obtain ⟨i, hi, htype⟩ := h
  refine ⟨i, hi, ?_⟩
  rw [eq_of_beq htype]
  rfl

theorem ext_iff (v : ExtVolume) :
    detectFsType (RawDisk.ofMemory v.sectors v.memory) = v.fsType ↔
      ¬ LooksFat v.memory ∧ ¬ LooksIso v.memory ∧ ¬ LooksPartitioned v.memory := by
  obtain ⟨hmagic, hgeneration⟩ := v.detected
  have hlarge := v.large
  have hother (t : FsType) (ht : t ∉ [.ext2, .ext3, .ext4]) : t ≠ v.fsType :=
    fun h => ht (h ▸ v.fsType_mem)
  rw [detect_eq (by omega) v.noId, hmagic, if_pos rfl, hgeneration,
    ← hasPvd_iff (m := v.memory) (show 68 ≤ v.sectors by omega), LooksFat, LooksPartitioned]
  cases hboot : bootSignature (v.memory.slice 0 2048) with
  | false =>
    simp only [Bool.false_and, Bool.false_eq_true, if_false, false_and, not_false_eq_true,
      true_and, and_true]
    cases hpvd : hasPvd (RawDisk.ofMemory v.sectors v.memory) with
    | true => exact iff_of_false (hother .iso9660 (by decide)) (not_not_intro rfl)
    | false => exact iff_of_true rfl Bool.noConfusion
  | true =>
    simp only [Bool.true_and, if_true, true_and]
    cases hfat : fatFamily (v.memory.slice 0 2048) with
    | some family =>
      have hfamily : family ∉ [FsType.ext2, .ext3, .ext4] := by
        rcases fatFamily_mem hfat with rfl | rfl | rfl <;> decide
      exact iff_of_false (hother family hfamily) fun h => h.1 nofun
    | none =>
      simp only [ne_eq, not_true_eq_false, not_false_eq_true, true_and]
      cases hpvd : hasPvd (RawDisk.ofMemory v.sectors v.memory) with
      | true => exact iff_of_false (hother .iso9660 (by decide)) fun h => h.1 rfl
      | false =>
        cases hprotective : protective (v.memory.slice 0 2048) with
        | true =>
          exact iff_of_false (hother .gpt (by decide)) fun h =>
            h.2 (protective_imp hprotective)
        | false =>
          cases hpart : hasPartition (v.memory.slice 0 2048) with
          | true => exact iff_of_false (hother .mbr (by decide)) fun h => h.2 rfl
          | false => exact iff_of_true rfl ⟨Bool.noConfusion, Bool.noConfusion⟩

theorem iso_iff (v : IsoImage) :
    detectFsType (RawDisk.ofMemory v.sectors v.memory) = .iso9660 ↔ ¬ LooksFat v.memory := by
  have hlarge := v.large
  have hpvd := (hasPvd_iff v.large).mpr v.formatted
  rw [detect_eq (by omega) v.noId, hpvd, LooksFat]
  cases hboot : bootSignature (v.memory.slice 0 2048) with
  | false => exact iff_of_true rfl fun h => Bool.noConfusion h.1
  | true =>
    cases hfat : fatFamily (v.memory.slice 0 2048) with
    | some family =>
      refine iff_of_false (fun h => ?_) (not_not_intro ⟨rfl, nofun⟩)
      have hfamily : family = .iso9660 := h
      rcases fatFamily_mem hfat with rfl | rfl | rfl <;> cases hfamily
    | none => exact iff_of_true rfl fun h => h.2 rfl

/-! ## What is taken for FAT32 -/

theorem fatFamily_of_detected (h : detectFsType (RawDisk.ofMemory sectors m) = .fat32) :
    fatFamily (m.slice 0 2048) = some .fat32 := by
  rw [detectFsType] at h
  cases hread : (RawDisk.ofMemory sectors m).read 0 2048 with
  | none =>
    rw [hread] at h
    cases h
  | some s =>
    have hs := RawDisk.faithful_ofMemory sectors m 0 2048 s hread
    rw [Nat.mul_zero] at hs
    rw [hread] at h
    dsimp only at h
    rw [← hs]
    split at h
    case isTrue => cases h
    case isFalse =>
        split at h
        case isTrue => cases h
        case isFalse =>
            split at h
            case h_1 family hfamily =>
                rw [← h, ← hfamily]
                split at hfamily
                case isTrue hboot => rw [if_pos hboot]
                case isFalse => cases hfamily
            case h_2 =>
                have hmem := generation_mem (u32At s (1024 + 92)) (u32At s (1024 + 96))
                  (u32At s (1024 + 100))
                repeat' split at h
                all_goals first | contradiction | (rw [h] at hmem; exact absurd hmem (by decide))

/-- The volume has sectors that the driver takes, the layout of FAT32, and two clusters at least
behind its tables. -/
def Mountable (boot : Fat32BootSector) : Prop :=
  (boot.bytesPerSector = 512 ∨ boot.bytesPerSector = 4096 ∧ boot.sectorsPerCluster * 8 ≤ 255) ∧
  boot.fatSize16 = 0 ∧ boot.rootEntryCount = 0 ∧
  boot.reservedSectors + boot.fatCount * boot.fatSize32 + 2 * boot.sectorsPerCluster ≤
    if boot.totalSectors16 ≠ 0 then boot.totalSectors16 else boot.totalSectors32

structure Checked (boot : Fat32BootSector) : Prop where
  cluster : boot.sectorsPerCluster ≠ 0 ∧ isPowerOfTwo boot.sectorsPerCluster = true
  byte : boot.sectorsPerCluster ≤ 255
  reserved : boot.reservedSectors ≠ 0
  fats : boot.fatCount ≠ 0 ∧ boot.fatCount ≤ 4
  table : boot.fatSize16 ≠ 0 ∨ boot.fatSize32 ≠ 0
  total : (if boot.totalSectors16 ≠ 0 then boot.totalSectors16 else boot.totalSectors32) < 2 ^ 32

theorem disk_first (m : Memory) : Fat32.disk.read m 0 = m := by
  funext i
  show m (512 * 0 + i) = m i
  rw [Nat.mul_zero, Nat.zero_add]

theorem checked_of_fatFamily {t : FsType} (h : fatFamily (m.slice 0 2048) = some t) :
    Checked (Fat32BootSector.ofSector m) := by
  rw [fatFamily, if_neg (by rw [Memory.length_slice]; decide)] at h
  dsimp only at h
  rw [u16At_slice m (by decide), u16At_slice m (by decide), u16At_slice m (by decide),
    u16At_slice m (by decide), u16At_slice m (by decide), u32At_slice m (by decide),
    u32At_slice m (by decide), Memory.getD_slice (by decide), Memory.getD_slice (by decide)] at h
  simp only [Nat.zero_add] at h
  by_cases hsize : m.le16 11 ∉ [512, 1024, 2048, 4096] ∨ (m 13).toNat = 0 ∨
      isPowerOfTwo (m 13).toNat = false
  · rw [if_pos hsize] at h
    cases h
  by_cases hcounts : m.le16 14 = 0 ∨ (m 16).toNat = 0 ∨ 4 < (m 16).toNat
  · rw [if_neg hsize, if_pos hcounts] at h
    cases h
  by_cases htable : (if m.le16 22 ≠ 0 then m.le16 22 else m.le32 36) = 0
  · rw [if_neg hsize, if_neg hcounts, if_pos htable] at h
    cases h
  simp only [not_or] at hsize hcounts
  have h16 := Memory.le16_lt m 19
  have h32 := Memory.le32_lt m 32
  have hspc := (m 13).toNat_lt
  refine ⟨⟨hsize.2.1, Bool.not_eq_false _ |>.mp hsize.2.2⟩, ?_, hcounts.1,
    ⟨hcounts.2.1, Nat.le_of_not_lt hcounts.2.2⟩, ?_, ?_⟩
  · exact Nat.le_of_lt_succ hspc
  · show m.le16 22 ≠ 0 ∨ m.le32 36 ≠ 0
    by_contra hzero
    obtain ⟨h1, h2⟩ := not_or.mp hzero
    rw [not_not] at h1 h2
    rw [h1, h2] at htable
    exact htable rfl
  · show (if m.le16 19 ≠ 0 then m.le16 19 else m.le32 32) < 2 ^ 32
    split
    · exact Nat.lt_trans h16 (by decide)
    · exact h32

theorem clusters_iff {total start spc : Nat} (shift : Nat) (hshift : 0 < shift) (hspc : 0 < spc)
    (htotal : total < 2 ^ 32) :
    (total * shift - start * shift) / (spc * shift) % 2 ^ 32 < 2 ↔ total < start + 2 * spc := by
  rw [← Nat.sub_mul, Nat.mul_div_mul_right _ _ hshift]
  have hle : (total - start) / spc ≤ total - start := Nat.div_le_self _ _
  rw [Nat.mod_eq_of_lt (by omega), Nat.div_lt_iff_lt_mul hspc]
  omega

theorem geo_iff {boot : Fat32BootSector} (h : Checked boot) :
    (∃ geo, boot.geo = .ok geo) ↔ Mountable boot := by
  obtain ⟨hcluster, hbyte, hreserved, hfats, htable, htotal⟩ := h
  unfold Fat32BootSector.geo Mountable
  by_cases hsector : boot.bytesPerSector ≠ 512 ∧ boot.bytesPerSector ≠ 4096
  · rw [if_pos hsector]
    exact iff_of_false nofun fun h => by omega
  by_cases hlayout : boot.fatSize16 ≠ 0 ∨ boot.rootEntryCount ≠ 0
  · rw [if_neg hsector]
    dsimp only
    rw [if_pos hlayout]
    exact iff_of_false nofun fun h => by omega
  obtain ⟨hfat16, hroot⟩ : boot.fatSize16 = 0 ∧ boot.rootEntryCount = 0 := by omega
  have hpower : ¬ (boot.sectorsPerCluster = 0 ∨ (!isPowerOfTwo boot.sectorsPerCluster) = true) := by
    rw [hcluster.2]
    simpa using hcluster.1
  have hsizes : ¬ (boot.reservedSectors = 0 ∨ boot.fatSize32 = 0) := by omega
  have hcount : ¬ (boot.fatCount = 0 ∨ 4 < boot.fatCount) := by omega
  rw [if_neg hsector]
  dsimp only
  rw [if_neg hlayout, if_neg hpower, if_neg hsizes, if_neg hcount, hroot]
  obtain ⟨shift, hshift⟩ : ∃ shift, (if boot.bytesPerSector = 512 then 1 else 8) = shift := ⟨_, rfl⟩
  obtain ⟨total, hsum⟩ : ∃ total, (if boot.totalSectors16 ≠ 0 then boot.totalSectors16
    else boot.totalSectors32) = total := ⟨_, rfl⟩
  have hpos : 0 < shift := by
    rw [← hshift]
    split <;> decide
  have hlarge : (boot.bytesPerSector = 512 ∨
      boot.bytesPerSector = 4096 ∧ boot.sectorsPerCluster * 8 ≤ 255) ↔
        ¬ 255 < boot.sectorsPerCluster * shift := by
    split at hshift
    all_goals subst hshift
    all_goals omega
  have hstart : boot.reservedSectors * shift + boot.fatCount * (boot.fatSize32 * shift) +
      (0 * 32 + 511) / 512 = (boot.reservedSectors + boot.fatCount * boot.fatSize32) * shift := by
    rw [Nat.add_mul, Nat.mul_assoc]
    rfl
  rw [hsum] at htotal ⊢
  rw [hshift, hlarge, hstart]
  by_cases hspc : 255 < boot.sectorsPerCluster * shift
  · rw [if_pos hspc]
    exact iff_of_false nofun fun h => h.1 hspc
  rw [if_neg hspc]
  obtain ⟨start, hstarts⟩ :
      ∃ start, boot.reservedSectors + boot.fatCount * boot.fatSize32 = start := ⟨_, rfl⟩
  rw [hstarts]
  have hclusters := @clusters_iff total start boot.sectorsPerCluster shift hpos
    (Nat.pos_of_ne_zero hcluster.1) htotal
  by_cases hfew : total < start + 2 * boot.sectorsPerCluster
  · rw [if_pos (hclusters.mpr hfew)]
    exact iff_of_false nofun fun h => absurd h.2.2.2 (Nat.not_le_of_lt hfew)
  · rw [if_neg (mt hclusters.mp hfew)]
    exact iff_of_true ⟨_, rfl⟩ ⟨hspc, hfat16, rfl, Nat.le_of_not_lt hfew⟩

theorem fat32_iff (v : Fat32Volume) :
    (∃ fs, (Fat32Fs.new.run Fat32.disk v.memory).1 = .ok fs) ↔
      Mountable (Fat32BootSector.ofSector v.memory) := by
  rw [← geo_iff (checked_of_fatFamily (fatFamily_of_detected v.detected))]
  constructor
  · rintro ⟨fs, hfs⟩
    have hgeo := (Fat32Fs.withMode_run hfs).1
    rw [disk_first] at hgeo
    exact ⟨_, hgeo⟩
  · rintro ⟨geo, hgeo⟩
    refine ⟨⟨geo, false, true⟩, ?_⟩
    rw [Fat32Fs.new, Fat32Fs.run_withMode, disk_first, hgeo]
    rfl

/-- The detector ignores the bytes that do not belong to a file system exactly where they neither
look like a FAT boot sector nor like a partition table nor like the descriptor of a CD; and what it
takes for FAT32 is mounted exactly where the layout is the driver's. -/
theorem detection_iff (v : ExtVolume) :
    (detectFsType (RawDisk.ofMemory v.sectors v.memory) = v.fsType ↔
      ¬ LooksFat v.memory ∧ ¬ LooksIso v.memory ∧ ¬ LooksPartitioned v.memory) ∧
    (∀ v : IsoImage, detectFsType (RawDisk.ofMemory v.sectors v.memory) = .iso9660 ↔
      ¬ LooksFat v.memory) ∧
    ∀ v : Fat32Volume, (∃ fs, (Fat32Fs.new.run Fat32.disk v.memory).1 = .ok fs) ↔
      Mountable (Fat32BootSector.ofSector v.memory) :=
  ⟨ext_iff v, iso_iff, fat32_iff⟩

/-- An ext2 volume with a partition in the table of its boot block. -/
def bootableMemory : Memory := fun a =>
  if a = 450 then 0x83 else if a = 510 then 0x55 else if a = 511 then 0xAA
  else if a = 1024 then 16 else if a = 1044 then 1 else if a = 1056 then 64
  else if a = 1064 then 16 else if a = 1080 then 0x53 else if a = 1081 then 0xEF
  else if a = 2056 then 4 else if a = 4225 then 0x40 else 0

theorem bootable_read :
    (Ext.Ext2Fs.new (RawDisk.ofMemory 128 bootableMemory)).toOption.isSome ∧
      detectFsType (RawDisk.ofMemory 128 bootableMemory) = .mbr := by
  decide +kernel

theorem bootable_mounts :
    (Ext.Ext2Fs.new (RawDisk.ofMemory 128 bootableMemory)).toOption.isSome :=
  bootable_read.1

def bootable : ExtVolume where
  sectors := 128
  memory := bootableMemory
  driver := (Ext.Ext2Fs.new (RawDisk.ofMemory 128 bootableMemory)).toOption.get bootable_mounts
  large := Nat.le_refl _
  noId := by
    unfold HasId
    decide
  mounted := Lib.Outcome.toOption_eq_some.mp (Option.some_get _).symm

/-- It is taken for a disk with partitions. -/
theorem ext_hidden : ¬ ((∀ v : ExtVolume,
      detectFsType (RawDisk.ofMemory v.sectors v.memory) = v.fsType) ∧
    (∀ v : IsoImage, detectFsType (RawDisk.ofMemory v.sectors v.memory) = .iso9660) ∧
    ∀ v : Fat32Volume, ∃ fs, (Fat32Fs.new.run Fat32.disk v.memory).1 = .ok fs) := by
  intro h
  have hmem := bootable.fsType_mem
  rw [← h.1 bootable] at hmem
  exact absurd (bootable_read.2 ▸ hmem) (by decide)

end Vibra.Disk
