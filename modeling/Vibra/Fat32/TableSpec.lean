import Vibra.Fat32.Volume
import Vibra.Lib.LinkTable

/-! # The allocation table as a table of links

Specifications of the table operations.
-/

namespace Vibra.Fat32

open Lib (Memory Prog Write Link LinkTable)
open Lib.Memory (le32 toLe32)
open Lib.Prog (wp)

variable {geo : Fat32Geo} {m m' : Memory} {α : Type}

section Sectors

variable {G : Memory → Write Sector Origin → Prop} {E : FsError → Memory → Prop}

@[simp] theorem disk_read (m : Memory) (sector i : Nat) :
    disk.read m sector i = m (512 * sector + i) := rfl

@[simp] theorem wp_readSector {Q : Sector → Memory → Prop} {sector : Nat} :
    wp disk G Q E (readSector sector) m ↔ Q (disk.read m sector) m := Iff.rfl

@[simp] theorem wp_writeSector {Q : Unit → Memory → Prop} {origin : Origin} {sector : Nat}
    {buf : Sector} : wp disk G Q E (writeSector origin sector buf) m ↔
      G m ⟨sector, buf, origin⟩ ∧ Q () (disk.write m sector buf) := by
  simp [writeSector, Prog.writeAll, wp]

theorem disk_write_of_outside {sector : Nat} {buf : Sector} {a : Nat}
    (h : a < 512 * sector ∨ 512 * sector + 512 ≤ a) : disk.write m sector buf a = m a := by
  simp only [disk, sectorSize]
  rw [if_neg (by omega)]

theorem disk_write_add {sector : Nat} {buf : Sector} {i : Nat} (h : i < 512) :
    disk.write m sector buf (512 * sector + i) = buf i := by
  simp only [disk, sectorSize]
  rw [if_pos (by omega), Nat.add_sub_cancel_left]

theorem disk_write_put {sector offset : Nat} {data : List UInt8}
    (h : offset + data.length ≤ 512) :
    disk.write m sector ((disk.read m sector).put offset data) =
      m.put (512 * sector + offset) data := by
  funext a
  by_cases hin : a < 512 * sector ∨ 512 * sector + 512 ≤ a
  · rw [disk_write_of_outside hin, Memory.put_of_outside (by omega)]
  · obtain ⟨i, rfl⟩ : ∃ i, a = 512 * sector + i := ⟨a - 512 * sector, by omega⟩
    rw [disk_write_add (by omega)]
    by_cases hput : i < offset ∨ offset + data.length ≤ i
    · rw [Memory.put_of_outside hput, Memory.put_of_outside (by omega)]
      rfl
    · rw [Memory.put_of_inside (by omega) (by omega), Memory.put_of_inside (by omega) (by omega)]
      congr 1
      omega

end Sectors

/-- What `with_mode` guarantees of the geometry. -/
structure Fat32Geo.Valid (geo : Fat32Geo) : Prop where
  fatStart : 0 < geo.fatStartSector
  fatCount : 0 < geo.fatCount
  spc : 0 < geo.sectorsPerCluster
  cluster : geo.clusterSize = 512 * geo.sectorsPerCluster
  data : geo.fatStartSector + geo.fatCount * geo.fatSize ≤ geo.dataStartSector
  clusters : 2 ≤ geo.totalClusters ∧ geo.totalClusters < 2 ^ 32

theorem Fat32BootSector.geo_valid {boot : Fat32BootSector} (h : boot.geo = .ok geo) :
    geo.Valid := by
  simp only [Fat32BootSector.geo] at h
  generalize hshift : (if boot.bytesPerSector = 512 then 1 else 8) = shift at h
  generalize (if boot.totalSectors16 ≠ 0 then _ else _) * shift = totalSectors at h
  generalize (if boot.fsInfoSector * shift ≤ 65535 then _ else _) = fsInfo at h
  have hpos : 0 < shift := by
    split at hshift <;> omega
  iterate 7
    split at h
    · cases h
  next hspc hres hcount hspc512 hclusters =>
    have hspcPos : 0 < boot.sectorsPerCluster * shift := Nat.mul_pos (by omega) hpos
    have hresPos : 0 < boot.reservedSectors * shift := Nat.mul_pos (by omega) hpos
    cases h
    refine ⟨hresPos, by simp only; omega, hspcPos, ?_, ?_, by simp only; omega⟩
    · exact Nat.mod_eq_of_lt (by omega)
    · have hle := Nat.mod_le (boot.fatSize32 * shift) (2 ^ 32)
      have hmul := Nat.mul_le_mul_left boot.fatCount hle
      simp only
      omega

def Fat32Geo.entryAddr (geo : Fat32Geo) (cluster : Nat) : Nat :=
  512 * geo.fatStartSector + 4 * cluster

/-- The 28 bits of an entry that `fat_get` reads. -/
def fatValue (geo : Fat32Geo) (m : Memory) (cluster : Nat) : Nat :=
  le32 m (geo.entryAddr cluster) % 2 ^ 28

def fatTop (geo : Fat32Geo) (m : Memory) (cluster : Nat) : Nat :=
  le32 m (geo.entryAddr cluster) / 2 ^ 28

def linkOf (value : Nat) : Link Nat :=
  if value = 0 then .free else if endsChain value then .stop else .next value

def links (geo : Fat32Geo) (m : Memory) : LinkTable Nat := fun cluster =>
  linkOf (fatValue geo m cluster)

def Fat32Geo.InRange (geo : Fat32Geo) (cluster : Nat) : Prop :=
  2 ≤ cluster ∧ cluster < geo.totalClusters + 2

def Fat32Geo.HasEntry (geo : Fat32Geo) (cluster : Nat) : Prop :=
  4 * cluster + 4 ≤ 512 * geo.fatSize

def Fat32Geo.InFat (geo : Fat32Geo) (a : Nat) : Prop :=
  512 * geo.fatStartSector ≤ a ∧ a < 512 * (geo.fatStartSector + geo.fatCount * geo.fatSize)

/-- `update_fsinfo` writes this sector. -/
def Fat32Geo.HasFsInfo (geo : Fat32Geo) : Prop := geo.fsInfoSector ≠ 0 ∧ geo.fsInfoSector ≠ 0xFFFF

def Fat32Geo.InFsInfo (geo : Fat32Geo) (a : Nat) : Prop :=
  geo.HasFsInfo ∧ 512 * geo.fsInfoSector ≤ a ∧ a < 512 * geo.fsInfoSector + 512

/-- What `with_mode` does not check: every cluster has an entry, cluster numbers are
not end marks, and the FSInfo sector is outside the table. -/
structure Fat32Geo.Sane (geo : Fat32Geo) : Prop where
  covers : 4 * (geo.totalClusters + 2) ≤ 512 * geo.fatSize
  bounded : geo.totalClusters + 2 ≤ 0x0FFF_FFF8
  fsInfo : geo.HasFsInfo → geo.fsInfoSector < geo.fatStartSector ∨
    geo.fatStartSector + geo.fatCount * geo.fatSize ≤ geo.fsInfoSector

/-- A geometry on which the table and its operations do not collide. -/
structure Fat32Geo.Sound (geo : Fat32Geo) : Prop extends geo.Valid, geo.Sane

def Copies (geo : Fat32Geo) (m : Memory) : Prop :=
  ∀ k < geo.fatCount, ∀ i < 512 * geo.fatSize,
    m (512 * (geo.fatStartSector + k * geo.fatSize) + i) = m (512 * geo.fatStartSector + i)

theorem and_fatMask (n : Nat) : n &&& fatMask = n % 2 ^ 28 :=
  Nat.and_two_pow_sub_one_eq_mod n 28

theorem le32_sector (cluster : Nat) :
    le32 (disk.read m (geo.fatStartSector + cluster * 4 / 512)) (cluster * 4 % 512) =
      le32 m (geo.entryAddr cluster) := by
  refine Memory.le32_congr fun i hi => ?_
  rw [disk_read]
  congr 1
  unfold Fat32Geo.entryAddr
  omega

section Reading

variable {G : Memory → Write Sector Origin → Prop} {E : FsError → Memory → Prop}

@[simp] theorem wp_fatGet {Q : Nat → Memory → Prop} {cluster : Nat} :
    wp disk G Q E (fatGet geo cluster) m ↔ Q (fatValue geo m cluster) m := by
  simp only [fatGet, Prog.wp_bind, wp_readSector, Prog.wp_pure, and_fatMask]
  rw [le32_sector, fatValue]

end Reading

/-! ## Writing entries -/

def updatedEntry (old value : Nat) : Nat := old / 2 ^ 28 * 2 ^ 28 + value % 2 ^ 28

theorem updatedEntry_eq {old value : Nat} (h : old < 2 ^ 32) :
    (old &&& (2 ^ 32 - 1 - fatMask)) ||| (value &&& fatMask) = updatedEntry old value := by
  have hhigh : old &&& (2 ^ 32 - 1 - fatMask) = 2 ^ 28 * (old / 2 ^ 28) := by
    have hmask : 2 ^ 32 - 1 - fatMask = 2 ^ 28 * (2 ^ 4 - 1) := by decide
    rw [hmask]
    apply Nat.eq_of_testBit_eq
    intro i
    rw [Nat.testBit_and, Nat.mul_comm, Nat.testBit_mul_two_pow, Nat.mul_comm,
      Nat.testBit_mul_two_pow, Nat.testBit_div_two_pow, Nat.testBit_two_pow_sub_one]
    by_cases hi : 28 ≤ i
    · rw [Nat.sub_add_cancel hi]
      by_cases h4 : i < 32
      · simp [hi]
        omega
      · have hbig : old < 2 ^ i :=
          Nat.lt_of_lt_of_le h (Nat.pow_le_pow_right (by decide) (by omega))
        simp [Nat.testBit_lt_two_pow hbig]
    · simp [hi]
  rw [hhigh, and_fatMask, ← Nat.two_pow_add_eq_or_of_lt (Nat.mod_lt _ (by decide)), updatedEntry,
    Nat.mul_comm]

theorem updatedEntry_mod {old value : Nat} (h : old < 2 ^ 32) :
    updatedEntry old value % 2 ^ 32 = updatedEntry old value := by
  unfold updatedEntry
  omega

def copyWrites (geo : Fat32Geo) (sector : Nat) (buf : Sector) (count : Nat) :
    List (Write Sector Origin) :=
  (List.range count).map fun copy => ⟨geo.fatStartSector + copy * geo.fatSize + sector, buf, .fat⟩

theorem copyWrites_succ (geo : Fat32Geo) (sector : Nat) (buf : Sector) (count : Nat) :
    copyWrites geo sector buf (count + 1) = copyWrites geo sector buf count ++
      [⟨geo.fatStartSector + count * geo.fatSize + sector, buf, .fat⟩] := by
  simp [copyWrites, List.range_succ]

theorem copyWrites_split {sector : Nat} {buf : Sector} {count : Nat}
    {before after : List (Write Sector Origin)} {w : Write Sector Origin}
    (h : copyWrites geo sector buf count = before ++ w :: after) :
    ∃ k < count, before = copyWrites geo sector buf k ∧
      w = ⟨geo.fatStartSector + k * geo.fatSize + sector, buf, .fat⟩ := by
  have hlen : before.length < count := by
    have := congrArg List.length h
    simp [copyWrites] at this
    omega
  refine ⟨before.length, hlen, ?_, ?_⟩
  · have htake := congrArg (List.take before.length) h
    rw [List.take_left] at htake
    refine htake.symm.trans ?_
    rw [copyWrites, copyWrites, ← List.map_take, List.take_range, Nat.min_eq_left (by omega)]
  · have hget := congrArg (fun l => l[before.length]?) h
    simpa [copyWrites, hlen] using hget.symm

theorem copy_gap (size : Nat) {k k' : Nat} (h : k < k') : k * size + size ≤ k' * size := by
  rw [← Nat.succ_mul]
  exact Nat.mul_le_mul_right size h

theorem replay_copyWrites {sector : Nat} (hsector : sector < geo.fatSize) (buf : Sector)
    (count : Nat) {k i : Nat} (hi : i < 512 * geo.fatSize) :
    Prog.replay disk (copyWrites geo sector buf count) m
        (512 * (geo.fatStartSector + k * geo.fatSize) + i) =
      if k < count ∧ i / 512 = sector then buf (i % 512)
      else m (512 * (geo.fatStartSector + k * geo.fatSize) + i) := by
  induction count with
  | zero => simp [copyWrites]
  | succ count ih =>
    rw [copyWrites_succ, Prog.replay_append, Prog.replay_cons, Prog.replay_nil]
    dsimp only
    by_cases hk : k = count ∧ i / 512 = sector
    · obtain ⟨rfl, hs⟩ := hk
      rw [if_pos ⟨by omega, hs⟩]
      have haddr : 512 * (geo.fatStartSector + k * geo.fatSize) + i =
          512 * (geo.fatStartSector + k * geo.fatSize + sector) + i % 512 := by omega
      rw [haddr, disk_write_add (Nat.mod_lt _ (by decide))]
    · rw [disk_write_of_outside, ih]
      · congr 1
        rw [eq_iff_iff]
        omega
      · rcases Nat.lt_trichotomy k count with h | rfl | h
        · have := copy_gap geo.fatSize h
          omega
        · omega
        · have := copy_gap geo.fatSize h
          omega

theorem replay_copyWrites_of_outside {sector : Nat} (hsector : sector < geo.fatSize) (buf : Sector)
    {count : Nat} (hcount : count ≤ geo.fatCount) {a : Nat} (ha : ¬ geo.InFat a) :
    Prog.replay disk (copyWrites geo sector buf count) m a = m a := by
  induction count with
  | zero => simp [copyWrites]
  | succ count ih =>
    rw [copyWrites_succ, Prog.replay_append, Prog.replay_cons, Prog.replay_nil]
    dsimp only
    rw [disk_write_of_outside, ih (by omega)]
    have := copy_gap geo.fatSize (show count < geo.fatCount by omega)
    unfold Fat32Geo.InFat at ha
    omega

def FirstUpdated (geo : Fat32Geo) (m : Memory) (cluster value : Nat) (m' : Memory) : Prop :=
  ∀ i < 512 * geo.fatSize, m' (512 * geo.fatStartSector + i) =
    m.put (geo.entryAddr cluster)
      (toLe32 (updatedEntry (le32 m (geo.entryAddr cluster)) value)) (512 * geo.fatStartSector + i)

structure FatPartial (geo : Fat32Geo) (m : Memory) (cluster value : Nat) (m' : Memory) : Prop where
  outside : ∀ a, ¬ geo.InFat a → m' a = m a
  first : (∀ i < 512 * geo.fatSize, m' (512 * geo.fatStartSector + i) =
    m (512 * geo.fatStartSector + i)) ∨ FirstUpdated geo m cluster value m'

structure FatWritten (geo : Fat32Geo) (m : Memory) (cluster value : Nat) (m' : Memory) : Prop where
  outside : ∀ a, ¬ geo.InFat a → m' a = m a
  first : FirstUpdated geo m cluster value m'
  copies : Copies geo m → Copies geo m'

theorem firstUpdated_replay {cluster value count : Nat} (hc : 4 * cluster + 4 ≤ 512 * geo.fatSize)
    (hcount : 0 < count) :
    FirstUpdated geo m cluster value (Prog.replay disk (copyWrites geo (cluster * 4 / 512)
      ((disk.read m (geo.fatStartSector + cluster * 4 / 512)).put (cluster * 4 % 512)
        (toLe32 (updatedEntry (le32 m (geo.entryAddr cluster)) value))) count) m) := by
  intro i hi
  have h := replay_copyWrites (m := m) (show cluster * 4 / 512 < geo.fatSize by omega)
    ((disk.read m (geo.fatStartSector + cluster * 4 / 512)).put (cluster * 4 % 512)
      (toLe32 (updatedEntry (le32 m (geo.entryAddr cluster)) value))) count (k := 0) hi
  rw [Nat.zero_mul, Nat.add_zero] at h
  rw [h]
  unfold Fat32Geo.entryAddr
  by_cases hs : i / 512 = cluster * 4 / 512
  · rw [if_pos ⟨hcount, hs⟩]
    by_cases hin : i % 512 < cluster * 4 % 512 ∨ cluster * 4 % 512 + 4 ≤ i % 512
    · rw [Memory.put_of_outside hin, Memory.put_of_outside (by simp only [Memory.length_toLe32]; omega),
        disk_read]
      congr 1
      omega
    · rw [Memory.put_of_inside (by omega) (by simp only [Memory.length_toLe32]; omega),
        Memory.put_of_inside (by omega) (by simp only [Memory.length_toLe32]; omega)]
      congr 1
      omega
  · rw [if_neg (by tauto), Memory.put_of_outside]
    simp only [Memory.length_toLe32]
    omega

theorem fatSet_spec {G : Memory → Write Sector Origin → Prop} {E : FsError → Memory → Prop}
    {Q : Unit → Memory → Prop} (hgeo : geo.Valid) {cluster value : Nat}
    (hc : 4 * cluster + 4 ≤ 512 * geo.fatSize)
    (hG : ∀ m' w, FatPartial geo m cluster value m' → w.tag = .fat →
      geo.fatStartSector ≤ w.sector → w.sector < geo.fatStartSector + geo.fatCount * geo.fatSize →
      G m' w)
    (hQ : ∀ m', FatWritten geo m cluster value m' → Q () m') :
    wp disk G Q E (fatSet geo cluster value) m := by
  have hsector : cluster * 4 / 512 < geo.fatSize := by omega
  simp only [fatSet, sectorSize, Prog.wp_bind, wp_readSector, le32_sector,
    updatedEntry_eq (Memory.le32_lt m _), Nat.max_eq_left (Nat.succ_le_of_lt hgeo.fatCount)]
  refine Prog.wp_writeAll.mpr ⟨?_, hQ _ ⟨?_, ?_, ?_⟩⟩
  · intro before w after h
    obtain ⟨k, hk, rfl, rfl⟩ := copyWrites_split h
    have hgap := copy_gap geo.fatSize hk
    refine hG _ _ ⟨fun a ha => replay_copyWrites_of_outside hsector _ (by omega) ha, ?_⟩ rfl
      (by simp only; omega) (by simp only; omega)
    rcases Nat.eq_zero_or_pos k with rfl | hpos
    · exact Or.inl fun i hi => rfl
    · exact Or.inr (firstUpdated_replay hc hpos)
  · exact fun a ha => replay_copyWrites_of_outside hsector _ (Nat.le_refl _) ha
  · exact firstUpdated_replay hc hgeo.fatCount
  · intro hcopies k hk i hi
    have h := replay_copyWrites (m := m) hsector
      ((disk.read m (geo.fatStartSector + cluster * 4 / 512)).put (cluster * 4 % 512)
        (toLe32 (updatedEntry (le32 m (geo.entryAddr cluster)) value))) geo.fatCount (k := k) hi
    have h0 := replay_copyWrites (m := m) hsector
      ((disk.read m (geo.fatStartSector + cluster * 4 / 512)).put (cluster * 4 % 512)
        (toLe32 (updatedEntry (le32 m (geo.entryAddr cluster)) value))) geo.fatCount (k := 0) hi
    rw [Nat.zero_mul, Nat.add_zero] at h0
    simp only [hk, hgeo.fatCount, true_and] at h h0
    refine h.trans (Eq.trans ?_ h0.symm)
    split
    · rfl
    · exact hcopies k hk i hi

theorem le32_of_first (h : ∀ i < 512 * geo.fatSize, m' (512 * geo.fatStartSector + i) =
    m (512 * geo.fatStartSector + i)) {c : Nat} (hc : 4 * c + 4 ≤ 512 * geo.fatSize) :
    le32 m' (geo.entryAddr c) = le32 m (geo.entryAddr c) := by
  refine Memory.le32_congr fun i hi => ?_
  have := h (4 * c + i) (by omega)
  rwa [← Nat.add_assoc] at this

theorem le32_of_firstUpdated {cluster value c : Nat} (h : FirstUpdated geo m cluster value m')
    (hc : 4 * c + 4 ≤ 512 * geo.fatSize) :
    le32 m' (geo.entryAddr c) =
      if c = cluster then updatedEntry (le32 m (geo.entryAddr cluster)) value
      else le32 m (geo.entryAddr c) := by
  rw [le32_of_first (m := m.put _ _) h hc]
  split
  next heq =>
    subst heq
    rw [Memory.le32_put, updatedEntry_mod (Memory.le32_lt m _)]
  next hne =>
    refine Memory.le32_put_of_outside ?_
    unfold Fat32Geo.entryAddr
    simp only [Memory.length_toLe32]
    omega

theorem fatTop_of_firstUpdated {cluster value c : Nat} (h : FirstUpdated geo m cluster value m')
    (hc : 4 * c + 4 ≤ 512 * geo.fatSize) : fatTop geo m' c = fatTop geo m c := by
  rw [fatTop, fatTop, le32_of_firstUpdated h hc]
  split
  next heq =>
    subst heq
    unfold updatedEntry
    omega
  next => rfl

theorem links_of_firstUpdated {cluster value c : Nat} (h : FirstUpdated geo m cluster value m')
    (hc : 4 * c + 4 ≤ 512 * geo.fatSize) :
    links geo m' c = Function.update (links geo m) cluster (linkOf (value % 2 ^ 28)) c := by
  rw [links, fatValue, le32_of_firstUpdated h hc, Function.update_apply]
  split
  next =>
    congr 1
    unfold updatedEntry
    omega
  next => rfl

theorem updateFsinfo_spec {G : Memory → Write Sector Origin → Prop} {E : FsError → Memory → Prop}
    {Q : Unit → Memory → Prop} {nextFree : Nat}
    (hG : ∀ w, geo.HasFsInfo → w.tag = .fsInfo → w.sector = geo.fsInfoSector → G m w)
    (hQ : ∀ m', (∀ a, ¬ geo.InFsInfo a → m' a = m a) → Q () m') :
    wp disk G Q E (updateFsinfo geo nextFree) m := by
  unfold updateFsinfo
  split
  next => exact hQ m fun _ _ => rfl
  next hoff =>
    have hhas : geo.HasFsInfo := not_or.mp hoff
    simp only [Prog.wp_bind, wp_readSector]
    split
    · exact hQ m fun _ _ => rfl
    · split
      · exact hQ m fun _ _ => rfl
      · rw [wp_writeSector]
        refine ⟨hG _ hhas rfl rfl, hQ _ fun a ha => disk_write_of_outside ?_⟩
        unfold Fat32Geo.InFsInfo at ha
        simp only [hhas, true_and] at ha
        omega

/-! ## Allocating -/

def MetaWrite (geo : Fat32Geo) (w : Write Sector Origin) : Prop :=
  (w.tag = .fat ∧ geo.fatStartSector ≤ w.sector ∧
    w.sector < geo.fatStartSector + geo.fatCount * geo.fatSize) ∨
  (w.tag = .fsInfo ∧ geo.HasFsInfo ∧ w.sector = geo.fsInfoSector)

def SameData (geo : Fat32Geo) (m m' : Memory) : Prop :=
  ∀ a, ¬ geo.InFat a → ¬ geo.InFsInfo a → m' a = m a

/-- Only the low 28 bits of table entries differ, in all copies alike. -/
structure TableFrame (geo : Fat32Geo) (m m' : Memory) : Prop where
  data : SameData geo m m'
  top : ∀ c, geo.HasEntry c → fatTop geo m' c = fatTop geo m c
  copies : Copies geo m → Copies geo m'

theorem TableFrame.refl (geo : Fat32Geo) (m : Memory) : TableFrame geo m m :=
  ⟨fun _ _ _ => rfl, fun _ _ => rfl, id⟩

theorem TableFrame.trans {m₁ m₂ m₃ : Memory} (h₁ : TableFrame geo m₁ m₂)
    (h₂ : TableFrame geo m₂ m₃) : TableFrame geo m₁ m₃ where
  data a h h' := (h₂.data a h h').trans (h₁.data a h h')
  top c hc := (h₂.top c hc).trans (h₁.top c hc)
  copies h := h₂.copies (h₁.copies h)

def SameLinks (geo : Fat32Geo) (t t' : LinkTable Nat) : Prop :=
  ∀ c < geo.totalClusters + 2, t' c = t c

theorem FatWritten.frame {cluster value : Nat} (h : FatWritten geo m cluster value m') :
    TableFrame geo m m' where
  data a ha _ := h.outside a ha
  top _ hc := fatTop_of_firstUpdated h.first hc
  copies := h.copies

theorem FatWritten.links (hgeo : geo.Sound) {cluster value : Nat}
    (h : FatWritten geo m cluster value m') :
    SameLinks geo (Function.update (links geo m) cluster (linkOf (value % 2 ^ 28)))
      (Fat32.links geo m') :=
  fun c hc => links_of_firstUpdated h.first (by have := hgeo.covers; omega)

theorem FatPartial.links (hgeo : geo.Sound) {cluster value : Nat}
    (h : FatPartial geo m cluster value m') :
    SameLinks geo (links geo m) (Fat32.links geo m') ∨
      SameLinks geo (Function.update (links geo m) cluster (linkOf (value % 2 ^ 28)))
        (Fat32.links geo m') := by
  have hcov := hgeo.covers
  rcases h.first with h | h
  · refine Or.inl fun c hc => ?_
    rw [Fat32.links, fatValue, le32_of_first h (by omega)]
    rfl
  · exact Or.inr fun c hc => links_of_firstUpdated h (by omega)

theorem Fat32Geo.Sound.inFat_of_not (hgeo : geo.Sound) {a : Nat} (ha : geo.InFat a) :
    ¬ geo.InFsInfo a := by
  rintro ⟨hhas, hlo, hhi⟩
  have h := hgeo.fsInfo hhas
  unfold Fat32Geo.InFat at ha
  omega

theorem frame_of_fsInfo (hgeo : geo.Sound) (h : ∀ a, ¬ geo.InFsInfo a → m' a = m a) :
    TableFrame geo m m' ∧ SameLinks geo (links geo m) (links geo m') := by
  have hmul : geo.fatSize ≤ geo.fatCount * geo.fatSize :=
    Nat.le_mul_of_pos_left _ hgeo.fatCount
  have hfirst : ∀ i < 512 * geo.fatSize, m' (512 * geo.fatStartSector + i) =
      m (512 * geo.fatStartSector + i) := by
    intro i hi
    refine h _ (hgeo.inFat_of_not ?_)
    unfold Fat32Geo.InFat
    omega
  have hcov := hgeo.covers
  refine ⟨⟨fun a _ ha => h a ha, fun c hc => ?_, fun hcopies k hk i hi => ?_⟩, fun c hc => ?_⟩
  · rw [fatTop, fatTop, le32_of_first hfirst hc]
  · have hgap := copy_gap geo.fatSize hk
    rw [hfirst i hi, ← hcopies k hk i hi]
    refine h _ (hgeo.inFat_of_not ?_)
    unfold Fat32Geo.InFat
    omega
  · rw [links, links, fatValue, fatValue, le32_of_first hfirst (by omega)]

theorem SameLinks.trans {t₁ t₂ t₃ : LinkTable Nat} (h₁ : SameLinks geo t₁ t₂)
    (h₂ : SameLinks geo t₂ t₃) : SameLinks geo t₁ t₃ :=
  fun c hc => (h₂ c hc).trans (h₁ c hc)

theorem SameLinks.update {t t' : LinkTable Nat} (h : SameLinks geo t t') (c : Nat) (v : Link Nat) :
    SameLinks geo (Function.update t c v) (Function.update t' c v) := by
  intro a ha
  by_cases hac : a = c
  · subst hac
    simp
  · rw [Function.update_of_ne hac, Function.update_of_ne hac, h a ha]

/-- The table after `cluster` has been taken and linked to `prev`. -/
def takenLinks (t : LinkTable Nat) (prev : Option Nat) (cluster : Nat) : LinkTable Nat :=
  match prev with
  | none => Function.update t cluster .stop
  | some previous => Function.update (Function.update t cluster .stop) previous (.next cluster)

def TakingLinks (geo : Fat32Geo) (t : LinkTable Nat) (prev : Option Nat) (cluster : Nat)
    (t' : LinkTable Nat) : Prop :=
  SameLinks geo t t' ∨ SameLinks geo (Function.update t cluster .stop) t' ∨
    SameLinks geo (takenLinks t prev cluster) t'

theorem linkOf_eoc : linkOf (fatEoc % 2 ^ 28) = .stop := by decide

theorem linkOf_cluster (hgeo : geo.Sound) {c : Nat} (hc : geo.InRange c) :
    linkOf (c % 2 ^ 28) = .next c := by
  have hb := hgeo.bounded
  obtain ⟨h2, hlt⟩ := hc
  have hmod : c % 2 ^ 28 = c := Nat.mod_eq_of_lt (by omega)
  have hne : c ≠ 0 := by omega
  have hend : endsChain c = false := by
    simp only [endsChain, isEndOfChain, Bool.or_eq_false_iff, decide_eq_false_iff_not]
    omega
  rw [hmod, linkOf, if_neg hne, hend]
  rfl

theorem takeCluster_spec {G : Memory → Write Sector Origin → Prop} {E : FsError → Memory → Prop}
    {Q : Nat → Memory → Prop} (hgeo : geo.Sound) {prev : Option Nat} {cluster : Nat}
    (hc : geo.InRange cluster) (hprev : ∀ p ∈ prev, p < geo.totalClusters + 2)
    (hG : ∀ m' w, SameData geo m m' → TakingLinks geo (links geo m) prev cluster (links geo m') →
      MetaWrite geo w → G m' w)
    (hQ : ∀ m', TableFrame geo m m' →
      SameLinks geo (takenLinks (links geo m) prev cluster) (links geo m') → Q cluster m') :
    wp disk G Q E (takeCluster geo prev cluster) m := by
  have hcov := hgeo.covers
  have hlt := hc.2
  -- the hint is written last, over a table that is complete
  have hinfo : ∀ m₁, TableFrame geo m m₁ →
      SameLinks geo (takenLinks (links geo m) prev cluster) (links geo m₁) →
      wp disk G (fun _ m' => Q cluster m') E
        ((updateFsinfo geo cluster).attempt : Io (Except FsError Unit)) m₁ := by
    intro m₁ hframe hlinks
    rw [Prog.wp_attempt]
    refine updateFsinfo_spec (fun w hhas htag hsec => ?_) fun m₂ h₂ => ?_
    · exact hG m₁ w hframe.data (Or.inr (Or.inr hlinks)) (Or.inr ⟨htag, hhas, hsec⟩)
    · obtain ⟨hf, hl⟩ := frame_of_fsInfo hgeo h₂
      exact hQ m₂ (hframe.trans hf) (hlinks.trans hl)
  rw [takeCluster, Prog.wp_bind]
  refine fatSet_spec hgeo.toValid (by omega) (fun m₁ w hp htag hlo hhi => ?_) fun m₁ h₁ => ?_
  · refine hG m₁ w (fun a ha _ => hp.outside a ha) ?_ (Or.inl ⟨htag, hlo, hhi⟩)
    have hl := hp.links hgeo
    rw [linkOf_eoc] at hl
    rcases hl with hl | hl
    · exact Or.inl hl
    · exact Or.inr (Or.inl hl)
  · have hlinks₁ := h₁.links hgeo
    rw [linkOf_eoc] at hlinks₁
    cases prev with
    | none =>
      simp only [Prog.wp_bind, Prog.wp_pure]
      exact hinfo m₁ h₁.frame hlinks₁
    | some previous =>
      have hlt' := hprev previous rfl
      simp only [Prog.wp_bind, Prog.wp_pure]
      refine fatSet_spec hgeo.toValid (by omega) (fun m₂ w hp htag hlo hhi => ?_) fun m₂ h₂ => ?_
      · refine hG m₂ w (fun a ha hi => (hp.outside a ha).trans (h₁.frame.data a ha hi)) ?_
          (Or.inl ⟨htag, hlo, hhi⟩)
        have hl := hp.links hgeo
        rw [linkOf_cluster hgeo hc] at hl
        rcases hl with hl | hl
        · exact Or.inr (Or.inl (hlinks₁.trans hl))
        · exact Or.inr (Or.inr ((hlinks₁.update _ _).trans hl))
      · have hlinks₂ := h₂.links hgeo
        rw [linkOf_cluster hgeo hc] at hlinks₂
        exact hinfo m₂ (h₁.frame.trans h₂.frame) ((hlinks₁.update _ _).trans hlinks₂)

theorem allocFrom_spec {G : Memory → Write Sector Origin → Prop} {E : FsError → Memory → Prop}
    {Q : Nat → Memory → Prop} {prev : Option Nat} {left cluster : Nat}
    (hfull : (∀ c, cluster ≤ c → c < cluster + left → fatValue geo m c ≠ 0) → E .diskFull m)
    (htake : ∀ c, cluster ≤ c → c < cluster + left → fatValue geo m c = 0 →
      wp disk G Q E (takeCluster geo prev c) m) :
    wp disk G Q E (allocFrom geo prev left cluster) m := by
  induction left generalizing cluster with
  | zero => exact hfull fun c hlo hhi => by omega
  | succ left ih =>
    simp only [allocFrom, Prog.wp_bind, wp_fatGet]
    by_cases hzero : fatValue geo m cluster = 0
    · rw [if_pos hzero]
      exact htake cluster (Nat.le_refl _) (by omega) hzero
    · rw [if_neg hzero]
      refine ih (fun hall => hfull fun c hlo hhi => ?_) fun c hlo hhi =>
        htake c (by omega) (by omega)
      rcases Nat.eq_or_lt_of_le hlo with rfl | hlt
      · exact hzero
      · exact hall c hlt (by omega)

theorem allocCluster_spec {G : Memory → Write Sector Origin → Prop} {E : FsError → Memory → Prop}
    {Q : Nat → Memory → Prop} (hgeo : geo.Sound) {prev : Option Nat}
    (hprev : ∀ p ∈ prev, p < geo.totalClusters + 2)
    (hfull : (∀ c, geo.InRange c → links geo m c ≠ .free) → E .diskFull m)
    (hG : ∀ c m' w, geo.InRange c → links geo m c = .free → SameData geo m m' →
      TakingLinks geo (links geo m) prev c (links geo m') → MetaWrite geo w → G m' w)
    (hQ : ∀ c m', geo.InRange c → links geo m c = .free → TableFrame geo m m' →
      SameLinks geo (takenLinks (links geo m) prev c) (links geo m') → Q c m') :
    wp disk G Q E (allocCluster geo prev) m := by
  have hb := hgeo.bounded
  have hclusters := hgeo.clusters
  have hcount : (geo.totalClusters + 2) % 2 ^ 32 - 2 = geo.totalClusters := by omega
  have hfree : ∀ c, links geo m c = .free ↔ fatValue geo m c = 0 := by
    intro c
    simp only [links, linkOf]
    split
    · simpa
    · split <;> simpa
  rw [allocCluster, hcount]
  refine allocFrom_spec (fun hall => hfull fun c hc => ?_) fun c hlo hhi hzero => ?_
  · rw [ne_eq, hfree]
    exact hall c hc.1 (by have := hc.2; omega)
  · have hc : geo.InRange c := ⟨hlo, by omega⟩
    exact takeCluster_spec hgeo hc hprev (fun m' w => hG c m' w hc ((hfree c).mpr hzero))
      fun m' => hQ c m' hc ((hfree c).mpr hzero)

/-- The clusters that `chain` visits. -/
def walk (geo : Fat32Geo) (m : Memory) : Nat → Nat → List Nat
  | 0, _ => []
  | room + 1, cluster =>
    if endsChain (fatValue geo m cluster) then [cluster]
    else cluster :: walk geo m room (fatValue geo m cluster)

def chainOf (geo : Fat32Geo) (m : Memory) (start : Nat) : List Nat :=
  if start < 2 then [] else walk geo m (geo.totalClusters + 3) start

section Reading

variable {G : Memory → Write Sector Origin → Prop} {E : FsError → Memory → Prop}

theorem wp_chainFrom {Q : List Nat → Memory → Prop} {room cluster : Nat} :
    wp disk G Q E (chainFrom geo room cluster) m ↔ Q (walk geo m room cluster) m := by
  induction room generalizing cluster Q with
  | zero => exact Iff.rfl
  | succ room ih =>
    simp only [chainFrom, Prog.wp_bind, wp_fatGet, walk]
    split
    · exact Iff.rfl
    · simp only [Prog.wp_bind, ih, Prog.wp_pure]

@[simp] theorem wp_chain {Q : List Nat → Memory → Prop} {start : Nat} :
    wp disk G Q E (chain geo start) m ↔ Q (chainOf geo m start) m := by
  unfold chain chainOf
  split
  · exact Iff.rfl
  · exact wp_chainFrom

end Reading

theorem links_eq_stop {c : Nat} (h : links geo m c = .stop) :
    endsChain (fatValue geo m c) = true := by
  simp only [links, linkOf] at h
  split at h
  · cases h
  · split at h
    next hend => exact hend
    next => cases h

theorem links_eq_next {c d : Nat} (h : links geo m c = .next d) :
    endsChain (fatValue geo m c) = false ∧ fatValue geo m c = d := by
  simp only [links, linkOf] at h
  split at h
  · cases h
  · split at h
    next => cases h
    next hend =>
      cases h
      exact ⟨by simpa using hend, rfl⟩

theorem endsChain_of_ne_next {c : Nat} (h : ∀ d, links geo m c ≠ .next d) :
    endsChain (fatValue geo m c) = true := by
  by_contra hend
  refine h (fatValue geo m c) ?_
  have hne : fatValue geo m c ≠ 0 := fun h0 => hend (by rw [h0]; rfl)
  rw [links, linkOf, if_neg hne, if_neg hend]

theorem walk_eq {room cluster : Nat} {l : List Nat}
    (h : LinkTable.IsChain (links geo m) (cluster :: l)) (hroom : l.length < room) :
    walk geo m room cluster = cluster :: l := by
  induction room generalizing cluster l with
  | zero => omega
  | succ room ih =>
    cases l with
    | nil => simp [walk, links_eq_stop h]
    | cons d l =>
      obtain ⟨hend, hval⟩ := links_eq_next h.1
      rw [walk, hend, hval, ih h.2 (by simpa using hroom)]
      rfl

theorem length_le_of_nodup {l : List Nat} (hnodup : l.Nodup) (hrange : ∀ c ∈ l, geo.InRange c) :
    l.length ≤ geo.totalClusters := by
  have hsub : l ⊆ List.range' 2 geo.totalClusters := by
    intro c hc
    have h := hrange c hc
    rw [List.mem_range'_1]
    exact ⟨h.1, by have := h.2; omega⟩
  have := (hnodup.subperm hsub).length_le
  rwa [List.length_range'] at this

theorem chainOf_eq {chains : List (List Nat)}
    (h : LinkTable.Partition (links geo m) geo.InRange chains) {cluster : Nat} {l : List Nat}
    (hl : cluster :: l ∈ chains) : chainOf geo m cluster = cluster :: l := by
  have hrange : geo.InRange cluster := h.dom_of_mem hl (by simp)
  have hlen := length_le_of_nodup (h.chain_nodup hl) fun c hc => h.dom_of_mem hl hc
  rw [List.length_cons] at hlen
  rw [chainOf, if_neg (by have := hrange.1; omega), walk_eq (h.chain _ hl) (by omega)]

theorem freeClusters_spec {G : Memory → Write Sector Origin → Prop} {E : FsError → Memory → Prop}
    {Q : Unit → Memory → Prop} (hgeo : geo.Sound) {l : List Nat}
    (hl : ∀ c ∈ l, c < geo.totalClusters + 2) (hG : ∀ m' w, MetaWrite geo w → G m' w)
    (hQ : ∀ m', TableFrame geo m m' →
      (∀ c < geo.totalClusters + 2, links geo m' c = if c ∈ l then .free else links geo m c) →
      Q () m') :
    wp disk G Q E (freeClusters geo l) m := by
  induction l generalizing m with
  | nil => exact hQ m (.refl geo m) fun c _ => by simp
  | cons d l ih =>
    have hcov := hgeo.covers
    have hd := hl d (by simp)
    rw [freeClusters, Prog.wp_bind]
    refine fatSet_spec hgeo.toValid (by omega)
      (fun m' w _ htag hlo hhi => hG m' w (Or.inl ⟨htag, hlo, hhi⟩)) fun m₁ h₁ => ?_
    refine ih (fun c hc => hl c (by simp [hc])) fun m₂ hframe hlinks => ?_
    refine hQ m₂ (h₁.frame.trans hframe) fun c hc => ?_
    have hzero : linkOf (fatFree % 2 ^ 28) = .free := by decide
    rw [hlinks c hc, h₁.links hgeo c hc, hzero, Function.update_apply]
    by_cases hcl : c ∈ l
    · simp [hcl]
    · by_cases hcd : c = d <;> simp [hcl, hcd]

end Vibra.Fat32
