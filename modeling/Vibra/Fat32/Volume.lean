import Vibra.Lib.BlockIo
import Vibra.Lib.Bytes

/-! # FAT32 volumes: boot sector, allocation table and chains

Disk operations are programs over 512-byte sectors.
-/

namespace Vibra.Fat32

open Lib (Memory Prog Device)
open Lib.Memory (le16 le32 toLe32)

inductive FsError where
  | notFound | permissionDenied | ioError | invalidPath | alreadyExists | notEmpty | notADirectory
  | isADirectory | diskFull | readOnly | notSupported
deriving DecidableEq

/-- What a sector write is for. -/
inductive Origin where
  | fat | fsInfo | data | entry
deriving DecidableEq

abbrev sectorSize : Nat := 512
def fatEoc : Nat := 0x0FFF_FFFF
abbrev fatFree : Nat := 0
def fatMask : Nat := 0x0FFF_FFFF

abbrev Sector := Memory

abbrev Io := Prog Sector Origin FsError

/-- The disk as its bytes in order. -/
def disk : Device Memory Sector where
  read m sector := fun i => m (sectorSize * sector + i)
  write m sector buf := fun a =>
    if sectorSize * sector ≤ a ∧ a < sectorSize * sector + sectorSize then
      buf (a - sectorSize * sector)
    else m a

def readSector (sector : Nat) : Io Sector :=
  .read sector fun
    | some buf => pure buf
    | none => .fail .ioError

def writeSector (origin : Origin) (sector : Nat) (buf : Sector) : Io Unit :=
  Prog.writeAll .ioError [⟨sector, buf, origin⟩]

/-- The fields of the boot sector that `with_mode` reads. -/
structure Fat32BootSector where
  bytesPerSector : Nat
  sectorsPerCluster : Nat
  reservedSectors : Nat
  fatCount : Nat
  rootEntryCount : Nat
  totalSectors16 : Nat
  fatSize16 : Nat
  totalSectors32 : Nat
  fatSize32 : Nat
  rootCluster : Nat
  fsInfoSector : Nat
  volumeLabel : List UInt8

def Fat32BootSector.ofSector (buf : Sector) : Fat32BootSector where
  bytesPerSector := le16 buf 11
  sectorsPerCluster := (buf 13).toNat
  reservedSectors := le16 buf 14
  fatCount := (buf 16).toNat
  rootEntryCount := le16 buf 17
  totalSectors16 := le16 buf 19
  fatSize16 := le16 buf 22
  totalSectors32 := le32 buf 32
  fatSize32 := le32 buf 36
  rootCluster := le32 buf 44
  fsInfoSector := le16 buf 48
  volumeLabel := buf.slice 71 11

structure Fat32Geo where
  fatStartSector : Nat
  fatCount : Nat
  fatSize : Nat
  dataStartSector : Nat
  sectorsPerCluster : Nat
  clusterSize : Nat
  rootCluster : Nat
  fsInfoSector : Nat
  totalClusters : Nat
  volumeLabel : List UInt8
deriving DecidableEq

def Fat32Geo.clusterToSector (geo : Fat32Geo) (cluster : Nat) : Option Nat :=
  if cluster < 2 then none
  else some (geo.dataStartSector + (cluster - 2) * geo.sectorsPerCluster)

/-- `is_power_of_two` on a byte. -/
def isPowerOfTwo (n : Nat) : Bool := (List.range 8).any fun k => n == 2 ^ k

/-- The geometry that `with_mode` takes from a boot sector, or why it refuses
the volume. Sectors of 4096 bytes count as eight of 512; the casts to `u32`
drop high bits. -/
def Fat32BootSector.geo (boot : Fat32BootSector) : Except FsError Fat32Geo :=
  if boot.bytesPerSector ≠ 512 ∧ boot.bytesPerSector ≠ 4096 then .error .invalidPath
  else
    let sectorShift := if boot.bytesPerSector = 512 then 1 else 8
    if boot.fatSize16 ≠ 0 ∨ boot.rootEntryCount ≠ 0 then .error .invalidPath
    else if boot.sectorsPerCluster = 0 ∨ !isPowerOfTwo boot.sectorsPerCluster then
      .error .invalidPath
    else if boot.reservedSectors = 0 ∨ boot.fatSize32 = 0 then .error .invalidPath
    else if boot.fatCount = 0 ∨ 4 < boot.fatCount then .error .invalidPath
    else
      let spc512 := boot.sectorsPerCluster * sectorShift
      if 255 < spc512 then .error .invalidPath
      else
        let fatStart := boot.reservedSectors * sectorShift
        let fatSize := boot.fatSize32 * sectorShift
        let dataStart := fatStart + boot.fatCount * fatSize + (boot.rootEntryCount * 32 + 511) / 512
        let totalSectors :=
          (if boot.totalSectors16 ≠ 0 then boot.totalSectors16 else boot.totalSectors32) *
            sectorShift
        let totalClusters := (totalSectors - dataStart) / spc512 % 2 ^ 32
        if totalClusters < 2 then .error .invalidPath
        else
          let fsInfo := boot.fsInfoSector * sectorShift
          .ok {
            fatStartSector := fatStart
            fatCount := boot.fatCount
            fatSize := fatSize % 2 ^ 32
            dataStartSector := dataStart
            sectorsPerCluster := spc512
            clusterSize := 512 * spc512 % 2 ^ 32
            rootCluster := boot.rootCluster
            fsInfoSector := if fsInfo ≤ 65535 then fsInfo else 0
            totalClusters := totalClusters
            volumeLabel := boot.volumeLabel }

def fatGet (geo : Fat32Geo) (cluster : Nat) : Io Nat := do
  let offset := cluster * 4
  let buf ← readSector (geo.fatStartSector + offset / sectorSize)
  pure (le32 buf (offset % sectorSize) &&& fatMask)

/-- The high four bits of the old entry are kept, and every copy of the table
gets the sector of the first. -/
def fatSet (geo : Fat32Geo) (cluster value : Nat) : Io Unit := do
  let offset := cluster * 4
  let sectorInFat := offset / sectorSize
  let entry := offset % sectorSize
  let buf ← readSector (geo.fatStartSector + sectorInFat)
  let old := le32 buf entry
  let updated := (old &&& (2 ^ 32 - 1 - fatMask)) ||| (value &&& fatMask)
  let buf := buf.put entry (toLe32 updated)
  Prog.writeAll .ioError ((List.range (max geo.fatCount 1)).map fun copy =>
    ⟨geo.fatStartSector + copy * geo.fatSize + sectorInFat, buf, .fat⟩)

def isEndOfChain (value : Nat) : Bool := decide (0x0FFF_FFF8 ≤ value)

def endsChain (next : Nat) : Bool := decide (next < 2) || isEndOfChain next

/-- The loop of `chain`; the first argument is how many clusters it may still take. -/
def chainFrom (geo : Fat32Geo) : Nat → Nat → Io (List Nat)
  | 0, _ => pure []
  | room + 1, cluster => do
    let next ← fatGet geo cluster
    if endsChain next then pure [cluster]
    else do
      let rest ← chainFrom geo room next
      pure (cluster :: rest)

def chain (geo : Fat32Geo) (start : Nat) : Io (List Nat) :=
  if start < 2 then pure [] else chainFrom geo (geo.totalClusters + 3) start

/-- Free the clusters of a list in order. -/
def freeClusters (geo : Fat32Geo) : List Nat → Io Unit
  | [] => pure ()
  | cluster :: rest => do
    fatSet geo cluster fatFree
    freeClusters geo rest

def freeChain (geo : Fat32Geo) (start : Nat) : Io Unit := do
  let clusters ← chain geo start
  freeClusters geo clusters

/-- The hint of free clusters and of the next free one. -/
def updateFsinfo (geo : Fat32Geo) (nextFree : Nat) : Io Unit :=
  if geo.fsInfoSector = 0 ∨ geo.fsInfoSector = 0xFFFF then pure ()
  else do
    let buf ← readSector geo.fsInfoSector
    if le32 buf 0 ≠ 0x4161_5252 then pure ()
    else if le32 buf 484 ≠ 0x6141_7272 then pure ()
    else
      let free := le32 buf 488
      let buf := if free ≠ 0xFFFF_FFFF ∧ 0 < free then buf.put 488 (toLe32 (free - 1)) else buf
      writeSector .fsInfo geo.fsInfoSector (buf.put 492 (toLe32 nextFree))

/-- Mark a cluster used and link it to the one before; errors of the hint are
ignored. -/
def takeCluster (geo : Fat32Geo) (prev : Option Nat) (cluster : Nat) : Io Nat := do
  fatSet geo cluster fatEoc
  match prev with
  | some previous => fatSet geo previous cluster
  | none => pure ()
  let _ ← ((updateFsinfo geo cluster).attempt : Io (Except FsError Unit))
  pure cluster

/-- The loop of `alloc_cluster`; the first argument is how many clusters are left. -/
def allocFrom (geo : Fat32Geo) (prev : Option Nat) : Nat → Nat → Io Nat
  | 0, _ => .fail .diskFull
  | left + 1, cluster => do
    let value ← fatGet geo cluster
    if value = fatFree then takeCluster geo prev cluster
    else allocFrom geo prev left (cluster + 1)

/-- `total_clusters + 2` is a `u32` addition. -/
def allocCluster (geo : Fat32Geo) (prev : Option Nat) : Io Nat :=
  allocFrom geo prev ((geo.totalClusters + 2) % 2 ^ 32 - 2) 2

/-- The bytes of the sectors from `sector` on. -/
def readSectors (sector : Nat) : Nat → Io (List UInt8)
  | 0 => pure []
  | count + 1 => do
    let buf ← readSector sector
    let rest ← readSectors (sector + 1) count
    pure (buf.slice 0 sectorSize ++ rest)

def readClusters (geo : Fat32Geo) : List Nat → Io (List UInt8)
  | [] => pure []
  | cluster :: rest =>
    match geo.clusterToSector cluster with
    | none => .fail .invalidPath
    | some sector => do
      let data ← readSectors sector geo.sectorsPerCluster
      let more ← readClusters geo rest
      pure (data ++ more)

def readChain (geo : Fat32Geo) (start : Nat) : Io (List UInt8) := do
  let clusters ← chain geo start
  readClusters geo clusters

/-- The loop of `write_cluster_range`: a whole sector is written as it is, a part
of one is read, changed and written back. One step for every sector, so the
length of the data bounds the steps. -/
def writeSectors (geo : Fat32Geo) (base : Nat) : Nat → Nat → Nat → List UInt8 → Io Unit
  | 0, _, _, _ => pure ()
  | steps + 1, sectorIndex, sectorOffset, data =>
    if data = [] then pure ()
    else if geo.sectorsPerCluster ≤ sectorIndex then .fail .ioError
    else do
      let take := min (sectorSize - sectorOffset) data.length
      let sector := base + sectorIndex
      if sectorOffset = 0 ∧ take = sectorSize then
        writeSector .data sector (Memory.put (fun _ => 0) 0 (data.take take))
      else do
        let buf ← readSector sector
        writeSector .data sector (buf.put sectorOffset (data.take take))
      writeSectors geo base steps (sectorIndex + 1) 0 (data.drop take)

def writeClusterRange (geo : Fat32Geo) (cluster within : Nat) (data : List UInt8) : Io Unit :=
  match geo.clusterToSector cluster with
  | none => .fail .invalidPath
  | some base =>
    writeSectors geo base data.length (within / sectorSize) (within % sectorSize) data

def nextOrAlloc (geo : Fat32Geo) (cluster : Nat) : Io Nat := do
  let next ← fatGet geo cluster
  if endsChain next then allocCluster geo (some cluster) else pure next

/-- Go `count` clusters further. -/
def walkTo (geo : Fat32Geo) : Nat → Nat → Io Nat
  | 0, cluster => pure cluster
  | count + 1, cluster => do
    let next ← nextOrAlloc geo cluster
    walkTo geo count next

/-- The writing loop of `write_range`; every step writes at least one byte. -/
def writeClusters (geo : Fat32Geo) : Nat → Nat → Nat → List UInt8 → Io Unit
  | 0, _, _, _ => pure ()
  | steps + 1, cluster, position, data =>
    if data = [] then pure ()
    else do
      let within := position % geo.clusterSize
      let chunk := min (geo.clusterSize - within) data.length
      writeClusterRange geo cluster within (data.take chunk)
      let rest := data.drop chunk
      if rest = [] then pure ()
      else do
        let next ← nextOrAlloc geo cluster
        writeClusters geo steps next (position + chunk) rest

def startOrAlloc (geo : Fat32Geo) (start : Nat) : Io Nat :=
  if start < 2 then allocCluster geo none else pure start

/-- The new start cluster and the new size. `start` is an in-out argument of the
source: it stays assigned when a later step fails. -/
def writeRange (geo : Fat32Geo) (start offset : Nat) (data : List UInt8) :
    Io (Nat × Except FsError Nat) :=
  if data = [] then pure (start, .ok offset)
  else do
    match ← (startOrAlloc geo start).attempt with
    | .error e => pure (start, .error e)
    | .ok first =>
      let result ← Prog.attempt (do
        let cluster ← walkTo geo (offset / geo.clusterSize) first
        writeClusters geo data.length cluster offset data
        pure (offset + data.length))
      pure (first, result)

end Vibra.Fat32
