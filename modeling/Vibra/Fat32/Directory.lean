import Vibra.Fat32.Volume

/-! # Directories

Entries of 32 bytes, long names, paths and 8.3 names. Texts are lists of
characters; the byte lengths of the source are lengths of UTF-8 encodings.
-/

namespace Vibra.Fat32

open Lib (Memory Prog)
open Lib.Memory (le16 le32 toLe16 toLe32)

abbrev Name := List Char

structure FatDirEntry where
  name : List UInt8
  attributes : UInt8
  reserved : UInt8
  creationTimeTenths : UInt8
  creationTime : Nat
  creationDate : Nat
  lastAccessDate : Nat
  firstClusterHigh : Nat
  writeTime : Nat
  writeDate : Nat
  firstClusterLow : Nat
  fileSize : Nat
deriving DecidableEq

namespace FatDirEntry

def attrDirectory : UInt8 := 0x10
def attrVolumeId : UInt8 := 0x08
def attrLongName : UInt8 := 0x0F

/-- The entry at an offset of a sector. -/
def ofBytes (buf : Sector) (offset : Nat) : FatDirEntry where
  name := buf.slice offset 11
  attributes := buf (offset + 11)
  reserved := buf (offset + 12)
  creationTimeTenths := buf (offset + 13)
  creationTime := le16 buf (offset + 14)
  creationDate := le16 buf (offset + 16)
  lastAccessDate := le16 buf (offset + 18)
  firstClusterHigh := le16 buf (offset + 20)
  writeTime := le16 buf (offset + 22)
  writeDate := le16 buf (offset + 24)
  firstClusterLow := le16 buf (offset + 26)
  fileSize := le32 buf (offset + 28)

/-- `entry_bytes`. -/
def bytes (entry : FatDirEntry) : List UInt8 :=
  entry.name ++ [entry.attributes, entry.reserved, entry.creationTimeTenths] ++
    toLe16 entry.creationTime ++ toLe16 entry.creationDate ++ toLe16 entry.lastAccessDate ++
    toLe16 entry.firstClusterHigh ++ toLe16 entry.writeTime ++ toLe16 entry.writeDate ++
    toLe16 entry.firstClusterLow ++ toLe32 entry.fileSize

def firstByte (entry : FatDirEntry) : UInt8 := entry.name.headD 0

def isDirectory (entry : FatDirEntry) : Bool := entry.attributes &&& attrDirectory ≠ 0
def isFile (entry : FatDirEntry) : Bool :=
  !entry.isDirectory && entry.attributes &&& attrVolumeId = 0
def isLongName (entry : FatDirEntry) : Bool := entry.attributes &&& attrLongName = attrLongName
def isFree (entry : FatDirEntry) : Bool := entry.firstByte = 0x00 || entry.firstByte = 0xE5
def isEnd (entry : FatDirEntry) : Bool := entry.firstByte = 0x00

def cluster (entry : FatDirEntry) : Nat := entry.firstClusterHigh * 65536 + entry.firstClusterLow

def setCluster (entry : FatDirEntry) (cluster : Nat) : FatDirEntry :=
  { entry with
    firstClusterHigh := cluster / 65536
    firstClusterLow := cluster % 65536 }

def charOfByte (b : UInt8) : Char := Char.ofNat b.toNat

/-- `get_name`: the 8.3 name without padding, with a dot before an extension. -/
def getName (entry : FatDirEntry) : Name :=
  let base := (entry.name.take 8).filter (· ≠ 0x20)
  let ext := ((entry.name.drop 8).take 3).filter (· ≠ 0x20)
  base.map charOfByte ++ if ext = [] then [] else '.' :: ext.map charOfByte

end FatDirEntry

structure DirSlot where
  entry : FatDirEntry
  sector : Nat
  offset : Nat
deriving DecidableEq

def lfnOffsets : List Nat := [1, 3, 5, 7, 9, 14, 16, 18, 20, 22, 24, 28, 30]

def lfnPart (buf : Sector) (offset : Nat) : List Nat :=
  lfnOffsets.map fun position => le16 buf (offset + position)

/-- `char::from_u32(c).unwrap_or('?')`. -/
def charOfUnit (c : Nat) : Char := if c.isValidChar then Char.ofNat c else '?'

/-- The text of collected long-name parts, last one first; 0 and 0xFFFF are padding. -/
def lfnText (lfn : List (List Nat)) : Name :=
  (lfn.reverse.flatten.filter fun c => c ≠ 0 ∧ c ≠ 0xFFFF).map charOfUnit

def entryName (lfn : List (List Nat)) (entry : FatDirEntry) : Name :=
  if lfnText lfn = [] then entry.getName else lfnText lfn

structure ScanState where
  lfn : List (List Nat)
  result : List (DirSlot × Name)
  done : Bool

/-- One slot of the scan of `read_dir`. -/
def scanSlot (st : ScanState) (sector : Nat) (buf : Sector) (offset : Nat) : ScanState :=
  let entry := FatDirEntry.ofBytes buf offset
  if st.done then st
  else if entry.isEnd then { st with done := true }
  else if entry.isFree then { st with lfn := [] }
  else if entry.isLongName then { st with lfn := st.lfn ++ [lfnPart buf offset] }
  else
    { st with
      lfn := []
      result :=
        if entry.attributes &&& FatDirEntry.attrVolumeId = 0 then
          st.result ++ [(⟨entry, sector, offset⟩, entryName st.lfn entry)]
        else st.result }

def slotOffsets : List Nat := (List.range 16).map (32 * ·)

def scanSector (st : ScanState) (sector : Nat) (buf : Sector) : ScanState :=
  slotOffsets.foldl (fun st offset => scanSlot st sector buf offset) st

def scanSectors (sector : Nat) : Nat → ScanState → Io ScanState
  | 0, st => pure st
  | count + 1, st => do
    let buf ← readSector sector
    let st := scanSector st sector buf
    if st.done then pure st else scanSectors (sector + 1) count st

def scanClusters (geo : Fat32Geo) : List Nat → ScanState → Io ScanState
  | [], st => pure st
  | cluster :: rest, st =>
    match geo.clusterToSector cluster with
    | none => .fail .invalidPath
    | some base => do
      let st ← scanSectors base geo.sectorsPerCluster st
      if st.done then pure st else scanClusters geo rest st

def readDir (geo : Fat32Geo) (dirCluster : Nat) : Io (List (DirSlot × Name)) := do
  let clusters ← chain geo dirCluster
  let st ← scanClusters geo clusters ⟨[], [], false⟩
  pure st.result

def asciiLower (c : Char) : Char := if 'A' ≤ c ∧ c ≤ 'Z' then Char.ofNat (c.toNat + 32) else c
def asciiUpper (c : Char) : Char := if 'a' ≤ c ∧ c ≤ 'z' then Char.ofNat (c.toNat - 32) else c

def eqIgnoreAsciiCase (a b : Name) : Bool := a.map asciiLower == b.map asciiLower

def foldName (name : Name) : Name := name.map asciiLower

theorem eqIgnoreAsciiCase_iff {a b : Name} :
    eqIgnoreAsciiCase a b = true ↔ foldName a = foldName b := beq_iff_eq

theorem asciiLower_eq_slash {c : Char} : asciiLower c = '/' ↔ c = '/' := by
  have hletter : ∀ n < 91, 65 ≤ n → Char.ofNat (n + 32) ≠ '/' := by decide
  unfold asciiLower
  split
  · next h =>
      have hlo : 65 ≤ c.toNat := h.1
      have hhi : c.toNat ≤ 90 := h.2
      refine ⟨fun he => absurd he (hletter c.toNat (by omega) hlo), ?_⟩
      rintro rfl
      revert hlo
      decide
  · rfl

theorem slash_mem_foldName {name : Name} : '/' ∈ foldName name ↔ '/' ∈ name := by
  simp [foldName, asciiLower_eq_slash]

theorem foldName_eq_nil {name : Name} : foldName name = [] ↔ name = [] := List.map_eq_nil_iff

def findInDir (geo : Fat32Geo) (dirCluster : Nat) (name : Name) : Io (Option DirSlot) := do
  let entries ← readDir geo dirCluster
  pure ((entries.find? fun e => eqIgnoreAsciiCase e.2 name).map Prod.fst)

/-- `path.split('/')` without empty parts. -/
def pathParts (path : Name) : List Name := (path.splitOn '/').filter (· ≠ [])

/-- The entry that stands for the root directory. -/
def rootSlot (geo : Fat32Geo) : DirSlot where
  entry :=
    { name := 0x20 :: List.replicate 10 0
      attributes := FatDirEntry.attrDirectory
      reserved := 0
      creationTimeTenths := 0
      creationTime := 0
      creationDate := 0
      lastAccessDate := 0
      firstClusterHigh := geo.rootCluster / 65536
      writeTime := 0
      writeDate := 0
      firstClusterLow := geo.rootCluster % 65536
      fileSize := 0 }
  sector := 0
  offset := 0

def findParts (geo : Fat32Geo) : Nat → List Name → Io (Option DirSlot)
  | _, [] => pure none
  | current, part :: rest => do
    match ← findInDir geo current part with
    | none => pure none
    | some slot =>
      if rest = [] then pure (some slot)
      else if !slot.entry.isDirectory then .fail .notADirectory
      else findParts geo slot.entry.cluster rest

def findPath (geo : Fat32Geo) (path : Name) : Io (Option DirSlot) :=
  if pathParts path = [] then pure (some (rootSlot geo))
  else findParts geo geo.rootCluster (pathParts path)

/-- Enter the directories of a list one after the other. -/
def enterDirs (geo : Fat32Geo) : Nat → List Name → Io Nat
  | current, [] => pure current
  | current, part :: rest => do
    match ← findInDir geo current part with
    | none => .fail .notFound
    | some slot =>
      if !slot.entry.isDirectory then .fail .notADirectory
      else enterDirs geo slot.entry.cluster rest

def parentCluster (geo : Fat32Geo) (path : Name) : Io (Nat × Name) :=
  match (pathParts path).getLast? with
  | none => .fail .invalidPath
  | some name => do
    let current ← enterDirs geo geo.rootCluster (pathParts path).dropLast
    pure (current, name)

def isAsciiAlphanumeric (byte : UInt8) : Bool :=
  (0x30 ≤ byte && byte ≤ 0x39) || (0x41 ≤ byte && byte ≤ 0x5A) || (0x61 ≤ byte && byte ≤ 0x7A)

def isValid83 (byte : UInt8) : Bool :=
  isAsciiAlphanumeric byte || "!#$%&'()-@^_\x60\x7b\x7d~".toList.any fun c => c.toNat == byte.toNat

/-- The part before the last dot and the part after it; no dot, no extension. -/
def splitExt (name : Name) : Name × Name :=
  match name.reverse.idxOf? '.' with
  | some i => (name.take (name.length - 1 - i), name.drop (name.length - i))
  | none => (name, [])

def utf8 (name : Name) : List UInt8 := name.flatMap String.utf8EncodeChar

/-- The name in 8.3 form, upper case and padded with blanks. -/
def to83 (name : Name) : Option (List UInt8) :=
  let parts := splitExt (name.map asciiUpper)
  let base := utf8 parts.1
  let ext := utf8 parts.2
  if base = [] ∨ 8 < base.length ∨ 3 < ext.length then none
  else if !base.all isValid83 ∨ !ext.all isValid83 then none
  else
    some (base ++ List.replicate (8 - base.length) 0x20 ++ ext ++
      List.replicate (3 - ext.length) 0x20)

/-- Date and time in DOS format; both 0 without a clock. -/
structure DosTime where
  date : Nat
  time : Nat

def putEntry (sector offset : Nat) (entry : FatDirEntry) : Io Unit := do
  let buf ← readSector sector
  writeSector .entry sector (buf.put offset entry.bytes)

/-- New first cluster and size in the entry of a slot. -/
def setEntry (now : DosTime) (slot : DirSlot) (cluster size : Nat) : Io Unit := do
  let buf ← readSector slot.sector
  let entry := FatDirEntry.ofBytes buf slot.offset
  let entry :=
    { entry.setCluster cluster with
      fileSize := size
      writeDate := now.date
      writeTime := now.time }
  writeSector .entry slot.sector (buf.put slot.offset entry.bytes)

def deleteEntry (slot : DirSlot) : Io Unit := do
  let buf ← readSector slot.sector
  writeSector .entry slot.sector (buf.put slot.offset [0xE5])

def freeSlotInSectors (sector : Nat) : Nat → Io (Option (Nat × Nat))
  | 0 => pure none
  | count + 1 => do
    let buf ← readSector sector
    match slotOffsets.find? fun offset => buf offset == 0x00 || buf offset == 0xE5 with
    | some offset => pure (some (sector, offset))
    | none => freeSlotInSectors (sector + 1) count

def freeSlotInClusters (geo : Fat32Geo) : List Nat → Io (Option (Nat × Nat))
  | [] => pure none
  | cluster :: rest =>
    match geo.clusterToSector cluster with
    | none => .fail .invalidPath
    | some base => do
      match ← freeSlotInSectors base geo.sectorsPerCluster with
      | some slot => pure (some slot)
      | none => freeSlotInClusters geo rest

def zeroCluster (geo : Fat32Geo) (base : Nat) : Io Unit :=
  Prog.writeAll .ioError ((List.range geo.sectorsPerCluster).map fun index =>
    ⟨base + index, fun _ => 0, .data⟩)

/-- The first free slot; a full directory gets a new cluster. -/
def findFreeSlot (geo : Fat32Geo) (dirCluster : Nat) : Io (Nat × Nat) := do
  let clusters ← chain geo dirCluster
  match ← freeSlotInClusters geo clusters with
  | some slot => pure slot
  | none => do
    let new ← allocCluster geo (some (clusters.getLastD dirCluster))
    match geo.clusterToSector new with
    | none => .fail .invalidPath
    | some base => do
      zeroCluster geo base
      pure (base, 0)

end Vibra.Fat32
