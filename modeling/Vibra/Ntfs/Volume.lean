import Vibra.Lib.Checked
import Vibra.Lib.RawDisk
import Vibra.Fat32.Volume

/-! # NTFS volumes

`fs/ntfs.rs` up to the records of the MFT. Every operation that can overflow, shift too far
or leave a buffer is checked, as in a build with overflow checks.
-/

namespace Vibra.Ntfs

open Lib (Outcome Bytes RawDisk u16At u32At u64At)
open Lib.Outcome
open Fat32 (FsError)

abbrev Res := Outcome FsError

def attrData : Nat := 0x80
def attrIndexRoot : Nat := 0x90
def attrIndexAllocation : Nat := 0xA0
def maxIndexBytes : Nat := 64 * 1024 * 1024

/-- `rd_u16` at an offset that was computed. -/
def rdU16 (b : Bytes) (o : Nat) : Res Nat := do
  let _ ← add 64 o 2
  return u16At b o

/-- `rd_u32` at an offset that was computed. -/
def rdU32 (b : Bytes) (o : Nat) : Res Nat := do
  let _ ← add 64 o 4
  return u32At b o

/-- `rd_u64` at an offset that was computed. -/
def rdU64 (b : Bytes) (o : Nat) : Res Nat := do
  let _ ← add 64 o 8
  return u64At b o

structure NtfsBoot where
  bytesPerSector : Nat
  sectorsPerCluster : Nat
  totalSectors : Nat
  /-- The cluster the MFT starts at. -/
  mftLcn : Nat
  recordSize : Nat

def isPowerOfTwo (n : Nat) : Bool := n ≠ 0 && n &&& (n - 1) = 0

/-- The size of a record: so many clusters, or 2 to the power of the negated number. -/
def recordSizeOf (cpr bytesPerSector sectorsPerCluster : Nat) : Res Nat := do
  if cpr = 0 then .err .invalidPath
  else if cpr < 128 then mul 32 (← mul 32 cpr bytesPerSector) sectorsPerCluster
  else shl 32 1 (256 - cpr)

def NtfsBoot.parse (s : Bytes) : Res NtfsBoot := do
  if s.length < 512 then .err .invalidPath
  else if (← slice s 3 11) ≠ [0x4E, 0x54, 0x46, 0x53, 0x20, 0x20, 0x20, 0x20] then
    .err .invalidPath
  else
    let bytesPerSector := u16At s 11
    let sectorsPerCluster := (← get s 13).toNat
    if bytesPerSector < 256 ∨ ¬ isPowerOfTwo bytesPerSector then .err .invalidPath
    else if sectorsPerCluster = 0 ∨ ¬ isPowerOfTwo sectorsPerCluster then .err .invalidPath
    else
      let totalSectors := u64At s 40
      let mftLcn := u64At s 48
      if totalSectors = 0 ∨ mftLcn = 0 then .err .invalidPath
      else
        let cpr := (← get s 64).toNat
        let recordSize ← recordSizeOf cpr bytesPerSector sectorsPerCluster
        if recordSize < 512 ∨ recordSize > 65536 then .err .invalidPath
        else .ok ⟨bytesPerSector, sectorsPerCluster, totalSectors, mftLcn, recordSize⟩

def NtfsBoot.clusterSize (boot : NtfsBoot) : Res Nat :=
  mul 32 boot.bytesPerSector boot.sectorsPerCluster

/-- A fragment: `count` clusters of the content from `vcn` on lie at `lcn` on the disk. -/
structure Run where
  vcn : Nat
  lcn : Nat
  count : Nat
deriving DecidableEq

def leNat : Bytes → Nat
  | [] => 0
  | b :: rest => b.toNat + 256 * leNat rest

def leInt (bs : Bytes) : Int :=
  if 2 * leNat bs < 256 ^ bs.length then leNat bs else leNat bs - 256 ^ bs.length

/-- The loop of `parse_runs`, with fuel. -/
def runLoop (b : Bytes) : Nat → Nat → Nat → Int → Res (List Run)
  | 0, _, _, _ => .diverge
  | fuel + 1, i, vcn, lcn =>
    if i < b.length then do
      let header ← get b i
      if header = 0 then .ok []
      else
        let i ← add 64 i 1
        let lenSize := header.toNat % 16
        let offSize := header.toNat / 16
        if lenSize = 0 ∨ lenSize > 8 ∨ offSize > 8 then .ok []
        else
          let mid ← add 64 i lenSize
          let stop ← add 64 mid offSize
          if stop > b.length then .ok []
          else
            let count := leNat (← slice b i mid)
            let delta := leInt (← slice b mid stop)
            let lcn ← addInt 64 lcn delta
            if count = 0 then runLoop b fuel stop vcn lcn
            else
              let next ← add 64 vcn count
              let rest ← runLoop b fuel stop next lcn
              return ⟨vcn, (lcn % 2 ^ 64).toNat, count⟩ :: rest
    else .ok []

def parseRuns (b : Bytes) : Res (List Run) := runLoop b (b.length + 1) 0 0 0

/-- The run that holds a cluster. -/
def runFor : List Run → Nat → Res (Option Run)
  | [], _ => .ok none
  | r :: rest, vcn =>
    if r.vcn ≤ vcn then do
      let stop ← add 64 r.vcn r.count
      if vcn < stop then .ok (some r) else runFor rest vcn
    else runFor rest vcn

/-- The loop of `attr_offsets`, with fuel. -/
def attrLoop (record : Bytes) (limit : Nat) : Nat → Nat → Res (List (Nat × Nat))
  | 0, _ => .diverge
  | fuel + 1, off => do
      let head ← add 64 off 8
      if head ≤ limit then
        let atype ← rdU32 record off
        let alen ← rdU32 record (← add 64 off 4)
        if atype = 0xFFFFFFFF ∨ alen < 24 then .ok []
        else
          let next ← add 64 off alen
          if next > limit then .ok []
          else
            let rest ← attrLoop record limit fuel next
            return (off, atype) :: rest
      else .ok []

/-- The offset and the type of each attribute of a record. -/
def attrOffsets (record : Bytes) : Res (List (Nat × Nat)) :=
  let first := u16At record 20
  let used := u32At record 24
  attrLoop record (min used record.length) (record.length + 1) first

/-- The value of a resident attribute. -/
def attrResidentValue (record : Bytes) (off : Nat) : Res (Option Bytes) :=
  if off + 24 ≥ 2 ^ 64 ∨ off + 24 > record.length then .ok none
  else do
    let form ← get record (← add 64 off 8)
    if form ≠ 0 then return none
    else
      let vlen ← rdU32 record (← add 64 off 16)
      let voff ← rdU16 record (← add 64 off 20)
      let start ← add 64 off voff
      let stop ← add 64 start vlen
      if stop > record.length then return none
      else return some (← slice record start stop)

/-- The list of runs of an attribute that is not resident. -/
def attrRuns (record : Bytes) (off : Nat) : Res (List Run) := do
  let alen ← rdU32 record (← add 64 off 4)
  let runOff ← rdU16 record (← add 64 off 32)
  parseRuns (← slice record (← add 64 off runOff) (← add 64 off alen))

/-- The loop of `apply_fixup`: the last two bytes of each sector come from the array. -/
def fixupLoop (bps usaOff : Nat) : List Nat → Bytes → Res Bytes
  | [], record => .ok record
  | i :: rest, record => do
      let sectorEnd ← mul 64 i bps
      if sectorEnd > record.length then .ok record
      else
        let src ← add 64 usaOff (← mul 64 i 2)
        let record ← put record (← sub sectorEnd 2) (← get record src)
        let record ← put record (← sub sectorEnd 1) (← get record (← add 64 src 1))
        fixupLoop bps usaOff rest record

def applyFixup (record : Bytes) (bps : Nat) : Res Bytes := do
  let usaOff := u16At record 4
  let usaCount := u16At record 6
  if usaOff = 0 ∨ usaCount = 0 ∨ bps = 0 then .ok record
  else
    let stop ← add 64 usaOff (← mul 64 usaCount 2)
    if stop > record.length then .ok record
    else fixupLoop bps usaOff (List.range' 1 (usaCount - 1)) record

/-- The loop of `read_runs_into`, with fuel: `out` is what has been read of `total` bytes. -/
def readRunsLoop (disk : RawDisk) (cs perCluster : Nat) (runs : List Run) (offset total : Nat) :
    Nat → Bytes → Res Bytes
  | 0, _ => .diverge
  | fuel + 1, out =>
    if out.length < total then do
      let abs ← add 64 offset out.length
      let vcn ← div abs cs
      let inCluster ← rem abs cs
      match ← runFor runs vcn with
      | none => .err .ioError
      | some run =>
        let lcn ← add 64 run.lcn (← sub vcn run.vcn)
        let take := min (total - out.length) (← sub cs inCluster)
        let sector ← add 64 (← mul 64 lcn perCluster) (inCluster / 512)
        let start := inCluster % 512
        let need ← add 64 start take
        let nsectors := (← add 64 need 511) / 512
        let tmp ← ofOption .ioError (disk.read sector (← mul 64 nsectors 512))
        let part ← slice tmp start need
        readRunsLoop disk cs perCluster runs offset total fuel (out ++ part)
    else .ok out

/-- `read_runs_into`: `total` bytes of a chain of runs from `offset` on. -/
def readRunsInto (disk : RawDisk) (cs : Nat) (runs : List Run) (offset total : Nat) : Res Bytes :=
  if cs = 0 ∨ runs = [] then .err .ioError
  else readRunsLoop disk cs (max (cs / 512) 1) runs offset total (total + 1) []

/-- `read_abs`: `len` bytes of the disk. -/
def readAbs (disk : RawDisk) (byteOffset len : Nat) : Res Bytes :=
  let sector := byteOffset / 512
  let inSector := byteOffset % 512
  if inSector = 0 ∧ len % 512 = 0 then ofOption .ioError (disk.read sector len)
  else do
    let sectors := (← add 64 (← add 64 inSector len) 511) / 512
    let tmp ← ofOption .ioError (disk.read sector (← mul 64 sectors 512))
    slice tmp inSector (← add 64 inSector len)

structure NtfsFs where
  disk : RawDisk
  boot : NtfsBoot
  mftRuns : List Run
  mftSize : Nat

def fileMagic : Bytes := [0x46, 0x49, 0x4C, 0x45]

/-- What `new` finds in an attribute of record 0: the runs of the MFT and its size. -/
def mftAttr (rec0 : Bytes) (attr : Nat × Nat) : Res (Option (List Run × Nat)) := do
  let (off, atype) := attr
  if atype ≠ attrData then return none
  else if (← get rec0 (← add 64 off 9)) ≠ 0 then return none
  else if (← get rec0 (← add 64 off 8)) = 0 then return none
  else
    let alen ← rdU32 rec0 (← add 64 off 4)
    let runOff ← rdU16 rec0 (← add 64 off 32)
    let mftSize ← rdU64 rec0 (← add 64 off 48)
    let start ← add 64 off runOff
    let stop ← add 64 off alen
    if start < rec0.length ∧ stop ≤ rec0.length then
      return some (← attrRuns rec0 off, mftSize)
    else return some ([], mftSize)

namespace NtfsFs

/-- Record 0 at the cluster the boot sector names, as `new` reads it. -/
def firstRecord (disk : RawDisk) (boot : NtfsBoot) : Res Bytes := do
  let rec0Off ← mul 64 boot.mftLcn (← boot.clusterSize)
  let stop ← add 64 rec0Off boot.recordSize
  let total ← mul 64 boot.totalSectors 512
  if stop > total then .err .invalidPath
  else
    let raw ← readAbs disk rec0Off boot.recordSize
    let rec0 ← applyFixup raw boot.bytesPerSector
    if (← slice rec0 0 4) ≠ fileMagic then .err .invalidPath else .ok rec0

def new (disk : RawDisk) : Res NtfsFs := do
  let bs ← ofOption .ioError (disk.read 0 512)
  let boot ← NtfsBoot.parse bs
  let rec0 ← firstRecord disk boot
  let found ← first (mftAttr rec0) (← attrOffsets rec0)
  let (mftRuns, mftSize) := found.getD ([], 0)
  if mftRuns = [] then .err .invalidPath else .ok ⟨disk, boot, mftRuns, mftSize⟩

variable (fs : NtfsFs)

def readRuns (runs : List Run) (offset total : Nat) : Res Bytes := do
  readRunsInto fs.disk (← fs.boot.clusterSize) runs offset total

/-- `read_record`: a record of the MFT in use. -/
def readRecord (num : Nat) : Res Bytes := do
  let offset ← mul 64 num fs.boot.recordSize
  if fs.mftSize > 0 ∧ offset ≥ fs.mftSize then .err .notFound
  else
    let raw ← fs.readRuns fs.mftRuns offset fs.boot.recordSize
    if (← slice raw 0 4) ≠ fileMagic then .err .ioError
    else
      let record ← applyFixup raw fs.boot.bytesPerSector
      if u16At record 22 &&& 0x1 = 0 then .err .notFound else .ok record

end NtfsFs

end Vibra.Ntfs
