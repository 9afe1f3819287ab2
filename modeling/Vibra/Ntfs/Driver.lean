import Vibra.Ntfs.Volume
import Vibra.Lib.Path
import Vibra.Lib.Utf16
import Vibra.Fat32.Directory

/-! # NTFS directories, files and the driver's operations

A directory is its index: the entries in `$INDEX_ROOT` and those of every buffer of
`$INDEX_ALLOCATION`. A path is resolved from record 5.
-/

namespace Vibra.Ntfs

open Lib (Outcome Bytes RawDisk u16At u32At u64At)
open Lib.Outcome
open Fat32 (Name eqIgnoreAsciiCase)

def utf16Units : Bytes → List Nat
  | a :: b :: rest => (a.toNat + 256 * b.toNat) :: utf16Units rest
  | _ => []

/-- `utf16_to_string`: the text ends at a zero. -/
def utf16ToString (b : Bytes) (count : Nat) : Name :=
  Lib.Utf16.decode (((utf16Units b).take count).takeWhile (· ≠ 0))

structure NameInfo where
  name : Name
  isDir : Bool
  size : Nat
  /-- 0 for POSIX, 1 for Win32, 2 for DOS, 3 for both. -/
  «namespace» : Nat

/-- An entry of a directory: the name, the number of the record, and what the name says. -/
structure IndexEntry where
  name : Name
  num : Nat
  isDir : Bool
  size : Nat
deriving DecidableEq

def parseNameKey (key : Bytes) : Res (Option NameInfo) := do
  if key.length < 66 then return none
  else
    let flags := u32At key 56
    let nameLen := (← get key 64).toNat
    let ns := (← get key 65).toNat
    if nameLen = 0 ∨ 66 + nameLen * 2 > key.length then return none
    else
      let text ← slice key 66 key.length
      return some ⟨utf16ToString text nameLen, flags &&& 0x10000000 ≠ 0, u64At key 48, ns⟩

/-- What the key of an index entry adds to the listing. -/
def keyEntry (buf : Bytes) (keyStart keyLen fileRef : Nat) : Res (List IndexEntry) := do
  let keyEnd ← add 64 keyStart keyLen
  if keyLen > 0 ∧ keyEnd ≤ buf.length then
    match ← parseNameKey (← slice buf keyStart keyEnd) with
    | none => return []
    | some info =>
      let mftNum := fileRef % 2 ^ 48
      if info.name ≠ ['.'] ∧ info.name ≠ ['.', '.'] ∧ info.namespace ≠ 2 ∧ mftNum ≠ 0 then
        return [⟨info.name, mftNum, info.isDir, info.size⟩]
      else return []
  else return []

/-- The loop of `collect_entries`, with fuel. -/
def entryLoop (buf : Bytes) (stop : Nat) : Nat → Nat → Res (List IndexEntry)
  | 0, _ => .diverge
  | fuel + 1, pos => do
      let head ← add 64 pos 16
      if head ≤ stop ∧ head ≤ buf.length then
        let fileRef ← rdU64 buf pos
        let entryLen ← rdU16 buf (← add 64 pos 8)
        let keyLen ← rdU16 buf (← add 64 pos 10)
        let flags ← rdU16 buf (← add 64 pos 12)
        if entryLen < 16 then .ok []
        else
          let next ← add 64 pos entryLen
          if next > buf.length then .ok []
          else if flags &&& 0x2 ≠ 0 then .ok []
          else
            let here ← keyEntry buf head keyLen fileRef
            let rest ← entryLoop buf stop fuel next
            return here ++ rest
      else .ok []

def collectEntries (buf : Bytes) (start stop : Nat) : Res (List IndexEntry) :=
  entryLoop buf stop (buf.length + 1) start

/-- What `list_dir` finds in `$INDEX_ROOT`: the size of an index buffer and entries. -/
def rootAttr (record : Bytes) (attr : Nat × Nat) : Res (Option (Nat × List IndexEntry)) := do
  let (off, atype) := attr
  if atype ≠ attrIndexRoot then return none
  else
    match ← attrResidentValue record off with
    | none => return none
    | some val =>
      if val.length < 32 then return none
      else
        let entriesOff := u32At val 16
        let total := u32At val 20
        let start ← add 64 16 entriesOff
        let stop := min (← add 64 16 total) val.length
        return some (u32At val 8, ← collectEntries val start stop)

def indxMagic : Bytes := [0x49, 0x4E, 0x44, 0x58]

/-- The entries of an index buffer. -/
def chunkEntries (bps : Nat) (chunk : Bytes) : Res (List IndexEntry) := do
  if chunk.length < 24 then .ok []
  else if (← slice chunk 0 4) ≠ indxMagic then .ok []
  else
    let chunk ← applyFixup chunk bps
    let entriesOff := u32At chunk 24
    let total := u32At chunk 28
    let start ← add 64 24 entriesOff
    let stop := min (← add 64 24 total) chunk.length
    collectEntries chunk start stop

/-- `chunks_mut`. -/
def chunks (size : Nat) (buf : Bytes) : List Bytes :=
  (List.range ((buf.length + size - 1) / size)).map fun i => (buf.drop (i * size)).take size

def indexBlockSize (raw : Nat) : Nat := if raw < 512 ∨ raw > 65536 then 4096 else raw

inductive FileStorage where
  | resident (data : Bytes)
  | runs (runs : List Run) (size : Nat)

def FileStorage.len : FileStorage → Nat
  | .resident data => data.length
  | .runs _ size => size

/-- What `file_storage` finds in an attribute. -/
def storageAttr (record : Bytes) (attr : Nat × Nat) : Res (Option FileStorage) := do
  let (off, atype) := attr
  if atype ≠ attrData then return none
  else if (← get record (← add 64 off 9)) ≠ 0 then return none
  else if (← get record (← add 64 off 8)) = 0 then
    match ← attrResidentValue record off with
    | none => .err .ioError
    | some value => return some (.resident value)
  else
    let alen ← rdU32 record (← add 64 off 4)
    let runOff ← rdU16 record (← add 64 off 32)
    let start ← add 64 off runOff
    let stop ← add 64 off alen
    if start > record.length ∨ stop > record.length then .err .ioError
    else
      let size ← rdU64 record (← add 64 off 48)
      return some (.runs (← attrRuns record off) size)

/-- `file_storage`: the unnamed `$DATA` of a record. -/
def fileStorage (record : Bytes) : Res FileStorage := do
  match ← first (storageAttr record) (← attrOffsets record) with
  | some storage => return storage
  | none => .err .notFound

/-- What `data_size` finds in an attribute. -/
def sizeAttr (record : Bytes) (attr : Nat × Nat) : Res (Option Nat) := do
  let (off, atype) := attr
  if atype ≠ attrData then return none
  else if (← get record (← add 64 off 9)) ≠ 0 then return none
  else if (← get record (← add 64 off 8)) = 0 then
    return some (← rdU32 record (← add 64 off 16))
  else return some (← rdU64 record (← add 64 off 48))

def dataSize (record : Bytes) : Res Nat := do
  return (← first (sizeAttr record) (← attrOffsets record)).getD 0

structure NtfsFile where
  disk : RawDisk
  clusterSize : Nat
  storage : FileStorage
  position : Nat

/-- Where to seek to; the numbers have 64 bits. -/
inductive SeekFrom where
  | start (o : UInt64)
  | current (o : Int64)
  | «end» (o : Int64)

/-- A number as `i64`. -/
def toI64 (n : Nat) : Int :=
  if n % 2 ^ 64 < 2 ^ 63 then (n % 2 ^ 64 : Nat) else (n % 2 ^ 64 : Nat) - 2 ^ 64

namespace NtfsFile

variable (file : NtfsFile)

/-- The `n` bytes at the position. -/
def content (n : Nat) : Res Bytes :=
  match file.storage with
  | .resident data => do slice data file.position (← add 64 file.position n)
  | .runs runs _ => readRunsInto file.disk file.clusterSize runs file.position n

/-- `File::read` with a buffer of `len` bytes. -/
def read (len : Nat) : Res (NtfsFile × Bytes) :=
  let size := file.storage.len
  if file.position ≥ size ∨ len = 0 then .ok (file, [])
  else do
    let n := min len (size - file.position)
    let data ← file.content n
    let position ← add 64 file.position n
    return ({ file with position := position }, data)

/-- Where a seek goes to. -/
def target : SeekFrom → Res Int
  | .start o => .ok (toI64 o.toNat)
  | .current o => addInt 64 (toI64 file.position) o.toInt
  | .end o => addInt 64 (toI64 file.storage.len) o.toInt

def seek (pos : SeekFrom) : Res (NtfsFile × Nat) := do
  let new ← file.target pos
  if new < 0 then .err .invalidPath
  else return ({ file with position := new.toNat }, new.toNat)

end NtfsFile

inductive FileType where
  | file | directory

def fileTypeOf (isDir : Bool) : FileType := if isDir then .directory else .file

structure DirEntry where
  name : Name
  fileType : FileType
  size : Nat
  permissions : Nat

structure FileMetadata where
  name : Name
  fileType : FileType
  size : Nat
  permissions : Nat

def permissionsOf (isDir : Bool) : Nat := if isDir then 0o755 else 0o644

def recordIsDir (record : Bytes) : Bool := u16At record 22 &&& 0x2 ≠ 0

def pathParts (path : Name) : List Name := Lib.Path.parts '/' path

def lookup (entries : List IndexEntry) (name : Name) : Option IndexEntry :=
  entries.find? fun e => eqIgnoreAsciiCase e.name name

namespace NtfsFs

variable (fs : NtfsFs)

/-- The entries in the index buffers that lie in some runs. -/
def bufferEntries (blockSize realSize : Nat) (runs : List Run) : Res (List IndexEntry) := do
  if runs = [] then .ok []
  else if realSize = 0 ∨ realSize > maxIndexBytes then .ok []
  else
    match ← (fs.readRuns runs 0 realSize).attempt with
    | .error _ => .ok []
    | .ok buf =>
      collect (chunkEntries fs.boot.bytesPerSector) (chunks (indexBlockSize blockSize) buf)

/-- What `list_dir` finds in an `$INDEX_ALLOCATION`. -/
def allocationAttr (record : Bytes) (blockSize : Nat) (attr : Nat × Nat) :
    Res (List IndexEntry) := do
  let (off, atype) := attr
  if atype ≠ attrIndexAllocation then .ok []
  else if (← get record (← add 64 off 8)) = 0 then .ok []
  else
    let alen ← rdU32 record (← add 64 off 4)
    let runOff ← rdU16 record (← add 64 off 32)
    let start ← add 64 off runOff
    let stop ← add 64 off alen
    if start > record.length ∨ stop > record.length then .ok []
    else
      let runs ← attrRuns record off
      let realSize ← rdU64 record (← add 64 off 48)
      fs.bufferEntries blockSize realSize runs

def listDir (record : Bytes) : Res (List IndexEntry) := do
  let attrs ← attrOffsets record
  let root ← first (rootAttr record) attrs
  let (blockSize, entries) := root.getD (4096, [])
  let more ← collect (fs.allocationAttr record blockSize) attrs
  return entries ++ more

/-- The loop of `find_path`: go on to the record of the entry with a name. -/
def enter (record : Bytes) (part : Name) : Res Bytes := do
  if recordIsDir record then
    let entries ← fs.listDir record
    match lookup entries part with
    | some found => fs.readRecord found.num
    | none => .err .notFound
  else .err .notADirectory

def findPath (path : Name) : Res Bytes := do
  let root ← fs.readRecord 5
  Lib.walk fs.enter (pathParts path) root

def «open» (path : Name) : Res NtfsFile := do
  let record ← fs.findPath path
  if recordIsDir record then .err .isADirectory
  else
    let storage ← fileStorage record
    return ⟨fs.disk, ← fs.boot.clusterSize, storage, 0⟩

def readdir (path : Name) : Res (List DirEntry) := do
  let record ← fs.findPath path
  if recordIsDir record then
    let entries ← fs.listDir record
    return entries.map fun e => ⟨e.name, fileTypeOf e.isDir, e.size, permissionsOf e.isDir⟩
  else .err .notADirectory

def «exists» (path : Name) : Res Bool := do
  match ← (fs.findPath path).attempt with
  | .ok _ => return true
  | .error _ => return false

def stat (path : Name) : Res FileMetadata := do
  let record ← fs.findPath path
  let isDir := recordIsDir record
  let size ← if isDir then pure 0 else dataSize record
  return ⟨(pathParts path).getLast?.getD ['/'], fileTypeOf isDir, size, permissionsOf isDir⟩

end NtfsFs

end Vibra.Ntfs
