import Vibra.Fat32.Directory

/-! # The driver: volumes and file handles -/

namespace Vibra.Fat32

open Lib (Memory)

inductive FileType where
  | file | directory
deriving DecidableEq

/-- A line of a listing; permissions as the octal mode. -/
structure DirEntry where
  name : Name
  fileType : FileType
  size : Nat
  permissions : Nat
  uid : Nat
  gid : Nat

structure FileMetadata where
  name : Name
  fileType : FileType
  size : Nat
  permissions : Nat
  uid : Nat
  gid : Nat
  created : Nat
  modified : Nat

inductive SeekFrom where
  | start (offset : Nat)
  | current (offset : Int)
  | fromEnd (offset : Int)

structure Fat32Fs where
  geo : Fat32Geo
  mounted : Bool
  readOnly : Bool
deriving DecidableEq

structure Fat32File where
  geo : Fat32Geo
  slot : DirSlot
  startCluster : Nat
  size : Nat
  position : Nat
  data : List UInt8
  readOnly : Bool

/-- A cast to `i64`. -/
def toI64 (n : Int) : Int := (n + 2 ^ 63) % 2 ^ 64 - 2 ^ 63

namespace Fat32File

/-- The bytes that a read into a buffer of `len` bytes returns, and the handle after it. -/
def read (f : Fat32File) (len : Nat) : Fat32File × List UInt8 :=
  if f.data.length ≤ f.position then (f, [])
  else
    let toRead := min len (f.data.length - f.position)
    ({ f with position := f.position + toRead }, (f.data.drop f.position).take toRead)

/-- `data` with `buf` at `position`, grown with zeros as far as needed. -/
def overlay (data : List UInt8) (position : Nat) (buf : List UInt8) : List UInt8 :=
  let stop := position + buf.length
  let grown := data ++ List.replicate (stop - data.length) 0
  grown.take position ++ buf ++ grown.drop stop

/-- The handle after the call is returned with an error too: its data and its
start cluster may have changed. -/
def write (now : DosTime) (f : Fat32File) (buf : List UInt8) :
    Io (Fat32File × Except FsError Nat) :=
  if f.readOnly then pure (f, .error .readOnly)
  else do
    let f := { f with data := overlay f.data f.position buf }
    let (start, written) ← writeRange f.geo f.startCluster f.position buf
    let f := { f with startCluster := start }
    match written with
    | .error e => pure (f, .error e)
    | .ok newEnd =>
      let f := { f with size := max f.size newEnd }
      match ← (setEntry now f.slot f.startCluster (min f.size (2 ^ 32 - 1))).attempt with
      | .error e => pure (f, .error e)
      | .ok () => pure ({ f with position := f.position + buf.length }, .ok buf.length)

def seek (f : Fat32File) (pos : SeekFrom) : Fat32File × Except FsError Nat :=
  let new : Int :=
    match pos with
    | .start o => toI64 o
    | .current o => toI64 (toI64 f.position + o)
    | .fromEnd o => toI64 (toI64 f.data.length + o)
  if new < 0 then (f, .error .invalidPath)
  else ({ f with position := new.toNat }, .ok new.toNat)

@[simp] theorem read_geo (f : Fat32File) (len : Nat) : (f.read len).1.geo = f.geo := by
  unfold read
  split <;> rfl

theorem read_start {f : Fat32File} (h : f.position = 0) (len : Nat) :
    (f.read len).2 = f.data.take len := by
  rw [read, h]
  split
  next hnil => rw [List.length_eq_zero_iff.mp (Nat.le_zero.mp hnil), List.take_nil]
  next =>
    rw [List.drop_zero, Nat.sub_zero]
    exact List.take_eq_take_min.symm

@[simp] theorem seek_geo (f : Fat32File) (pos : SeekFrom) : (f.seek pos).1.geo = f.geo := by
  unfold seek
  extract_lets new
  by_cases h : new < 0
  · rw [if_pos h]
  · rw [if_neg h]

end Fat32File

namespace Fat32Fs

def withMode (readOnly : Bool) : Io Fat32Fs := do
  let buf ← readSector 0
  match (Fat32BootSector.ofSector buf).geo with
  | .error e => .fail e
  | .ok geo => pure ⟨geo, false, readOnly⟩

def new : Io Fat32Fs := withMode true
def newRw : Io Fat32Fs := withMode false

def mount (fs : Fat32Fs) : Fat32Fs := { fs with mounted := true }

def guardWrite {α : Type} (fs : Fat32Fs) (body : Io α) : Io α :=
  if fs.readOnly then .fail .readOnly else body

def lookup (fs : Fat32Fs) (path : Name) : Io (Option (Nat × Nat × DirSlot)) := do
  match ← findPath fs.geo path with
  | some slot =>
    if slot.entry.isFile then pure (some (slot.entry.cluster, slot.entry.fileSize, slot))
    else .fail .isADirectory
  | none => pure none

def writeAt (fs : Fat32Fs) (start offset : Nat) (data : List UInt8) :
    Io (Nat × Except FsError Nat) :=
  if fs.readOnly then pure (start, .error .readOnly)
  else writeRange fs.geo start offset data

def publishSize (fs : Fat32Fs) (now : DosTime) (slot : DirSlot) (start size : Nat) : Io Unit :=
  fs.guardWrite (setEntry now slot start size)

/-- The path's entry, or `notFound`. -/
def findSlot (fs : Fat32Fs) (path : Name) : Io DirSlot := do
  match ← findPath fs.geo path with
  | some slot => pure slot
  | none => .fail .notFound

def truncate (fs : Fat32Fs) (now : DosTime) (path : Name) : Io Unit :=
  fs.guardWrite do
    let slot ← fs.findSlot path
    if !slot.entry.isFile then .fail .isADirectory
    else do
      freeChain fs.geo slot.entry.cluster
      setEntry now slot 0 0

def openFile (fs : Fat32Fs) (path : Name) : Io Fat32File := do
  let slot ← fs.findSlot path
  if slot.entry.isDirectory then .fail .isADirectory
  else if !slot.entry.isFile then .fail .notFound
  else do
    let data ← readChain fs.geo slot.entry.cluster
    pure {
      geo := fs.geo
      slot := slot
      startCluster := slot.entry.cluster
      size := slot.entry.fileSize
      position := 0
      data := data.take slot.entry.fileSize
      readOnly := fs.readOnly }

/-- The entry of a new file. -/
def fileEntry (now : DosTime) (name83 : List UInt8) : FatDirEntry where
  name := name83
  attributes := 0x20
  reserved := 0
  creationTimeTenths := 0
  creationTime := now.time
  creationDate := now.date
  lastAccessDate := now.date
  firstClusterHigh := 0
  writeTime := now.time
  writeDate := now.date
  firstClusterLow := 0
  fileSize := 0

/-- Empty the file of an existing slot, or take a new slot. -/
def createSlot (fs : Fat32Fs) (now : DosTime) (dirCluster : Nat) (name : Name)
    (name83 : List UInt8) : Io DirSlot := do
  match ← findInDir fs.geo dirCluster name with
  | some slot =>
    if slot.entry.isDirectory then .fail .isADirectory
    else do
      freeChain fs.geo slot.entry.cluster
      setEntry now slot 0 0
      pure slot
  | none => do
    let (sector, offset) ← findFreeSlot fs.geo dirCluster
    putEntry sector offset (fileEntry now name83)
    pure ⟨fileEntry now name83, sector, offset⟩

def create (fs : Fat32Fs) (now : DosTime) (path : Name) : Io Fat32File :=
  fs.guardWrite do
    let (dirCluster, name) ← parentCluster fs.geo path
    match to83 name with
    | none => .fail .notSupported
    | some name83 => do
      let slot ← fs.createSlot now dirCluster name name83
      pure {
        geo := fs.geo
        slot := slot
        startCluster := 0
        size := 0
        position := 0
        data := []
        readOnly := false }

def remove (fs : Fat32Fs) (path : Name) : Io Unit :=
  fs.guardWrite do
    let slot ← fs.findSlot path
    if slot.entry.isDirectory then .fail .isADirectory
    else do
      freeChain fs.geo slot.entry.cluster
      deleteEntry slot

/-- The entry of a directory, under its name or as `.` or `..`. -/
def dirEntry (now : DosTime) (rawName : List UInt8) (cluster : Nat) : FatDirEntry where
  name := rawName
  attributes := FatDirEntry.attrDirectory
  reserved := 0
  creationTimeTenths := 0
  creationTime := now.time
  creationDate := now.date
  lastAccessDate := now.date
  firstClusterHigh := cluster / 65536
  writeTime := now.time
  writeDate := now.date
  firstClusterLow := cluster % 65536
  fileSize := 0

def dotName : List UInt8 := 0x2E :: List.replicate 10 0x20
def dotdotName : List UInt8 := 0x2E :: 0x2E :: List.replicate 9 0x20

/-- `.` and `..` in the first sector of a new directory. -/
def dotSector (now : DosTime) (cluster parent : Nat) : Sector :=
  Memory.put (Memory.put (fun _ => 0) 0 (dirEntry now dotName cluster).bytes) 32
    (dirEntry now dotdotName parent).bytes

def mkdir (fs : Fat32Fs) (now : DosTime) (path : Name) : Io Unit :=
  fs.guardWrite do
    let (dirCluster, name) ← parentCluster fs.geo path
    match to83 name with
    | none => .fail .notSupported
    | some name83 => do
      match ← findInDir fs.geo dirCluster name with
      | some _ => .fail .alreadyExists
      | none => do
        let newCluster ← allocCluster fs.geo none
        match fs.geo.clusterToSector newCluster with
        | none => .fail .invalidPath
        | some base => do
          zeroCluster fs.geo base
          let parent := if dirCluster = fs.geo.rootCluster then 0 else dirCluster
          writeSector .data base (dotSector now newCluster parent)
          let (sector, offset) ← findFreeSlot fs.geo dirCluster
          putEntry sector offset (dirEntry now name83 newCluster)

/-- `.`, `..` and nameless entries are skipped in listings. -/
def isHidden (name : Name) : Bool := name == ['.'] || name == ['.', '.'] || name == []

def rmdir (fs : Fat32Fs) (path : Name) : Io Unit :=
  fs.guardWrite do
    let slot ← fs.findSlot path
    if !slot.entry.isDirectory then .fail .notADirectory
    else
      let cluster := slot.entry.cluster
      if cluster = fs.geo.rootCluster ∨ cluster < 2 then .fail .permissionDenied
      else do
        let entries ← readDir fs.geo cluster
        if entries.any fun e => !isHidden e.2 then .fail .notEmpty
        else do
          freeChain fs.geo cluster
          deleteEntry slot

def listEntry (e : DirSlot × Name) : DirEntry where
  name := e.2
  fileType := if e.1.entry.isDirectory then .directory else .file
  size := e.1.entry.fileSize
  permissions := if e.1.entry.isDirectory then 0o755 else 0o644
  uid := 0
  gid := 0

def readdir (fs : Fat32Fs) (path : Name) : Io (List DirEntry) := do
  let slot ← fs.findSlot path
  if path ≠ ['/'] ∧ path ≠ [] ∧ !slot.entry.isDirectory then .fail .notADirectory
  else do
    let cluster := if path = ['/'] ∨ path = [] then fs.geo.rootCluster else slot.entry.cluster
    let entries ← readDir fs.geo cluster
    pure ((entries.filter fun e => !isHidden e.2).map listEntry)

def existsPath (fs : Fat32Fs) (path : Name) : Io Bool := do
  match ← ((findPath fs.geo path).attempt : Io (Except FsError (Option DirSlot))) with
  | .ok (some _) => pure true
  | _ => pure false

def stat (fs : Fat32Fs) (path : Name) : Io FileMetadata := do
  let slot ← fs.findSlot path
  pure {
    name := (pathParts path).getLastD ['/']
    fileType := if slot.entry.isDirectory then .directory else .file
    size := slot.entry.fileSize
    permissions := if slot.entry.isDirectory then 0o755 else 0o644
    uid := 0
    gid := 0
    created := 0
    modified := 0 }

end Fat32Fs

end Vibra.Fat32
