import Vibra.Fat32.Driver

/-! # The virtual file system

The mount table and the operations that go through it. FAT32 is the only driver with write requests;
the others are given by what they read.
-/

namespace Vibra.Vfs

open Lib (Memory ReadProg)
open Fat32 (Name Sector Io FsError DirEntry FileMetadata SeekFrom Fat32Fs Fat32File DosTime disk
  pathParts)

/-- The drivers that never issue a write. What they keep in memory and share with
their open files is the heap. -/
structure Driver where
  Heap : Type
  Fs : Type
  File : Type
  openFile : Heap → Fs → Name → ReadProg Sector (Heap × Except FsError File)
  create : Heap → Fs → Name → ReadProg Sector (Heap × Except FsError File)
  remove : Heap → Fs → Name → ReadProg Sector (Heap × Except FsError Unit)
  mkdir : Heap → Fs → Name → ReadProg Sector (Heap × Except FsError Unit)
  rmdir : Heap → Fs → Name → ReadProg Sector (Heap × Except FsError Unit)
  readdir : Heap → Fs → Name → ReadProg Sector (Heap × Except FsError (List DirEntry))
  stat : Heap → Fs → Name → ReadProg Sector (Heap × Except FsError FileMetadata)
  sync : Heap → Fs → Name → ReadProg Sector (Heap × Except FsError Unit)
  read : Heap → File → Nat → ReadProg Sector (Heap × File × Except FsError (List UInt8))
  write : Heap → File → List UInt8 → ReadProg Sector (Heap × File × Except FsError Nat)
  seek : Heap → File → SeekFrom → ReadProg Sector (Heap × File × Except FsError Nat)

variable {D : Driver}

abbrev Answer (D : Driver) (α : Type) := D.Heap × Except FsError α

def fatAnswer {α : Type} (heap : D.Heap) (p : Io α) : Io (Answer D α) := do
  let result ← (p.attempt : Io (Except FsError α))
  pure (heap, result)

inductive MountedFs (D : Driver) where
  | fat32 (fs : Fat32Fs)
  | other (fs : D.Fs)

/-- An open file; `readOnly` is the wrapper `ReadOnlyFile`. -/
inductive VfsFile (D : Driver) where
  | fat32 (f : Fat32File)
  | other (f : D.File)
  | readOnly (inner : VfsFile D)

namespace MountedFs

def openFile (heap : D.Heap) : MountedFs D → Name → Io (Answer D (VfsFile D))
  | .fat32 fs, path => fatAnswer heap do
    let f ← fs.openFile path
    pure (.fat32 f)
  | .other fs, path => do
    let (heap, result) ← (D.openFile heap fs path).lift
    pure (heap, result.map .other)

def create (heap : D.Heap) (now : DosTime) : MountedFs D → Name → Io (Answer D (VfsFile D))
  | .fat32 fs, path => fatAnswer heap do
    let f ← fs.create now path
    pure (.fat32 f)
  | .other fs, path => do
    let (heap, result) ← (D.create heap fs path).lift
    pure (heap, result.map .other)

def remove (heap : D.Heap) : MountedFs D → Name → Io (Answer D Unit)
  | .fat32 fs, path => fatAnswer heap (fs.remove path)
  | .other fs, path => (D.remove heap fs path).lift

def mkdir (heap : D.Heap) (now : DosTime) : MountedFs D → Name → Io (Answer D Unit)
  | .fat32 fs, path => fatAnswer heap (fs.mkdir now path)
  | .other fs, path => (D.mkdir heap fs path).lift

def rmdir (heap : D.Heap) : MountedFs D → Name → Io (Answer D Unit)
  | .fat32 fs, path => fatAnswer heap (fs.rmdir path)
  | .other fs, path => (D.rmdir heap fs path).lift

def readdir (heap : D.Heap) : MountedFs D → Name → Io (Answer D (List DirEntry))
  | .fat32 fs, path => fatAnswer heap (fs.readdir path)
  | .other fs, path => (D.readdir heap fs path).lift

def stat (heap : D.Heap) : MountedFs D → Name → Io (Answer D FileMetadata)
  | .fat32 fs, path => fatAnswer heap (fs.stat path)
  | .other fs, path => (D.stat heap fs path).lift

def sync (heap : D.Heap) : MountedFs D → Name → Io (Answer D Unit)
  | .fat32 _, _ => pure (heap, .ok ())
  | .other fs, path => (D.sync heap fs path).lift

end MountedFs

namespace VfsFile

def read (heap : D.Heap) (len : Nat) :
    VfsFile D → Io (D.Heap × VfsFile D × Except FsError (List UInt8))
  | .fat32 f => pure (heap, .fat32 (f.read len).1, .ok (f.read len).2)
  | .other f => do
    let (heap, f, result) ← (D.read heap f len).lift
    pure (heap, .other f, result)
  | .readOnly inner => do
    let (heap, inner, result) ← inner.read heap len
    pure (heap, .readOnly inner, result)

def write (heap : D.Heap) (now : DosTime) (data : List UInt8) :
    VfsFile D → Io (D.Heap × VfsFile D × Except FsError Nat)
  | .fat32 f => do
    let (f, result) ← f.write now data
    pure (heap, .fat32 f, result)
  | .other f => do
    let (heap, f, result) ← (D.write heap f data).lift
    pure (heap, .other f, result)
  | .readOnly inner => pure (heap, .readOnly inner, .error .readOnly)

def seek (heap : D.Heap) (pos : SeekFrom) :
    VfsFile D → Io (D.Heap × VfsFile D × Except FsError Nat)
  | .fat32 f => pure (heap, .fat32 (f.seek pos).1, (f.seek pos).2)
  | .other f => do
    let (heap, f, result) ← (D.seek heap f pos).lift
    pure (heap, .other f, result)
  | .readOnly inner => do
    let (heap, inner, result) ← inner.seek heap pos
    pure (heap, .readOnly inner, result)

end VfsFile

/-- A mount point, and the disk that its file system was built on. -/
structure MountPoint (D : Driver) where
  path : Name
  fs : MountedFs D
  readonly : Bool
  device : Nat

def dropComponent (path : Name) : Name :=
  ((path.reverse.dropWhile (· == '/')).dropWhile (· != '/')).reverse

def normalizePath (path : Name) : Name :=
  let normalized := (pathParts path).foldl (fun acc part =>
    if part = ['.'] then acc
    else if part = ['.', '.'] then dropComponent acc
    else acc ++ '/' :: part) []
  if normalized = [] then ['/'] else normalized

/-- The path is the mount point or lies below it, at the border of a component. -/
def covers (point path : Name) : Bool :=
  path == point || (point.isPrefixOf path && (path.drop point.length).head? == some '/')

/-- The index of the longest mount point that covers a normalized path, and the
path below it; the first of several wins. -/
def findFs (mounts : List (MountPoint D)) (path : Name) : Option (Nat × Name) :=
  let path := normalizePath path
  (mounts.zipIdx.foldl (fun best entry =>
    if covers entry.1.path path && decide (best.2 < entry.1.path.length) then
      (some (entry.2, path.drop entry.1.path.length), entry.1.path.length)
    else best) (none, 0)).1

/-- The mount of a path and the path inside its file system. -/
def resolveFs (mounts : List (MountPoint D)) (path : Name) :
    Except FsError (Nat × MountPoint D × Name) :=
  match findFs mounts path with
  | none => .error .notFound
  | some (idx, relative) =>
    match mounts[idx]? with
    | none => .error .notFound
    | some mount => .ok (idx, mount, if relative = [] then ['/'] else relative)

inductive Op where
  | openFile (path : Name)
  | create (path : Name)
  | readdir (path : Name)
  | mkdir (path : Name)
  | rmdir (path : Name)
  | remove (path : Name)
  | stat (path : Name)
  | existsPath (path : Name)
  | sync (path : Name)
  | read (handle len : Nat)
  | write (handle : Nat) (data : List UInt8)
  | seek (handle : Nat) (pos : SeekFrom)

inductive Reply where
  | opened
  | done
  | entries (entries : List DirEntry)
  | metadata (metadata : FileMetadata)
  | found (found : Bool)
  | bytes (bytes : List UInt8)
  | number (n : Nat)

/-- The mounts, the handles with the index of their mount, what the other drivers
hold in memory, and the disks. -/
structure World (D : Driver) where
  mounts : List (MountPoint D)
  handles : List (Nat × VfsFile D)
  heap : D.Heap
  disks : Nat → Memory

def guardMount {α : Type} (heap : D.Heap) (mount : MountPoint D) (body : Io (Answer D α)) :
    Io (Answer D α) :=
  if mount.readonly then pure (heap, .error .readOnly) else body

def wrapFile (mount : MountPoint D) (file : VfsFile D) : VfsFile D :=
  if mount.readonly then .readOnly file else file

namespace World

variable (w : World D)

abbrev After (D : Driver) := D.Heap × List (Nat × VfsFile D) × Except FsError Reply

def finish {α : Type} (p : Io (Answer D α)) (reply : α → Reply) : Io (After D) := do
  let (heap, result) ← p
  pure (heap, w.handles, result.map reply)

/-- An answer with a new handle. -/
def finishOpen (idx : Nat) (p : Io (Answer D (VfsFile D))) : Io (After D) := do
  let (heap, result) ← p
  match result with
  | .error e => pure (heap, w.handles, .error e)
  | .ok file => pure (heap, w.handles ++ [(idx, file)], .ok .opened)

/-- An answer with a changed handle. -/
def finishFile {α : Type} (handle idx : Nat) (p : Io (D.Heap × VfsFile D × Except FsError α))
    (reply : α → Reply) : Io (After D) := do
  let (heap, file, result) ← p
  pure (heap, w.handles.set handle (idx, file), result.map reply)

/-- An operation on a resolved path. -/
def onPath (path : Name) (body : Nat → MountPoint D → Name → Io (After D)) : Io (After D) :=
  match resolveFs w.mounts path with
  | .error e => pure (w.heap, w.handles, .error e)
  | .ok (idx, mount, target) => body idx mount target

/-- An operation on a handle. -/
def onHandle (handle : Nat) (body : Nat → VfsFile D → Io (After D)) : Io (After D) :=
  match w.handles[handle]? with
  | none => pure (w.heap, w.handles, .error .notFound)
  | some (idx, file) => body idx file

def prog (now : DosTime) : Op → Io (After D)
  | .openFile path => w.onPath path fun idx mount target =>
    w.finishOpen idx do
      let (heap, result) ← mount.fs.openFile w.heap target
      pure (heap, result.map (wrapFile mount))
  | .create path => w.onPath path fun idx mount target =>
    w.finishOpen idx (guardMount w.heap mount (mount.fs.create w.heap now target))
  | .readdir path => w.onPath path fun _ mount target =>
    w.finish (mount.fs.readdir w.heap target) .entries
  | .mkdir path => w.onPath path fun _ mount target =>
    w.finish (guardMount w.heap mount (mount.fs.mkdir w.heap now target)) fun _ => .done
  | .rmdir path => w.onPath path fun _ mount target =>
    w.finish (guardMount w.heap mount (mount.fs.rmdir w.heap target)) fun _ => .done
  | .remove path => w.onPath path fun _ mount target =>
    w.finish (guardMount w.heap mount (mount.fs.remove w.heap target)) fun _ => .done
  | .stat path => w.onPath path fun _ mount target =>
    w.finish (mount.fs.stat w.heap target) .metadata
  | .existsPath path => w.onPath path fun _ mount target => do
    let (heap, result) ← mount.fs.stat w.heap target
    match result with
    | .error _ => pure (heap, w.handles, .ok (.found false))
    | .ok metadata => pure (heap, w.handles, .ok (.found (metadata.name ≠ [])))
  | .sync path => w.onPath path fun _ mount target =>
    w.finish (mount.fs.sync w.heap target) fun _ => .done
  | .read handle len => w.onHandle handle fun idx file =>
    w.finishFile handle idx (file.read w.heap len) .bytes
  | .write handle data => w.onHandle handle fun idx file =>
    w.finishFile handle idx (file.write w.heap now data) .number
  | .seek handle pos => w.onHandle handle fun idx file =>
    w.finishFile handle idx (file.seek w.heap pos) .number

/-- The index of the mount that the operation reaches. -/
def target : Op → Option Nat
  | .openFile path | .create path | .readdir path | .mkdir path | .rmdir path | .remove path
  | .stat path | .existsPath path | .sync path =>
    match resolveFs w.mounts path with
    | .error _ => none
    | .ok (idx, _, _) => some idx
  | .read handle _ | .write handle _ | .seek handle _ =>
    w.handles[handle]?.map Prod.fst

def device (op : Op) : Nat :=
  (((w.target op).bind fun idx => w.mounts[idx]?).map MountPoint.device).getD 0

/-- One operation, on the disk of its mount. -/
def exec (now : DosTime) (op : Op) : World D :=
  match (w.prog now op).run disk (w.disks (w.device op)) with
  | (.ok (heap, handles, _), m) =>
    { w with
      handles := handles
      heap := heap
      disks := Function.update w.disks (w.device op) m }
  | (.error _, m) => { w with disks := Function.update w.disks (w.device op) m }

/-- `mount_fs`. A mount point is used once. -/
def mountFs (path : Name) (fs : MountedFs D) (readonly : Bool) (device : Nat) : World D :=
  if w.mounts.any fun mount => mount.path == normalizePath path then w
  else { w with mounts := w.mounts ++ [⟨normalizePath path, fs, readonly, device⟩] }

end World

/-- The states of the system: file systems are mounted and used in any order. -/
inductive Run : World D → Prop
  | boot (heap : D.Heap) (disks : Nat → Memory) : Run ⟨[], [], heap, disks⟩
  | mount {w : World D} (h : Run w) (path : Name) (fs : MountedFs D) (readonly : Bool)
      (device : Nat) : Run (w.mountFs path fs readonly device)
  | op {w : World D} (h : Run w) (now : DosTime) (op : Op) : Run (w.exec now op)

end Vibra.Vfs
