import Vibra.Vfs.RamFs

/-! # The path functions of the kernel

Commands name files by paths relative to the current directory.
-/

namespace Vibra.Vfs

open Lib (Prog)
open Lib.Prog (Responder)
open Fat32 (Name Sector FsError DosTime)

/-- Two families of drivers side by side. -/
def Driver.sum (D E : Driver) : Driver where
  Heap := D.Heap × E.Heap
  Fs := D.Fs ⊕ E.Fs
  File := D.File ⊕ E.File
  openFile heap fs path :=
    match fs with
    | .inl fs => (D.openFile heap.1 fs path).map fun r => ((r.1, heap.2), r.2.map .inl)
    | .inr fs => (E.openFile heap.2 fs path).map fun r => ((heap.1, r.1), r.2.map .inr)
  create heap fs path :=
    match fs with
    | .inl fs => (D.create heap.1 fs path).map fun r => ((r.1, heap.2), r.2.map .inl)
    | .inr fs => (E.create heap.2 fs path).map fun r => ((heap.1, r.1), r.2.map .inr)
  remove heap fs path :=
    match fs with
    | .inl fs => (D.remove heap.1 fs path).map fun r => ((r.1, heap.2), r.2)
    | .inr fs => (E.remove heap.2 fs path).map fun r => ((heap.1, r.1), r.2)
  mkdir heap fs path :=
    match fs with
    | .inl fs => (D.mkdir heap.1 fs path).map fun r => ((r.1, heap.2), r.2)
    | .inr fs => (E.mkdir heap.2 fs path).map fun r => ((heap.1, r.1), r.2)
  rmdir heap fs path :=
    match fs with
    | .inl fs => (D.rmdir heap.1 fs path).map fun r => ((r.1, heap.2), r.2)
    | .inr fs => (E.rmdir heap.2 fs path).map fun r => ((heap.1, r.1), r.2)
  readdir heap fs path :=
    match fs with
    | .inl fs => (D.readdir heap.1 fs path).map fun r => ((r.1, heap.2), r.2)
    | .inr fs => (E.readdir heap.2 fs path).map fun r => ((heap.1, r.1), r.2)
  stat heap fs path :=
    match fs with
    | .inl fs => (D.stat heap.1 fs path).map fun r => ((r.1, heap.2), r.2)
    | .inr fs => (E.stat heap.2 fs path).map fun r => ((heap.1, r.1), r.2)
  sync heap fs path :=
    match fs with
    | .inl fs => (D.sync heap.1 fs path).map fun r => ((r.1, heap.2), r.2)
    | .inr fs => (E.sync heap.2 fs path).map fun r => ((heap.1, r.1), r.2)
  read heap file len :=
    match file with
    | .inl f => (D.read heap.1 f len).map fun r => ((r.1, heap.2), .inl r.2.1, r.2.2)
    | .inr f => (E.read heap.2 f len).map fun r => ((heap.1, r.1), .inr r.2.1, r.2.2)
  write heap file buf :=
    match file with
    | .inl f => (D.write heap.1 f buf).map fun r => ((r.1, heap.2), .inl r.2.1, r.2.2)
    | .inr f => (E.write heap.2 f buf).map fun r => ((heap.1, r.1), .inr r.2.1, r.2.2)
  seek heap file pos :=
    match file with
    | .inl f => (D.seek heap.1 f pos).map fun r => ((r.1, heap.2), .inl r.2.1, r.2.2)
    | .inr f => (E.seek heap.2 f pos).map fun r => ((heap.1, r.1), .inr r.2.1, r.2.2)

/-- The root file system beside the drivers `D`. -/
abbrev withRam (D : Driver) : Driver := ramDriver.sum D

/-- What the kernel's functions take from outside: the disks' answers, the clock, and the
sizes of the files of the drivers `D`. -/
structure Env (D : Driver) (σ : Type) where
  dev : Responder σ Sector
  clock : Nat → DosTime
  sizeOf : D.Heap → D.File → Nat

/-- The mounts, the open files with the index of their mount, the root file system, what
the other drivers hold, the disks, the time and the current directory. -/
structure Kernel (D : Driver) (σ : Type) where
  mounts : List (MountPoint (withRam D))
  handles : List (Nat × VfsFile (withRam D))
  ram : RootRam
  heap : D.Heap
  disks : Nat → σ
  ticks : Nat
  cwd : Name

/-- `resolve_path`: components of the base stay as they are. -/
def resolvePath (base path : Name) : Name :=
  let start := if path.head? = some '/' then [] else Lib.Path.parts '/' base
  RamFs.pathOf ((path.splitOn '/').foldl RamFs.pushPart start)

namespace Kernel

variable {D : Driver} {σ : Type} (env : Env D σ) (k : Kernel D σ)

def world : World (withRam D) := ⟨k.mounts, k.handles, (k.ram, k.heap), fun _ _ => 0⟩

/-- One request, on the disk of its mount. -/
def call (op : Op) : Kernel D σ × Except FsError Reply :=
  let device := k.world.device op
  match (k.world.prog (env.clock k.ticks) op).answer env.dev (k.disks device) with
  | (.ok (heap, handles, result), m) =>
    ({ k with
        handles
        ram := heap.1
        heap := heap.2
        disks := Function.update k.disks device m
        ticks := k.ticks + 1 }, result)
  | (.error e, m) =>
    ({ k with disks := Function.update k.disks device m, ticks := k.ticks + 1 }, .error e)

/-- A request that opens a file; the answer is the index of the new handle. -/
def callOpen (op : Op) : Kernel D σ × Except FsError Nat :=
  ((k.call env op).1, (k.call env op).2.map fun _ => k.handles.length)

def vfsOpen (path : Name) : Kernel D σ × Except FsError Nat := k.callOpen env (.openFile path)

def vfsCreate (path : Name) : Kernel D σ × Except FsError Nat := k.callOpen env (.create path)

def vfsReaddir (path : Name) : Kernel D σ × Except FsError Reply := k.call env (.readdir path)

def vfsMkdir (path : Name) : Kernel D σ × Except FsError Reply := k.call env (.mkdir path)

def vfsRmdir (path : Name) : Kernel D σ × Except FsError Reply := k.call env (.rmdir path)

def vfsRemove (path : Name) : Kernel D σ × Except FsError Reply := k.call env (.remove path)

def ramCall {α : Type} (body : RamFs → RamFs × Except FsError α) :
    Kernel D σ × Except FsError α :=
  ({ k with ram := (k.ram.update (body k.ram.fs)).1 }, (k.ram.update (body k.ram.fs)).2)

/-- A call on the root file system that returns an open file. -/
def ramOpen (body : RamFs → RamFs × Except FsError RamFsFile) : Kernel D σ × Except FsError Nat :=
  match k.ramCall body with
  | (k, .ok file) =>
    ({ k with handles := k.handles ++ [(k.mounts.length, .other (.inl file))] },
      .ok k.handles.length)
  | (k, .error e) => (k, .error e)

/-- `size` of an open file. -/
def fileSize : VfsFile (withRam D) → Kernel D σ × Nat
  | .fat32 f => (k, f.data.length)
  | .other (.inl f) => ({ k with ram := k.ram.look }, f.size k.ram.fs)
  | .other (.inr f) => (k, env.sizeOf k.heap f)
  | .readOnly inner => fileSize inner

/-- Run the second call on what the first one returned. -/
def andThen {α β : Type} (first : Kernel D σ × Except FsError α)
    (next : Kernel D σ → α → Kernel D σ × Except FsError β) : Kernel D σ × Except FsError β :=
  match first with
  | (k, .ok a) => next k a
  | (k, .error e) => (k, .error e)

@[simp] theorem andThen_ok {α β : Type} (a : α)
    (next : Kernel D σ → α → Kernel D σ × Except FsError β) :
    andThen (k, .ok a) next = next k a := rfl

@[simp] theorem andThen_error {α β : Type} (e : FsError)
    (next : Kernel D σ → α → Kernel D σ × Except FsError β) :
    andThen (k, .error e) next = (k, .error e) := rfl

/-- `read` into a buffer of the length. -/
def readFileHandle (handle len : Nat) : Kernel D σ × Except FsError (List UInt8) :=
  andThen (k.call env (.read handle len)) fun k reply =>
    (k, .ok (match reply with | .bytes bytes => bytes | _ => []))

def writeFileHandle (handle : Nat) (data : List UInt8) : Kernel D σ × Except FsError Reply :=
  k.call env (.write handle data)

def maxReadBytes : Nat := 2 * 1024 * 1024

/-- `read_all`: one read into a zeroed buffer of the file's size. -/
def readAll (handle : Nat) : Kernel D σ × Except FsError (List UInt8) :=
  match k.handles[handle]? with
  | none => (k, .error .notFound)
  | some (_, file) =>
    let (k, size) := k.fileSize env file
    if maxReadBytes < size then (k, .error .notSupported)
    else if size = 0 then (k, .ok [])
    else
      andThen (k.readFileHandle env handle size) fun k bytes =>
        (k, .ok (bytes ++ List.replicate (size - bytes.length) 0))

def chunk : Nat := 16 * 1024

/-- The loop of `copy_file`; `polls` times the user has not cancelled when it asks. -/
def copyLoop (src dst : Nat) : Nat → Kernel D σ → Nat → Kernel D σ × Except FsError Nat
  | 0, k, _ => (k, .error .ioError)
  | polls + 1, k, total =>
    andThen (k.readFileHandle env src chunk) fun k bytes =>
      if bytes = [] then (k, .ok total)
      else
        andThen (k.writeFileHandle env dst bytes) fun k _ =>
          copyLoop src dst polls k (total + bytes.length)

/-- Where the mounts find nothing the root file system is asked. -/
def orRam {α : Type} (tried : Kernel D σ × Except FsError α)
    (fallback : Kernel D σ → Kernel D σ × Except FsError α) : Kernel D σ × Except FsError α :=
  match tried with
  | (k, .error .notFound) => fallback k
  | done => done

/-- `list_dir`; every error is an empty listing. -/
def listDir (path : Name) : Kernel D σ × Except FsError Reply :=
  let path := resolvePath k.cwd path
  let (k, result) := orRam (k.vfsReaddir env path) fun k =>
    k.ramCall fun fs => (fs, (fs.readdir path).map .entries)
  (k, .ok (result.toOption.getD (.entries [])))

def createFile (name : Name) : Kernel D σ × Except FsError Nat :=
  let path := resolvePath k.cwd name
  orRam (k.vfsCreate env path) fun k => k.ramOpen fun fs => fs.create path

def openFile (name : Name) : Kernel D σ × Except FsError Nat :=
  let path := resolvePath k.cwd name
  orRam (k.vfsOpen env path) fun k => k.ramOpen fun fs => (fs, fs.openFile path)

def readFile (name : Name) : Kernel D σ × Except FsError (List UInt8) :=
  andThen (k.openFile env name) fun k handle => k.readAll env handle

def ramRecreate (path : Name) : Kernel D σ × Except FsError Nat :=
  (k.ramCall fun fs => fs.remove path).1.ramOpen fun fs => fs.create path

def copyFile (polls : Nat) (source dest : Name) : Kernel D σ × Except FsError Nat :=
  andThen (k.openFile env source) fun k src =>
    let path := resolvePath k.cwd dest
    andThen (orRam (k.vfsCreate env path) fun k => k.ramRecreate path) fun k dst =>
      copyLoop env src dst polls k 0

def writeFile (name : Name) (data : List UInt8) : Kernel D σ × Except FsError Reply :=
  let path := resolvePath k.cwd name
  let create (k : Kernel D σ) : Kernel D σ × Except FsError Reply :=
    andThen (orRam (k.vfsCreate env path) fun k => k.ramRecreate path) fun k file =>
      k.writeFileHandle env file data
  match k.vfsRemove env path with
  | (k, .ok _) => create k
  | (k, .error .notFound) => create k
  | (k, .error e) => (k, .error e)

def createDir (name : Name) : Kernel D σ × Except FsError Reply :=
  let path := resolvePath k.cwd name
  orRam (k.vfsMkdir env path) fun k => k.ramCall fun fs =>
    ((fs.mkdir path).1, (fs.mkdir path).2.map fun _ => .done)

def removeDir (name : Name) : Kernel D σ × Except FsError Reply :=
  let path := resolvePath k.cwd name
  orRam (k.vfsRmdir env path) fun k => k.ramCall fun fs =>
    ((fs.rmdir path).1, (fs.rmdir path).2.map fun _ => .done)

/-- In the root file system a file goes, and failing that a directory. -/
def ramRemoveEntry (path : Name) : Kernel D σ × Except FsError Reply :=
  match k.ramCall fun fs => fs.remove path with
  | (k, .ok ()) => (k, .ok .done)
  | (k, .error _) => k.ramCall fun fs => ((fs.rmdir path).1, (fs.rmdir path).2.map fun _ => .done)

/-- The second try of `remove_entry`. -/
def removeAsDir (path : Name) : Kernel D σ × Except FsError Reply :=
  match k.vfsRmdir env path with
  | (k, .error .notFound) | (k, .error .notADirectory) => k.ramRemoveEntry path
  | done => done

def removeEntry (name : Name) : Kernel D σ × Except FsError Reply :=
  let path := resolvePath k.cwd name
  match k.vfsRemove env path with
  | (k, .error .notFound) | (k, .error .isADirectory) => k.removeAsDir env path
  | done => done

end Kernel

/-- A call of a path function. -/
inductive PathCall where
  | listDir (path : Name)
  | createFile (name : Name)
  | openFile (name : Name)
  | readFile (name : Name)
  | copyFile (polls : Nat) (source dest : Name)
  | writeFile (name : Name) (data : List UInt8)
  | createDir (name : Name)
  | removeDir (name : Name)
  | removeEntry (name : Name)

namespace Kernel

variable {D : Driver} {σ : Type} (env : Env D σ) (k : Kernel D σ)

def answered {α : Type} (after : Kernel D σ × Except FsError α) (reply : α → Reply) :
    Kernel D σ × Except FsError Reply :=
  (after.1, after.2.map reply)

def exec : PathCall → Kernel D σ × Except FsError Reply
  | .listDir path => k.listDir env path
  | .createFile name => answered (k.createFile env name) fun _ => .done
  | .openFile name => answered (k.openFile env name) fun _ => .opened
  | .readFile name => answered (k.readFile env name) .bytes
  | .copyFile polls source dest => answered (k.copyFile env polls source dest) .number
  | .writeFile name data => k.writeFile env name data
  | .createDir name => k.createDir env name
  | .removeDir name => k.removeDir env name
  | .removeEntry name => k.removeEntry env name

end Kernel

end Vibra.Vfs
