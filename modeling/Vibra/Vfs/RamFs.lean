import Vibra.Lib.Path
import Vibra.Vfs.Mount

/-! # The file system in memory

The entries are one flat list, keyed by normalized paths. An open file keeps the path
and looks its entry up on every call.
-/

namespace Vibra.Vfs

open Lib.Path (join rfind)
open Fat32 (Name FsError FileType DirEntry FileMetadata SeekFrom toI64)

structure RamFsEntry where
  name : Name
  fileType : FileType
  data : List UInt8
  created : Nat
  modified : Nat
deriving DecidableEq

namespace RamFsEntry

def newFile (name : Name) : RamFsEntry := ⟨name, .file, [], 0, 0⟩

def newDir (name : Name) : RamFsEntry := ⟨name, .directory, [], 0, 0⟩

def permissions (e : RamFsEntry) : Nat := if e.fileType = .directory then 0o755 else 0o644

end RamFsEntry

structure RamFsFile where
  path : Name
  position : Nat
  writable : Bool

/-- `RamFsInner`, which the file system and its open files share. -/
structure RamFs where
  entries : List RamFsEntry
  mounted : Bool

namespace RamFs

/-- One component on the stack of `normalize_path`. -/
def pushPart (parts : List Name) (part : Name) : List Name :=
  if part = [] ∨ part = ['.'] then parts
  else if part = ['.', '.'] then parts.dropLast
  else parts ++ [part]

def normParts (path : Name) : List Name := (path.splitOn '/').foldl pushPart []

/-- The string that `normalize_path` builds of its stack. -/
def pathOf (parts : List Name) : Name := if parts = [] then ['/'] else join '/' parts

def normalizePath (path : Name) : Name := pathOf (normParts path)

/-- The parent that `parent_exists` looks for. -/
def parentPath (path : Name) : Name :=
  match rfind '/' path with
  | some 0 => ['/']
  | some index => path.take index
  | none => ['/']

def parentExists (entries : List RamFsEntry) (path : Name) : Bool :=
  entries.any fun e => e.name == parentPath path && e.fileType == .directory

def new : RamFs := ⟨[], false⟩

def mount (fs : RamFs) : RamFs :=
  { entries :=
      if fs.entries.any fun e => e.name == ['/'] then fs.entries
      else fs.entries ++ [.newDir ['/']]
    mounted := true }

def unmount (fs : RamFs) : RamFs := { fs with mounted := false }

variable (fs : RamFs)

def fileIdx (path : Name) : Option Nat :=
  fs.entries.findIdx? fun e => e.name == path && e.fileType == .file

/-- The file with the path, as `find` gives it. -/
def file? (path : Name) : Option RamFsEntry :=
  fs.entries.find? fun e => e.name == path && e.fileType == .file

def setData (idx : Nat) (data : List UInt8) : RamFs :=
  { fs with entries := fs.entries.modify idx fun e => { e with data := data } }

def writeData (path : Name) (data : List UInt8) : RamFs × Except FsError Unit :=
  match fs.fileIdx (normalizePath path) with
  | some idx => (fs.setData idx data, .ok ())
  | none => (fs, .error .notFound)

def readData (path : Name) : Except FsError (List UInt8) :=
  match fs.file? (normalizePath path) with
  | some e => .ok e.data
  | none => .error .notFound

def openFile (path : Name) : Except FsError RamFsFile :=
  let path := normalizePath path
  if fs.entries.any fun e => e.name == path && e.fileType == .file then .ok ⟨path, 0, true⟩
  else .error .notFound

def create (path : Name) : RamFs × Except FsError RamFsFile :=
  let path := normalizePath path
  if fs.entries.any fun e => e.name == path then (fs, .error .alreadyExists)
  else if !parentExists fs.entries path then (fs, .error .notFound)
  else ({ fs with entries := fs.entries ++ [.newFile path] }, .ok ⟨path, 0, true⟩)

def remove (path : Name) : RamFs × Except FsError Unit :=
  let path := normalizePath path
  if path = ['/'] then (fs, .error .permissionDenied)
  else
    match fs.entries.findIdx? fun e => e.name == path with
    | none => (fs, .error .notFound)
    | some pos =>
      if fs.entries[pos]?.map (·.fileType) = some .directory then (fs, .error .isADirectory)
      else ({ fs with entries := fs.entries.eraseIdx pos }, .ok ())

def mkdir (path : Name) : RamFs × Except FsError Unit :=
  let path := normalizePath path
  if path = ['/'] then (fs, .error .alreadyExists)
  else if fs.entries.any fun e => e.name == path then (fs, .error .alreadyExists)
  else if !parentExists fs.entries path then (fs, .error .notFound)
  else ({ fs with entries := fs.entries ++ [.newDir path] }, .ok ())

def rmdir (path : Name) : RamFs × Except FsError Unit :=
  let path := normalizePath path
  if path = ['/'] then (fs, .error .permissionDenied)
  else
    match fs.entries.findIdx? fun e => e.name == path with
    | none => (fs, .error .notFound)
    | some pos =>
      if fs.entries[pos]?.map (·.fileType) ≠ some .directory then (fs, .error .notADirectory)
      else if fs.entries.any fun e => e.name != path && (path ++ ['/']).isPrefixOf e.name then
        (fs, .error .notEmpty)
      else ({ fs with entries := fs.entries.eraseIdx pos }, .ok ())

/-- The line of an entry below the directory, if it is a direct child. -/
def childLine (path : Name) (e : RamFsEntry) : Option DirEntry :=
  let dirPrefix := if path = ['/'] then ['/'] else path ++ ['/']
  let relative := e.name.drop dirPrefix.length
  if e.name = path ∨ ¬dirPrefix.isPrefixOf e.name then none
  else if relative = [] ∨ '/' ∈ relative then none
  else some ⟨relative, e.fileType, e.data.length, e.permissions, 0, 0⟩

def readdir (path : Name) : Except FsError (List DirEntry) :=
  let path := normalizePath path
  if !fs.entries.any fun e => e.name == path then .error .notFound
  else .ok (fs.entries.filterMap (childLine path))

def existsPath (path : Name) : Bool := fs.entries.any fun e => e.name == normalizePath path

def stat (path : Name) : Except FsError FileMetadata :=
  match fs.entries.find? fun e => e.name == normalizePath path with
  | some e =>
    .ok ⟨e.name, e.fileType, e.data.length, e.permissions, 0, 0, e.created, e.modified⟩
  | none => .error .notFound

end RamFs

namespace RamFsFile

variable (f : RamFsFile) (fs : RamFs)

def size : Nat := ((fs.file? f.path).map (·.data.length)).getD 0

def read (len : Nat) : RamFsFile × Except FsError (List UInt8) :=
  match fs.file? f.path with
  | none => (f, .error .notFound)
  | some e =>
    if e.data.length ≤ f.position then (f, .ok [])
    else
      let toRead := min len (e.data.length - f.position)
      ({ f with position := f.position + toRead }, .ok ((e.data.drop f.position).take toRead))

/-- The data is grown with zeros up to the end of what is written. -/
def write (buf : List UInt8) : RamFs × RamFsFile × Except FsError Nat :=
  if !f.writable then (fs, f, .error .readOnly)
  else
    match fs.fileIdx f.path, fs.file? f.path with
    | some idx, some e =>
      (fs.setData idx (Fat32.Fat32File.overlay e.data f.position buf),
        { f with position := f.position + buf.length }, .ok buf.length)
    | _, _ => (fs, f, .error .notFound)

def seek (pos : SeekFrom) : RamFsFile × Except FsError Nat :=
  let new : Int :=
    match pos with
    | .start o => toI64 o
    | .current o => toI64 (toI64 f.position + o)
    | .fromEnd o => toI64 (toI64 (f.size fs) + o)
  if new < 0 then (f, .error .invalidPath)
  else ({ f with position := new.toNat }, .ok new.toNat)

end RamFsFile

/-- The root file system, with the number of times its state has been locked. -/
structure RootRam where
  fs : RamFs
  uses : Nat

namespace RootRam

variable (ram : RootRam)

def look : RootRam := { ram with uses := ram.uses + 1 }

def update {α : Type} (after : RamFs × Except FsError α) : RootRam × Except FsError α :=
  (⟨after.1, ram.uses + 1⟩, after.2)

end RootRam

/-- The clones of the root file system share its state with their open files. -/
def ramDriver : Driver where
  Heap := RootRam
  Fs := Unit
  File := RamFsFile
  openFile ram _ path := .pure (ram.look, ram.fs.openFile path)
  create ram _ path := .pure (ram.update (ram.fs.create path))
  remove ram _ path := .pure (ram.update (ram.fs.remove path))
  mkdir ram _ path := .pure (ram.update (ram.fs.mkdir path))
  rmdir ram _ path := .pure (ram.update (ram.fs.rmdir path))
  readdir ram _ path := .pure (ram.look, ram.fs.readdir path)
  stat ram _ path := .pure (ram.look, ram.fs.stat path)
  sync ram _ _ := .pure (ram, .ok ())
  read ram f len := .pure (ram.look, f.read ram.fs len)
  write ram f buf :=
    let (fs, f, result) := f.write ram.fs buf
    .pure (⟨fs, ram.uses + 1⟩, f, result)
  seek ram f pos := .pure (ram.look, f.seek ram.fs pos)

end Vibra.Vfs
