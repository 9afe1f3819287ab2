import Vibra.Ext.Volume
import Vibra.Lib.Path
import Vibra.Fat32.Directory

/-! # ext directories and the driver's operations

A directory is read whole and walked record by record.
-/

namespace Vibra.Ext

open Lib (Outcome Bytes RawDisk u16At u32At)
open Lib.Outcome
open Fat32 (FsError Name eqIgnoreAsciiCase)

def isCont (b : UInt8) : Bool := 0x80 ≤ b && b ≤ 0xBF

/-- The range the second byte of a character must be in, by its first byte. -/
def secondOk (a b : UInt8) : Bool :=
  if a = 0xE0 then 0xA0 ≤ b && b ≤ 0xBF
  else if a = 0xED then 0x80 ≤ b && b ≤ 0x9F
  else if a = 0xF0 then 0x90 ≤ b && b ≤ 0xBF
  else if a = 0xF4 then 0x80 ≤ b && b ≤ 0x8F
  else isCont b

def low6 (b : UInt8) : Nat := b.toNat % 64

/-- `core::str::from_utf8`, by the characters of the string. -/
def fromUtf8 : List UInt8 → Option Name
  | [] => some []
  | a :: tail =>
    if a < 0x80 then (Char.ofNat a.toNat :: ·) <$> fromUtf8 tail
    else
      match tail with
      | [] => none
      | b :: tail =>
        if 0xC2 ≤ a ∧ a ≤ 0xDF then
          if isCont b then
            (Char.ofNat (a.toNat % 32 * 64 + low6 b) :: ·) <$> fromUtf8 tail
          else none
        else
          match tail with
          | [] => none
          | c :: tail =>
            if 0xE0 ≤ a ∧ a ≤ 0xEF then
              if secondOk a b ∧ isCont c then
                (Char.ofNat (a.toNat % 16 * 4096 + low6 b * 64 + low6 c) :: ·) <$>
                  fromUtf8 tail
              else none
            else
              match tail with
              | [] => none
              | d :: tail =>
                if 0xF0 ≤ a ∧ a ≤ 0xF4 ∧ secondOk a b ∧ isCont c ∧ isCont d then
                  (Char.ofNat (a.toNat % 8 * 262144 + low6 b * 4096 + low6 c * 64 +
                    low6 d) :: ·) <$> fromUtf8 tail
                else none

structure DirRaw where
  name : Name
  inode : Nat
  fileType : Nat
deriving DecidableEq

/-- What a record at `pos` adds to the listing. -/
def direntAt (data : Bytes) (pos inode recLen nameLen fileType : Nat) : Res (List DirRaw) := do
  let start ← add 64 pos 8
  let stop ← add 64 start nameLen
  if inode ≠ 0 ∧ nameLen > 0 ∧ nameLen ≤ 255 ∧ 8 + nameLen ≤ recLen ∧ stop ≤ data.length then do
    let bytes ← slice data start stop
    let name := (fromUtf8 bytes).getD []
    if name = [] then .ok [] else .ok [⟨name, inode, fileType⟩]
  else .ok []

/-- The loop over the records, with fuel. -/
def dirWalk (data : Bytes) : Nat → Nat → Res (List DirRaw)
  | 0, _ => .diverge
  | fuel + 1, pos => do
      let head ← add 64 pos 8
      if head ≤ data.length then
        let inode ← readU32 data pos
        let recLen ← readU16 data (← add 64 pos 4)
        let nameLen ← get data (← add 64 pos 6)
        let fileType ← get data (← add 64 pos 7)
        if recLen < 8 then .ok []
        else
          let next ← add 64 pos recLen
          if next > data.length then .ok []
          else
            let here ← direntAt data pos inode recLen nameLen.toNat fileType.toNat
            let rest ← dirWalk data fuel next
            return here ++ rest
      else .ok []

def lookup (entries : List DirRaw) (name : Name) : Option DirRaw :=
  entries.find? fun e => eqIgnoreAsciiCase e.name name

def pathParts (path : Name) : List Name := Lib.Path.parts '/' path

inductive FileType where
  | file | directory | symlink | device
deriving DecidableEq

structure DirEntry where
  name : Name
  fileType : FileType
  size : Nat
  permissions : Nat
  uid : Nat
  gid : Nat

structure FileMetadata where
  name : Name
  fileType : FileType
  size : Nat
  permissions : Nat
  uid : Nat
  gid : Nat
  created : Nat
  modified : Nat

structure Ext2File where
  data : Bytes
  position : Nat

/-- What an inode's mode says the file is. -/
def fileTypeOf (mode : Nat) : FileType :=
  let kind := mode &&& sIfmt
  if kind = sIfdir then .directory
  else if kind = sIflnk then .symlink
  else if kind = sIfchr ∨ kind = sIfblk ∨ kind = sIfifo ∨ kind = sIfsock then .device
  else .file

structure Meta where
  fileType : FileType
  mode : Nat
  size : Nat
  uid : Nat
  gid : Nat

/-- The type of an entry whose inode cannot be read. -/
def metaOfDirent (fileType : Nat) : Meta :=
  let ft : FileType :=
    if fileType = 2 then .directory else if fileType = 7 then .symlink else .file
  ⟨ft, if ft = .directory then 0o755 else 0o644, 0, 0, 0⟩

namespace Ext2Fs

variable (fs : Ext2Fs)

def readDirEntries (inodeNum : Nat) : Res (List DirRaw) := do
  let data ← fs.readInodeContent inodeNum
  dirWalk data (data.length + 1) 0

def findInDir (dirInode : Nat) (name : Name) : Res Nat := do
  let entries ← fs.readDirEntries dirInode
  match lookup entries name with
  | some e => .ok e.inode
  | none => .err .notFound

/-- The loop of `find_path`. -/
def walkPath : List Name → Nat → Res Nat
  | [], inode => .ok inode
  | part :: rest, inode => do
      let next ← fs.findInDir inode part
      walkPath rest next

def findPath (path : Name) : Res Nat := fs.walkPath (pathParts path) 2

def entryMeta (inodeNum : Nat) : Res (Option Meta) := do
  match ← (fs.readInodeData inodeNum).attempt with
  | .error _ => return none
  | .ok inode =>
    let mode := inodeMode inode
    return some ⟨fileTypeOf mode, mode &&& 0o7777, inodeSizeBytes inode, u16At inode 2,
      u16At inode 24⟩

/-- A line of the listing; `.` and `..` have none. -/
def lineOf (e : DirRaw) : Res (List DirEntry) :=
  if e.name = ['.'] ∨ e.name = ['.', '.'] then .ok []
  else do
    let found ← fs.entryMeta e.inode
    let m := found.getD (metaOfDirent e.fileType)
    return [⟨e.name, m.fileType, if m.fileType = .directory then 0 else m.size, m.mode, m.uid,
      m.gid⟩]

def readdir (path : Name) : Res (List DirEntry) := do
  let inodeNum ← fs.findPath path
  let inode ← fs.readInodeData inodeNum
  if inodeIsDir inode then
    let raw ← fs.readDirEntries inodeNum
    collect fs.lineOf raw
  else .err .notADirectory

def «open» (path : Name) : Res Ext2File := do
  let inodeNum ← fs.findPath path
  let inode ← fs.readInodeData inodeNum
  if inodeIsDir inode then .err .isADirectory
  else
    let data ← fs.readInodeContent inodeNum
    return ⟨data, 0⟩

def «exists» (path : Name) : Res Bool := do
  match ← (fs.findPath path).attempt with
  | .ok _ => return true
  | .error _ => return false

def stat (path : Name) : Res FileMetadata := do
  let inodeNum ← fs.findPath path
  let inode ← fs.readInodeData inodeNum
  let mode := inodeMode inode
  return {
    name := (pathParts path).getLast?.getD ['/']
    fileType := fileTypeOf mode
    size := inodeSizeBytes inode
    permissions := mode &&& 0o7777
    uid := u16At inode 2
    gid := u16At inode 24
    created := u32At inode 12
    modified := u32At inode 16 }

end Ext2Fs

end Vibra.Ext

/-! ## Where paths lead

The inodes a path can resolve to are those reached from the root by entries of directories,
or of whatever else is read as one.
-/

namespace Vibra.Ext

open Lib (Outcome Bytes RawDisk u16At u32At)
open Lib.Outcome
open Fat32 (FsError Name)

def ValidPart (name : Name) : Prop := name ≠ [] ∧ '/' ∉ name

namespace Ext2Fs

variable {fs : Ext2Fs}

theorem findInDir_eq_ok {d n : Nat} {name : Name} : fs.findInDir d name = .ok n ↔
    ∃ entries e, fs.readDirEntries d = .ok entries ∧ lookup entries name = some e ∧
      e.inode = n := by
  unfold findInDir
  cases fs.readDirEntries d with
  | ok entries => cases h : lookup entries name <;> simp [h]
  | err e => simp
  | panic => simp
  | diverge => simp

theorem walkPath_append (ps qs : List Name) (d : Nat) :
    fs.walkPath (ps ++ qs) d = fs.walkPath ps d >>= fs.walkPath qs := by
  induction ps generalizing d with
  | nil => rfl
  | cons p ps ih =>
    simp only [List.cons_append, walkPath]
    cases fs.findInDir d p with
    | ok next => exact ih next
    | err e => rfl
    | panic => rfl
    | diverge => rfl

/-- The inodes that paths lead to. -/
inductive Walked (fs : Ext2Fs) : Nat → Prop
  | root : Walked fs 2
  | step {d : Nat} {entries : List DirRaw} {name : Name} {e : DirRaw} : Walked fs d →
      fs.readDirEntries d = .ok entries → ValidPart name → lookup entries name = some e →
      Walked fs e.inode

theorem walked_of_walkPath {ps : List Name} (hps : ∀ p ∈ ps, ValidPart p) {d n : Nat}
    (hd : Walked fs d) (h : fs.walkPath ps d = .ok n) : Walked fs n := by
  induction ps generalizing d with
  | nil =>
    cases h
    exact hd
  | cons p ps ih =>
    simp only [walkPath] at h
    cases hfind : fs.findInDir d p with
    | ok next =>
      rw [hfind, ok_bind] at h
      obtain ⟨entries, e, hread, hlook, rfl⟩ := findInDir_eq_ok.mp hfind
      exact ih (fun q hq => hps q (by simp [hq])) (.step hd hread (hps p (by simp)) hlook) h
    | err e => simp [hfind] at h
    | panic => simp [hfind] at h
    | diverge => simp [hfind] at h

theorem validPart_of_mem {path p : Name} (h : p ∈ pathParts path) : ValidPart p :=
  Lib.Path.clean_parts path p h

theorem Walked.exists_parts {n : Nat} (h : Walked fs n) :
    ∃ ps, (∀ p ∈ ps, ValidPart p) ∧ fs.walkPath ps 2 = .ok n := by
  induction h with
  | root => exact ⟨[], by simp, rfl⟩
  | @step d entries name e hd hread hname hlook ih =>
    obtain ⟨ps, hps, hwalk⟩ := ih
    refine ⟨ps ++ [name], ?_, ?_⟩
    · intro p hp
      rcases List.mem_append.mp hp with hp | hp
      · exact hps p hp
      · rw [List.mem_singleton.mp hp]
        exact hname
    · rw [walkPath_append, hwalk, ok_bind]
      simp only [walkPath, findInDir_eq_ok.mpr ⟨_, _, hread, hlook, rfl⟩, ok_bind]

theorem pathParts_join {ps : List Name} (h : ∀ p ∈ ps, ValidPart p) :
    pathParts (Lib.Path.join '/' ps) = ps := Lib.Path.parts_join h

theorem walked_iff {n : Nat} : Walked fs n ↔ ∃ path, fs.findPath path = .ok n := by
  constructor
  · intro h
    obtain ⟨ps, hps, hwalk⟩ := h.exists_parts
    exact ⟨Lib.Path.join '/' ps, by rw [findPath, pathParts_join hps, hwalk]⟩
  · intro ⟨path, h⟩
    exact walked_of_walkPath (fun p hp => validPart_of_mem hp) .root h

end Ext2Fs

end Vibra.Ext
