import Vibra.Ext.Directories
import Vibra.Ntfs.Robust

/-! # What is listed is what is found

The ext and the NTFS driver look a name up in the same list of entries that they show, without
regard to the case of ASCII letters.
-/

namespace Vibra

open Lib (RawDisk)
open Lib.Outcome
open Fat32 (Name foldName eqIgnoreAsciiCase_iff)

namespace Ext.Ext2Fs

theorem findPath_of_listed {fs : Ext2Fs} {path : Name} {d : Nat} {entries : List DirRaw}
    (hpath : fs.findPath path = .ok d) (hread : fs.readDirEntries d = .ok entries)
    (hunique : Lib.KeyedList.Unique (fun e => foldName e.name) entries) {e : DirRaw}
    (he : e ∈ entries) (hname : ValidPart e.name) :
    fs.findPath (path ++ '/' :: e.name) = .ok e.inode := by
  have hlook : lookup entries e.name = some e := by
    rw [lookup_eq]
    exact (Lib.KeyedList.lookup_eq_some hunique).mpr ⟨he, rfl⟩
  have hfind : fs.findInDir d e.name = .ok e.inode :=
    findInDir_eq_ok.mpr ⟨entries, e, hread, hlook, rfl⟩
  have hparts : pathParts (path ++ '/' :: e.name) = pathParts path ++ [e.name] := by
    rw [pathParts, Lib.Path.parts_append, Lib.Path.parts_of_not_mem hname.1 hname.2]
    rfl
  have hpath' : fs.walkPath (pathParts path) 2 = .ok d := hpath
  rw [findPath, hparts, walkPath_append, hpath', ok_bind]
  simp only [walkPath, hfind, ok_bind]

end Ext.Ext2Fs

namespace Ntfs

theorem lookup_eq (entries : List IndexEntry) (name : Name) :
    lookup entries name = Lib.KeyedList.lookup (fun e => foldName e.name) entries
      (foldName name) := by
  rw [lookup, Lib.KeyedList.lookup]
  congr 1
  funext e
  rw [Bool.eq_iff_iff, eqIgnoreAsciiCase_iff]
  exact (decide_eq_true_iff (p := foldName e.name = foldName name)).symm

theorem NtfsFs.findPath_of_listed {fs : NtfsFs} {path : Name} {record : Lib.Bytes}
    {entries : List IndexEntry} (hpath : fs.findPath path = .ok record)
    (hdir : recordIsDir record = true) (hlist : fs.listDir record = .ok entries)
    (hunique : Lib.KeyedList.Unique (fun e => foldName e.name) entries) {e : IndexEntry}
    (he : e ∈ entries) (hname : ValidPart e.name) :
    fs.findPath (path ++ '/' :: e.name) = fs.readRecord e.num := by
  have hlook : lookup entries e.name = some e := by
    rw [lookup_eq]
    exact (Lib.KeyedList.lookup_eq_some hunique).mpr ⟨he, rfl⟩
  have hparts : pathParts (path ++ '/' :: e.name) = pathParts path ++ [e.name] := by
    rw [pathParts, Lib.Path.parts_append, Lib.Path.parts_of_not_mem hname.1 hname.2]
    rfl
  obtain ⟨root, hroot, hwalk⟩ := bind_eq_ok hpath
  rw [findPath, hroot, ok_bind, hparts, Lib.walk_append, hwalk, ok_bind, Lib.walk_singleton,
    enter, if_pos hdir, hlist, ok_bind, hlook]

end Ntfs

/-- An ext volume whose root has the entries `A` for inode 3, one of one byte for inode 4, and
`x/y` for inode 5. -/
def extNames (second : UInt8) : RawDisk :=
  RawDisk.ofMemory 64 fun a =>
    (([(1024, 16), (1044, 1), (1056, 8), (1064, 16), (1080, 0x53), (1081, 0xEF), (2056, 3),
      (3201, 0x40), (3204, 36), (3240, 5),
      (5120, 3), (5124, 12), (5126, 1), (5127, 1), (5128, 0x41),
      (5132, 4), (5136, 12), (5138, 1), (5139, 1), (5140, second),
      (5144, 5), (5148, 12), (5150, 3), (5151, 1), (5152, 0x78), (5153, 0x2F), (5154, 0x79)] :
        List (Nat × UInt8)).lookup a).getD 0

/-- An NTFS volume whose root has the entries `A` for record 6 and `b` for record 7. -/
def ntfsNames : RawDisk :=
  RawDisk.ofMemory 64 fun a =>
    (([(3, 0x4E), (4, 0x54), (5, 0x46), (6, 0x53), (7, 0x20), (8, 0x20), (9, 0x20), (10, 0x20),
      (12, 2), (13, 1), (40, 64), (48, 4), (64, 1),
      (2048, 0x46), (2049, 0x49), (2050, 0x4C), (2051, 0x45), (2068, 56), (2072, 128),
      (2104, 0x80), (2108, 72), (2112, 1), (2136, 64), (2168, 0x11), (2169, 16), (2170, 4),
      (4608, 0x46), (4609, 0x49), (4610, 0x4C), (4611, 0x45), (4628, 56), (4630, 3), (4632, 32),
      (4633, 1), (4664, 0x90), (4668, 232), (4680, 208), (4684, 24), (4697, 0x10), (4704, 16),
      (4708, 192),
      (4720, 6), (4728, 88), (4730, 68), (4800, 1), (4801, 1), (4802, 0x41),
      (4808, 7), (4816, 88), (4818, 68), (4888, 1), (4889, 1), (4890, 0x62),
      (5120, 0x46), (5121, 0x49), (5122, 0x4C), (5123, 0x45), (5142, 1)] :
        List (Nat × UInt8)).lookup a).getD 0

end Vibra
