import Vibra.Ext.Robust
import Vibra.Lib.KeyedList

/-! # Which inodes are read as directories

`find_in_dir` reads whatever inode it is given as a directory. So a path walks directories
only as long as nothing else it can come to parses as one.
-/

namespace Vibra.Ext

open Lib (Outcome RawDisk)
open Lib.Outcome
open Fat32 (Name foldName eqIgnoreAsciiCase_iff slash_mem_foldName foldName_eq_nil)

theorem lookup_eq (entries : List DirRaw) (name : Name) :
    lookup entries name = Lib.KeyedList.lookup (fun e => foldName e.name) entries
      (foldName name) := by
  rw [lookup, Lib.KeyedList.lookup]
  congr 1
  funext e
  rw [Bool.eq_iff_iff, eqIgnoreAsciiCase_iff]
  exact (decide_eq_true_iff (p := foldName e.name = foldName name)).symm

theorem validPart_congr {a b : Name} (h : foldName a = foldName b) :
    ValidPart a ↔ ValidPart b := by
  unfold ValidPart
  rw [ne_eq, ne_eq, ← foldName_eq_nil, h, foldName_eq_nil, ← slash_mem_foldName, h,
    slash_mem_foldName]

theorem lookup_spec {entries : List DirRaw} {name : Name} {e : DirRaw}
    (h : lookup entries name = some e) : e ∈ entries ∧ foldName e.name = foldName name := by
  have heq := List.find?_some h
  exact ⟨List.mem_of_find?_eq_some h, eqIgnoreAsciiCase_iff.mp heq⟩

theorem exists_lookup {entries : List DirRaw} {e : DirRaw} (he : e ∈ entries) :
    ∃ e', lookup entries e.name = some e' := by
  cases h : lookup entries e.name with
  | some e' => exact ⟨e', rfl⟩
  | none =>
    have hne := List.find?_eq_none.mp h e he
    exact absurd (eqIgnoreAsciiCase_iff.mpr rfl) hne

namespace Ext2Fs

variable {fs fs' : Ext2Fs}

/-- Whenever a path resolves, each part is looked up in a directory. -/
def WalksDirectories (fs : Ext2Fs) : Prop :=
  ∀ path n, fs.findPath path = .ok n →
    ∀ before part after, pathParts path = before ++ part :: after →
    ∃ d inode, fs.walkPath before 2 = .ok d ∧ fs.readInodeData d = .ok inode ∧
      inodeIsDir inode = true

/-- Nothing but a directory that paths lead to has an entry that a path can name. -/
def NoFalseDirectory (fs : Ext2Fs) : Prop :=
  ∀ d inode entries, fs.Walked d → fs.readInodeData d = .ok inode → inodeIsDir inode = false →
    fs.readDirEntries d = .ok entries → ∀ e ∈ entries, ¬ ValidPart e.name

theorem readInodeData_of_entries {d : Nat} {entries : List DirRaw}
    (h : fs.readDirEntries d = .ok entries) : ∃ inode, fs.readInodeData d = .ok inode := by
  unfold readDirEntries readInodeContent at h
  cases hd : fs.readInodeData d with
  | ok inode => exact ⟨inode, rfl⟩
  | err e => simp [hd] at h
  | panic => simp [hd] at h
  | diverge => simp [hd] at h

theorem NoFalseDirectory.isDir (h : fs.NoFalseDirectory) {d n : Nat} {name : Name}
    (hd : fs.Walked d) (hname : ValidPart name) (hfind : fs.findInDir d name = .ok n) :
    ∃ inode, fs.readInodeData d = .ok inode ∧ inodeIsDir inode = true := by
  obtain ⟨entries, e, hread, hlook, _⟩ := findInDir_eq_ok.mp hfind
  obtain ⟨inode, hinode⟩ := readInodeData_of_entries hread
  refine ⟨inode, hinode, ?_⟩
  by_contra hfile
  obtain ⟨hmem, hfold⟩ := lookup_spec hlook
  exact h d inode entries hd hinode (by simpa using hfile) hread e hmem
    ((validPart_congr hfold).mpr hname)

theorem walksDirectories_iff : fs.WalksDirectories ↔ fs.NoFalseDirectory := by
  constructor
  · intro h d inode entries hd hinode hfile hread e he hname
    obtain ⟨e', hlook⟩ := exists_lookup he
    obtain ⟨ps, hps, hwalk⟩ := hd.exists_parts
    have hclean : ∀ p ∈ ps ++ [e.name], ValidPart p := by
      intro p hp
      rcases List.mem_append.mp hp with hp | hp
      · exact hps p hp
      · rw [List.mem_singleton.mp hp]
        exact hname
    have hfind : fs.findInDir d e.name = .ok e'.inode :=
      findInDir_eq_ok.mpr ⟨entries, e', hread, hlook, rfl⟩
    have hpath : fs.findPath (Lib.Path.join '/' (ps ++ [e.name])) = .ok e'.inode := by
      rw [findPath, pathParts_join hclean, walkPath_append, hwalk, ok_bind]
      simp only [walkPath, hfind, ok_bind]
    obtain ⟨d', inode', hd', hinode', hdir⟩ :=
      h _ _ hpath ps e.name [] (pathParts_join hclean)
    obtain rfl : d = d' := Outcome.ok.inj (hwalk.symm.trans hd')
    obtain rfl : inode = inode' := Outcome.ok.inj (hinode.symm.trans hinode')
    simp [hfile] at hdir
  · intro h path n hpath before part after hparts
    have hvalid : ∀ p ∈ before ++ part :: after, ValidPart p :=
      fun p hp => validPart_of_mem (hparts ▸ hp)
    rw [findPath, hparts, walkPath_append] at hpath
    obtain ⟨d, hd, hrest⟩ := bind_eq_ok hpath
    simp only [walkPath] at hrest
    obtain ⟨next, hfind, _⟩ := bind_eq_ok hrest
    have hwalked := walked_of_walkPath (fun p hp => hvalid p (by simp [hp])) .root hd
    obtain ⟨inode, hinode, hdir⟩ := h.isDir hwalked (hvalid part (by simp)) hfind
    exact ⟨d, inode, hd, hinode, hdir⟩

/-- The volumes have the same inodes and directories; other content may differ. -/
structure SameButFiles (fs fs' : Ext2Fs) : Prop where
  inodes : ∀ n, fs.readInodeData n = fs'.readInodeData n
  directories : ∀ n inode, fs.readInodeData n = .ok inode → inodeIsDir inode = true →
    fs.readDirEntries n = fs'.readDirEntries n

theorem SameButFiles.symm (h : SameButFiles fs fs') : SameButFiles fs' fs :=
  ⟨fun n => (h.inodes n).symm,
    fun n inode hn hdir => (h.directories n inode ((h.inodes n).trans hn) hdir).symm⟩

theorem SameButFiles.walkPath (h : SameButFiles fs fs') (hfs : fs.NoFalseDirectory)
    {ps : List Name} (hps : ∀ p ∈ ps, ValidPart p) {d n : Nat} (hd : fs.Walked d)
    (hwalk : fs.walkPath ps d = .ok n) : fs'.walkPath ps d = .ok n := by
  induction ps generalizing d with
  | nil => exact hwalk
  | cons p ps ih =>
    simp only [Ext2Fs.walkPath] at hwalk ⊢
    obtain ⟨next, hfind, hrest⟩ := bind_eq_ok hwalk
    obtain ⟨inode, hinode, hdir⟩ := hfs.isDir hd (hps p (by simp)) hfind
    obtain ⟨entries, e, hread, hlook, rfl⟩ := findInDir_eq_ok.mp hfind
    have hfind' : fs'.findInDir d p = .ok e.inode :=
      findInDir_eq_ok.mpr ⟨entries, e, h.directories d inode hinode hdir ▸ hread, hlook, rfl⟩
    rw [hfind', ok_bind]
    exact ih (fun q hq => hps q (by simp [hq])) (.step hd hread (hps p (by simp)) hlook) hrest

theorem SameButFiles.findPath (h : SameButFiles fs fs') (hfs : fs.NoFalseDirectory)
    (hfs' : fs'.NoFalseDirectory) (path : Name) (n : Nat) :
    fs.findPath path = .ok n ↔ fs'.findPath path = .ok n :=
  ⟨h.walkPath hfs (fun _ hp => validPart_of_mem hp) .root,
    h.symm.walkPath hfs' (fun _ hp => validPart_of_mem hp) .root⟩

end Ext2Fs

/-- Paths walk directories only exactly when nothing else that paths lead to has an entry a
path can name; and then two volumes that differ in the content of their files alone resolve
every path alike. -/
theorem resolution_iff (fs : Ext2Fs) :
    (fs.WalksDirectories ↔ fs.NoFalseDirectory) ∧
      ∀ fs' : Ext2Fs, fs.SameButFiles fs' → fs.NoFalseDirectory → fs'.NoFalseDirectory →
        ∀ path n, fs.findPath path = .ok n ↔ fs'.findPath path = .ok n :=
  ⟨Ext2Fs.walksDirectories_iff, fun _ h hfs hfs' => h.findPath hfs hfs'⟩

/-- A volume whose root has one entry, the regular file `f`, with the record of a directory
entry `x` for its content. -/
def recordInFile : RawDisk :=
  RawDisk.ofMemory 64 fun a =>
    (([(1024, 16), (1044, 1), (1056, 8), (1064, 16), (1080, 0x53), (1081, 0xEF), (2056, 3),
      (3201, 0x40), (3204, 12), (3240, 5), (3329, 0x80), (3332, 12), (3368, 6),
      (5120, 3), (5124, 12), (5126, 1), (5127, 1), (5128, 0x66),
      (6144, 2), (6148, 12), (6150, 1), (6151, 2), (6152, 0x78)] :
        List (Nat × UInt8)).lookup a).getD 0

/-- `/f/x` is found through the regular file `f`. -/
theorem recordInFile_walks : ∃ fs, Ext2Fs.new recordInFile = .ok fs ∧
    fs.findPath "/f/x".toList = .ok 2 ∧ fs.findPath "/f".toList = .ok 3 ∧
    (∃ inode, fs.readInodeData 3 = .ok inode ∧ inodeMode inode &&& sIfmt = 0x8000) ∧
    ¬ fs.WalksDirectories := by
  have hrun : (Ext2Fs.new recordInFile >>= fun fs =>
      check (fs.findPath "/f/x".toList = .ok 2 ∧ fs.findPath "/f".toList = .ok 3 ∧
        (fs.readInodeData 3 >>= fun inode => check (inodeMode inode &&& sIfmt = 0x8000)) =
          .ok ())) = .ok () := by
    decide +kernel
  obtain ⟨fs, hnew, hfs⟩ := bind_eq_ok hrun
  obtain ⟨hx, hf, hmode⟩ := check_eq_ok.mp hfs
  obtain ⟨inode, hinode, hmode⟩ := bind_eq_ok hmode
  refine ⟨fs, hnew, hx, hf, ⟨inode, hinode, check_eq_ok.mp hmode⟩, ?_⟩
  intro hwalks
  obtain ⟨d, inode', hd, hinode', hdir⟩ := hwalks _ _ hx ["f".toList] "x".toList [] (by decide)
  have hf' : fs.walkPath ["f".toList] 2 = .ok 3 := hf
  obtain rfl : 3 = d := Outcome.ok.inj (hf'.symm.trans hd)
  obtain rfl : inode = inode' := Outcome.ok.inj (hinode.symm.trans hinode')
  rw [inodeIsDir, check_eq_ok.mp hmode] at hdir
  exact absurd hdir (by decide)

end Vibra.Ext
