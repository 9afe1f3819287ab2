import Vibra.Lib.Checked
import Vibra.Lib.RawDisk
import Vibra.Lib.Path
import Vibra.Lib.Utf16
import Vibra.Fat32.Directory

/-! # exFAT volumes

`fs/exfat.rs`: the boot sector, cluster chains, directories and look-up by path.
-/

namespace Vibra.Exfat

open Lib (Outcome Bytes RawDisk u16At u32At u64At)
open Lib.Outcome
open Fat32 (FsError Name eqIgnoreAsciiCase)

abbrev Res := Outcome FsError

def maxDirBytes : Nat := 64 * 1024 * 1024
def fatEoc : Nat := 0xFFFFFFF8
def fatBad : Nat := 0xFFFFFFF7
def attrDirectory : Nat := 0x10

structure ExfatBoot where
  bytesPerSector : Nat
  sectorsPerCluster : Nat
  fatOffset : Nat
  fatLength : Nat
  clusterHeapOffset : Nat
  clusterCount : Nat
  rootCluster : Nat
  numberOfFats : Nat
  clusterCount_lt : clusterCount + 2 < 2 ^ 32
deriving DecidableEq

def ExfatBoot.parse (s : Bytes) : Res ExfatBoot :=
  if s.length < 512 ∨ (s.drop 3).take 8 ≠ [0x45, 0x58, 0x46, 0x41, 0x54, 0x20, 0x20, 0x20] then
    .err .invalidPath
  else
    let bpsShift := (s.getD 108 0).toNat
    let spcShift := (s.getD 109 0).toNat
    if ¬ (9 ≤ bpsShift ∧ bpsShift ≤ 12) ∨ spcShift > 25 then .err .invalidPath
    else
      let bytesPerSector := 2 ^ bpsShift
      let sectorsPerCluster := 2 ^ spcShift
      if bytesPerSector * sectorsPerCluster > 32 * 1024 * 1024 then .err .invalidPath
      else
        let fatOffset := u32At s 80
        let fatLength := u32At s 84
        let clusterHeapOffset := u32At s 88
        let clusterCount := u32At s 92
        let rootCluster := u32At s 96
        let numberOfFats := (s.getD 110 0).toNat
        if fatOffset = 0 ∨ fatLength = 0 ∨ clusterCount = 0 then .err .invalidPath
        else if numberOfFats ≠ 1 ∧ numberOfFats ≠ 2 then .err .invalidPath
        else if rootCluster < 2 then .err .invalidPath
        else if h : clusterCount + 2 < 2 ^ 32 then
          if rootCluster ≥ clusterCount + 2 then .err .invalidPath
          else if clusterHeapOffset < (fatOffset + fatLength * numberOfFats) % 2 ^ 32 then
            .err .invalidPath
          else
            .ok ⟨bytesPerSector, sectorsPerCluster, fatOffset, fatLength, clusterHeapOffset,
              clusterCount, rootCluster, numberOfFats, h⟩
        else .panic

def ExfatBoot.clusterSize (boot : ExfatBoot) : Nat := boot.bytesPerSector * boot.sectorsPerCluster

def ExfatBoot.clusterLba (boot : ExfatBoot) (cluster : Nat) : Nat :=
  (boot.clusterHeapOffset + (cluster - 2) * boot.sectorsPerCluster) * (boot.bytesPerSector / 512)

def ExfatBoot.InHeap (boot : ExfatBoot) (cluster : Nat) : Prop :=
  2 ≤ cluster ∧ cluster < boot.clusterCount + 2

instance (boot : ExfatBoot) (cluster : Nat) : Decidable (boot.InHeap cluster) :=
  inferInstanceAs (Decidable (_ ∧ _))

structure ExfatFs where
  disk : RawDisk
  boot : ExfatBoot

def ExfatFs.new (disk : RawDisk) : Res ExfatFs := do
  let bs ← ofOption .ioError (disk.read 0 512)
  let boot ← ExfatBoot.parse bs
  return ⟨disk, boot⟩

/-- What is read of a file entry set. -/
structure EntryInfo where
  name : Name
  isDir : Bool
  firstCluster : Nat
  size : Nat
  noFatChain : Bool
deriving DecidableEq

/-- What the loop over the secondary entries has read. -/
structure SetState where
  info : EntryInfo
  nameLen : Nat
  units : List Nat

def entryType (e : Bytes) : Nat := (e.getD 0 0).toNat

def nameUnits (sec : Bytes) : List Nat := (List.range 15).map fun k => u16At sec (2 + k * 2)

def secondaryStep (st : SetState) (sec : Bytes) : SetState :=
  if entryType sec = 0xC0 then
    { st with
      info := { st.info with
        noFatChain := (sec.getD 1 0).toNat &&& 0x02 ≠ 0
        firstCluster := u32At sec 20
        size := u64At sec 24 }
      nameLen := (sec.getD 3 0).toNat }
  else if entryType sec = 0xC1 then
    { st with units := st.units ++ (nameUnits sec).filter (· ≠ 0) }
  else st

/-- The entries of 32 bytes after a primary entry, as many as there are. -/
def secondaries : Nat → Bytes → List Bytes
  | 0, _ => []
  | n + 1, data =>
    if data.length < 32 then [] else data.take 32 :: secondaries n (data.drop 32)

/-- The set of a File entry and the bytes that follow it. -/
def readSet (e : Bytes) (secs : List Bytes) : EntryInfo :=
  let start : SetState := ⟨⟨[], u16At e 4 &&& attrDirectory ≠ 0, 0, 0, false⟩, 0, []⟩
  let st := secs.foldl secondaryStep start
  { st.info with name := Lib.Utf16.decode (st.units.take st.nameLen) }

/-- The loop of `list_entries` over the bytes of a directory from an entry on, with fuel. -/
def listLoop (boot : ExfatBoot) : Nat → Bytes → Res (List EntryInfo)
  | 0, _ => .diverge
  | fuel + 1, data =>
    if 32 ≤ data.length then
      let etype := entryType data
      if etype = 0x00 then .ok []
      else if etype ≠ 0x85 then listLoop boot fuel (data.drop 32)
      else do
        let secondary := (data.getD 1 0).toNat
        let info := readSet data (secondaries secondary (data.drop 32))
        let rest ← listLoop boot fuel (data.drop (32 * (1 + secondary)))
        if boot.InHeap info.firstCluster ∧ info.name ≠ [] then return info :: rest
        else return rest
    else .ok []

def pathParts (path : Name) : List Name := Lib.Path.parts '/' path

def nameMatches (a b : Name) : Bool := eqIgnoreAsciiCase a b || a == b

inductive FileType where
  | file | directory
deriving DecidableEq

structure DirEntry where
  name : Name
  fileType : FileType
  size : Nat
deriving DecidableEq

def EntryInfo.shown (e : EntryInfo) : DirEntry :=
  ⟨e.name, if e.isDir then .directory else .file, e.size⟩

namespace ExfatFs

variable (fs : ExfatFs)

def fatEntry (cluster : Nat) : Res Nat :=
  if cluster ≥ fs.boot.clusterCount + 2 then .err .ioError
  else do
    let byte := fs.boot.fatOffset * fs.boot.bytesPerSector + cluster * 4
    let buf ← ofOption .ioError (fs.disk.read (byte / 512) 512)
    return u32At buf (byte % 512)

def nextCluster (cluster : Nat) : Res (Option Nat) := do
  let next ← fs.fatEntry cluster
  if next ≥ fatEoc then return none
  else if next = fatBad ∨ ¬ fs.boot.InHeap next then return none
  else return some next

/-- The loop of `chain`: at most so many more clusters, from `cur` on. -/
def chainLoop : Nat → Nat → Res (List Nat)
  | 0, _ => .ok []
  | more + 1, cur =>
    if ¬ fs.boot.InHeap cur then .ok []
    else do
      match ← fs.nextCluster cur with
      | some next => do
          let rest ← chainLoop more next
          return cur :: rest
      | none => return [cur]

def chain (first maxClusters : Nat) : Res (List Nat) := do
  let out ← fs.chainLoop maxClusters first
  if out = [] then .err .ioError else return out

def readCluster (cluster : Nat) : Res Bytes :=
  ofOption .ioError (fs.disk.read (fs.boot.clusterLba cluster) fs.boot.clusterSize)

def maxClusters (maxBytes : Nat) : Nat := max (maxBytes / fs.boot.clusterSize) 1

def readChain (first maxBytes : Nat) : Res Bytes :=
  if fs.boot.clusterSize = 0 then .err .ioError
  else do
    let clusters ← fs.chain first (fs.maxClusters maxBytes)
    collect fs.readCluster clusters

def listEntries (dirCluster : Nat) : Res (List EntryInfo) := do
  let data ← fs.readChain dirCluster maxDirBytes
  listLoop fs.boot (data.length + 1) data

/-- The loop of `find_entry` over the parts of a path; the last part may be a file. -/
def findLoop : List Name → Nat → Res (Option EntryInfo)
  | [], _ => .ok none
  | part :: rest, cluster => do
      let entries ← fs.listEntries cluster
      match entries.find? fun e => nameMatches e.name part with
      | none => return none
      | some entry =>
        if rest = [] then return some entry
        else if entry.isDir then findLoop rest entry.firstCluster
        else return none

def findEntry (path : Name) : Res (Option EntryInfo) :=
  fs.findLoop (pathParts path) fs.boot.rootCluster

def resolveDir (path : Name) : Res Nat :=
  if pathParts path = [] then .ok fs.boot.rootCluster
  else do
    match ← fs.findEntry path with
    | some e => if e.isDir then return e.firstCluster else .err .notADirectory
    | none => .err .notFound

def readdir (path : Name) : Res (List DirEntry) := do
  let cluster ← fs.resolveDir path
  let entries ← fs.listEntries cluster
  return entries.map EntryInfo.shown

end ExfatFs

end Vibra.Exfat

/-! ## File entry sets

A directory is arranged in entries of 32 bytes.
-/

namespace Vibra.Exfat

open Lib (Outcome Bytes u16At u32At u64At)
open Lib.Outcome
open Fat32 (FsError Name)

/-- The entries of one set. -/
structure EntrySet where
  primary : Bytes
  stream : Bytes
  names : List Bytes
  others : List Bytes
deriving DecidableEq, Repr

namespace EntrySet

variable (s : EntrySet)

def secondary : List Bytes := s.stream :: (s.names ++ s.others)

def bytes : Bytes := s.primary ++ s.secondary.flatten

def nameLength : Nat := (s.stream.getD 3 0).toNat

/-- The units of the name: the first `NameLength` of its entries. -/
def units : List Nat := (s.names.flatMap nameUnits).take s.nameLength

/-- What the set says of its file. -/
def info : EntryInfo where
  name := Lib.Utf16.decode s.units
  isDir := u16At s.primary 4 &&& attrDirectory ≠ 0
  firstCluster := u32At s.stream 20
  size := u64At s.stream 24
  noFatChain := (s.stream.getD 1 0).toNat &&& 0x02 ≠ 0

structure WellFormed : Prop where
  primary : s.primary.length = 32 ∧ entryType s.primary = 0x85
  secondaryCount : (s.primary.getD 1 0).toNat = s.secondary.length
  stream : s.stream.length = 32 ∧ entryType s.stream = 0xC0
  names : ∀ e ∈ s.names, e.length = 32 ∧ entryType e = 0xC1
  others : ∀ e ∈ s.others, e.length = 32 ∧ entryType e ≠ 0xC0 ∧ entryType e ≠ 0xC1
  nameLength : 1 ≤ s.nameLength ∧ s.nameLength ≤ 15 * s.names.length
  units : ∀ u ∈ s.units, u ≠ 0

end EntrySet

/-- The bytes of a directory with its file entry sets in order. What is skipped is not in use,
or is in use for something else than a file. -/
inductive Arranged : Bytes → List EntrySet → Prop
  | empty : Arranged [] []
  | stop {data : Bytes} : data ≠ [] → entryType data = 0 → Arranged data []
  | skip {e data : Bytes} {sets : List EntrySet} : e.length = 32 → entryType e ≠ 0 →
      entryType e ≠ 0x85 → Arranged data sets → Arranged (e ++ data) sets
  | set {s : EntrySet} {data : Bytes} {sets : List EntrySet} : s.WellFormed →
      Arranged data sets → Arranged (s.bytes ++ data) (s :: sets)

theorem entryType_append {e data : Bytes} (h : e.length = 32) :
    entryType (e ++ data) = entryType e := by
  rw [entryType, entryType, List.getD_append _ _ _ _ (by omega)]

theorem secondaries_flatten {secs : List Bytes} (h : ∀ e ∈ secs, e.length = 32) (data : Bytes) :
    secondaries secs.length (secs.flatten ++ data) = secs := by
  induction secs with
  | nil => rfl
  | cons e secs ih =>
    have he := h e (by simp)
    rw [List.length_cons, secondaries, List.flatten_cons, List.append_assoc,
      if_neg (by rw [List.length_append]; omega), List.take_left' he, List.drop_left' he,
      ih fun x hx => h x (by simp [hx])]

theorem length_flatten {secs : List Bytes} (h : ∀ e ∈ secs, e.length = 32) :
    secs.flatten.length = 32 * secs.length := by
  induction secs with
  | nil => rfl
  | cons e secs ih =>
    have hrest := ih fun x hx => h x (by simp [hx])
    rw [List.flatten_cons, List.length_append, h e (by simp), hrest, List.length_cons]
    omega

theorem foldl_names (st : SetState) {names : List Bytes}
    (h : ∀ e ∈ names, entryType e = 0xC1) :
    names.foldl secondaryStep st =
      { st with units := st.units ++ (names.flatMap nameUnits).filter (· ≠ 0) } := by
  induction names generalizing st with
  | nil => simp
  | cons e names ih =>
    have he := h e (by simp)
    rw [List.foldl_cons, ih _ fun x hx => h x (by simp [hx])]
    simp [secondaryStep, he]

theorem foldl_others (st : SetState) {others : List Bytes}
    (h : ∀ e ∈ others, entryType e ≠ 0xC0 ∧ entryType e ≠ 0xC1) :
    others.foldl secondaryStep st = st := by
  induction others with
  | nil => rfl
  | cons e others ih =>
    obtain ⟨h0, h1⟩ := h e (by simp)
    rw [List.foldl_cons, secondaryStep, if_neg h0, if_neg h1]
    exact ih fun x hx => h x (by simp [hx])

theorem take_filter_ne {l : List Nat} {n : Nat} (h : ∀ u ∈ l.take n, u ≠ 0) :
    (l.filter (· ≠ 0)).take n = l.take n := by
  induction l generalizing n with
  | nil => simp
  | cons a l ih =>
    cases n with
    | zero => simp
    | succ n =>
      have ha := h a (by simp)
      have hrest := ih (n := n) fun u hu => h u (by simp [hu])
      rw [List.filter_cons_of_pos (by simpa using ha), List.take_succ_cons,
        List.take_succ_cons, hrest]

theorem EntrySet.WellFormed.length_secondary {s : EntrySet} (h : s.WellFormed) :
    ∀ e ∈ s.secondary, e.length = 32 := by
  intro e he
  rcases List.mem_cons.mp he with rfl | he
  · exact h.stream.1
  rcases List.mem_append.mp he with he | he
  · exact (h.names e he).1
  · exact (h.others e he).1

theorem readSet_eq {s : EntrySet} (h : s.WellFormed) (data : Bytes) :
    readSet (s.primary ++ data) s.secondary = s.info := by
  have hstream := h.stream.2
  have hu16 : u16At (s.primary ++ data) 4 = u16At s.primary 4 := by
    have hlen := h.primary.1
    rw [u16At, u16At, if_pos (by rw [List.length_append]; omega), if_pos (by omega),
      List.getD_append _ _ _ _ (by omega), List.getD_append _ _ _ _ (by omega)]
  rw [readSet, EntrySet.secondary, List.foldl_cons, List.foldl_append,
    foldl_names _ fun e he => (h.names e he).2, foldl_others _ fun e he => (h.others e he).2,
    hu16]
  simp only [secondaryStep, hstream, if_true, List.nil_append, EntrySet.info, EntrySet.units]
  have htake := take_filter_ne h.units
  rw [EntrySet.nameLength] at htake
  rw [htake]
  rfl

theorem EntrySet.WellFormed.name_ne_nil {s : EntrySet} (h : s.WellFormed) : s.info.name ≠ [] := by
  have hlen := h.nameLength
  have hunits : s.units.length = s.nameLength := by
    have htotal : (s.names.flatMap nameUnits).length = 15 * s.names.length := by
      induction s.names with
      | nil => rfl
      | cons e names ih =>
        rw [List.flatMap_cons, List.length_append, ih, List.length_cons]
        simp [nameUnits]
        omega
    rw [EntrySet.units, List.length_take]
    omega
  intro hname
  rw [EntrySet.info, Lib.Utf16.decode_eq_nil] at hname
  rw [hname, List.length_nil] at hunits
  omega

variable {boot : ExfatBoot}

theorem listLoop_arranged {data : Bytes} {sets : List EntrySet} (h : Arranged data sets)
    {fuel : Nat} (hfuel : data.length < fuel) :
    listLoop boot fuel data =
      .ok ((sets.map EntrySet.info).filter fun e => boot.InHeap e.firstCluster) := by
  induction h generalizing fuel with
  | empty =>
    obtain ⟨fuel, rfl⟩ : ∃ k, fuel = k + 1 := ⟨fuel - 1, by omega⟩
    rfl
  | @stop data _ htype =>
    obtain ⟨fuel, rfl⟩ : ∃ k, fuel = k + 1 := ⟨fuel - 1, by omega⟩
    rw [listLoop]
    split
    · rw [if_pos htype]
      rfl
    · rfl
  | @skip e data sets hlen htype htype' _ ih =>
    obtain ⟨fuel, rfl⟩ : ∃ k, fuel = k + 1 := ⟨fuel - 1, by omega⟩
    rw [List.length_append] at hfuel
    rw [listLoop, if_pos (by rw [List.length_append]; omega), entryType_append hlen, if_neg htype,
      if_pos htype', List.drop_left' hlen]
    exact ih (by omega)
  | @set s data sets hs _ ih =>
    obtain ⟨fuel, rfl⟩ : ∃ k, fuel = k + 1 := ⟨fuel - 1, by omega⟩
    have hlen := hs.primary.1
    have hsecs := hs.length_secondary
    have hflat := length_flatten hsecs
    have hcount : ((s.bytes ++ data).getD 1 0).toNat = s.secondary.length := by
      rw [EntrySet.bytes, List.append_assoc, List.getD_append _ _ _ _ (by omega)]
      exact hs.secondaryCount
    have hdrop : (s.bytes ++ data).drop 32 = s.secondary.flatten ++ data := by
      rw [EntrySet.bytes, List.append_assoc, List.drop_left' hlen]
    have hrest : (s.bytes ++ data).drop (32 * (1 + s.secondary.length)) = data := by
      apply List.drop_left'
      rw [EntrySet.bytes, List.length_append]
      omega
    have htype : entryType (s.bytes ++ data) = 0x85 := by
      rw [EntrySet.bytes, List.append_assoc, entryType_append hlen]
      exact hs.primary.2
    have hread : readSet (s.bytes ++ data) s.secondary = s.info := by
      rw [EntrySet.bytes, List.append_assoc]
      exact readSet_eq hs _
    have hbytes : (s.bytes ++ data).length = 32 + 32 * s.secondary.length + data.length := by
      rw [EntrySet.bytes, List.length_append, List.length_append]
      omega
    rw [listLoop, if_pos (by omega), htype, if_neg (by decide), if_neg (by decide), hcount, hdrop]
    simp only [secondaries_flatten hsecs, hread, hrest, ih (show data.length < fuel by omega),
      ok_bind]
    by_cases hheap : boot.InHeap s.info.firstCluster
    · rw [if_pos ⟨hheap, hs.name_ne_nil⟩, List.map_cons,
        List.filter_cons_of_pos (by simpa using hheap)]
      rfl
    · rw [if_neg fun h => hheap h.1, List.map_cons,
        List.filter_cons_of_neg (by simpa using hheap)]
      rfl

theorem listLoop_inHeap {fuel : Nat} {data : Bytes} {entries : List EntryInfo}
    (h : listLoop boot fuel data = .ok entries) :
    ∀ e ∈ entries, boot.InHeap e.firstCluster := by
  induction fuel generalizing data entries with
  | zero => contradiction
  | succ fuel ih =>
    rw [listLoop] at h
    split at h
    · simp only [] at h
      split at h
      · cases h
        simp
      split at h
      · exact ih h
      · obtain ⟨rest, hrest, h⟩ := bind_eq_ok h
        split at h
        next hin =>
          cases h
          intro e he
          rcases List.mem_cons.mp he with rfl | he
          · exact hin.1
          · exact ih hrest e he
        · cases h
          exact ih hrest
    · cases h
      simp

end Vibra.Exfat
