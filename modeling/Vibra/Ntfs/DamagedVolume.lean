import Vibra.Ntfs.Robust

/-! # Files and operations on a damaged NTFS volume

Opening a file parses its run list, reading it follows the runs, and seeking adds what the
caller gives to a position or a size.
-/

namespace Vibra.Ntfs

open Lib (Outcome Bytes RawDisk u16At u32At u64At u16At_lt u32At_lt u64At_lt)
open Lib.Outcome
open Fat32 (Name)

/-! ## Where a file's content lies -/

/-- The run list of the file, if it has one in the record, can be read. -/
def StorageFits (record : Bytes) : Prop :=
  ∀ attrs a, attrOffsets record = .ok attrs → attrs.find? (isUnnamedData record) = some a →
    isResident record a = false → a.1 + u16At record (a.1 + 32) ≤ record.length →
    a.1 + u32At record (a.1 + 4) ≤ record.length → RunListFits record a.1

def FileStorage.Ok : FileStorage → Prop
  | .resident data => data.length < 2 ^ 32
  | runs list size => RunsOk list ∧ size < 2 ^ 64

section Record

variable {record : Bytes} (hrec : record.length < 2 ^ 32)

include hrec

theorem storageAttr_eq {attr : Nat × Nat} (hattr : HasHeader record attr) :
    storageAttr record attr =
      if isUnnamedData record attr then
        if isResident record attr then
          attrResidentValue record attr.1 >>= fun value =>
            match value with
            | none => .err .ioError
            | some value => .ok (some (.resident value))
        else if attr.1 + u16At record (attr.1 + 32) > record.length ∨
            attr.1 + u32At record (attr.1 + 4) > record.length then .err .ioError
        else attrRuns record attr.1 >>= fun runs =>
          .ok (some (.runs runs (u64At record (attr.1 + 48))))
      else .ok none := by
  have hlen : attr.1 + 24 ≤ record.length := hattr
  have h1 := u16At_lt record (attr.1 + 32)
  have h2 := u32At_lt record (attr.1 + 4)
  obtain ⟨off, atype⟩ := attr
  have h8 : (get record (off + 8) : Res UInt8) = .ok (record.getD (off + 8) 0) :=
    get_header hattr (by decide)
  have h9 : (get record (off + 9) : Res UInt8) = .ok (record.getD (off + 9) 0) :=
    get_header hattr (by decide)
  simp only at hlen h1 h2
  simp only [storageAttr, isUnnamedData, isResident, Bool.and_eq_true, decide_eq_true_eq]
  by_cases htype : atype = attrData
  · rw [if_neg (not_not.mpr htype), add_of_lt (by omega), ok_bind, h9, ok_bind]
    by_cases hname : record.getD (off + 9) 0 = 0
    · have hdata : atype = attrData ∧ record.getD (off + 9) 0 = 0 := ⟨htype, hname⟩
      rw [if_neg (not_not.mpr hname), add_of_lt (by omega), ok_bind, h8, ok_bind, if_pos hdata]
      by_cases hres : record.getD (off + 8) 0 = 0
      · rw [if_pos hres, if_pos hres]
        rfl
      · rw [if_neg hres, if_neg hres, add_of_lt (by omega), ok_bind, rdU32_of_lt (by omega),
          ok_bind, add_of_lt (by omega), ok_bind, rdU16_of_lt (by omega), ok_bind,
          add_of_lt (by omega), ok_bind, add_of_lt (by omega), ok_bind]
        split
        · rfl
        · rw [add_of_lt (by omega), ok_bind, rdU64_of_lt (by omega), ok_bind]
          rfl
    · rw [if_pos hname, if_neg fun h => hname h.2, pure_eq]
  · rw [if_pos htype, if_neg fun h => htype h.1, pure_eq]

theorem first_storageAttr {attrs : List (Nat × Nat)} (hattrs : ∀ a ∈ attrs, HasHeader record a) :
    first (storageAttr record) attrs = (attrs.find? (isUnnamedData record)).elim (.ok none)
      (storageAttr record) := by
  apply first_eq_find
  · intro a ha hp
    rw [storageAttr_eq hrec (hattrs a ha), hp]
    rfl
  · intro a ha hp h
    rw [storageAttr_eq hrec (hattrs a ha), if_pos hp] at h
    split at h
    · obtain ⟨value, _, hvalue⟩ := bind_eq_ok h
      cases value with
      | none => contradiction
      | some value => exact Option.some_ne_none _ (Outcome.ok.inj hvalue)
    · split at h
      · contradiction
      · obtain ⟨runs, _, hruns⟩ := bind_eq_ok h
        exact Option.some_ne_none _ (Outcome.ok.inj hruns)

theorem storageAttr_ensures {attr : Nat × Nat} (hattr : HasHeader record attr)
    (h : isResident record attr = false → attr.1 + u16At record (attr.1 + 32) ≤ record.length →
      attr.1 + u32At record (attr.1 + 4) ≤ record.length → RunListFits record attr.1) :
    (storageAttr record attr).Ensures fun found => ∀ storage, found = some storage →
      storage.Ok := by
  rw [storageAttr_eq hrec hattr, ensures_ite]
  refine ⟨fun _ => ?_, fun _ => by simp⟩
  rw [ensures_ite]
  refine ⟨fun _ => ?_, fun hres => ?_⟩
  · rw [ensures_bind]
    refine (attrResidentValue_ensures hrec hattr).mono fun value hvalue => ?_
    cases value with
    | none => trivial
    | some value =>
      intro storage hstorage
      cases hstorage
      show value.length < 2 ^ 32
      have hlen := hvalue value rfl
      omega
  · rw [ensures_ite]
    refine ⟨fun _ => trivial, fun hin => ?_⟩
    rw [not_or, not_lt, not_lt] at hin
    rw [ensures_bind]
    have hfit := h (by simpa using hres) hin.1 hin.2
    refine (attrRuns_ensures hrec hattr hin.2 hfit).mono fun runs hruns => ?_
    intro storage hstorage
    cases hstorage
    exact ⟨hruns, u64At_lt _ _⟩

theorem fileStorage_ensures (h : StorageFits record) :
    (fileStorage record).Ensures FileStorage.Ok := by
  have hattrs := attrOffsets_ensures hrec
  rw [fileStorage, ensures_bind]
  refine Safe.ensures (hattrs.mono fun _ _ => trivial) fun attrs hok => ?_
  have hheaders := hattrs.of_ok hok
  rw [ensures_bind, first_storageAttr hrec hheaders]
  cases hfind : attrs.find? (isUnnamedData record) with
  | none => trivial
  | some a =>
    have ha := List.mem_of_find?_eq_some hfind
    refine (storageAttr_ensures hrec (hheaders a ha) (h attrs a hok hfind)).mono
      fun found hfound => ?_
    cases found with
    | none => trivial
    | some storage => exact hfound storage rfl

theorem fileStorage_safe_iff : (fileStorage record).Safe ↔ StorageFits record := by
  constructor
  · intro h attrs a hok hfind hres hstart hstop
    have hheaders := (attrOffsets_ensures hrec).of_ok hok
    have ha := List.mem_of_find?_eq_some hfind
    have hfirst := (safe_bind.mp ((safe_bind.mp h).2 attrs hok)).1
    rw [first_storageAttr hrec hheaders, hfind, Option.elim_some,
      storageAttr_eq hrec (hheaders a ha), if_pos (List.find?_some hfind), if_neg (by simp [hres]),
      if_neg (by omega), safe_bind] at hfirst
    exact (attrRuns_safe_iff hrec (hheaders a ha) hstop).mp hfirst.1
  · exact fun h => (fileStorage_ensures hrec h).mono fun _ _ => trivial

theorem dataSize_safe : (dataSize record).Safe := by
  have hattrs := attrOffsets_ensures hrec
  rw [dataSize, safe_bind]
  refine ⟨hattrs.mono fun _ _ => trivial, fun attrs hok => ?_⟩
  have hheaders := hattrs.of_ok hok
  rw [Safe, ensures_bind]
  refine (first_ensures (Q := fun _ => True) fun a ha => ?_).mono fun _ _ => trivial
  have hlen : a.1 + 24 ≤ record.length := hheaders a ha
  have h8 := get_header (hheaders a ha) (k := 8) (by decide)
  have h9 := get_header (hheaders a ha) (k := 9) (by decide)
  obtain ⟨off, atype⟩ := a
  simp only at hlen h8 h9
  simp only [sizeAttr, ensures_ite, ensures_bind, ensures_add, pure_eq, ensures_ok, h8, h9,
    ensures_rdU32, ensures_rdU64]
  refine ⟨fun _ => by simp, fun _ => ⟨by omega, fun _ => by simp, fun _ => ⟨by omega,
    fun _ => ⟨by omega, by omega, by simp⟩, fun _ => ⟨by omega, by omega, by simp⟩⟩⟩⟩

end Record

namespace NtfsFile

variable {file : NtfsFile}

structure Valid (file : NtfsFile) : Prop where
  clusterSize : 0 < file.clusterSize ∧ file.clusterSize < 2 ^ 32
  storage : file.storage.Ok

/-- The places that a read of `len` bytes comes to have sectors of 64 bits. -/
def ReadFits (file : NtfsFile) (len : Nat) : Prop :=
  ∀ list size, file.storage = .runs list size →
    PlacesFit file.disk file.clusterSize list file.position (min len (size - file.position))

/-- The sum of a position or size and an offset, as `i64`. -/
def SeekFits (file : NtfsFile) : SeekFrom → Prop
  | .start _ => True
  | .current o => -2 ^ 63 ≤ toI64 file.position + o.toInt ∧
      toI64 file.position + o.toInt < 2 ^ 63
  | .end o => -2 ^ 63 ≤ toI64 file.storage.len + o.toInt ∧
      toI64 file.storage.len + o.toInt < 2 ^ 63

theorem read_safe_iff (hv : file.Valid) (len : Nat) :
    (file.read len).Safe ↔ file.ReadFits len := by
  have hok := hv.storage
  cases hstorage : file.storage with
  | resident data =>
    rw [hstorage] at hok
    have hlen : data.length < 2 ^ 32 := hok
    simp only [read, content, Safe, hstorage, FileStorage.len, ensures_ite, pure_eq, ensures_ok,
      ensures_bind, ensures_add, ensures_slice]
    refine ⟨fun _ list size h => ?_, fun _ => ⟨fun _ => trivial, fun hin => ?_⟩⟩
    · rw [hstorage] at h
      contradiction
    · exact ⟨by omega, by omega, by omega, trivial⟩
  | runs list size =>
    rw [hstorage] at hok
    obtain ⟨hruns, hsize⟩ : RunsOk list ∧ size < 2 ^ 64 := hok
    have hfits : file.ReadFits len ↔ PlacesFit file.disk file.clusterSize list file.position
        (min len (size - file.position)) := by
      refine ⟨fun h => h list size hstorage, fun h list' size' h' => ?_⟩
      rw [hstorage] at h'
      cases h'
      exact h
    rw [hfits]
    by_cases hend : file.position ≥ size ∨ len = 0
    · rw [read, hstorage, FileStorage.len, if_pos hend]
      exact ⟨fun _ n run _ hn => by omega, fun _ => trivial⟩
    · have hreadable : Readable file.clusterSize list file.position
          (min len (size - file.position)) := ⟨hv.clusterSize, hruns, by omega⟩
      have hcontent (n : Nat) : file.content n =
          readRunsInto file.disk file.clusterSize list file.position n := by
        rw [content, hstorage]
      rw [← readRunsInto_safe_iff hreadable, ← hcontent, read, hstorage, FileStorage.len,
        if_neg hend, safe_bind]
      refine ⟨fun h => h.1, fun h => ⟨h, fun data _ => ?_⟩⟩
      simp only [Safe, ensures_bind, ensures_add, pure_eq, ensures_ok]
      exact ⟨by omega, trivial⟩

theorem seek_safe_iff (pos : SeekFrom) : (file.seek pos).Safe ↔ file.SeekFits pos := by
  have htarget : (file.seek pos).Safe ↔ (file.target pos).Safe := by
    rw [seek, safe_bind]
    refine ⟨fun h => h.1, fun h => ⟨h, fun new _ => ?_⟩⟩
    rw [Safe, ensures_ite]
    exact ⟨fun _ => trivial, fun _ => trivial⟩
  rw [htarget]
  cases pos with
  | start o => exact ⟨fun _ => trivial, fun _ => trivial⟩
  | current o =>
    rw [target, Safe, ensures_addInt]
    exact and_iff_left trivial
  | «end» o =>
    rw [target, Safe, ensures_addInt]
    exact and_iff_left trivial

end NtfsFile

namespace NtfsFs

variable {fs : NtfsFs}

/-- The files that `open` returns, and what reading and seeking make of them. -/
inductive Opened (fs : NtfsFs) : NtfsFile → Prop
  | «open» {path : Name} {file : NtfsFile} : fs.open path = .ok file → Opened fs file
  | read {file file' : NtfsFile} {len : Nat} {data : Bytes} : Opened fs file →
      file.read len = .ok (file', data) → Opened fs file'
  | seek {file file' : NtfsFile} {pos : SeekFrom} {n : Nat} : Opened fs file →
      file.seek pos = .ok (file', n) → Opened fs file'

/-- Every operation on a path returns. -/
structure OperationsSafe (fs : NtfsFs) : Prop where
  readdir : ∀ path, (fs.readdir path).Safe
  «open» : ∀ path, (fs.open path).Safe
  stat : ∀ path, (fs.stat path).Safe
  «exists» : ∀ path, (fs.exists path).Safe

/-- The records that paths lead to can be read, and the run lists of their files parsed. -/
structure RecordsFit (fs : NtfsFs) : Prop where
  paths : fs.PathsFit
  files : ∀ record, fs.Walked record → recordIsDir record = false → StorageFits record

theorem open_ensures (hv : fs.Valid) (h : fs.RecordsFit) (path : Name) :
    (fs.open path).Ensures NtfsFile.Valid := by
  rw [NtfsFs.open, ensures_bind]
  refine ((findPath_safe_iff hv).mpr h.paths path).ensures fun record hpath => ?_
  have hwalked := walked_iff.mpr ⟨path, hpath⟩
  rw [ensures_ite]
  refine ⟨fun _ => trivial, fun hfile => ?_⟩
  rw [ensures_bind]
  refine (fileStorage_ensures (hwalked.length hv) (h.files record hwalked (by simpa using
    hfile))).mono fun storage hstorage => ?_
  rw [hv.boot.clusterSize]
  exact ⟨hv.boot.cluster, hstorage⟩

theorem operationsSafe_iff (hv : fs.Valid) : fs.OperationsSafe ↔ fs.RecordsFit := by
  constructor
  · intro h
    have hpaths : fs.PathsFit := by
      refine (findPath_safe_iff hv).mp fun path => ?_
      have hexists := (safe_bind.mp (h.exists path)).1
      simp only [Safe, ensures_attempt] at hexists
      exact hexists.1
    refine ⟨hpaths, fun record hwalked hfile => ?_⟩
    obtain ⟨path, hpath⟩ := walked_iff.mp hwalked
    have hopen := (safe_bind.mp (h.open path)).2 record hpath
    rw [if_neg (by simp [hfile]), safe_bind] at hopen
    exact (fileStorage_safe_iff (hwalked.length hv)).mp hopen.1
  · intro h
    have hpath := (findPath_safe_iff hv).mpr h.paths
    refine ⟨fun path => ?_, fun path => (open_ensures hv h path).mono fun _ _ => trivial,
      fun path => ?_, fun path => ?_⟩
    · rw [readdir, safe_bind]
      refine ⟨hpath path, fun record hok => ?_⟩
      have hwalked := walked_iff.mpr ⟨path, hok⟩
      rw [Safe, ensures_ite]
      refine ⟨fun hdir => ?_, fun _ => trivial⟩
      rw [ensures_bind]
      exact (listDir_ensures (hwalked.length hv) hv
        (h.paths.directories record hwalked hdir)).mono fun _ _ => trivial
    · rw [stat, safe_bind]
      refine ⟨hpath path, fun record hok => ?_⟩
      have hsize := dataSize_safe ((walked_iff.mpr ⟨path, hok⟩).length hv)
      cases recordIsDir record with
      | true => trivial
      | false => exact safe_bind.mpr ⟨hsize, fun _ _ => trivial⟩
    · rw [NtfsFs.exists, safe_bind]
      refine ⟨?_, fun found _ => ?_⟩
      · simp only [Safe, ensures_attempt]
        exact ⟨hpath path, fun _ _ => trivial, fun _ _ => trivial⟩
      · cases found <;> trivial

theorem open_valid (hv : fs.Valid) {path : Name} {file : NtfsFile}
    (h : fs.open path = .ok file) : file.Valid := by
  obtain ⟨record, hpath, hrest⟩ := bind_eq_ok h
  have hlen := (walked_iff.mpr ⟨path, hpath⟩).length hv
  split at hrest
  · contradiction
  · obtain ⟨storage, hstorage, hfile⟩ := bind_eq_ok hrest
    rw [hv.boot.clusterSize] at hfile
    cases hfile
    have hsafe : (fileStorage record).Safe := by
      rw [hstorage]
      trivial
    exact ⟨hv.boot.cluster,
      (fileStorage_ensures hlen ((fileStorage_safe_iff hlen).mp hsafe)).of_ok hstorage⟩

theorem Opened.valid (hv : fs.Valid) {file : NtfsFile} (h : fs.Opened file) : file.Valid := by
  induction h with
  | «open» hopen => exact open_valid hv hopen
  | @read file file' len data _ hread ih =>
    simp only [NtfsFile.read] at hread
    split at hread
    · cases hread
      exact ih
    · obtain ⟨data', _, hrest⟩ := bind_eq_ok hread
      obtain ⟨position, _, hrest⟩ := bind_eq_ok hrest
      cases hrest
      exact ⟨ih.clusterSize, ih.storage⟩
  | @seek file file' pos n _ hseek ih =>
    obtain ⟨new, _, hrest⟩ := bind_eq_ok hseek
    split at hrest
    · contradiction
    · cases hrest
      exact ⟨ih.clusterSize, ih.storage⟩

end NtfsFs

/-- A boot sector that gives records of 2 to the power of 32 bytes. -/
def wideRecords : RawDisk :=
  RawDisk.ofMemory 1 fun a =>
    (([(3, 0x4E), (4, 0x54), (5, 0x46), (6, 0x53), (7, 0x20), (8, 0x20), (9, 0x20), (10, 0x20),
      (12, 2), (13, 8), (40, 1), (48, 4), (64, 0xE0)] : List (Nat × UInt8)).lookup a).getD 0

end Vibra.Ntfs
