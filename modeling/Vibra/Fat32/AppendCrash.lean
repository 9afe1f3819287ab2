import Vibra.Fat32.FileWrite
import Vibra.Fat32.Containment

/-! # Appending to a file, cut at any write

The log is appended to by `write_at` and then `publish_size`. Wherever the power
is cut, the file reads as before or with all the new bytes.
-/

namespace Vibra.Fat32

open Lib (Memory Prog LinkTable)
open Lib.Prog (wp)
open Lib.LinkTable (Partition)

variable {geo : Fat32Geo} {m₀ m m' : Memory} {dirs : Set Nat} {rest : List (List Nat)}
  {l₀ l : List Nat} {p : Nat × Nat} {fs : Fat32Fs} {now : DosTime} {data : List UInt8}

def SameBoot (m m' : Memory) : Prop := ∀ i < 512, m' i = m i

theorem SameBoot.withMode (h : SameBoot m m') (readOnly : Bool) :
    ((Fat32Fs.withMode readOnly).run disk m').1 = ((Fat32Fs.withMode readOnly).run disk m).1 := by
  have hget : ∀ i < 512, disk.read m' 0 i = disk.read m 0 i := by
    intro i hi
    rw [disk_read, disk_read, Nat.mul_zero, Nat.zero_add, h i hi]
  have h16 : ∀ k, k + 2 ≤ 512 →
      Memory.le16 (disk.read m' 0) k = Memory.le16 (disk.read m 0) k :=
    fun k hk => Memory.le16_congr fun i hi => hget (k + i) (by omega)
  have h32 : ∀ k, k + 4 ≤ 512 →
      Memory.le32 (disk.read m' 0) k = Memory.le32 (disk.read m 0) k :=
    fun k hk => Memory.le32_congr fun i hi => hget (k + i) (by omega)
  have hboot : Fat32BootSector.ofSector (disk.read m' 0) =
      Fat32BootSector.ofSector (disk.read m 0) := by
    have hlabel : (disk.read m' 0).slice 71 11 = (disk.read m 0).slice 71 11 :=
      Memory.slice_congr fun i hi => hget (71 + i) (by omega)
    simp only [Fat32BootSector.ofSector, Fat32BootSector.mk.injEq]
    exact ⟨h16 11 (by decide), congrArg UInt8.toNat (hget 13 (by decide)), h16 14 (by decide),
      congrArg UInt8.toNat (hget 16 (by decide)), h16 17 (by decide), h16 19 (by decide),
      h16 22 (by decide), h32 32 (by decide), h32 36 (by decide), h32 44 (by decide),
      h16 48 (by decide), hlabel⟩
  rw [Fat32Fs.run_withMode, Fat32Fs.run_withMode, hboot]

theorem WrittenAt.sameBoot {offset n : Nat} (hgeo : geo.Valid)
    (h : WrittenAt geo m₀ l offset n m) : SameBoot m₀ m := by
  have hstart := hgeo.fatStart
  have hdata := hgeo.data
  have hmul := Nat.zero_le (geo.fatCount * geo.fatSize)
  intro i hi
  refine h i ?_ ?_ fun q _ _ _ heq => ?_
  · unfold Fat32Geo.InFat
    omega
  · rintro ⟨⟨hne, -⟩, hlo, -⟩
    omega
  · unfold Fat32Geo.fileAddr Fat32Geo.clusterAddr at heq
    omega

theorem SlotChange.sameBoot {clusters : List Nat} (hgeo : geo.Valid) (h : SlotChange m p m')
    (hp : p ∈ dirSlots geo clusters) : SameBoot m m' := by
  obtain ⟨c, -, hlo, -, -⟩ := mem_dirSlots.mp hp
  have hstart := hgeo.fatStart
  have hdata := hgeo.data
  have hmul := Nat.zero_le (geo.fatCount * geo.fatSize)
  intro i hi
  refine h i (Or.inl ?_)
  unfold slotAddr
  omega

/-- Every path reads as before, but a path to the slot `p` as `f` of it. -/
def ReadsAs (fs : Fat32Fs) (m₀ : Memory) (p : Nat × Nat) (f : List UInt8 → List UInt8)
    (m : Memory) : Prop :=
  ∀ path, readFile fs m path = (readFile fs m₀ path).map
    (if resolve fs.geo m₀ path = .ok (some (dirSlotAt m₀ p)) then f else id)

theorem readsAs_id (h : ∀ path, readFile fs m path = readFile fs m₀ path) :
    ReadsAs fs m₀ p id m := by
  intro path
  rw [ite_self, h path]
  cases readFile fs m₀ path <;> rfl

def Appending (fs : Fat32Fs) (m₀ : Memory) (p : Nat × Nat) (data : List UInt8) (m : Memory) :
    Prop :=
  SameBoot m₀ m ∧ (ReadsAs fs m₀ p id m ∨ ReadsAs fs m₀ p (· ++ data) m)

theorem appending_of_cut (hgeo : fs.geo.Valid) (hfs : fs.geo.FsInfoReserved)
    (h : FileAt fs.geo m₀ dirs p l₀ rest)
    (hcut : Cut fs.geo m₀ l₀ rest (entryAt m₀ p).fileSize data m) :
    Appending fs m₀ p data m := by
  obtain ⟨n, l, -, hext, hw, hpart⟩ := hcut
  refine ⟨hw.sameBoot hgeo, Or.inl (readsAs_id ?_)⟩
  rcases hpart with hpart | ⟨d, -, hpart⟩
  · exact h.readFile_cut hgeo hfs hext hw hpart (fun _ hk => hk) (Nat.le_refl _)
  · exact h.readFile_cut hgeo hfs hext hw (hpart.perm (List.Perm.swap l [d] rest))
      (fun _ hk => List.mem_cons_of_mem _ hk) (Nat.le_refl _)

theorem append_spec (hgeo : fs.geo.Sound) (hfs : fs.geo.FsInfoReserved) (hrw : fs.readOnly = false)
    (h : FileAt fs.geo m₀ dirs p l₀ rest) {sink : Sink} (hslot : sink.slot.pos = p)
    (hstart : sink.startCluster = (entryAt m₀ p).cluster)
    (hwritten : sink.written = (entryAt m₀ p).fileSize)
    (hsize : (entryAt m₀ p).fileSize + data.length < 2 ^ 32) :
    wp disk (fun m _ => Appending fs m₀ p data m) (fun _ m => Appending fs m₀ p data m)
      (fun _ m => Appending fs m₀ p data m) (sink.append fs now data) m₀ := by
  have hcut : ∀ m, Cut fs.geo m₀ l₀ rest (entryAt m₀ p).fileSize data m →
      Appending fs m₀ p data m := fun _ hcut => appending_of_cut hgeo.toValid hfs h hcut
  rw [Sink.append, Prog.wp_bind, Fat32Fs.writeAt, hrw, if_neg Bool.false_ne_true, hstart, hwritten]
  refine writeRange_spec hgeo h.part h.start (fun m w hc _ => hcut m hc)
    (fun n l start m hn hw _ _ => ?_) fun l start m hw hs _ => ?_
  · exact hcut m (hw.cut (Nat.le_of_lt hn))
  · obtain ⟨hpub, hbytes⟩ := h.published now hgeo hfs hw.frame hw.part hs hsize
    have hold : (content fs.geo m₀ (entryAt m₀ p)).length = (entryAt m₀ p).fileSize := by
      rw [h.content_eq, List.length_take, length_chainBytes]
      exact Nat.min_eq_left h.size
    have hcontent : (chainBytes fs.geo (setSlot m now p start ((entryAt m₀ p).fileSize +
        data.length)) l).take ((entryAt m₀ p).fileSize + data.length) =
        content fs.geo m₀ (entryAt m₀ p) ++ data := by
      have htake := hw.take_chainBytes hgeo.toValid hfs h.size (Nat.le_refl _)
      rw [Nat.max_eq_right (Nat.le_add_right _ _), ← h.content_eq] at htake
      rw [hbytes, htake]
      conv_lhs => rw [← hold]
      exact overlay_length _ _
    have hfinal : Appending fs m₀ p data
        (setSlot m now p start ((entryAt m₀ p).fileSize + data.length)) := by
      obtain ⟨d, hd, hpd⟩ := h.slotOf
      refine ⟨fun i hi => ?_, Or.inr (h.readFile_published hgeo.toValid hpub hs hcontent)⟩
      rw [(setSlot_change.sameBoot hgeo.toValid hpd) i hi, (hw.frame.sameBoot hgeo.toValid) i hi]
    dsimp only
    simp only [Prog.wp_bind, Prog.wp_attempt, Prog.wp_pure, Fat32Fs.publishSize,
      Fat32Fs.guardWrite, hrw, Bool.false_eq_true, if_false]
    rw [Nat.mod_eq_of_lt hsize]
    refine setEntry_spec ?_ (fun w _ _ => hcut m (hw.cut (Nat.le_refl _))) ?_
    · have hoff := (mem_slotOffsets h.slotOf.offset).2
      rw [← hslot] at hoff
      exact hoff
    · rw [hslot]
      exact hfinal

theorem lookup_listed (htree : Tree fs.geo m₀ dirs rest) (hdots : DotsInside fs.geo m₀ dirs)
    {path : Name} {start size : Nat} {slot : DirSlot}
    (h : ((fs.lookup path).run disk m₀).1 = .ok (some (start, size, slot))) :
    (∃ d ∈ dirs, ∃ x ∈ listing fs.geo m₀ d, x.1 = slot) ∧ slot.entry.isFile = true ∧
      start = slot.entry.cluster ∧ size = slot.entry.fileSize := by
  have hwp : wp disk (fun _ _ => True) (fun r _ => ∀ start size slot, r = some (start, size, slot) →
      resolve fs.geo m₀ path = .ok (some slot) ∧ slot.entry.isFile = true ∧
        start = slot.entry.cluster ∧ size = slot.entry.fileSize) (fun _ _ => True)
      (fs.lookup path) m₀ := by
    rw [Fat32Fs.lookup, Prog.wp_bind, wp_findPath]
    cases hres : resolve fs.geo m₀ path with
    | error e => trivial
    | ok found =>
      cases found with
      | none =>
        intro start size slot heq
        cases heq
      | some found =>
        dsimp only
        by_cases hfile : found.entry.isFile = true
        · rw [if_pos hfile]
          intro start size slot heq
          cases heq
          exact ⟨rfl, hfile, rfl, rfl⟩
        · rw [if_neg hfile]
          trivial
  have hrun := Prog.wp_run hwp
  revert hrun h
  rcases (fs.lookup path).run disk m₀ with ⟨e | r, m'⟩
  · exact fun h => by cases h
  · intro h hrun
    cases h
    obtain ⟨hres, hfile, hstart, hsize⟩ := hrun _ _ _ rfl
    refine ⟨?_, hfile, hstart, hsize⟩
    by_cases hpath : pathParts path = []
    · rw [resolve, if_pos hpath] at hres
      cases hres
      simp [rootSlot, FatDirEntry.isFile, FatDirEntry.isDirectory, FatDirEntry.attrDirectory]
        at hfile
    · rw [resolve, if_neg hpath] at hres
      exact resolveParts_mem htree hdots (Or.inr htree.root) hres

/-- Wherever the power is cut while a log sink appends to its file, the volume
mounts as before, the file reads as its old content or as that followed by all of
the data, and every other file reads as before. -/
theorem append_crash {chains : List (List Nat)}
    (hmount : (Fat32Fs.newRw.run disk m₀).1 = .ok fs) (hsane : fs.geo.Sane)
    (hfs : fs.geo.FsInfoReserved) (hvol : WellFormedTree fs.geo m₀ dirs chains) {path : Name}
    {start size : Nat} {slot : DirSlot}
    (hfile : ((fs.lookup path).run disk m₀).1 = .ok (some (start, size, slot)))
    (hsize : size + data.length < 2 ^ 32) {sink : Sink} (hslot : sink.slot = slot)
    (hstart : sink.startCluster = start) (hwritten : sink.written = size) (n : Nat) :
    let m := Prog.replay disk (((sink.append fs now data).trace disk m₀).take n) m₀
    (Fat32Fs.newRw.run disk m).1 = .ok fs ∧
      ((∀ path', readFile fs m path' = readFile fs m₀ path') ∨
        ∀ path', readFile fs m path' =
          if ((findPath fs.geo path').run disk m₀).1 = .ok (some slot) then
            (readFile fs m₀ path').map (· ++ data)
          else readFile fs m₀ path') := by
  obtain ⟨hboot, hmode⟩ := Fat32Fs.withMode_run hmount
  have hgeo : fs.geo.Sound := ⟨Fat32BootSector.geo_valid hboot, hsane⟩
  obtain ⟨⟨d, hd, x, hx, rfl⟩, hisFile, rfl, rfl⟩ := lookup_listed hvol.toTree hvol.inside hfile
  obtain ⟨l₀, rest, hat⟩ := hvol.fileAt hd hx hisFile
  obtain ⟨-, hx', -⟩ := mem_listing hx
  have hentry : x.1.entry = entryAt m₀ x.1.pos := by rw [hx', dirSlotAt_entry, dirSlotAt_pos]
  have hspec := Prog.wp_crash (p := sink.append fs now data) (append_spec hgeo hfs hmode hat
    (by rw [hslot]) (by rw [hstart, hentry]) (by rw [hwritten, hentry]) (by rwa [hentry] at hsize))
  obtain ⟨hsame, hreads⟩ := hspec n
  refine ⟨(hsame.withMode false).trans hmount, hreads.imp (fun h path' => ?_) fun h path' => ?_⟩
  · rw [h path', ite_self]
    cases readFile fs m₀ path' <;> rfl
  · rw [h path', findPath_run, ← hx']
    split
    · rfl
    · cases readFile fs m₀ path' <;> rfl

/-- The small volume with the file `A` of two bytes in cluster 3. -/
def logVolume : Memory :=
  Memory.put (Memory.put (smallVolume.put 1024
    { Fat32Fs.fileEntry ⟨0, 0⟩ (0x41 :: List.replicate 10 0x20) with
      firstClusterLow := 3
      fileSize := 2 }.bytes) 524 (Memory.toLe32 fatEoc)) 1536 [0x68, 0x69]

def logSlot : DirSlot := dirSlotAt logVolume (2, 0)

theorem logVolume_read : listing smallFs.geo logVolume 2 = [(logSlot, ['A'])] ∧
    ((links smallFs.geo logVolume 2 = .stop ∧ links smallFs.geo logVolume 3 = .stop) ∧
      links smallFs.geo logVolume 4 = .free) ∧
    (logSlot.pos = (2, 0) ∧ logSlot.entry.isDot = false ∧ logSlot.entry.isDirectory = false ∧
      logSlot.entry.cluster = 3) ∧ logSlot.entry.fileSize = 2 := by
  decide

theorem listing_logVolume : listing smallFs.geo logVolume 2 = [(logSlot, ['A'])] :=
  logVolume_read.1

theorem links_logVolume : (links smallFs.geo logVolume 2 = .stop ∧
    links smallFs.geo logVolume 3 = .stop) ∧ links smallFs.geo logVolume 4 = .free :=
  logVolume_read.2.1

theorem logSlot_entry : (logSlot.pos = (2, 0) ∧ logSlot.entry.isDot = false ∧
    logSlot.entry.isDirectory = false ∧ logSlot.entry.cluster = 3) ∧
    logSlot.entry.fileSize = 2 :=
  logVolume_read.2.2

theorem partition_logVolume :
    Partition (links smallFs.geo logVolume) smallFs.geo.InRange [[2], [3]] where
  chain l hl := by
    simp only [List.mem_cons, List.not_mem_nil, or_false] at hl
    rcases hl with rfl | rfl
    · exact links_logVolume.1.1
    · exact links_logVolume.1.2
  nodup := by decide
  mem_iff a := by
    constructor
    · intro ha
      simp only [List.flatten_cons, List.flatten_nil, List.append_nil, List.mem_append,
        List.mem_singleton] at ha
      rcases ha with rfl | rfl
      · rw [links_logVolume.1.1]
        exact ⟨⟨by decide, by decide⟩, by simp⟩
      · rw [links_logVolume.1.2]
        exact ⟨⟨by decide, by decide⟩, by simp⟩
    · rintro ⟨⟨hlo, hhi⟩, hused⟩
      have ha : a < 5 := hhi
      have h4 : a ≠ 4 := by
        rintro rfl
        exact hused links_logVolume.2
      have : a = 2 ∨ a = 3 := by omega
      simpa using this

/-- A volume whose one file is in its root directory. -/
theorem wellFormed_one {m : Memory} {slot : DirSlot} {name : Name} {chains : List (List Nat)}
    (hpart : Partition (links smallFs.geo m) smallFs.geo.InRange chains)
    (hlist : listing smallFs.geo m 2 = [(slot, name)]) (hroot : [2] ∈ chains)
    (hdot : slot.entry.isDot = false) (hdir : slot.entry.isDirectory = false)
    (hcluster : slot.entry.cluster < 2 ∨ slot.entry.cluster ≠ 2 ∧ [slot.entry.cluster] ∈ chains)
    (hsize : slot.entry.fileSize ≤
      (chainOf smallFs.geo m slot.entry.cluster).length * smallFs.geo.clusterSize) :
    WellFormedTree smallFs.geo m {2} chains := by
  have hone : ∀ d ∈ ({2} : Set Nat), ∀ x ∈ listing smallFs.geo m d, x = (slot, name) := by
    rintro _ rfl x hx
    simpa [hlist] using hx
  refine ⟨⟨hpart, rfl, ?_, ?_, ?_, ?_, ?_⟩, ?_, ?_⟩
  · rintro _ rfl
    exact ⟨[2], hroot, rfl⟩
  · intro d hd x hx _ hdir'
    rw [hone d hd x hx, hdir] at hdir'
    cases hdir'
  · intro d hd x hx _ _
    rw [hone d hd x hx]
    exact hcluster.imp_right fun h => ⟨h.1, _, h.2, rfl⟩
  · intro d hd x hx d' hd' y hy _ _ _ _
    rw [hone d hd x hx, hone d' hd' y hy]
  · intro d hd x hx hdot'
    rw [hone d hd x hx, hdot] at hdot'
    cases hdot'
  · intro d hd x hx hdot'
    rw [hone d hd x hx, hdot] at hdot'
    cases hdot'
  · intro d hd x hx _
    rw [hone d hd x hx]
    exact hsize

theorem logVolume_wellFormed : WellFormedTree smallFs.geo logVolume {2} [[2], [3]] := by
  obtain ⟨⟨-, hdot, hdir, hcluster⟩, hsize⟩ := logSlot_entry
  refine wellFormed_one partition_logVolume listing_logVolume (by simp) hdot hdir ?_ ?_
  · rw [hcluster]
    exact Or.inr ⟨by decide, by simp⟩
  · rw [hcluster, hsize, chainOf_eq partition_logVolume (show 3 :: [] ∈ [[2], [3]] by simp)]
    decide

/-- Appending one byte to the file, cut after any number of writes. -/
theorem append_crash_small :
    let writes := (Sink.append smallFs ⟨0, 0⟩ ⟨logSlot, 3, 1024, 2⟩ [0x21]).trace disk logVolume
    writes.length = 2 ∧ ∀ n,
      let m := Prog.replay disk (writes.take n) logVolume
      (Fat32Fs.newRw.run disk m).1 = .ok smallFs ∧
        ((∀ path, readFile smallFs m path = readFile smallFs logVolume path) ∨
          ∀ path, readFile smallFs m path =
            if ((findPath smallFs.geo path).run disk logVolume).1 = .ok (some logSlot) then
              (readFile smallFs logVolume path).map (· ++ [0x21])
            else readFile smallFs logVolume path) :=
  ⟨by decide,
    append_crash (by decide) smallFs_sane (fun h => absurd rfl h.1) logVolume_wellFormed
      (show ((smallFs.lookup ['/', 'a']).run disk logVolume).1 = .ok (some (3, 2, logSlot)) by
        decide) (by decide) rfl rfl rfl⟩

end Vibra.Fat32
