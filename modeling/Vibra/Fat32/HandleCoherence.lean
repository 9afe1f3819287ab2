import Vibra.Fat32.AppendCrash

/-! # An open file and its file on the disk

A handle keeps the whole file in memory and writes through to the chain.
-/

namespace Vibra.Fat32

open Lib (Memory Prog Write)
open Lib.Prog (wp)

/-- A call on an open file that changes it. -/
inductive FileCall where
  | seek (pos : SeekFrom)
  | write (now : DosTime) (data : List UInt8)

/-- The handle and the disk. -/
structure FileUse where
  file : Fat32File
  memory : Memory

/-- One call; none when it returns an error. -/
def FileUse.exec (u : FileUse) : FileCall → Option FileUse
  | .seek pos =>
    match u.file.seek pos with
    | (f, .ok _) => some ⟨f, u.memory⟩
    | (_, .error _) => none
  | .write now data =>
    match (u.file.write now data).run disk u.memory with
    | (.ok (f, .ok _), m) => some ⟨f, m⟩
    | _ => none

def FileUse.NoGap (u : FileUse) : FileCall → Prop
  | .seek _ => True
  | .write _ _ => u.file.position ≤ u.file.data.length

/-- What sequences of allowed calls without an error lead to. -/
inductive FileUse.Run (Allowed : FileUse → FileCall → Prop) (u₀ : FileUse) : FileUse → Prop
  | opened : Run Allowed u₀ u₀
  | call {u u' : FileUse} {call : FileCall} (h : Run Allowed u₀ u) (ha : Allowed u call)
      (he : u.exec call = some u') : Run Allowed u₀ u'

variable {u u' : FileUse} {now : DosTime} {data : List UInt8}

theorem FileUse.exec_write (he : u.exec (.write now data) = some u') :
    ∃ n, (u.file.write now data).run disk u.memory = (.ok (u'.file, .ok n), u'.memory) := by
  rw [FileUse.exec] at he
  split at he
  next f n m hrun => exact ⟨n, by rw [hrun, ← Option.some.inj he]⟩
  next => cases he

theorem FileUse.data_of_write (he : u.exec (.write now data) = some u') :
    u'.file.data = Fat32File.overlay u.file.data u.file.position data := by
  have hwp : wp disk (fun _ _ => True) (fun r _ => ∀ n, r.2 = .ok n →
      r.1.data = Fat32File.overlay u.file.data u.file.position data) (fun _ _ => True)
      (u.file.write now data) u.memory := by
    rw [Fat32File.write]
    split
    · intro n hn
      cases hn
    · rw [Prog.wp_bind]
      apply Prog.wp_of_forall _ fun _ _ => trivial
      rintro ⟨start, written⟩ m
      cases written with
      | error e =>
        intro n hn
        cases hn
      | ok newEnd =>
        dsimp only
        rw [Prog.wp_bind, Prog.wp_attempt]
        exact Prog.wp_of_forall (fun _ _ _ _ => rfl) fun _ _ n hn => by cases hn
  have hrun := Prog.wp_run hwp
  obtain ⟨n, hn⟩ := FileUse.exec_write he
  rw [hn] at hrun
  exact hrun n rfl

theorem FileUse.exec_seek {pos : SeekFrom} (he : u.exec (.seek pos) = some u') :
    ∃ n, u' = ⟨{ u.file with position := n }, u.memory⟩ := by
  rw [FileUse.exec, Fat32File.seek.eq_def] at he
  extract_lets new at he
  by_cases hneg : new < 0
  · rw [if_pos hneg] at he
    cases he
  · rw [if_neg hneg] at he
    exact ⟨new.toNat, (Option.some.inj he).symm⟩

theorem FileUse.length_le {call : FileCall} (he : u.exec call = some u') :
    u.file.data.length ≤ u'.file.data.length := by
  cases call with
  | seek pos =>
    obtain ⟨n, rfl⟩ := FileUse.exec_seek he
    exact Nat.le_refl _
  | write now data =>
    rw [FileUse.data_of_write he, length_overlay]
    exact le_max_left _ _

/-- The handle holds what the path reads as, and knows where the file stands. -/
structure Coherent (fs : Fat32Fs) (dirs : Set Nat) (path : Name) (u : FileUse) (l : List Nat)
    (rest : List (List Nat)) : Prop where
  fileAt : FileAt fs.geo u.memory dirs u.file.slot.pos l rest
  found : resolve fs.geo u.memory path = .ok (some (dirSlotAt u.memory u.file.slot.pos))
  geo : u.file.geo = fs.geo
  readOnly : u.file.readOnly = false
  start : u.file.startCluster = (entryAt u.memory u.file.slot.pos).cluster
  size : u.file.size = (entryAt u.memory u.file.slot.pos).fileSize
  data : u.file.data = content fs.geo u.memory (entryAt u.memory u.file.slot.pos)

variable {fs : Fat32Fs} {dirs : Set Nat} {path : Name} {l : List Nat} {rest : List (List Nat)}

namespace Coherent

theorem length (h : Coherent fs dirs path u l rest) :
    u.file.data.length = (entryAt u.memory u.file.slot.pos).fileSize := by
  have hsize := h.fileAt.size
  rw [h.data, h.fileAt.content_eq, List.length_take, length_chainBytes]
  exact Nat.min_eq_left hsize

theorem path_ne (h : Coherent fs dirs path u l rest) : pathParts path ≠ [] := by
  intro hpath
  have hfound := h.found
  have hdir := FatDirEntry.isDirectory_of_isFile h.fileAt.isFile
  rw [resolve, if_pos hpath, Except.ok.injEq, Option.some.injEq] at hfound
  rw [← dirSlotAt_entry, ← hfound] at hdir
  revert hdir
  simp [rootSlot, FatDirEntry.isDirectory, FatDirEntry.attrDirectory]

theorem reopen (h : Coherent fs dirs path u l rest) :
    openResult fs u.memory path =
      .ok (openedFile fs u.memory (dirSlotAt u.memory u.file.slot.pos)) := by
  have hfile := h.fileAt.isFile
  have hdir := FatDirEntry.isDirectory_of_isFile hfile
  rw [openResult, h.found]
  dsimp only
  rw [dirSlotAt_entry, hdir, hfile]
  rfl

theorem seek (h : Coherent fs dirs path u l rest) {pos : SeekFrom} (he : u.exec (.seek pos) = some u') :
    Coherent fs dirs path u' l rest := by
  obtain ⟨n, rfl⟩ := FileUse.exec_seek he
  exact ⟨h.fileAt, h.found, h.geo, h.readOnly, h.start, h.size, h.data⟩

theorem write_published {G : Memory → Write Sector Origin → Prop} {E : FsError → Memory → Prop}
    {Q : Fat32File × Except FsError Nat → Memory → Prop} (hgeo : fs.geo.Sound)
    (hfs : fs.geo.FsInfoReserved) (h : Coherent fs dirs path u l rest) (now : DosTime)
    {data : List UInt8} (hpos : u.file.position ≤ u.file.data.length)
    (hlimit : u.file.position + data.length < 2 ^ 32) (hG : ∀ m w, G m w)
    (hfull : ∀ f n l' m, Writing fs.geo u.memory l rest u.file.position data n l' m →
      Q (f, .error .diskFull) m)
    (hQ : ∀ l' start m', StartOf l' start →
      max u.file.size (u.file.position + data.length) ≤ l'.length * fs.geo.clusterSize →
      Published fs.geo u.memory dirs u.file.slot.pos l' rest start
        (max u.file.size (u.file.position + data.length)) m' →
      (chainBytes fs.geo m' l').take (max u.file.size (u.file.position + data.length)) =
        Fat32File.overlay u.file.data u.file.position data →
      Q (⟨fs.geo, u.file.slot, start, max u.file.size (u.file.position + data.length),
          u.file.position + data.length, Fat32File.overlay u.file.data u.file.position data,
          false⟩, .ok data.length) m') :
    wp disk G Q E (u.file.write now data) u.memory := by
  have hat := h.fileAt
  rw [Fat32File.write, h.readOnly, if_neg Bool.false_ne_true]
  dsimp only
  rw [Prog.wp_bind, h.geo]
  have hstart : StartOf l u.file.startCluster := by
    rw [h.start]
    exact hat.start
  apply writeRange_spec hgeo hat.part hstart (fun m w _ _ => hG m w)
  · intro n l' start m _ hw _ _
    exact hfull _ n l' m hw
  · intro l' start m hw hs _
    have hoff : u.file.position ≤ (entryAt u.memory u.file.slot.pos).fileSize := h.length ▸ hpos
    have hold : (entryAt u.memory u.file.slot.pos).fileSize < 2 ^ 32 := Memory.le32_lt _ _
    have hsize : max u.file.size (u.file.position + data.length) < 2 ^ 32 := by
      rw [h.size]
      omega
    have hle : max u.file.size (u.file.position + data.length) ≤ l'.length * fs.geo.clusterSize := by
      rw [h.size]
      exact hw.size_le hat.size hoff
    obtain ⟨hpub, hbytes⟩ := hat.published now hgeo hfs hw.frame hw.part hs hsize
    dsimp only
    rw [Prog.wp_bind, Prog.wp_attempt, Nat.min_eq_left (Nat.le_sub_one_of_lt hsize)]
    have hdata := hw.take_chainBytes hgeo.toValid hfs hat.size hoff
    rw [← hat.content_eq, ← h.data, ← h.size, ← hbytes] at hdata
    apply setEntry_spec (mem_slotOffsets hat.slotOf.offset).2 fun w _ _ => hG m w
    exact hQ l' start _ hs hle hpub hdata

theorem published {start size : Nat} {m' : Memory} {f : Fat32File} {l' : List Nat}
    (h : Coherent fs dirs path u l rest) (hs : StartOf l' start)
    (hsize : size ≤ l'.length * fs.geo.clusterSize)
    (hpub : Published fs.geo u.memory dirs u.file.slot.pos l' rest start size m')
    (hslot : f.slot = u.file.slot) (hgeo : f.geo = fs.geo) (hrw : f.readOnly = false)
    (hstart : f.startCluster = start) (hfsize : f.size = size)
    (hdata : (chainBytes fs.geo m' l').take size = f.data) :
    Coherent fs dirs path ⟨f, m'⟩ l' rest := by
  have hat := h.fileAt
  have hfound := (hat.published_refreshed hpub).resolve_eq hat.tree hat.inside h.path_ne
  rw [h.found] at hfound
  constructor
  · rw [hslot]
    exact hat.published_fileAt hpub hs hsize
  · rw [hslot]
    exact hfound
  · exact hgeo
  · exact hrw
  · rw [hslot, hpub.cluster]
    exact hstart
  · rw [hslot, hpub.fileSize]
    exact hfsize
  · rw [hslot, content, hpub.cluster, hpub.fileSize, chainOf_startOf hpub.part hs]
    exact hdata.symm

theorem write_spec (hgeo : fs.geo.Sound) (hfs : fs.geo.FsInfoReserved)
    (h : Coherent fs dirs path u l rest) (now : DosTime) {data : List UInt8}
    (hpos : u.file.position ≤ u.file.data.length)
    (hlimit : u.file.position + data.length < 2 ^ 32) :
    wp disk (fun _ _ => True)
      (fun r m => ∀ n, r.2 = .ok n → ∃ l, Coherent fs dirs path ⟨r.1, m⟩ l rest)
      (fun _ _ => True) (u.file.write now data) u.memory := by
  apply h.write_published hgeo hfs now hpos hlimit (fun _ _ => trivial)
  · intro f n l' m _ k hk
    cases hk
  · intro l' start m' hs hle hpub hbytes _ _
    exact ⟨l', h.published hs hle hpub rfl rfl rfl rfl rfl hbytes⟩

theorem write (hgeo : fs.geo.Sound) (hfs : fs.geo.FsInfoReserved)
    (h : Coherent fs dirs path u l rest) {now : DosTime} {data : List UInt8}
    (hpos : u.file.position ≤ u.file.data.length) (he : u.exec (.write now data) = some u')
    (hlimit : u'.file.data.length < 2 ^ 32) : ∃ l, Coherent fs dirs path u' l rest := by
  have hdata := FileUse.data_of_write he
  rw [hdata, length_overlay] at hlimit
  have hend : u.file.position + data.length < 2 ^ 32 := by omega
  have hrun := Prog.wp_run (h.write_spec hgeo hfs now hpos hend)
  obtain ⟨n, hn⟩ := FileUse.exec_write he
  rw [hn] at hrun
  exact hrun n rfl

end Coherent

theorem coherent_open {m : Memory} {chains : List (List Nat)} {f : Fat32File}
    (hrw : fs.readOnly = false) (hvol : WellFormedTree fs.geo m dirs chains)
    (h : openResult fs m path = .ok f) : ∃ l rest, Coherent fs dirs path ⟨f, m⟩ l rest := by
  rw [openResult] at h
  cases hres : resolve fs.geo m path with
  | error e => simp [hres] at h
  | ok found =>
    cases found with
    | none => simp [hres] at h
    | some slot =>
      rw [hres] at h
      dsimp only at h
      by_cases hdir : slot.entry.isDirectory = true
      · simp [hdir] at h
      · by_cases hfile : slot.entry.isFile = true
        · simp only [hdir, hfile, Bool.not_true, Bool.false_eq_true, if_false, Except.ok.injEq] at h
          subst h
          have hpath : pathParts path ≠ [] := by
            intro hpath
            rw [resolve, if_pos hpath, Except.ok.injEq, Option.some.injEq] at hres
            apply hdir
            rw [← hres]
            simp [rootSlot, FatDirEntry.isDirectory, FatDirEntry.attrDirectory]
          have hparts := hres
          rw [resolve, if_neg hpath] at hparts
          obtain ⟨d, hd, x, hx, rfl⟩ :=
            resolveParts_mem hvol.toTree hvol.inside (Or.inr hvol.root) hparts
          obtain ⟨l, rest, hat⟩ := hvol.fileAt hd hx hfile
          obtain ⟨-, hx', -⟩ := mem_listing hx
          have hentry : x.1.entry = entryAt m x.1.pos := by
            rw [hx', dirSlotAt_entry, dirSlotAt_pos]
          refine ⟨l, rest, hat, ?_, rfl, hrw, congrArg FatDirEntry.cluster hentry,
            congrArg FatDirEntry.fileSize hentry, congrArg (content fs.geo m) hentry⟩
          exact hres.trans (congrArg (Except.ok ∘ some) hx')
        · simp [hdir, hfile] at h

theorem coherent_run (hgeo : fs.geo.Sound) (hfs : fs.geo.FsInfoReserved)
    (h : Coherent fs dirs path u l rest) (hrun : FileUse.Run FileUse.NoGap u u')
    (hlimit : u'.file.data.length < 2 ^ 32) : ∃ l, Coherent fs dirs path u' l rest := by
  induction hrun with
  | opened => exact ⟨l, h⟩
  | @call v v' call _ ha he ih =>
    obtain ⟨l, hv⟩ := ih (Nat.lt_of_le_of_lt (FileUse.length_le he) hlimit)
    cases call with
    | seek pos => exact ⟨l, hv.seek he⟩
    | write now data => exact hv.write hgeo hfs ha he hlimit

/-- After any calls on an open file that leave no gap, the file opened again has the
length of the handle's data in its entry and reads as these data. -/
theorem handle_coherent {m₀ : Memory} {chains : List (List Nat)} {f : Fat32File}
    (hmount : (Fat32Fs.newRw.run disk m₀).1 = .ok fs) (hsane : fs.geo.Sane)
    (hfs : fs.geo.FsInfoReserved) (hvol : WellFormedTree fs.geo m₀ dirs chains)
    (hopen : ((fs.openFile path).run disk m₀).1 = .ok f)
    (hrun : FileUse.Run FileUse.NoGap ⟨f, m₀⟩ u) (hlimit : u.file.data.length < 2 ^ 32) :
    ∃ f', (fs.openFile path).run disk u.memory = (.ok f', u.memory) ∧
      f'.slot.entry.fileSize = u.file.data.length ∧ ∀ n, (f'.read n).2 = u.file.data.take n := by
  obtain ⟨hboot, hmode⟩ := Fat32Fs.withMode_run hmount
  have hgeo : fs.geo.Sound := ⟨Fat32BootSector.geo_valid hboot, hsane⟩
  rw [openFile_run hgeo.toValid] at hopen
  obtain ⟨l, rest, hstart⟩ := coherent_open hmode hvol hopen
  obtain ⟨l, h⟩ := coherent_run hgeo hfs hstart hrun hlimit
  refine ⟨_, by rw [openFile_run hgeo.toValid, h.reopen], h.length.symm, fun n => ?_⟩
  rw [Fat32File.read_start rfl]
  exact congrArg (List.take n) h.data.symm

/-- Overwriting the first byte of the file. -/
theorem handle_coherent_small : ∃ f u,
    ((smallFs.openFile ['/', 'a']).run disk logVolume).1 = .ok f ∧
    FileUse.exec ⟨f, logVolume⟩ (.write ⟨0, 0⟩ [0x21]) = some u ∧ u.file.data = [0x21, 0x69] ∧
    ∃ f', (smallFs.openFile ['/', 'a']).run disk u.memory = (.ok f', u.memory) ∧
      f'.slot.entry.fileSize = u.file.data.length ∧ ∀ n, (f'.read n).2 = u.file.data.take n := by
  have hrun : ((smallFs.openFile ['/', 'a']).run disk logVolume).1.toOption.bind (fun f =>
      (FileUse.exec ⟨f, logVolume⟩ (.write ⟨0, 0⟩ [0x21])).map fun u =>
        (decide (f.position ≤ f.data.length), u.file.data)) = some (true, [0x21, 0x69]) := by
    decide +kernel
  obtain ⟨f, hf, hexec⟩ := Option.bind_eq_some_iff.mp hrun
  obtain ⟨u, hu, heq⟩ := Option.map_eq_some_iff.mp hexec
  obtain ⟨hpos, hdata⟩ := Prod.mk.inj heq
  have hgap : FileUse.NoGap ⟨f, logVolume⟩ (.write ⟨0, 0⟩ [0x21]) := by
    show f.position ≤ f.data.length
    exact of_decide_eq_true hpos
  have hopen : ((smallFs.openFile ['/', 'a']).run disk logVolume).1 = .ok f := by
    cases hres : ((smallFs.openFile ['/', 'a']).run disk logVolume).1 with
    | error e => simp [hres, Except.toOption] at hf
    | ok g => simpa [hres, Except.toOption] using hf
  have hlimit : u.file.data.length < 2 ^ 32 := by
    rw [hdata]
    decide
  exact ⟨f, u, hopen, hu, hdata, handle_coherent (by decide) smallFs_sane
    (fun h => absurd rfl h.1) logVolume_wellFormed hopen
    (.call .opened hgap hu) hlimit⟩

def gapVolume : Memory := logVolume.put 1538 [0x21]

/-- The volume is well formed, and a write one byte behind the end of the file reads
back with the byte that was there, not with a zero. -/
theorem handle_coherent_fails : (Fat32Fs.newRw.run disk gapVolume).1 = .ok smallFs ∧
    WellFormedTree smallFs.geo gapVolume {2} [[2], [3]] ∧
    (((smallFs.openFile ['/', 'a']).run disk gapVolume).1.toOption.bind fun f =>
      (FileUse.exec ⟨f, gapVolume⟩ (.seek (.start 3))).bind fun u =>
        (u.exec (.write ⟨0, 0⟩ [0x2A])).map fun u =>
          (u.file.data, (readFile smallFs u.memory ['/', 'a']).toOption)) =
      some ([0x68, 0x69, 0, 0x2A], some [0x68, 0x69, 0x21, 0x2A]) := by
  have hgeo : smallFs.geo.Sound :=
    ⟨⟨by decide, by decide, by decide, by decide, by decide, by decide⟩, smallFs_sane⟩
  refine ⟨by decide, logVolume_wellFormed.congr hgeo (fun a ha => ?_)
    fun d hd c hc i hi => ?_, by decide +kernel⟩
  · obtain ⟨-, hend⟩ := ha
    exact Memory.put_of_lt (Nat.lt_of_lt_of_le hend (by decide))
  · obtain rfl : d = 2 := hd
    have hchain : chainOf smallFs.geo logVolume 2 = [2] :=
      chainOf_eq partition_logVolume (by simp : 2 :: [] ∈ [[2], [3]])
    obtain rfl : c = 2 := by simpa [hchain] using hc
    exact Memory.put_of_lt (Nat.lt_of_lt_of_le (Nat.add_lt_add_left hi _) (by decide))

end Vibra.Fat32
