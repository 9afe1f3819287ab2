import Vibra.Fat32.Tree

/-! # Contents of files

What opening a file reads, and which changes of the disk leave the files that a
path leads to as they are.
-/

namespace Vibra.Fat32

open Lib (Memory Prog Write LinkTable)
open Lib.Prog (wp)

variable {geo : Fat32Geo} {m m' : Memory}

def chainBytes (geo : Fat32Geo) (m : Memory) (clusters : List Nat) : List UInt8 :=
  clusters.flatMap fun c => m.slice (geo.clusterAddr c) geo.clusterSize

def content (geo : Fat32Geo) (m : Memory) (entry : FatDirEntry) : List UInt8 :=
  (chainBytes geo m (chainOf geo m entry.cluster)).take entry.fileSize

@[simp] theorem length_chainBytes (clusters : List Nat) :
    (chainBytes geo m clusters).length = clusters.length * geo.clusterSize := by
  induction clusters with
  | nil => simp [chainBytes]
  | cons c rest ih =>
    rw [chainBytes, List.flatMap_cons, List.length_append, Memory.length_slice, List.length_cons,
      Nat.add_mul, Nat.one_mul, Nat.add_comm]
    exact congrArg (· + geo.clusterSize) ih

theorem getD_chainBytes (hgeo : geo.Valid) {clusters : List Nat} {i : Nat}
    (h : i < clusters.length * geo.clusterSize) :
    (chainBytes geo m clusters).getD i 0 = m (geo.fileAddr clusters i) := by
  have hpos := hgeo.clusterSize_pos
  induction clusters generalizing i with
  | nil => simp at h
  | cons c rest ih =>
    rw [chainBytes, List.flatMap_cons]
    by_cases hi : i < geo.clusterSize
    · rw [List.getD_append _ _ _ _ (by simpa using hi), Memory.getD_slice hi, Fat32Geo.fileAddr,
        Nat.div_eq_of_lt hi, Nat.mod_eq_of_lt hi]
      rfl
    · rw [List.length_cons, Nat.add_mul, Nat.one_mul] at h
      have hi' : geo.clusterSize ≤ i := Nat.le_of_not_lt hi
      rw [List.getD_append_right _ _ _ _ (by simpa using hi'), Memory.length_slice]
      refine (ih (i := i - geo.clusterSize) (by omega)).trans ?_
      rw [Fat32Geo.fileAddr, Fat32Geo.fileAddr, Nat.mod_eq_sub_mod hi', Nat.div_eq_sub_div hpos hi']
      rfl

theorem take_chainBytes (hgeo : geo.Valid) {clusters : List Nat} {n : Nat}
    (h : n ≤ clusters.length * geo.clusterSize) :
    (chainBytes geo m clusters).take n =
      (List.range n).map fun i => m (geo.fileAddr clusters i) := by
  refine List.ext_getElem (by simp [h]) fun i hi _ => ?_
  have hin : i < n := by
    rw [List.length_take] at hi
    omega
  have hget := getD_chainBytes (m := m) hgeo (show i < clusters.length * geo.clusterSize by omega)
  rw [List.getD_eq_getElem _ _ (by rw [length_chainBytes]; omega)] at hget
  simpa using hget

section Reading

variable {G : Memory → Write Sector Origin → Prop} {E : FsError → Memory → Prop}

theorem wp_readSectors {Q : List UInt8 → Memory → Prop} {sector count : Nat} :
    wp disk G Q E (readSectors sector count) m ↔ Q (m.slice (512 * sector) (512 * count)) m := by
  induction count generalizing sector Q with
  | zero => exact Iff.rfl
  | succ count ih =>
    have hslice : (disk.read m sector).slice 0 512 = m.slice (512 * sector) 512 :=
      Memory.slice_congr fun i _ => by rw [disk_read, Nat.zero_add]
    have hsplit : m.slice (512 * sector) (512 * (count + 1)) =
        m.slice (512 * sector) 512 ++ m.slice (512 * (sector + 1)) (512 * count) := by
      rw [show 512 * (count + 1) = 512 + 512 * count by omega, Memory.slice_add]
      rfl
    simp only [readSectors, Prog.wp_bind, wp_readSector, ih, Prog.wp_pure, sectorSize, hslice,
      hsplit]

theorem wp_readClusters (hgeo : geo.Valid) {Q : List UInt8 → Memory → Prop} {clusters : List Nat}
    (h : ∀ c ∈ clusters, 2 ≤ c) :
    wp disk G Q E (readClusters geo clusters) m ↔ Q (chainBytes geo m clusters) m := by
  induction clusters generalizing Q with
  | nil => exact Iff.rfl
  | cons c rest ih =>
    have hrest := fun Q => ih (Q := Q) fun d hd => h d (List.mem_cons_of_mem _ hd)
    simp only [readClusters, clusterToSector_eq (h c List.mem_cons_self), Prog.wp_bind,
      wp_readSectors, hrest, Prog.wp_pure, chainBytes, List.flatMap_cons]
    rw [hgeo.cluster, clusterAddr_eq]

theorem wp_readChain (hgeo : geo.Valid) {Q : List UInt8 → Memory → Prop} {start : Nat} :
    wp disk G Q E (readChain geo start) m ↔ Q (chainBytes geo m (chainOf geo m start)) m := by
  simp only [readChain, Prog.wp_bind, wp_chain, wp_readClusters hgeo two_le_of_mem_chainOf]

end Reading

def openedFile (fs : Fat32Fs) (m : Memory) (slot : DirSlot) : Fat32File where
  geo := fs.geo
  slot := slot
  startCluster := slot.entry.cluster
  size := slot.entry.fileSize
  position := 0
  data := content fs.geo m slot.entry
  readOnly := fs.readOnly

def openResult (fs : Fat32Fs) (m : Memory) (path : Name) : Except FsError Fat32File :=
  match resolve fs.geo m path with
  | .error e => .error e
  | .ok none => .error .notFound
  | .ok (some slot) =>
    if slot.entry.isDirectory then .error .isADirectory
    else if !slot.entry.isFile then .error .notFound
    else .ok (openedFile fs m slot)

theorem openFile_run {fs : Fat32Fs} (hgeo : fs.geo.Valid) (path : Name) :
    (fs.openFile path).run disk m = (openResult fs m path, m) := by
  have hwp : wp disk (fun _ _ => True) (fun a m' => openResult fs m path = .ok a ∧ m' = m)
      (fun e m' => openResult fs m path = .error e ∧ m' = m) (fs.openFile path) m := by
    rw [Fat32Fs.openFile, Prog.wp_bind, Fat32Fs.findSlot, Prog.wp_bind, wp_findPath, openResult]
    cases resolve fs.geo m path with
    | error e => exact ⟨rfl, rfl⟩
    | ok slot =>
      cases slot with
      | none => exact ⟨rfl, rfl⟩
      | some slot =>
        dsimp only
        rw [Prog.wp_pure]
        by_cases hdir : slot.entry.isDirectory = true
        · rw [if_pos hdir, if_pos hdir]
          exact ⟨rfl, rfl⟩
        · rw [if_neg hdir, if_neg hdir]
          by_cases hfile : (!slot.entry.isFile) = true
          · rw [if_pos hfile, if_pos hfile]
            exact ⟨rfl, rfl⟩
          · rw [if_neg hfile, if_neg hfile, Prog.wp_bind, wp_readChain hgeo]
            exact ⟨rfl, rfl⟩
  have hrun := Prog.wp_run hwp
  revert hrun
  rcases (fs.openFile path).run disk m with ⟨_ | _, m'⟩
  · rintro ⟨h, rfl⟩
    rw [h]
  · rintro ⟨h, rfl⟩
    rw [h]

def readFile (fs : Fat32Fs) (m : Memory) (path : Name) : Except FsError (List UInt8) :=
  ((fs.openFile path).run disk m).1.map Fat32File.data

/-- The names and kinds in all listings stay, and so do the clusters of directories. -/
structure Refreshed (geo : Fat32Geo) (dirs : Set Nat) (m m' : Memory) : Prop where
  list : ∀ d ∈ dirs, listing geo m' d = (listing geo m d).map (refresh m')
  alike : ∀ d ∈ dirs, ∀ x ∈ listing geo m d, x.1.entry.Alike (entryAt m' x.1.pos)
  cluster : ∀ d ∈ dirs, ∀ x ∈ listing geo m d, x.1.entry.isDirectory = true →
    (entryAt m' x.1.pos).cluster = x.1.entry.cluster

theorem refreshed_of_slots {dirs : Set Nat}
    (hchain : ∀ d ∈ dirs, chainOf geo m' d = chainOf geo m d)
    (hslots : ∀ d ∈ dirs, ∀ q ∈ dirSlots geo (chainOf geo m d), SameSlot m m' q ∨
      SameHead m m' q ∧ (entryAt m q).isLongName = false ∧ (entryAt m q).isDirectory = false) :
    Refreshed geo dirs m m' where
  list d hd := by
    rw [listing, listing, hchain d hd]
    exact collect_alike fun q hq => (hslots d hd q hq).imp_right fun h => ⟨h.1, h.2.1⟩
  alike d hd x hx := by
    obtain ⟨hq, hx', -⟩ := mem_listing hx
    rw [hx']
    exact (hslots d hd _ hq).elim (fun h => h.head.alike) fun h => h.1.alike
  cluster d hd x hx hdir := by
    obtain ⟨hq, hx', -⟩ := mem_listing hx
    rw [hx'] at hdir ⊢
    rcases hslots d hd _ hq with h | ⟨-, -, hnot⟩
    · exact congrArg FatDirEntry.cluster h.entry
    · rw [dirSlotAt_entry, hnot] at hdir
      cases hdir

namespace Refreshed

variable {dirs : Set Nat} {chains : List (List Nat)}

theorem listed_eq (h : Refreshed geo dirs m m') {d : Nat} (hd : d < 2 ∨ d ∈ dirs) (part : Name) :
    listed geo m' d part = (listed geo m d part).map (refresh m') := by
  rcases hd with hd | hd
  · rw [listed, listed, listing_of_lt hd, listing_of_lt hd]
    rfl
  · rw [listed, h.list d hd, List.find?_map]
    rfl

theorem resolveParts_eq (h : Refreshed geo dirs m m') (htree : Tree geo m dirs chains)
    (hdots : DotsInside geo m dirs) {d : Nat} (hd : d < 2 ∨ d ∈ dirs) (parts : List Name) :
    resolveParts geo m' d parts =
      (resolveParts geo m d parts).map (Option.map fun slot => dirSlotAt m' slot.pos) := by
  induction parts generalizing d with
  | nil => rfl
  | cons part rest ih =>
    rw [resolveParts, resolveParts, h.listed_eq hd]
    cases hfind : listed geo m d part with
    | none => rfl
    | some x =>
      have hx : x ∈ listing geo m d := List.mem_of_find?_eq_some hfind
      rcases hd with hd | hd
      · rw [listing_of_lt hd] at hx
        cases hx
      · have halike := h.alike d hd x hx
        simp only [Option.map_some, refresh, dirSlotAt_entry, halike.isDirectory]
        by_cases hrest : rest = []
        · rw [if_pos hrest, if_pos hrest]
          rfl
        · rw [if_neg hrest, if_neg hrest]
          cases hdir : x.1.entry.isDirectory with
          | false => rfl
          | true =>
            simp only [Bool.not_true, Bool.false_eq_true, if_false]
            rw [h.cluster d hd x hx hdir]
            refine ih ?_
            cases hdot : x.1.entry.isDot with
            | true => exact (hdots d hd x hx hdot).2
            | false => exact Or.inr (htree.sub d hd x hx hdot hdir).1

theorem resolve_eq (h : Refreshed geo dirs m m') (htree : Tree geo m dirs chains)
    (hdots : DotsInside geo m dirs) {path : Name} (hpath : pathParts path ≠ []) :
    resolve geo m' path =
      (resolve geo m path).map (Option.map fun slot => dirSlotAt m' slot.pos) := by
  rw [resolve, resolve, if_neg hpath, if_neg hpath]
  exact h.resolveParts_eq htree hdots (Or.inr htree.root) _

end Refreshed

theorem resolveParts_mem {dirs : Set Nat} {chains : List (List Nat)}
    (htree : Tree geo m dirs chains) (hdots : DotsInside geo m dirs) {d : Nat}
    (hd : d < 2 ∨ d ∈ dirs) {parts : List Name} {slot : DirSlot}
    (h : resolveParts geo m d parts = .ok (some slot)) :
    ∃ d ∈ dirs, ∃ x ∈ listing geo m d, x.1 = slot := by
  induction parts generalizing d with
  | nil => cases h
  | cons part rest ih =>
    rw [resolveParts] at h
    cases hfind : listed geo m d part with
    | none =>
      rw [hfind] at h
      cases h
    | some x =>
      have hx : x ∈ listing geo m d := List.mem_of_find?_eq_some hfind
      rcases hd with hd | hd
      · rw [listing_of_lt hd] at hx
        cases hx
      · rw [hfind] at h
        dsimp only at h
        split at h
        · exact ⟨d, hd, x, hx, by simpa using h⟩
        · split at h
          · cases h
          next hdir =>
            have hdir : x.1.entry.isDirectory = true := by simpa using hdir
            refine ih ?_ h
            cases hdot : x.1.entry.isDot with
            | true => exact (hdots d hd x hx hdot).2
            | false => exact Or.inr (htree.sub d hd x hx hdot hdir).1

end Vibra.Fat32
