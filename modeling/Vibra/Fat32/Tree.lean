import Vibra.Fat32.EntrySpec

/-! # Directory trees

The listings of all directories of a volume.
-/

namespace Vibra.Fat32

open Lib (Memory Prog Write LinkTable)
open Lib.Prog (wp)
open Lib.LinkTable (Partition)

variable {geo : Fat32Geo} {m m' : Memory}

def listing (geo : Fat32Geo) (m : Memory) (dir : Nat) : List (DirSlot × Name) :=
  collect m [] (dirSlots geo (chainOf geo m dir))

def listed (geo : Fat32Geo) (m : Memory) (dir : Nat) (name : Name) : Option (DirSlot × Name) :=
  (listing geo m dir).find? fun x => eqIgnoreAsciiCase x.2 name

theorem listing_of_lt {dir : Nat} (h : dir < 2) : listing geo m dir = [] := by
  rw [listing, chainOf, if_pos h]
  rfl

/-- What `find_path` does on the listings, from a directory on. -/
def resolveParts (geo : Fat32Geo) (m : Memory) : Nat → List Name → Except FsError (Option DirSlot)
  | _, [] => .ok none
  | dir, part :: rest =>
    match listed geo m dir part with
    | none => .ok none
    | some x =>
      if rest = [] then .ok (some x.1)
      else if !x.1.entry.isDirectory then .error .notADirectory
      else resolveParts geo m x.1.entry.cluster rest

def resolve (geo : Fat32Geo) (m : Memory) (path : Name) : Except FsError (Option DirSlot) :=
  if pathParts path = [] then .ok (some (rootSlot geo))
  else resolveParts geo m geo.rootCluster (pathParts path)

/-- What `parent_cluster` does on the listings. -/
def resolveDirs (geo : Fat32Geo) (m : Memory) : Nat → List Name → Except FsError Nat
  | dir, [] => .ok dir
  | dir, part :: rest =>
    match listed geo m dir part with
    | none => .error .notFound
    | some x =>
      if !x.1.entry.isDirectory then .error .notADirectory
      else resolveDirs geo m x.1.entry.cluster rest

section Reading

variable {G : Memory → Write Sector Origin → Prop} {E : FsError → Memory → Prop}

theorem wp_readDir_listing {Q : List (DirSlot × Name) → Memory → Prop} {dir : Nat} :
    wp disk G Q E (readDir geo dir) m ↔ Q (listing geo m dir) m := by
  rw [wp_readDir, scanDir_eq, listing]

theorem wp_findInDir_listed {Q : Option DirSlot → Memory → Prop} {dir : Nat} {name : Name} :
    wp disk G Q E (findInDir geo dir name) m ↔ Q ((listed geo m dir name).map Prod.fst) m := by
  rw [wp_findInDir, scanDir_eq, listed, listing]

theorem wp_findParts {Q : Option DirSlot → Memory → Prop} {dir : Nat} {parts : List Name} :
    wp disk G Q E (findParts geo dir parts) m ↔
      match resolveParts geo m dir parts with
      | .ok slot => Q slot m
      | .error e => E e m := by
  induction parts generalizing dir with
  | nil => exact Iff.rfl
  | cons part rest ih =>
    rw [findParts, Prog.wp_bind, wp_findInDir_listed, resolveParts]
    cases listed geo m dir part with
    | none => exact Iff.rfl
    | some x =>
      simp only [Option.map_some]
      by_cases hrest : rest = []
      · rw [if_pos hrest, if_pos hrest]
        exact Iff.rfl
      · rw [if_neg hrest, if_neg hrest]
        by_cases hdir : (!x.1.entry.isDirectory) = true
        · rw [if_pos hdir, if_pos hdir]
          exact Iff.rfl
        · rw [if_neg hdir, if_neg hdir]
          exact ih

@[simp] theorem wp_findPath {Q : Option DirSlot → Memory → Prop} {path : Name} :
    wp disk G Q E (findPath geo path) m ↔
      match resolve geo m path with
      | .ok slot => Q slot m
      | .error e => E e m := by
  rw [findPath, resolve]
  by_cases h : pathParts path = []
  · rw [if_pos h, if_pos h]
    exact Iff.rfl
  · rw [if_neg h, if_neg h]
    exact wp_findParts

theorem wp_enterDirs {Q : Nat → Memory → Prop} {dir : Nat} {parts : List Name} :
    wp disk G Q E (enterDirs geo dir parts) m ↔
      match resolveDirs geo m dir parts with
      | .ok dir => Q dir m
      | .error e => E e m := by
  induction parts generalizing dir with
  | nil => exact Iff.rfl
  | cons part rest ih =>
    rw [enterDirs, Prog.wp_bind, wp_findInDir_listed, resolveDirs]
    cases listed geo m dir part with
    | none => exact Iff.rfl
    | some x =>
      simp only [Option.map_some]
      by_cases hdir : (!x.1.entry.isDirectory) = true
      · rw [if_pos hdir, if_pos hdir]
        exact Iff.rfl
      · rw [if_neg hdir, if_neg hdir]
        exact ih

end Reading

theorem findPath_run (path : Name) :
    (findPath geo path).run disk m = (resolve geo m path, m) := by
  have hwp : wp disk (fun _ _ => True) (fun a m' => resolve geo m path = .ok a ∧ m' = m)
      (fun e m' => resolve geo m path = .error e ∧ m' = m) (findPath geo path) m := by
    rw [wp_findPath]
    split <;> exact ⟨by assumption, rfl⟩
  have hrun := Prog.wp_run hwp
  revert hrun
  rcases (findPath geo path).run disk m with ⟨_ | _, m'⟩
  · rintro ⟨h, rfl⟩
    rw [h]
  · rintro ⟨h, rfl⟩
    rw [h]

/-- `.` and `..` as they are written. -/
def FatDirEntry.isDot (entry : FatDirEntry) : Bool :=
  entry.name == Fat32Fs.dotName || entry.name == Fat32Fs.dotdotName

/-- The directories `dirs` hold all entries of the volume, and the chains of the
entries are apart. Further chains may be lost. -/
structure Tree (geo : Fat32Geo) (m : Memory) (dirs : Set Nat) (chains : List (List Nat)) :
    Prop where
  part : Partition (links geo m) geo.InRange chains
  root : geo.rootCluster ∈ dirs
  dir : ∀ d ∈ dirs, ∃ l ∈ chains, l.head? = some d
  sub : ∀ d ∈ dirs, ∀ x ∈ listing geo m d, x.1.entry.isDot = false →
    x.1.entry.isDirectory = true → x.1.entry.cluster ∈ dirs ∧ x.1.entry.cluster ≠ geo.rootCluster
  file : ∀ d ∈ dirs, ∀ x ∈ listing geo m d, x.1.entry.isDot = false →
    x.1.entry.isDirectory = false → x.1.entry.cluster < 2 ∨
      x.1.entry.cluster ∉ dirs ∧ ∃ l ∈ chains, l.head? = some x.1.entry.cluster
  once : ∀ d ∈ dirs, ∀ x ∈ listing geo m d, ∀ d' ∈ dirs, ∀ y ∈ listing geo m d',
    x.1.entry.isDot = false → y.1.entry.isDot = false → 2 ≤ x.1.entry.cluster →
    x.1.entry.cluster = y.1.entry.cluster → x.1.pos = y.1.pos
  dots : ∀ d ∈ dirs, ∀ x ∈ listing geo m d, x.1.entry.isDot = true →
    x.2 = ['.'] ∨ x.2 = ['.', '.']

/-- `.` and `..` lead to directories of the tree, or to none. -/
def DotsInside (geo : Fat32Geo) (m : Memory) (dirs : Set Nat) : Prop :=
  ∀ d ∈ dirs, ∀ x ∈ listing geo m d, x.1.entry.isDot = true →
    x.1.entry.isDirectory = true ∧ (x.1.entry.cluster < 2 ∨ x.1.entry.cluster ∈ dirs)

namespace Tree

variable {dirs : Set Nat} {chains : List (List Nat)}

theorem chainOf_head (h : Tree geo m dirs chains) {l : List Nat} (hl : l ∈ chains) {c : Nat}
    (hhead : l.head? = some c) : chainOf geo m c = l := by
  cases l with
  | nil => cases hhead
  | cons d l =>
    obtain rfl : d = c := by simpa using hhead
    exact chainOf_eq h.part hl

theorem inRange (h : Tree geo m dirs chains) {l : List Nat} (hl : l ∈ chains) {c : Nat}
    (hc : c ∈ l) : geo.InRange c :=
  h.part.dom_of_mem hl hc

theorem dir_chain (h : Tree geo m dirs chains) {d : Nat} (hd : d ∈ dirs) :
    ∃ l ∈ chains, l.head? = some d ∧ chainOf geo m d = l := by
  obtain ⟨l, hl, hhead⟩ := h.dir d hd
  exact ⟨l, hl, hhead, h.chainOf_head hl hhead⟩

theorem entry_chain (h : Tree geo m dirs chains) {d : Nat} (hd : d ∈ dirs)
    {x : DirSlot × Name} (hx : x ∈ listing geo m d) (hdot : x.1.entry.isDot = false) :
    x.1.entry.cluster < 2 ∨ ∃ l ∈ chains, l.head? = some x.1.entry.cluster := by
  cases hdir : x.1.entry.isDirectory with
  | true => exact Or.inr (h.dir _ (h.sub d hd x hx hdot hdir).1)
  | false => exact (h.file d hd x hx hdot hdir).imp_right And.right

end Tree

def SameCluster (geo : Fat32Geo) (m m' : Memory) (c : Nat) : Prop :=
  ∀ i < geo.clusterSize, m' (geo.clusterAddr c + i) = m (geo.clusterAddr c + i)

theorem offsets_dirSlots {clusters : List Nat} :
    ∀ q ∈ dirSlots geo clusters, q.2 ∈ slotOffsets := by
  intro q hq
  obtain ⟨c, -, -, -, h⟩ := mem_dirSlots.mp hq
  exact h

theorem slotAddr_cluster (hgeo : geo.Valid) {q : Nat × Nat} {c : Nat}
    (hlo : geo.dataStartSector + (c - 2) * geo.sectorsPerCluster ≤ q.1)
    (hhi : q.1 < geo.dataStartSector + (c - 2) * geo.sectorsPerCluster + geo.sectorsPerCluster)
    (hoff : q.2 ∈ slotOffsets) :
    geo.clusterAddr c ≤ slotAddr q ∧ slotAddr q + 32 ≤ geo.clusterAddr c + geo.clusterSize := by
  have hcs := hgeo.cluster
  obtain ⟨-, h512⟩ := mem_slotOffsets hoff
  unfold Fat32Geo.clusterAddr slotAddr
  omega

theorem sameSlot_of_cluster (hgeo : geo.Valid) {clusters : List Nat} {q : Nat × Nat}
    (hq : q ∈ dirSlots geo clusters) (h : ∀ c ∈ clusters, SameCluster geo m m' c) :
    SameSlot m m' q := by
  obtain ⟨c, hc, hlo, hhi, hoff⟩ := mem_dirSlots.mp hq
  obtain ⟨hle, hend⟩ := slotAddr_cluster hgeo hlo hhi hoff
  intro i hi
  have := h c hc (slotAddr q + i - geo.clusterAddr c) (by omega)
  rwa [Nat.add_sub_cancel' (by omega)] at this

theorem nodup_sectorSlots (sector count : Nat) : (sectorSlots sector count).Nodup := by
  induction count generalizing sector with
  | zero => exact List.nodup_nil
  | succ count ih =>
    have hoffsets : slotOffsets.Nodup := by decide
    refine List.nodup_append.mpr ⟨hoffsets.map fun a b h => (Prod.mk.inj h).2, ih _, ?_⟩
    intro q hq r hr heq
    subst heq
    obtain ⟨offset, -, rfl⟩ := List.mem_map.mp hq
    have := (mem_sectorSlots.mp hr).1
    omega

theorem dirSlots_cluster_unique (hgeo : geo.Valid) {q : Nat × Nat} {c d : Nat} (hc : 2 ≤ c)
    (hd : 2 ≤ d) (hqc : q ∈ dirSlots geo [c]) (hqd : q ∈ dirSlots geo [d]) : c = d := by
  obtain ⟨c', hc', hlo, hhi, hoff⟩ := mem_dirSlots.mp hqc
  obtain ⟨d', hd', hlo', hhi', -⟩ := mem_dirSlots.mp hqd
  obtain rfl := List.mem_singleton.mp hc'
  obtain rfl := List.mem_singleton.mp hd'
  obtain ⟨hle, hend⟩ := slotAddr_cluster hgeo hlo hhi hoff
  obtain ⟨hle', hend'⟩ := slotAddr_cluster hgeo hlo' hhi' hoff
  refine (clusterAddr_inj (i := slotAddr q - geo.clusterAddr c')
    (j := slotAddr q - geo.clusterAddr d') hgeo hc hd (by omega) (by omega) (by omega)).1

theorem mem_dirSlots_singleton {q : Nat × Nat} {clusters : List Nat} :
    q ∈ dirSlots geo clusters ↔ ∃ c ∈ clusters, q ∈ dirSlots geo [c] := by
  simp only [mem_dirSlots, List.mem_singleton, exists_eq_left]

theorem nodup_dirSlots (hgeo : geo.Valid) {clusters : List Nat} (hnodup : clusters.Nodup)
    (h2 : ∀ c ∈ clusters, 2 ≤ c) : (dirSlots geo clusters).Nodup := by
  induction clusters with
  | nil => exact List.nodup_nil
  | cons c rest ih =>
    obtain ⟨hc, hrest⟩ := List.nodup_cons.mp hnodup
    rw [dirSlots, List.flatMap_cons]
    refine List.nodup_append.mpr
      ⟨nodup_sectorSlots _ _, ih hrest fun d hd => h2 d (List.mem_cons_of_mem _ hd), ?_⟩
    intro q hq r hr heq
    subst heq
    obtain ⟨d, hd, hqd⟩ := mem_dirSlots_singleton.mp hr
    obtain rfl := dirSlots_cluster_unique hgeo (h2 c List.mem_cons_self)
      (h2 d (List.mem_cons_of_mem _ hd)) (by simpa [dirSlots] using hq) hqd
    exact hc hd

theorem Tree.slot_dir (hgeo : geo.Valid) {dirs : Set Nat} {chains : List (List Nat)}
    (h : Tree geo m dirs chains) {d d' : Nat} (hd : d ∈ dirs) (hd' : d' ∈ dirs) {q : Nat × Nat}
    (hq : q ∈ dirSlots geo (chainOf geo m d)) (hq' : q ∈ dirSlots geo (chainOf geo m d')) :
    d = d' := by
  obtain ⟨l, hl, hhead, hchain⟩ := h.dir_chain hd
  obtain ⟨l', hl', hhead', hchain'⟩ := h.dir_chain hd'
  rw [hchain] at hq
  rw [hchain'] at hq'
  obtain ⟨c, hc, hqc⟩ := mem_dirSlots_singleton.mp hq
  obtain ⟨c', hc', hqc'⟩ := mem_dirSlots_singleton.mp hq'
  obtain rfl := dirSlots_cluster_unique hgeo (h.inRange hl hc).1 (h.inRange hl' hc').1 hqc hqc'
  obtain rfl := h.part.eq_of_mem hl hl' hc hc'
  rw [hhead] at hhead'
  exact Option.some.inj hhead'

theorem listing_congr (hgeo : geo.Valid) {d : Nat} (hchain : chainOf geo m' d = chainOf geo m d)
    (h : ∀ c ∈ chainOf geo m d, SameCluster geo m m' c) : listing geo m' d = listing geo m d := by
  rw [listing, listing, hchain]
  exact collect_congr fun q hq => sameSlot_of_cluster hgeo hq h

theorem mem_listing {d : Nat} {x : DirSlot × Name} (h : x ∈ listing geo m d) :
    x.1.pos ∈ dirSlots geo (chainOf geo m d) ∧ x.1 = dirSlotAt m x.1.pos ∧
      (entryAt m x.1.pos).isListed = true := by
  obtain ⟨q, hq, hx, hlisted⟩ := mem_collect h
  obtain rfl : q = x.1.pos := by rw [hx, dirSlotAt_pos]
  exact ⟨hq, hx, hlisted⟩

end Vibra.Fat32
