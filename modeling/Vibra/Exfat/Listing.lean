import Vibra.Exfat.Driver
import Vibra.Lib.KeyedList

/-! # Complete listings

A well-formed volume is described by its directories: for each path the clusters it is stored in and
the file entry sets they hold.
-/

namespace Vibra.Exfat

open Lib (Outcome Bytes)
open Lib.Outcome
open Fat32 (Name foldName eqIgnoreAsciiCase_iff)

/-- A directory: where it starts, the clusters it is stored in, and its sets in order. -/
structure Dir where
  first : Nat
  clusters : List Nat
  sets : List EntrySet

namespace ExfatFs

variable {fs : ExfatFs}

/-- The clusters that the FAT chains from one on up to the mark of the end. -/
inductive FatChain (fs : ExfatFs) : Nat → List Nat → Prop
  | last {c v : Nat} : fs.boot.InHeap c → fs.fatEntry c = .ok v → fatEoc ≤ v → FatChain fs c [c]
  | next {c v : Nat} {cs : List Nat} : fs.boot.InHeap c → fs.fatEntry c = .ok v → v < fatBad →
      FatChain fs v cs → FatChain fs c (c :: cs)

/-- The clusters of a file: consecutive ones, or those the FAT chains. -/
def Stored (fs : ExfatFs) (e : EntryInfo) (clusters : List Nat) : Prop :=
  if e.noFatChain then
    clusters = List.range' e.firstCluster ((e.size + fs.boot.clusterSize - 1) / fs.boot.clusterSize)
      ∧ clusters ≠ [] ∧ ∀ c ∈ clusters, fs.boot.InHeap c
  else fs.FatChain e.firstCluster clusters

/-- The clusters the driver goes through from one on, at most so many. -/
def followed (fs : ExfatFs) : Nat → Nat → List Nat
  | 0, _ => []
  | more + 1, cur =>
    if fs.boot.InHeap cur then
      match fs.fatEntry cur with
      | .ok next =>
        if next < fatBad ∧ fs.boot.InHeap next then cur :: followed fs more next else [cur]
      | _ => [cur]
    else []

def content (fs : ExfatFs) (clusters : List Nat) : Res Bytes := collect fs.readCluster clusters

/-- The volume is laid out as `tree` says. -/
structure WellFormed (fs : ExfatFs) (tree : List Name → Option Dir) : Prop where
  fat : ∀ c, fs.boot.InHeap c → ∃ v, fs.fatEntry c = .ok v
  heap : ∀ c, fs.boot.InHeap c → ∃ buf, fs.readCluster c = .ok buf
  root : ∃ d, tree [] = some d ∧ d.first = fs.boot.rootCluster ∧ fs.FatChain d.first d.clusters
  child : ∀ p d s, tree p = some d → s ∈ d.sets → s.info.isDir = true →
    ∃ d', tree (p ++ [s.info.name]) = some d'
  parent : ∀ p name d', tree (p ++ [name]) = some d' → ∃ d s, tree p = some d ∧ s ∈ d.sets ∧
    s.info.isDir = true ∧ s.info.name = name ∧ d'.first = s.info.firstCluster ∧
    fs.Stored s.info d'.clusters
  arranged : ∀ p d, tree p = some d → ∃ data, fs.content d.clusters = .ok data ∧
    Arranged data d.sets
  names : ∀ p d, tree p = some d → Lib.KeyedList.Unique (fun s => foldName s.info.name) d.sets ∧
    ∀ s ∈ d.sets, '/' ∉ s.info.name

/-- Every directory is listed with all its sets, and each of them is found. -/
structure Complete (fs : ExfatFs) (tree : List Name → Option Dir) : Prop where
  readdir : ∀ path d, tree (pathParts path) = some d →
    fs.readdir path = .ok (d.sets.map fun s => s.info.shown)
  find : ∀ path d, tree (pathParts path) = some d → ∀ s ∈ d.sets,
    fs.findEntry (path ++ '/' :: s.info.name) = .ok (some s.info)

/-- The clusters that the driver goes through hold the sets of the directory. -/
def Held (fs : ExfatFs) (d : Dir) : Prop :=
  ∀ data, fs.content (fs.followed (fs.maxClusters maxDirBytes) d.first) = .ok data →
    listLoop fs.boot (data.length + 1) data = .ok (d.sets.map EntrySet.info)

def Allocated (fs : ExfatFs) (d : Dir) : Prop :=
  ∀ s ∈ d.sets, fs.boot.InHeap s.info.firstCluster

theorem followed_inHeap {more cur : Nat} : ∀ c ∈ fs.followed more cur, fs.boot.InHeap c := by
  induction more generalizing cur with
  | zero => simp [followed]
  | succ more ih =>
    intro c hc
    rw [followed] at hc
    split at hc
    next hcur =>
      split at hc
      · split at hc
        · rcases List.mem_cons.mp hc with rfl | hc
          · exact hcur
          · exact ih c hc
        · rw [List.mem_singleton.mp hc]
          exact hcur
      · rw [List.mem_singleton.mp hc]
        exact hcur
    · simp at hc

theorem nextCluster_eq {cur next : Nat} (h : fs.fatEntry cur = .ok next) :
    fs.nextCluster cur = .ok (if next < fatBad ∧ fs.boot.InHeap next then some next else none) := by
  rw [nextCluster, h, ok_bind]
  unfold fatEoc fatBad
  by_cases heoc : next ≥ 0xFFFFFFF8
  · rw [if_pos heoc, if_neg (by omega)]
    rfl
  rw [if_neg heoc]
  by_cases hout : next = 0xFFFFFFF7 ∨ ¬ fs.boot.InHeap next
  · rw [if_pos hout, if_neg]
    · rfl
    · rintro ⟨hlt, hin⟩
      rcases hout with rfl | hout
      · omega
      · exact hout hin
  · rw [not_or, not_not] at hout
    rw [if_neg (by simp [hout]), if_pos ⟨by omega, hout.2⟩]
    rfl

theorem chainLoop_eq (hfat : ∀ c, fs.boot.InHeap c → ∃ v, fs.fatEntry c = .ok v)
    (more cur : Nat) : fs.chainLoop more cur = .ok (fs.followed more cur) := by
  induction more generalizing cur with
  | zero => rfl
  | succ more ih =>
    rw [chainLoop, followed]
    by_cases hcur : fs.boot.InHeap cur
    · obtain ⟨next, hnext⟩ := hfat cur hcur
      rw [if_neg (not_not.mpr hcur), if_pos hcur, nextCluster_eq hnext, hnext, ok_bind]
      by_cases hgo : next < fatBad ∧ fs.boot.InHeap next
      · simp only [if_pos hgo, ih next, ok_bind, pure_eq]
      · simp only [if_neg hgo, pure_eq]
    · rw [if_pos hcur, if_neg hcur]

variable {tree : List Name → Option Dir}

theorem listEntries_eq (hw : fs.WellFormed tree) (hsize : fs.boot.clusterSize ≠ 0) {first : Nat}
    (hfirst : fs.boot.InHeap first) :
    ∃ data, fs.content (fs.followed (fs.maxClusters maxDirBytes) first) = .ok data ∧
      fs.listEntries first = listLoop fs.boot (data.length + 1) data := by
  obtain ⟨data, hdata⟩ := collect_ok (f := fs.readCluster)
    fun c hc => hw.heap c (followed_inHeap c hc)
  refine ⟨data, hdata, ?_⟩
  have hne : fs.followed (fs.maxClusters maxDirBytes) first ≠ [] := by
    obtain ⟨k, hk⟩ : ∃ k, fs.maxClusters maxDirBytes = k + 1 :=
      ⟨fs.maxClusters maxDirBytes - 1, by
        have hpos : 1 ≤ fs.maxClusters maxDirBytes := le_max_right _ _
        omega⟩
    rw [hk, followed, if_pos hfirst]
    split
    · split <;> simp
    · simp
  rw [listEntries, readChain, if_neg hsize, chain, chainLoop_eq hw.fat, ok_bind, if_neg hne,
    pure_eq, ok_bind, hdata, ok_bind]

theorem listEntries_iff (hw : fs.WellFormed tree) (hsize : fs.boot.clusterSize ≠ 0) {d : Dir}
    (hfirst : fs.boot.InHeap d.first) :
    fs.listEntries d.first = .ok (d.sets.map EntrySet.info) ↔ fs.Held d := by
  obtain ⟨data, hdata, hlist⟩ := listEntries_eq hw hsize hfirst
  rw [hlist]
  constructor
  · intro h data' hdata'
    obtain rfl : data = data' := Outcome.ok.inj (hdata.symm.trans hdata')
    exact h
  · exact fun h => h data hdata

theorem FatChain.first_inHeap {first : Nat} {clusters : List Nat}
    (h : fs.FatChain first clusters) : fs.boot.InHeap first := by
  cases h with
  | last hc => exact hc
  | next hc => exact hc

theorem Stored.first_inHeap {e : EntryInfo} {clusters : List Nat} (h : fs.Stored e clusters) :
    fs.boot.InHeap e.firstCluster := by
  unfold Stored at h
  split at h
  · obtain ⟨rfl, hne, hin⟩ := h
    refine hin _ ?_
    cases hn : (e.size + fs.boot.clusterSize - 1) / fs.boot.clusterSize with
    | zero => simp [hn] at hne
    | succ n => simp [List.mem_range']
  · exact h.first_inHeap

theorem WellFormed.first_inHeap (hw : fs.WellFormed tree) {p : List Name} {d : Dir}
    (h : tree p = some d) : fs.boot.InHeap d.first := by
  rcases List.eq_nil_or_concat p with rfl | ⟨p, name, rfl⟩
  · obtain ⟨d', hd', hfirst, hchain⟩ := hw.root
    obtain rfl : d = d' := Option.some.inj (h.symm.trans hd')
    exact hchain.first_inHeap
  · obtain ⟨_, s, _, _, _, _, hfirst, hstored⟩ := hw.parent p name d (by simpa using h)
    rw [hfirst]
    exact hstored.first_inHeap

theorem nameMatches_iff {a b : Name} : nameMatches a b = true ↔ foldName a = foldName b := by
  rw [nameMatches, Bool.or_eq_true, eqIgnoreAsciiCase_iff, beq_iff_eq]
  exact ⟨fun h => h.elim id fun h => h ▸ rfl, Or.inl⟩

theorem findLoop_append {p q : List Name} (hp : p ≠ []) (hq : q ≠ []) (cluster : Nat) :
    fs.findLoop (p ++ q) cluster = fs.findLoop p cluster >>= fun found =>
      match found with
      | some e => if e.isDir then fs.findLoop q e.firstCluster else .ok none
      | none => .ok none := by
  induction p generalizing cluster with
  | nil => contradiction
  | cons part p ih =>
    rw [List.cons_append, findLoop, findLoop]
    cases fs.listEntries cluster with
    | err e => rfl
    | panic => rfl
    | diverge => rfl
    | ok entries =>
      rw [ok_bind, ok_bind]
      cases entries.find? fun e => nameMatches e.name part with
      | none => rfl
      | some entry =>
        simp only []
        rw [if_neg (by simp [hq])]
        by_cases hnil : p = []
        · rw [if_pos hnil, hnil, List.nil_append]
          rfl
        · rw [if_neg hnil]
          split
          · exact ih hnil entry.firstCluster
          · rfl

/-- Look-ups below the path start from the directory, and the path resolves to it. -/
structure Leads (fs : ExfatFs) (p : List Name) (d : Dir) : Prop where
  find : ∀ name, fs.findLoop (p ++ [name]) fs.boot.rootCluster = fs.findLoop [name] d.first
  resolve : ∀ path, pathParts path = p → fs.resolveDir path = .ok d.first

theorem leads_root {d : Dir} (h : d.first = fs.boot.rootCluster) : fs.Leads [] d := by
  refine ⟨fun name => by rw [List.nil_append, h], fun path hpath => ?_⟩
  rw [resolveDir, if_pos hpath, h]

theorem leads_of_find {p : List Name} (hp : p ≠ []) {d : Dir} {e : EntryInfo}
    (h : fs.findLoop p fs.boot.rootCluster = .ok (some e)) (hdir : e.isDir = true)
    (hfirst : d.first = e.firstCluster) : fs.Leads p d := by
  refine ⟨fun name => ?_, fun path hpath => ?_⟩
  · rw [findLoop_append hp (by simp), h, ok_bind, hfirst]
    exact if_pos hdir
  · rw [resolveDir, if_neg (hpath ▸ hp), findEntry, hpath, h, ok_bind, hfirst]
    exact if_pos hdir

theorem findLoop_of_listed (hw : fs.WellFormed tree) {p : List Name} {d : Dir}
    (hd : tree p = some d)
    (hlist : fs.listEntries d.first = .ok (d.sets.map EntrySet.info)) {s : EntrySet}
    (hs : s ∈ d.sets) : fs.findLoop [s.info.name] d.first = .ok (some s.info) := by
  have hunique : Lib.KeyedList.Unique (fun e : EntryInfo => foldName e.name)
      (d.sets.map EntrySet.info) := by
    rw [Lib.KeyedList.Unique, List.map_map]
    exact (hw.names p d hd).1
  have hfind : (d.sets.map EntrySet.info).find? (fun e => nameMatches e.name s.info.name) =
      some s.info := by
    have hlook := (Lib.KeyedList.lookup_eq_some hunique (k := foldName s.info.name)).mpr
      ⟨List.mem_map_of_mem hs, rfl⟩
    rw [← hlook, Lib.KeyedList.lookup]
    congr 1
    funext e
    rw [Bool.eq_iff_iff, nameMatches_iff]
    exact (decide_eq_true_iff (p := foldName e.name = foldName s.info.name)).symm
  rw [findLoop, hlist, ok_bind, hfind]
  rfl

theorem arranged_wellFormed {data : Bytes} {sets : List EntrySet} (h : Arranged data sets) :
    ∀ s ∈ sets, s.WellFormed := by
  induction h with
  | empty => simp
  | stop => simp
  | skip _ _ _ _ ih => exact ih
  | set hs _ ih =>
    intro s' hs'
    rcases List.mem_cons.mp hs' with rfl | hs'
    · exact hs
    · exact ih s' hs'

theorem WellFormed.name (hw : fs.WellFormed tree) {p : List Name} {d : Dir}
    (hd : tree p = some d) {s : EntrySet} (hs : s ∈ d.sets) :
    s.info.name ≠ [] ∧ '/' ∉ s.info.name := by
  obtain ⟨data, _, harranged⟩ := hw.arranged p d hd
  exact ⟨(arranged_wellFormed harranged s hs).name_ne_nil, (hw.names p d hd).2 s hs⟩

theorem WellFormed.clean (hw : fs.WellFormed tree) {p : List Name} {d : Dir}
    (hd : tree p = some d) : Lib.Path.Clean '/' p := by
  induction p using List.reverseRecOn generalizing d with
  | nil => simp [Lib.Path.Clean]
  | append_singleton p name ih =>
    obtain ⟨d', s, hd', hs, _, rfl, _⟩ := hw.parent p name d hd
    intro part hpart
    rcases List.mem_append.mp hpart with hpart | hpart
    · exact ih hd' part hpart
    · rw [List.mem_singleton.mp hpart]
      exact hw.name hd' hs

theorem pathParts_concat {path name : Name} (hname : name ≠ [] ∧ '/' ∉ name) :
    pathParts (path ++ '/' :: name) = pathParts path ++ [name] := by
  rw [pathParts, Lib.Path.parts_append, Lib.Path.parts_of_not_mem hname.1 hname.2]
  rfl

theorem leads_of_held (hw : fs.WellFormed tree) (hsize : fs.boot.clusterSize ≠ 0)
    (h : ∀ p d, tree p = some d → fs.Held d) {p : List Name} {d : Dir} (hd : tree p = some d) :
    fs.Leads p d := by
  induction p using List.reverseRecOn generalizing d with
  | nil =>
    obtain ⟨d', hd', hfirst, _⟩ := hw.root
    obtain rfl : d = d' := Option.some.inj (hd.symm.trans hd')
    exact leads_root hfirst
  | append_singleton p name ih =>
    obtain ⟨d', s, hd', hs, hdir, rfl, hfirst, _⟩ := hw.parent p name d hd
    have hlist := (listEntries_iff hw hsize (hw.first_inHeap hd')).mpr (h p d' hd')
    have hfind := findLoop_of_listed hw hd' hlist hs
    exact leads_of_find (by simp) ((ih hd').find _ ▸ hfind) hdir hfirst

theorem leads_of_complete (hw : fs.WellFormed tree) (h : fs.Complete tree) {p : List Name}
    {d : Dir} (hd : tree p = some d) : fs.Leads p d := by
  rcases List.eq_nil_or_concat p with rfl | ⟨p, name, rfl⟩
  · obtain ⟨d', hd', hfirst, _⟩ := hw.root
    obtain rfl : d = d' := Option.some.inj (hd.symm.trans hd')
    exact leads_root hfirst
  · rw [List.concat_eq_append] at hd ⊢
    obtain ⟨d', s, hd', hs, hdir, rfl, hfirst, _⟩ := hw.parent p name d hd
    have hparts : pathParts (Lib.Path.join '/' p) = p := Lib.Path.parts_join (hw.clean hd')
    have hfind := h.find (Lib.Path.join '/' p) d' (by rwa [hparts]) s hs
    rw [findEntry, pathParts_concat (hw.name hd' hs), hparts] at hfind
    exact leads_of_find (by simp) hfind hdir hfirst

theorem complete_iff (hw : fs.WellFormed tree) (hsize : fs.boot.clusterSize ≠ 0) :
    fs.Complete tree ↔ ∀ p d, tree p = some d → fs.Held d := by
  constructor
  · intro h p d hd
    have hleads := leads_of_complete hw h hd
    have hparts : pathParts (Lib.Path.join '/' p) = p := Lib.Path.parts_join (hw.clean hd)
    have hread := h.readdir (Lib.Path.join '/' p) d (by rwa [hparts])
    rw [readdir, hleads.resolve _ hparts, ok_bind] at hread
    obtain ⟨entries, hlist, hshown⟩ := bind_eq_ok hread
    rw [← listEntries_iff hw hsize (hw.first_inHeap hd), hlist]
    congr 1
    have hunique : Lib.KeyedList.Unique EntryInfo.name (d.sets.map EntrySet.info) := by
      have hfold := (hw.names p d hd).1
      rw [Lib.KeyedList.Unique, List.map_map]
      refine List.Nodup.of_map foldName ?_
      rwa [List.map_map]
    refine hunique.eq_of_subset ?_ fun e he => ?_
    · have hnames := congrArg (List.map DirEntry.name) (Outcome.ok.inj hshown)
      rw [List.map_map, List.map_map] at hnames
      rw [List.map_map]
      exact hnames
    · obtain ⟨s, hs, rfl⟩ := List.mem_map.mp he
      have hfind := h.find (Lib.Path.join '/' p) d (by rwa [hparts]) s hs
      rw [findEntry, pathParts_concat (hw.name hd hs), hparts, hleads.find, findLoop, hlist,
        ok_bind] at hfind
      split at hfind
      · exact absurd (Outcome.ok.inj hfind) (by simp)
      next entry hentry =>
        rw [if_pos rfl] at hfind
        obtain rfl : entry = s.info := Option.some.inj (Outcome.ok.inj hfind)
        exact List.mem_of_find?_eq_some hentry
  · intro h
    have hlist (p : List Name) (d : Dir) (hd : tree p = some d) :=
      (listEntries_iff hw hsize (hw.first_inHeap hd)).mpr (h p d hd)
    refine ⟨fun path d hd => ?_, fun path d hd s hs => ?_⟩
    · rw [readdir, (leads_of_held hw hsize h hd).resolve path rfl, ok_bind, hlist _ d hd, ok_bind,
        pure_eq, List.map_map]
      rfl
    · rw [findEntry, pathParts_concat (hw.name hd hs), (leads_of_held hw hsize h hd).find]
      exact findLoop_of_listed hw hd (hlist _ d hd) hs

def ReadAsStored (fs : ExfatFs) (d : Dir) : Prop :=
  fs.followed (fs.maxClusters maxDirBytes) d.first = d.clusters

theorem held_iff_allocated (hw : fs.WellFormed tree) {p : List Name} {d : Dir}
    (hd : tree p = some d) (hread : fs.ReadAsStored d) : fs.Held d ↔ fs.Allocated d := by
  obtain ⟨data, hdata, harranged⟩ := hw.arranged p d hd
  have hlist : listLoop fs.boot (data.length + 1) data = .ok _ :=
    listLoop_arranged harranged (Nat.lt_succ_self data.length)
  have hfilter : ((d.sets.map EntrySet.info).filter fun e => fs.boot.InHeap e.firstCluster) =
      d.sets.map EntrySet.info ↔ fs.Allocated d := by
    rw [List.filter_eq_self]
    simp [Allocated]
  rw [← hfilter, Held, hread]
  constructor
  · intro h
    exact Outcome.ok.inj (hlist.symm.trans (h data hdata))
  · intro h data' hdata'
    obtain rfl : data = data' := Outcome.ok.inj (hdata.symm.trans hdata')
    rw [hlist, h]

theorem Held.allocated (hw : fs.WellFormed tree) {d : Dir} (h : fs.Held d) : fs.Allocated d := by
  obtain ⟨data, hdata⟩ := collect_ok (f := fs.readCluster)
    fun c hc => hw.heap c (followed_inHeap c hc)
  intro s hs
  exact listLoop_inHeap (h data hdata) s.info (List.mem_map_of_mem hs)

theorem FatChain.followed {first : Nat} {clusters : List Nat} (h : fs.FatChain first clusters)
    {more : Nat} (hmore : clusters.length ≤ more) : fs.followed more first = clusters := by
  induction h generalizing more with
  | @last c v hc hv heoc =>
    obtain ⟨more, rfl⟩ : ∃ k, more = k + 1 := ⟨more - 1, by simp at hmore; omega⟩
    have hend : ¬ (v < fatBad ∧ fs.boot.InHeap v) := by
      unfold fatEoc at heoc
      unfold fatBad
      omega
    simp only [ExfatFs.followed, if_pos hc, hv, if_neg hend]
  | @next c v cs hc hv hbad hrest ih =>
    obtain ⟨more, rfl⟩ : ∃ k, more = k + 1 := ⟨more - 1, by simp at hmore; omega⟩
    have hgo : v < fatBad ∧ fs.boot.InHeap v := ⟨hbad, hrest.first_inHeap⟩
    rw [List.length_cons] at hmore
    simp only [ExfatFs.followed, if_pos hc, hv, if_pos hgo, ih (show cs.length ≤ more by omega)]

end ExfatFs

theorem parse_clusterSize (s : Bytes) :
    (ExfatBoot.parse s).Returns fun boot => boot.clusterSize ≠ 0 := by
  have hpow (k l : Nat) : 2 ^ k * 2 ^ l ≠ 0 :=
    (Nat.mul_pos (Nat.two_pow_pos k) (Nat.two_pow_pos l)).ne'
  simp only [ExfatBoot.parse, returns_ite, returns_dite, returns_err, returns_panic, returns_ok,
    implies_true, true_and, and_true, ExfatBoot.clusterSize]
  intros
  exact hpow _ _

/-- The set of the file `a` with a first cluster and a size. -/
def setOfA (first size : UInt8) : EntrySet where
  primary := [0x85, 2, 0, 0, 0x20] ++ List.replicate 27 0
  stream := [0xC0, 1, 0, 1] ++ List.replicate 16 0 ++ [first, 0, 0, 0, size] ++ List.replicate 7 0
  names := [[0xC1, 0, 0x61] ++ List.replicate 29 0]
  others := []

theorem setOfA_wellFormed (first size : UInt8) : (setOfA first size).WellFormed where
  primary := ⟨rfl, rfl⟩
  secondaryCount := rfl
  stream := ⟨rfl, rfl⟩
  names := by simp [setOfA, entryType]
  others := by simp [setOfA]
  nameLength := ⟨Nat.le_refl 1, show 1 ≤ 15 by decide⟩
  units := by
    have hunits : (setOfA first size).units = [0x61] := rfl
    simp [hunits]

/-- The bytes of a volume of two clusters of 512 bytes, whose root holds one set. -/
def oneFileBytes (first size : UInt8) : Lib.Memory := fun a =>
  (([(3, 0x45), (4, 0x58), (5, 0x46), (6, 0x41), (7, 0x54), (8, 0x20), (9, 0x20), (10, 0x20),
    (80, 1), (84, 1), (88, 2), (92, 2), (96, 2), (108, 9), (110, 1), (520, 0xFF), (521, 0xFF),
    (522, 0xFF), (523, 0xFF), (524, 0xFF), (525, 0xFF), (526, 0xFF), (527, 0xFF),
    (1024, 0x85), (1025, 2), (1028, 0x20), (1056, 0xC0), (1057, 1), (1059, 1), (1076, first),
    (1080, size), (1088, 0xC1), (1090, 0x61)] : List (Nat × UInt8)).lookup a).getD 0

def oneFile (first size : UInt8) : Lib.RawDisk := Lib.RawDisk.ofMemory 64 (oneFileBytes first size)

def oneFileFs (first size : UInt8) : ExfatFs :=
  ⟨oneFile first size, ⟨512, 1, 1, 1, 2, 2, 2, 1, by decide⟩⟩

def oneFileTree (first size : UInt8) (p : List Name) : Option Dir :=
  if p = [] then some ⟨2, [2], [setOfA first size]⟩ else none

theorem oneFile_reads {first size : UInt8} (h : (first, size) = (0, 0) ∨ (first, size) = (3, 1)) :
    (oneFile first size).read 0 512 >>= (fun bs => (ExfatBoot.parse bs).toOption) =
        some (oneFileFs first size).boot ∧
      (oneFileFs first size).fatEntry 2 = .ok 0xFFFFFFFF ∧
      (oneFileFs first size).fatEntry 3 = .ok 0xFFFFFFFF ∧
      (oneFileBytes first size).slice 1024 96 = (setOfA first size).bytes ∧
      oneFileBytes first size 1120 = 0 := by
  rcases h with h | h
  · obtain ⟨rfl, rfl⟩ := Prod.mk.inj h
    decide +kernel
  · obtain ⟨rfl, rfl⟩ := Prod.mk.inj h
    decide +kernel

section Sample

variable {first size : UInt8}

theorem oneFile_readCluster {c : Nat} (hc : c = 2 ∨ c = 3) :
    (oneFileFs first size).readCluster c =
      .ok ((oneFileBytes first size).slice (512 * c) 512) := by
  have hlba : (oneFileFs first size).boot.clusterLba c = c := by
    rcases hc with rfl | rfl
    · simp [oneFileFs, ExfatBoot.clusterLba]
    · simp [oneFileFs, ExfatBoot.clusterLba]
  have hread : (oneFileFs first size).disk.read c 512 =
      some ((oneFileBytes first size).slice (512 * c) 512) :=
    Lib.RawDisk.read_ofMemory _ (by omega)
  have hsize : (oneFileFs first size).boot.clusterSize = 512 := rfl
  rw [ExfatFs.readCluster, hlba, hsize, hread, ofOption]

variable (h : (first, size) = (0, 0) ∨ (first, size) = (3, 1))

include h

theorem oneFile_new : ExfatFs.new (oneFile first size) = .ok (oneFileFs first size) := by
  have hboot := (oneFile_reads h).1
  have hread : (oneFile first size).read 0 512 = some ((oneFileBytes first size).slice 0 512) :=
    Lib.RawDisk.read_ofMemory _ (by decide)
  rw [hread, Option.bind_eq_bind, Option.bind_some] at hboot
  rw [ExfatFs.new, hread, ofOption, ok_bind]
  cases hparse : ExfatBoot.parse ((oneFileBytes first size).slice 0 512) with
  | ok boot =>
    rw [hparse, toOption] at hboot
    rw [ok_bind, Option.some.inj hboot]
    rfl
  | err e => simp [hparse, toOption] at hboot
  | panic => simp [hparse, toOption] at hboot
  | diverge => simp [hparse, toOption] at hboot

omit h in
theorem oneFileTree_eq_some {p : List Name} {d : Dir} (hd : oneFileTree first size p = some d) :
    p = [] ∧ d = ⟨2, [2], [setOfA first size]⟩ := by
  rw [oneFileTree] at hd
  split at hd
  next hp => exact ⟨hp, (Option.some.inj hd).symm⟩
  · contradiction

theorem oneFile_arranged :
    Arranged ((oneFileBytes first size).slice (512 * 2) 512) [setOfA first size] := by
  obtain ⟨_, _, _, hset, hend⟩ := oneFile_reads h
  have hsplit : (oneFileBytes first size).slice 1024 (96 + 416) =
      (oneFileBytes first size).slice 1024 96 ++ (oneFileBytes first size).slice 1120 416 :=
    Lib.Memory.slice_add ..
  have hlen : ((oneFileBytes first size).slice 1120 416).length = 416 :=
    Lib.Memory.length_slice _ _ _
  rw [show 512 * 2 = 1024 from rfl, show 512 = 96 + 416 from rfl, hsplit, hset]
  refine .set (setOfA_wellFormed first size) (.stop ?_ ?_)
  · intro hnil
    simp [hnil] at hlen
  · rw [entryType, Lib.Memory.getD_slice (by decide), hend]
    rfl

theorem oneFile_wellFormed : (oneFileFs first size).WellFormed (oneFileTree first size) := by
  obtain ⟨_, hfat2, hfat3, _⟩ := oneFile_reads h
  have hheap {c : Nat} (hc : (oneFileFs first size).boot.InHeap c) : c = 2 ∨ c = 3 := by
    obtain ⟨hlo, hhi⟩ := hc
    have hcount : (oneFileFs first size).boot.clusterCount = 2 := rfl
    omega
  refine ⟨fun c hc => ?_, fun c hc => ⟨_, oneFile_readCluster (hheap hc)⟩, ?_, ?_, ?_, ?_, ?_⟩
  · rcases hheap hc with rfl | rfl
    · exact ⟨_, hfat2⟩
    · exact ⟨_, hfat3⟩
  · exact ⟨_, rfl, rfl, .last ⟨le_refl 2, show 2 < 2 + 2 by decide⟩ hfat2 (by decide)⟩
  · intro p d s hd hs hdir
    obtain ⟨_, rfl⟩ := oneFileTree_eq_some hd
    have hfile : (setOfA first size).info.isDir = false := by
      simp [EntrySet.info, setOfA, Lib.u16At, attrDirectory]
    rw [List.mem_singleton.mp hs, hfile] at hdir
    exact absurd hdir Bool.false_ne_true
  · intro p name d' hd'
    exact absurd (oneFileTree_eq_some hd').1 (by simp)
  · intro p d hd
    obtain ⟨_, rfl⟩ := oneFileTree_eq_some hd
    refine ⟨_, ?_, oneFile_arranged h⟩
    rw [ExfatFs.content, collect, oneFile_readCluster (.inl rfl), ok_bind, collect, ok_bind,
      pure_eq, List.append_nil]
  · intro p d hd
    obtain ⟨_, rfl⟩ := oneFileTree_eq_some hd
    refine ⟨List.nodup_singleton _, fun s hs => ?_⟩
    rw [List.mem_singleton.mp hs]
    show '/' ∉ ['a']
    decide

end Sample

end Vibra.Exfat
