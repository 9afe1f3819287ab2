import Vibra.Fat32.AppendCrash
import Vibra.Fat32.DirectoryUpdate

/-! # Full disks

`create`, `mkdir` and a write can all find the disk full, after they have taken clusters. Such
a cluster is lost when no entry leads to it.
-/

namespace Vibra.Fat32

open Lib (Memory Prog Write LinkTable)
open Lib.Prog (wp)
open Lib.LinkTable (Partition)

variable {geo : Fat32Geo} {fs : Fat32Fs} {m m' : Memory} {dirs : Set Nat}
  {chains rest : List (List Nat)} {l : List Nat} {p : Nat × Nat} {now : DosTime}

section Errors

variable {E : FsError → Memory → Prop}

theorem fatSet_done (cluster value : Nat) :
    wp disk (fun _ _ => True) (fun _ _ => True) E (fatSet geo cluster value) m := by
  simp only [fatSet, Prog.wp_bind, wp_readSector, Prog.wp_writeAll]
  exact ⟨fun _ _ _ _ => trivial, trivial⟩

theorem freeClusters_done (clusters : List Nat) :
    wp disk (fun _ _ => True) (fun _ _ => True) E (freeClusters geo clusters) m := by
  induction clusters generalizing m with
  | nil => trivial
  | cons cluster rest ih =>
    rw [freeClusters, Prog.wp_bind]
    exact Prog.wp_post (fatSet_done cluster fatFree) (fun _ _ _ => ih) fun _ _ h => h

theorem freeChain_done (start : Nat) :
    wp disk (fun _ _ => True) (fun _ _ => True) E (freeChain geo start) m := by
  rw [freeChain, Prog.wp_bind, wp_chain]
  exact freeClusters_done _

theorem setEntry_done (slot : DirSlot) (cluster size : Nat) :
    wp disk (fun _ _ => True) (fun _ _ => True) E (setEntry now slot cluster size) m := by
  simp only [setEntry, Prog.wp_bind, wp_readSector, wp_writeSector]
  exact ⟨trivial, trivial⟩

theorem putEntry_done (sector offset : Nat) (entry : FatDirEntry) :
    wp disk (fun _ _ => True) (fun _ _ => True) E (putEntry sector offset entry) m := by
  simp only [putEntry, Prog.wp_bind, wp_readSector, wp_writeSector]
  exact ⟨trivial, trivial⟩

theorem zeroCluster_done (base : Nat) :
    wp disk (fun _ _ => True) (fun _ _ => True) E (zeroCluster geo base) m := by
  rw [zeroCluster, Prog.wp_writeAll]
  exact ⟨fun _ _ _ _ => trivial, trivial⟩

theorem takeCluster_done (prev : Option Nat) (cluster : Nat) :
    wp disk (fun _ _ => True) (fun c _ => c = cluster) E (takeCluster geo prev cluster) m := by
  rw [takeCluster, Prog.wp_bind]
  refine Prog.wp_post (fatSet_done cluster fatEoc) (fun _ m _ => ?_) fun _ _ h => h
  have hhint (m : Memory) : wp disk (fun _ _ => True) (fun c _ => c = cluster) E (do
      let _ ← ((updateFsinfo geo cluster).attempt : Io (Except FsError Unit))
      pure cluster) m := by
    rw [Prog.wp_bind, Prog.wp_attempt]
    exact Prog.wp_of_forall (fun _ _ => rfl) fun _ _ => rfl
  cases prev with
  | none => exact hhint m
  | some previous =>
    rw [Prog.wp_bind]
    exact Prog.wp_post (fatSet_done previous cluster) (fun _ m _ => hhint m) fun _ _ h => h

end Errors

theorem allocFrom_error (prev : Option Nat) {left cluster : Nat} (h : 2 ≤ cluster) :
    wp disk (fun _ _ => True) (fun c _ => 2 ≤ c) (fun _ m' => m' = m)
      (allocFrom geo prev left cluster) m := by
  induction left generalizing cluster with
  | zero => rfl
  | succ left ih =>
    simp only [allocFrom, fatGet, Prog.wp_bind, wp_readSector, Prog.wp_pure]
    split
    · exact Prog.wp_post (takeCluster_done prev cluster) (fun c _ hc => hc ▸ h) fun _ _ h => h
    · exact ih (by omega)

theorem findFreeSlot_error (dirCluster : Nat) :
    wp disk (fun _ _ => True) (fun _ _ => True) (fun _ m' => m' = m)
      (findFreeSlot geo dirCluster) m := by
  rw [findFreeSlot, Prog.wp_bind, wp_chain, Prog.wp_bind,
    wp_freeSlotInClusters two_le_of_mem_chainOf]
  cases (dirSlots geo (chainOf geo m dirCluster)).find? (freeAt m) with
  | some slot => trivial
  | none =>
    rw [Prog.wp_bind]
    refine Prog.wp_post (allocFrom_error _ (Nat.le_refl 2)) (fun c m₁ hc => ?_) fun _ _ h => h
    rw [clusterToSector_eq hc, Prog.wp_bind]
    exact Prog.wp_post (zeroCluster_done _) (fun _ _ _ => trivial) fun _ _ h => h

theorem create_error (fs : Fat32Fs) (m : Memory) (now : DosTime) (path : Name) :
    wp disk (fun _ _ => True) (fun _ _ => True) (fun _ m' => m' = m) (fs.create now path) m := by
  rw [Fat32Fs.create, Fat32Fs.guardWrite]
  split
  · rfl
  · rw [Prog.wp_bind, wp_parentCluster]
    cases resolveParent fs.geo m path with
    | error e => rfl
    | ok parent =>
      obtain ⟨d, name⟩ := parent
      dsimp only
      cases to83 name with
      | none => rfl
      | some n83 =>
        rw [Prog.wp_bind, Fat32Fs.createSlot, Prog.wp_bind, wp_findInDir_listed]
        cases (listed fs.geo m d name).map Prod.fst with
        | none =>
          rw [Prog.wp_bind]
          refine Prog.wp_post (findFreeSlot_error d) (fun slot m₁ _ => ?_) fun _ _ h => h
          rw [Prog.wp_bind]
          exact Prog.wp_post (putEntry_done _ _ _) (fun _ _ _ => trivial) fun _ _ h => h
        | some slot =>
          dsimp only
          split
          · rfl
          · rw [Prog.wp_bind]
            refine Prog.wp_post (freeChain_done _) (fun _ m₁ _ => ?_) fun _ _ h => h
            rw [Prog.wp_bind]
            exact Prog.wp_post (setEntry_done slot 0 0) (fun _ _ _ => trivial) fun _ _ h => h

def Reachable (geo : Fat32Geo) (dirs : Set Nat) (m : Memory) (c : Nat) : Prop :=
  ∃ d ∈ dirs, c ∈ chainOf geo m d ∨ ∃ x ∈ listing geo m d, c ∈ chainOf geo m x.1.entry.cluster

theorem TreeBut.unreachable (h : TreeBut geo m dirs p l rest) (hdots : DotsInside geo m dirs)
    (hp : ∀ d ∈ dirs, ∀ x ∈ listing geo m d, x.1.pos = p → x.1.entry.cluster < 2) {c : Nat}
    (hc : c ∈ l) : ¬Reachable geo dirs m c := by
  have hdir {d : Nat} (hd : d < 2 ∨ d ∈ dirs) : c ∉ chainOf geo m d := by
    rcases hd with hlt | hd
    · rw [chainOf, if_pos hlt]
      exact List.not_mem_nil
    · obtain ⟨k, hk, -, hchain⟩ := h.dir_chain hd
      rw [hchain]
      exact fun hck => h.not_mem hk hck hc
  rintro ⟨d, hd, hreach | ⟨x, hx, hreach⟩⟩
  · exact hdir (Or.inr hd) hreach
  · by_cases hpos : x.1.pos = p
    · exact hdir (Or.inl (hp d hd x hx hpos)) hreach
    · cases hdot : x.1.entry.isDot with
      | true => exact hdir (hdots d hd x hx hdot).2 hreach
      | false =>
        cases hdirectory : x.1.entry.isDirectory with
        | true => exact hdir (Or.inr (h.sub d hd x hx hpos hdot hdirectory).1) hreach
        | false =>
          rcases h.file d hd x hx hpos hdot hdirectory with hlt | ⟨-, k, hk, hhead⟩
          · exact hdir (Or.inl hlt) hreach
          · rw [chainOf_startOf (h.part.perm ((List.perm_cons_erase
              (List.mem_cons_of_mem l hk)).trans (.refl _))) (startOf_head hhead)] at hreach
            exact h.not_mem hk hreach hc

structure Lost (geo : Fat32Geo) (m : Memory) (dirs : Set Nat) (c : Nat) (m' : Memory) : Prop where
  range : geo.InRange c
  free : links geo m c = .free
  used : links geo m' c ≠ .free
  unreachable : ¬Reachable geo dirs m' c

/-- The listings are the same, and what was free is free or in reach. -/
structure NothingLost (geo : Fat32Geo) (m : Memory) (dirs : Set Nat) (m' : Memory) : Prop where
  listing : ∀ d ∈ dirs, listing geo m' d = listing geo m d
  kept : ∀ c, geo.InRange c → links geo m c = .free →
    links geo m' c = .free ∨ Reachable geo dirs m' c

theorem NothingLost.refl (geo : Fat32Geo) (m : Memory) (dirs : Set Nat) :
    NothingLost geo m dirs m := ⟨fun _ _ => rfl, fun _ _ h => Or.inl h⟩

theorem NothingLost.not_lost (h : NothingLost geo m dirs m') (c : Nat) :
    ¬Lost geo m dirs c m' := fun hlost =>
  (h.kept c hlost.range hlost.free).elim hlost.used hlost.unreachable

theorem pos_ne_of_listing {d : Nat} {x : DirSlot × Name} (hx : x ∈ listing geo m d) :
    x.1.pos ≠ (0, 1) := fun hpos => by
  have hoff := offsets_dirSlots _ (mem_listing hx).1
  rw [hpos] at hoff
  exact absurd hoff (by decide)

theorem lost_of_taken (hgeo : geo.Valid) (hfs : geo.FsInfoReserved)
    (h : WellFormedTree geo m dirs chains) {c : Nat} (hc : geo.InRange c)
    (hfree : links geo m c = .free)
    (hpart : Partition (links geo m') geo.InRange ([c] :: chains))
    (hframe : ∀ a, ¬geo.InFat a → ¬geo.InFsInfo a →
      ¬(geo.clusterAddr c ≤ a ∧ a < geo.clusterAddr c + geo.clusterSize) → m' a = m a) :
    Lost geo m dirs c m' := by
  have hbut := h.toTree.leaveNone (0, 1)
  have hsame : ∀ k ∈ chains, ∀ e ∈ k, SameCluster geo m m' e := by
    intro k hk e he i hi
    have hec : e ≠ c := fun hec =>
      h.part.not_mem_of_free hfree (List.mem_flatten.mpr ⟨k, hk, hec ▸ he⟩)
    refine hframe _ (clusterAddr_not_inFat hgeo e i) (clusterAddr_not_inFsInfo hgeo hfs e i) ?_
    rintro ⟨hlo, hhi⟩
    obtain ⟨j, hj⟩ : ∃ j, geo.clusterAddr e + i = geo.clusterAddr c + j := 
      ⟨geo.clusterAddr e + i - geo.clusterAddr c, by omega⟩
    exact hec (clusterAddr_inj hgeo (h.inRange hk he).1 hc.1 hi (by omega) hj).1
  have hspared := hbut.spared hgeo hpart (fun _ hk => hk) hsame
  have hlist : ∀ d ∈ dirs, listing geo m' d = listing geo m d := fun d hd =>
    (hbut.listing_eq hgeo hpart (fun k hk => List.mem_cons_of_mem _ hk) hsame hd).2
  refine ⟨hc, hfree, (hpart.chain _ List.mem_cons_self).ne_free (List.mem_singleton_self c), ?_⟩
  refine hspared.unreachable (fun d hd x hx => ?_)
    (fun d _ x hx hpos => absurd hpos (pos_ne_of_listing hx)) (List.mem_singleton_self c)
  rw [hlist d hd] at hx
  exact h.inside d hd x hx

/-! ## The calls -/

theorem resolveDirs_error {d : Nat} {parts : List Name} {e : FsError}
    (h : resolveDirs geo m d parts = .error e) : e ≠ .diskFull := by
  induction parts generalizing d with
  | nil => cases h
  | cons part rest ih =>
    rw [resolveDirs] at h
    cases hfind : listed geo m d part with
    | none =>
      rw [hfind] at h
      cases h
      rintro ⟨⟩
    | some x =>
      rw [hfind] at h
      dsimp only at h
      split at h
      · cases h
        rintro ⟨⟩
      · exact ih h

theorem resolveParent_error {path : Name} {e : FsError}
    (h : resolveParent geo m path = .error e) : e ≠ .diskFull := by
  rw [resolveParent] at h
  cases hlast : (pathParts path).getLast? with
  | none =>
    rw [hlast] at h
    cases h
    rintro ⟨⟩
  | some name =>
    rw [hlast] at h
    cases hdirs : resolveDirs geo m geo.rootCluster (pathParts path).dropLast with
    | ok d =>
      rw [hdirs] at h
      cases h
    | error e' =>
      rw [hdirs] at h
      cases h
      exact resolveDirs_error hdirs

theorem mkdir_error (hgeo : fs.geo.Sound) (hfs : fs.geo.FsInfoReserved)
    (h : WellFormedTree fs.geo m dirs chains) (now : DosTime) (path : Name) :
    wp disk (fun _ _ => True) (fun _ _ => True)
      (fun e m' => e = .diskFull → m' = m ∧ Full fs.geo m ∨ ∃ c, Lost fs.geo m dirs c m')
      (fs.mkdir now path) m := by
  rw [Fat32Fs.mkdir, Fat32Fs.guardWrite]
  split
  · exact fun he => by cases he
  · rw [Prog.wp_bind, wp_parentCluster]
    cases hparent : resolveParent fs.geo m path with
    | error e => exact fun he => absurd he (resolveParent_error hparent)
    | ok parent =>
      obtain ⟨d, name⟩ := parent
      dsimp only
      cases to83 name with
      | none => exact fun he => by cases he
      | some n83 =>
        rw [Prog.wp_bind, wp_findInDir_listed]
        cases (listed fs.geo m d name).map Prod.fst with
        | some slot => exact fun he => by cases he
        | none =>
          rw [Prog.wp_bind]
          refine allocCluster_spec hgeo (by simp) (fun hfull _ => Or.inl ⟨rfl, hfull⟩)
            (fun _ _ _ _ _ _ _ _ => trivial) fun c m₁ hc hfree hframe hlinks => ?_
          rw [clusterToSector_eq hc.1, Prog.wp_bind]
          refine zeroCluster_spec (fun _ _ _ _ _ _ => trivial) fun m₂ hz => ?_
          rw [Prog.wp_bind, wp_writeSector]
          refine ⟨trivial, ?_⟩
          rw [Prog.wp_bind]
          refine Prog.wp_post (findFreeSlot_error d) (fun slot m₃ _ => ?_) fun e m₃ hm₃ _ => ?_
          · exact Prog.wp_post (putEntry_done _ _ _) (fun _ _ _ => trivial) fun _ _ h => h
          · right
            subst hm₃
            have hpart₁ := hlinks.partition (h.part.alloc hc hfree)
            have hpart₂ := (frame_of_sameFat hgeo (hz.sameFat hgeo.toValid)).2.2.partition hpart₁
            refine ⟨c, lost_of_taken hgeo.toValid hfs h hc hfree ((frame_of_sameFat hgeo
              (sameFat_of_write hgeo.toValid (Nat.le_add_right _ _) _)).2.2.partition hpart₂)
              fun a hfat hinfo hout => ?_⟩
            have hcs := hgeo.cluster
            have hspc := hgeo.spc
            unfold Fat32Geo.clusterAddr at hout
            rw [disk_write_of_outside (by omega), hz a, if_neg (by omega)]
            exact hframe.data a hfat hinfo

/-- A handle of a listed file, as `create` and `open` return it, at any position. -/
structure OfFile (fs : Fat32Fs) (m : Memory) (dirs : Set Nat) (f : Fat32File) : Prop where
  geo : f.geo = fs.geo
  file : ∃ d ∈ dirs, ∃ x ∈ listing fs.geo m d, x.1.pos = f.slot.pos ∧ x.1.entry.isFile = true ∧
    x.1.entry.cluster = f.startCluster

section Write

variable {l₀ : List Nat} {offset n : Nat} {data : List UInt8}
  (hgeo : geo.Sound) (hfs : geo.FsInfoReserved) (hat : FileAt geo m dirs p l₀ rest)
  (hw : Writing geo m l₀ rest offset data n l m')

include hgeo hfs hat hw

theorem FileAt.writing_listing : ∀ d ∈ dirs, listing geo m' d = listing geo m d := fun _ hd =>
  (hat.toTreeBut.listing_eq hgeo.toValid hw.part (fun _ hk => List.mem_cons_of_mem _ hk)
    (hat.written_same hgeo.toValid hfs hw.frame hw.part fun _ hk => hk) hd).2

theorem FileAt.writing_lost (hempty : l₀ = []) {c : Nat} (hc : c ∈ l) :
    Lost geo m dirs c m' := by
  have hlist := hat.writing_listing hgeo hfs hw
  obtain ⟨new, hl, hnew⟩ := hw.ext
  rw [hempty, List.nil_append] at hl
  refine ⟨hw.part.dom_of_mem List.mem_cons_self hc, hnew c (hl ▸ hc),
    (hw.part.chain _ List.mem_cons_self).ne_free hc, ?_⟩
  have hspared := hat.toTreeBut.spared hgeo.toValid hw.part (fun _ hk => hk)
    (hat.written_same hgeo.toValid hfs hw.frame hw.part fun _ hk => hk)
  refine hspared.unreachable (fun d hd x hx => ?_) (fun d hd x hx hpos => ?_) hc
  · rw [hlist d hd] at hx
    exact hat.inside d hd x hx
  · rw [hlist d hd] at hx
    rw [entry_of_pos hx hpos]
    have hstart := hat.start
    rw [hempty] at hstart
    exact hstart

theorem FileAt.writing_kept (hne : l₀ ≠ []) : NothingLost geo m dirs m' := by
  have hlist := hat.writing_listing hgeo hfs hw
  refine ⟨hlist, fun c hc hfree => ?_⟩
  by_cases hcl : c ∈ l
  · right
    obtain ⟨d, hd, x, hx, hpos⟩ := hat.listed
    refine ⟨d, hd, Or.inr ⟨x, by rwa [hlist d hd], ?_⟩⟩
    have hstart : StartOf l x.1.entry.cluster := by
      rw [entry_of_pos hx hpos]
      obtain ⟨new, rfl, -⟩ := hw.ext
      have hstart := hat.start
      cases l₀ with
      | nil => exact absurd rfl hne
      | cons a l₀ => exact hstart
    rwa [chainOf_startOf hw.part hstart]
  · left
    by_contra hused
    have hmem := (hw.part.mem_iff c).mpr ⟨hc, hused⟩
    rw [List.flatten_cons, List.mem_append] at hmem
    refine hat.part.not_mem_of_free hfree ?_
    rw [List.flatten_cons, List.mem_append]
    exact Or.inr (hmem.resolve_left hcl)

end Write

theorem write_error (hgeo : fs.geo.Sound) (hfs : fs.geo.FsInfoReserved)
    (h : WellFormedTree fs.geo m dirs chains) {f : Fat32File} (hf : OfFile fs m dirs f)
    (now : DosTime) (buf : List UInt8) :
    wp disk (fun _ _ => True) (fun x m' => x.2 = .error .diskFull →
        2 ≤ f.startCluster ∧ NothingLost fs.geo m dirs m' ∨
          f.startCluster < 2 ∧ (Full fs.geo m ∧ NothingLost fs.geo m dirs m' ∨
            ∃ c, Lost fs.geo m dirs c m'))
      (fun _ _ => True) (f.write now buf) m := by
  obtain ⟨hfgeo, d, hd, x, hx, hpos, hfile, hcluster⟩ := hf
  obtain ⟨l₀, rest, hat⟩ := h.fileAt hd hx hfile
  have hstart : StartOf l₀ f.startCluster := by
    have := hat.start
    rwa [← entry_of_pos hx rfl, hcluster] at this
  rw [Fat32File.write]
  split
  · exact fun he => by cases he
  · dsimp only
    rw [Prog.wp_bind, hfgeo]
    refine writeRange_spec hgeo hat.part hstart (fun _ _ _ _ => trivial)
      (fun n l start m' _ hw hs hfull _ => ?_) fun l start m' _ _ _ => ?_
    · cases l₀ with
      | cons a l₀ =>
        have hrange : fs.geo.InRange a := hat.part.dom_of_mem List.mem_cons_self (by simp)
        obtain rfl : f.startCluster = a := hstart
        exact Or.inl ⟨hrange.1, hat.writing_kept hgeo hfs hw (List.cons_ne_nil _ _)⟩
      | nil =>
        refine Or.inr ⟨hstart, ?_⟩
        cases l with
        | nil =>
          have hnone := hfull rfl
          exact Or.inl ⟨hnone, hat.writing_listing hgeo hfs hw,
            fun c hc hfree => absurd hfree (hnone c hc)⟩
        | cons c l =>
          exact Or.inr ⟨c, hat.writing_lost hgeo hfs hw rfl List.mem_cons_self⟩
    · dsimp only
      rw [Prog.wp_bind, Prog.wp_attempt]
      exact Prog.wp_post (setEntry_done _ _ _) (fun _ _ _ he => by cases he) fun _ _ h => h

/-- What can find the disk full. -/
inductive Request where
  | create (now : DosTime) (path : Name)
  | mkdir (now : DosTime) (path : Name)
  | write (now : DosTime) (f : Fat32File) (buf : List UInt8)

namespace Request

/-- The request ends with `DiskFull` and the memory `m'`. -/
def Fails (fs : Fat32Fs) (m : Memory) (m' : Memory) : Request → Prop
  | create now path => (fs.create now path).run disk m = (.error .diskFull, m')
  | mkdir now path => (fs.mkdir now path).run disk m = (.error .diskFull, m')
  | write now f buf => ∃ f', (f.write now buf).run disk m = (.ok (f', .error .diskFull), m')

def Allowed (fs : Fat32Fs) (m : Memory) (dirs : Set Nat) : Request → Prop
  | write _ f _ => OfFile fs m dirs f
  | _ => True

/-- A new directory and the first cluster of a file are lost, unless there is none to take. -/
def Spares (geo : Fat32Geo) (m : Memory) : Request → Prop
  | create .. => True
  | mkdir .. => Full geo m
  | write _ f _ => 2 ≤ f.startCluster ∨ Full geo m

theorem fails_write {f : Fat32File} {buf : List UInt8}
    (h : ((f.write now buf).run disk m).1.map Prod.snd = .ok (.error .diskFull)) :
    (write now f buf).Fails fs m ((f.write now buf).run disk m).2 := by
  cases hres : (f.write now buf).run disk m with
  | mk res m' =>
    rw [hres] at h
    cases res with
    | error e => cases h
    | ok x =>
      obtain ⟨f', r⟩ := x
      obtain rfl : r = .error .diskFull := by simpa [Except.map] using h
      exact ⟨f', hres⟩

end Request

/-- Exactly then does a full disk lose no cluster. -/
theorem nothing_lost_iff (hgeo : fs.geo.Sound) (hfs : fs.geo.FsInfoReserved)
    (h : WellFormedTree fs.geo m dirs chains) {request : Request}
    (hallowed : request.Allowed fs m dirs) (hfails : request.Fails fs m m') :
    NothingLost fs.geo m dirs m' ↔ request.Spares fs.geo m := by
  cases request with
  | create now path =>
    have hrun := Prog.wp_run (create_error fs m now path)
    rw [hfails] at hrun
    obtain rfl : m' = m := hrun
    exact ⟨fun _ => trivial, fun _ => .refl _ _ _⟩
  | mkdir now path =>
    have hrun := Prog.wp_run (mkdir_error hgeo hfs h now path)
    rw [hfails] at hrun
    rcases hrun rfl with ⟨rfl, hfull⟩ | ⟨c, hlost⟩
    · exact ⟨fun _ => hfull, fun _ => .refl _ _ _⟩
    · exact ⟨fun hkept => absurd hlost (hkept.not_lost c),
        fun hfull => absurd hlost.free (hfull c hlost.range)⟩
  | write now f buf =>
    obtain ⟨f', hfails⟩ := hfails
    have hrun := Prog.wp_run (write_error hgeo hfs h hallowed now buf)
    rw [hfails] at hrun
    rcases hrun rfl with ⟨hstart, hkept⟩ | ⟨hstart, ⟨hfull, hkept⟩ | ⟨c, hlost⟩⟩
    · exact ⟨fun _ => Or.inl hstart, fun _ => hkept⟩
    · exact ⟨fun _ => Or.inr hfull, fun _ => hkept⟩
    · refine ⟨fun hkept => absurd hlost (hkept.not_lost c), fun hspares => ?_⟩
      rcases hspares with hlong | hfull
      · exact absurd hstart (Nat.not_lt.mpr hlong)
      · exact absurd hlost.free (hfull c hlost.range)

/-- A handle of the file `A` of the small volume. -/
def logFile : Fat32File := ⟨smallFs.geo, logSlot, 3, 2, 0, [0x68, 0x69], false⟩

theorem logVolume_sound : smallFs.geo.Sound :=
  ⟨⟨by decide, by decide, by decide, by decide, by decide, by decide⟩, smallFs_sane⟩

/-- Three clusters of data in a file of one cluster, with one more free. -/
theorem nothing_lost_small :
    (Request.write ⟨0, 0⟩ logFile (List.replicate 1025 0x21)).Fails smallFs logVolume
      ((logFile.write ⟨0, 0⟩ (List.replicate 1025 0x21)).run disk logVolume).2 ∧
    (NothingLost smallFs.geo logVolume {2}
        ((logFile.write ⟨0, 0⟩ (List.replicate 1025 0x21)).run disk logVolume).2 ↔
      (Request.write ⟨0, 0⟩ logFile (List.replicate 1025 0x21)).Spares smallFs.geo logVolume) := by
  have hlisted : (logSlot, ['A']) ∈ listing smallFs.geo logVolume 2 := by
    rw [listing_logVolume]
    exact List.mem_singleton_self _
  have hfile : OfFile smallFs logVolume {2} logFile :=
    ⟨rfl, 2, rfl, _, hlisted, rfl, by decide, logSlot_entry.1.2.2.2⟩
  have hfails : (Request.write ⟨0, 0⟩ logFile (List.replicate 1025 0x21)).Fails smallFs logVolume
      ((logFile.write ⟨0, 0⟩ (List.replicate 1025 0x21)).run disk logVolume).2 :=
    Request.fails_write (by decide +kernel)
  exact ⟨hfails, nothing_lost_iff logVolume_sound (fun h => absurd rfl h.1) logVolume_wellFormed
    hfile hfails⟩

/-- The small volume with the empty file `A`, as `create` leaves it. -/
def newVolume : Memory :=
  smallVolume.put 1024 (Fat32Fs.fileEntry ⟨0, 0⟩ (0x41 :: List.replicate 10 0x20)).bytes

def newSlot : DirSlot := dirSlotAt newVolume (2, 0)

def newFile : Fat32File := ⟨smallFs.geo, newSlot, 0, 0, 0, [], false⟩

theorem newVolume_read : listing smallFs.geo newVolume 2 = [(newSlot, ['A'])] ∧
    (links smallFs.geo newVolume 2 = .stop ∧ links smallFs.geo newVolume 3 = .free ∧
      links smallFs.geo newVolume 4 = .free) ∧
    newSlot.entry.isDot = false ∧ newSlot.entry.isDirectory = false ∧
    newSlot.entry.cluster = 0 ∧ newSlot.entry.fileSize = 0 := by
  decide

theorem listing_newVolume : listing smallFs.geo newVolume 2 = [(newSlot, ['A'])] :=
  newVolume_read.1

theorem links_newVolume : links smallFs.geo newVolume 2 = .stop ∧
    links smallFs.geo newVolume 3 = .free ∧ links smallFs.geo newVolume 4 = .free :=
  newVolume_read.2.1

theorem partition_newVolume :
    Partition (links smallFs.geo newVolume) smallFs.geo.InRange [[2]] where
  chain l hl := by
    obtain rfl := List.mem_singleton.mp hl
    exact links_newVolume.1
  nodup := by decide
  mem_iff a := by
    constructor
    · intro ha
      obtain rfl : a = 2 := by simpa using ha
      rw [links_newVolume.1]
      exact ⟨⟨by decide, by decide⟩, by simp⟩
    · rintro ⟨⟨hlo, hhi⟩, hused⟩
      have ha : a < 5 := hhi
      have h3 : a ≠ 3 := by
        rintro rfl
        exact hused links_newVolume.2.1
      have h4 : a ≠ 4 := by
        rintro rfl
        exact hused links_newVolume.2.2
      obtain rfl : a = 2 := by omega
      exact List.mem_singleton_self 2

theorem newSlot_entry : newSlot.entry.isDot = false ∧ newSlot.entry.isDirectory = false ∧
    newSlot.entry.cluster = 0 ∧ newSlot.entry.fileSize = 0 :=
  newVolume_read.2.2

theorem newVolume_wellFormed : WellFormedTree smallFs.geo newVolume {2} [[2]] := by
  obtain ⟨hdot, hdir, hcluster, hsize⟩ := newSlot_entry
  refine wellFormed_one partition_newVolume listing_newVolume (by simp) hdot hdir ?_ ?_
  · rw [hcluster]
    exact Or.inl (by decide)
  · rw [hsize]
    exact Nat.zero_le _

/-- Three clusters of data, written to a new file, take the two clusters that are free; the
write fails, and the clusters are lost. -/
theorem nothing_lost_fails : ∃ m',
    WellFormedTree smallFs.geo newVolume {2} [[2]] ∧ OfFile smallFs newVolume {2} newFile ∧
    (Request.write ⟨0, 0⟩ newFile (List.replicate 1025 0x21)).Fails smallFs newVolume m' ∧
    ¬NothingLost smallFs.geo newVolume {2} m' := by
  have hlisted : (newSlot, ['A']) ∈ listing smallFs.geo newVolume 2 := by
    rw [listing_newVolume]
    exact List.mem_singleton_self _
  have hrun : ((newFile.write ⟨0, 0⟩ (List.replicate 1025 0x21)).run disk newVolume).1.map
        Prod.snd = .ok (.error .diskFull) ∧
      let m' := ((newFile.write ⟨0, 0⟩ (List.replicate 1025 0x21)).run disk newVolume).2
      links smallFs.geo m' 3 ≠ .free ∧ chainOf smallFs.geo m' 2 = [2] ∧
        (listing smallFs.geo m' 2).map (fun x => x.1.entry.cluster) = [0] := by
    decide +kernel
  obtain ⟨hrun, hused, hchain, hlist⟩ := hrun
  refine ⟨((newFile.write ⟨0, 0⟩ (List.replicate 1025 0x21)).run disk newVolume).2,
    newVolume_wellFormed, ⟨rfl, 2, rfl, _, hlisted, rfl, by decide,
    newSlot_entry.2.2.1⟩, ?_, fun hkept => ?_⟩
  · exact Request.fails_write hrun
  · rcases hkept.kept 3 ⟨by decide, by decide⟩ links_newVolume.2.1 with hfree | ⟨d, hd, hreach⟩
    · exact hused hfree
    · obtain rfl : d = 2 := hd
      rcases hreach with hmem | ⟨x, hx, hmem⟩
      · rw [hchain] at hmem
        exact absurd hmem (by decide)
      · have hcluster : x.1.entry.cluster ∈ [0] := hlist ▸ List.mem_map_of_mem hx
        rw [List.mem_singleton.mp hcluster, chainOf, if_pos (by decide)] at hmem
        cases hmem

end Vibra.Fat32
