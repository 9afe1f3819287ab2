import Vibra.Fat32.AppendCrash
import Vibra.Fat32.DirectoryUpdate

/-! # A directory is a map

Runs of `create`, `mkdir`, `remove` and `rmdir` on a tree with names.
-/

namespace Vibra.Fat32

open Lib (Memory Prog LinkTable)
open Lib.Prog (wp)

variable {fs : Fat32Fs} {now : DosTime} {m m' : Memory} {dirs dirs' : Set Nat}
  {chains : List (List Nat)} {d : Nat} {x : DirSlot × Name} {path name : Name} {n83 : List UInt8}

/-- The name of the path has gone from its directory, with the entry `x`. -/
structure EntryGone (geo : Fat32Geo) (m : Memory) (path : Name) (dirs' : Set Nat) (d : Nat)
    (name : Name) (x : DirSlot × Name) (m' : Memory) : Prop where
  parent : resolveParent geo m path = .ok (d, name)
  mem : d ∈ dirs'
  found : listed geo m d name = some x
  inserted : Inserted geo m' dirs' d x m

theorem resolve_entry (h : NamedTree fs.geo m dirs chains) (hpath : pathParts path ≠ [])
    {slot : DirSlot} (hres : resolve fs.geo m path = .ok (some slot)) :
    ∃ d name x, resolveParent fs.geo m path = .ok (d, name) ∧ d ∈ dirs ∧
      listed fs.geo m d name = some x ∧ x ∈ listing fs.geo m d ∧ x.1 = slot := by
  obtain ⟨d, name, hparent, hlisted⟩ := (resolve_iff hpath).mp hres
  obtain ⟨x, hfind, hslot⟩ := Option.map_eq_some_iff.mp hlisted
  have hx : x ∈ listing fs.geo m d := List.mem_of_find?_eq_some hfind
  have hd := resolveDirs_mem h.toTree h.inside (Or.inr h.root) (resolveParent_eq hparent).1
  refine ⟨d, name, x, hparent, hd.resolve_left fun hlt => ?_, hfind, hx, hslot⟩
  rw [listing_of_lt hlt] at hx
  cases hx

theorem rootSlot_isDirectory (geo : Fat32Geo) : (rootSlot geo).entry.isDirectory = true := by
  simp [rootSlot, FatDirEntry.isDirectory, FatDirEntry.attrDirectory]

theorem rootSlot_cluster (geo : Fat32Geo) : (rootSlot geo).entry.cluster = geo.rootCluster := by
  simp only [rootSlot, FatDirEntry.cluster]
  omega

section Spec

variable (hgeo : fs.geo.Sound) (hfs : fs.geo.FsInfoReserved) (hrw : fs.readOnly = false)
  (h : NamedTree fs.geo m dirs chains)

include hgeo hfs hrw h

theorem remove_spec : wp disk (fun _ _ => True)
    (fun _ m' => ∃ chains' d name x, NamedTree fs.geo m' dirs chains' ∧
      EntryGone fs.geo m path dirs d name x m')
    (fun _ m' => m' = m) (fs.remove path) m := by
  rw [Fat32Fs.remove, Fat32Fs.guardWrite, hrw, if_neg Bool.false_ne_true, Prog.wp_bind,
    Fat32Fs.findSlot, Prog.wp_bind, wp_findPath]
  cases hres : resolve fs.geo m path with
  | error e => rfl
  | ok found =>
    cases found with
    | none => rfl
    | some slot =>
      dsimp only
      rw [Prog.wp_pure]
      by_cases hdir : slot.entry.isDirectory = true
      · rw [if_pos hdir]
        rfl
      · rw [if_neg hdir]
        have hpath : pathParts path ≠ [] := by
          intro hpath
          rw [resolve, if_pos hpath] at hres
          cases hres
          exact hdir (rootSlot_isDirectory _)
        obtain ⟨d, name, x, hparent, hd, hfind, hx, rfl⟩ := resolve_entry h hpath hres
        have hfile : x.1.entry.isDirectory = false := by simpa using hdir
        have hdot : x.1.entry.isDot = false := by
          by_contra hdot
          rw [(h.inside d hd x hx (by simpa using hdot)).1] at hfile
          cases hfile
        obtain ⟨l, rest, hs, hbut, -⟩ := h.toTree.leaveFile hd hx hdot hfile
        have hcluster : x.1.entry.cluster ∉ dirs := by
          intro hin
          rcases h.file d hd x hx hdot hfile with hlt | ⟨hnot, -⟩
          · obtain ⟨k, hk, hhead⟩ := h.dir _ hin
            have := (h.inRange hk (List.mem_of_mem_head? hhead)).1
            omega
          · exact hnot hin
        exact eraseEntry_spec hgeo hfs h (fun _ hd => hd) hbut hs hd hx hcluster
          (fun e he hnot => absurd he hnot) (fun _ _ => trivial)
          fun m' htree her => ⟨_, d, name, x, htree, hparent, hd, hfind, her.inserted⟩

theorem rmdir_spec (hname : ∀ name, (pathParts path).getLast? = some name → to83 name ≠ none) :
    wp disk (fun _ _ => True)
      (fun _ m' => ∃ dirs' chains' d name x, dirs' ⊆ dirs ∧ NamedTree fs.geo m' dirs' chains' ∧
        EntryGone fs.geo m path dirs' d name x m')
      (fun _ m' => m' = m) (fs.rmdir path) m := by
  rw [Fat32Fs.rmdir, Fat32Fs.guardWrite, hrw, if_neg Bool.false_ne_true, Prog.wp_bind,
    Fat32Fs.findSlot, Prog.wp_bind, wp_findPath]
  cases hres : resolve fs.geo m path with
  | error e => rfl
  | ok found =>
    cases found with
    | none => rfl
    | some slot =>
      dsimp only
      rw [Prog.wp_pure]
      by_cases hdir : slot.entry.isDirectory = true
      · rw [if_neg (by simp [hdir])]
        by_cases hroot : slot.entry.cluster = fs.geo.rootCluster ∨ slot.entry.cluster < 2
        · rw [if_pos hroot]
          rfl
        · rw [if_neg hroot, Prog.wp_bind, wp_readDir_listing]
          by_cases hempty : (listing fs.geo m slot.entry.cluster).any
              (fun e => !Fat32Fs.isHidden e.2) = true
          · rw [if_pos hempty]
            rfl
          · rw [if_neg hempty]
            have hpath : pathParts path ≠ [] := by
              intro hpath
              rw [resolve, if_pos hpath] at hres
              cases hres
              exact hroot (Or.inl (rootSlot_cluster _))
            obtain ⟨d, name, x, hparent, hd, hfind, hx, rfl⟩ := resolve_entry h hpath hres
            have hdot : x.1.entry.isDot = false := by
              by_contra hdot
              have hfold : foldName x.2 = foldName name := by
                have := List.find?_some hfind
                rwa [eqIgnoreAsciiCase_iff] at this
              have hlast : (pathParts path).getLast? = some name := by
                rw [(resolveParent_eq hparent).2, List.getLast?_concat]
              obtain ⟨n83, hn83⟩ := Option.ne_none_iff_exists'.mp (hname name hlast)
              have hshown := isHidden_of_to83 hn83 hfold
              rcases h.dots d hd x hx (by simpa using hdot) with h1 | h2
              · rw [h1] at hshown
                cases hshown
              · rw [h2] at hshown
                cases hshown
            obtain ⟨l, rest, hhead, hbut⟩ := h.toTree.leaveDir hd hx hdot hdir
            have honly : ∀ y ∈ listing fs.geo m x.1.entry.cluster, y.1.entry.isDot = true := by
              intro y hy
              by_contra hydot
              have hyshown := h.named.shown _ (h.sub d hd x hx hdot hdir).1 y hy (by simpa using hydot)
              refine hempty (List.any_eq_true.mpr ⟨y, hy, ?_⟩)
              rw [hyshown]
              rfl
            have hdc : d ∈ dirs \ {x.1.entry.cluster} := by
              refine ⟨hd, fun hdc => ?_⟩
              rw [Set.mem_singleton_iff] at hdc
              rw [hdc] at hx
              rw [honly x hx] at hdot
              cases hdot
            refine eraseEntry_spec hgeo hfs h Set.sdiff_subset hbut (startOf_head hhead) hdc hx
              (fun hin => hin.2 rfl) (fun e he hnot y hy => ?_) (fun _ _ => trivial)
              fun m' htree her =>
                ⟨_, _, d, name, x, Set.sdiff_subset, htree, hparent, hdc, hfind, her.inserted⟩
            have hec : e = x.1.entry.cluster := by
              by_contra hne
              exact hnot ⟨he, hne⟩
            exact honly y (hec ▸ hy)
      · rw [if_pos (by simp [hdir])]
        rfl

end Spec

/-- A call that opens, reads, seeks or deletes. A directory to be deleted is named by itself, not
by `.` or `..`, which have no 8.3 form. -/
def Call.Deletes : Call → Prop
  | .openFile _ | .read _ _ | .seek _ _ | .remove _ => True
  | .rmdir path => ∀ name, (pathParts path).getLast? = some name → to83 name ≠ none
  | _ => False

/-- The entry to be deleted has gone from the directory where it was found. -/
def Call.Takes (geo : Fat32Geo) (m : Memory) (dirs : Set Nat) (m' : Memory) : Call → Prop
  | .remove path | .rmdir path => ∃ d name x, EntryGone geo m path dirs d name x m'
  | _ => m' = m

/-- The tree is well-formed and every directory lists a part of what it listed, in its order; and a
further call fails with the disk as it was, or takes the one entry that it names. -/
def Deletable (fs : Fat32Fs) (m₀ : Memory) (dirs : Set Nat) (s : Session) (now : DosTime)
    (call : Call) : Prop :=
  ∃ dirs' chains', dirs' ⊆ dirs ∧ NamedTree fs.geo s.memory dirs' chains' ∧
    (∀ d ∈ dirs', (listing fs.geo s.memory d).Sublist (listing fs.geo m₀ d)) ∧
    match (call.prog fs now s.handles).run disk s.memory with
    | (.ok _, m') => ∃ dirs'' chains'', dirs'' ⊆ dirs' ∧ NamedTree fs.geo m' dirs'' chains'' ∧
        call.Takes fs.geo s.memory dirs'' m'
    | (.error _, m') => m' = s.memory

theorem EntryGone.sublist {geo : Fat32Geo} (h : EntryGone geo m path dirs' d name x m') {e : Nat}
    (he : e ∈ dirs') : (listing geo m' e).Sublist (listing geo m e) := by
  by_cases hed : e = d
  · subst hed
    obtain ⟨pre, post, hnew, hold⟩ := h.inserted.here
    rw [hnew, hold]
    exact (List.sublist_cons_self x post).append_left pre
  · rw [h.inserted.other e he hed]

theorem Call.Takes.sublist {geo : Fat32Geo} {call : Call} (h : call.Takes geo m dirs' m') {e : Nat}
    (he : e ∈ dirs') : (listing geo m' e).Sublist (listing geo m e) := by
  unfold Call.Takes at h
  split at h
  · obtain ⟨d, name, x, hgone⟩ := h
    exact hgone.sublist he
  · obtain ⟨d, name, x, hgone⟩ := h
    exact hgone.sublist he
  · rw [h]

theorem deletes_spec (hgeo : fs.geo.Sound) (hfs : fs.geo.FsInfoReserved) (hrw : fs.readOnly = false)
    (h : NamedTree fs.geo m dirs chains) {call : Call} (ha : call.Deletes) (now : DosTime)
    (hs : Handles) :
    wp disk (fun _ _ => True)
      (fun _ m' => ∃ dirs' chains', dirs' ⊆ dirs ∧ NamedTree fs.geo m' dirs' chains' ∧
        call.Takes fs.geo m dirs' m')
      (fun _ m' => m' = m) (call.prog fs now hs) m := by
  have hsame : ∃ dirs' chains', dirs' ⊆ dirs ∧ NamedTree fs.geo m dirs' chains' ∧ m = m :=
    ⟨dirs, chains, subset_rfl, h, rfl⟩
  cases call with
  | openFile path =>
    rw [Call.prog, Prog.wp_bind]
    exact (Fat32Fs.readOnly_openFile path).wp (fun _ _ => hsame) fun _ _ => rfl
  | read i len =>
    rw [Call.prog]
    cases hs.files[i]? <;> exact hsame
  | seek i pos =>
    rw [Call.prog]
    cases hs.files[i]? <;> exact hsame
  | remove path =>
    rw [Call.prog, Prog.wp_bind]
    refine Prog.wp_post (remove_spec hgeo hfs hrw h) ?_ fun _ _ h => h
    rintro _ m' ⟨chains', d, name, x, htree, hgone⟩
    exact ⟨dirs, chains', subset_rfl, htree, d, name, x, hgone⟩
  | rmdir path =>
    rw [Call.prog, Prog.wp_bind]
    refine Prog.wp_post (rmdir_spec hgeo hfs hrw h ha) ?_ fun _ _ h => h
    rintro _ m' ⟨dirs', chains', d, name, x, hsub, htree, hgone⟩
    exact ⟨dirs', chains', hsub, htree, d, name, x, hgone⟩
  | _ => exact ha.elim

theorem deletions_keep (hgeo : fs.geo.Sound) (hfs : fs.geo.FsInfoReserved)
    (hrw : fs.readOnly = false) {m₀ : Memory} (h : NamedTree fs.geo m₀ dirs chains) {s : Session}
    (hrun : s.Run fs (fun _ _ call => call.Deletes) m₀) :
    ∃ dirs' chains', dirs' ⊆ dirs ∧ NamedTree fs.geo s.memory dirs' chains' ∧
      ∀ d ∈ dirs', (listing fs.geo s.memory d).Sublist (listing fs.geo m₀ d) := by
  induction hrun with
  | mount => exact ⟨dirs, chains, subset_rfl, h, fun _ _ => List.Sublist.refl _⟩
  | @call s now call _ ha ih =>
    obtain ⟨dirs', chains', hsub, htree, hlists⟩ := ih
    have hstep := Prog.wp_run (deletes_spec hgeo hfs hrw htree ha now s.handles)
    unfold Session.exec
    revert hstep
    rcases (call.prog fs now s.handles).run disk s.memory with ⟨_ | handles, m'⟩
    · rintro rfl
      exact ⟨dirs', chains', hsub, htree, hlists⟩
    · rintro ⟨dirs'', chains'', hsub', htree', htakes⟩
      exact ⟨dirs'', chains'', hsub'.trans hsub, htree',
        fun d hd => (htakes.sublist hd).trans (hlists d (hsub' hd))⟩

/-- Whatever has been opened, read and deleted, what is left is well-formed, and the next call fails
without an effect or takes exactly one entry. -/
theorem deletions_exact {m₀ : Memory} (hmount : (Fat32Fs.newRw.run disk m₀).1 = .ok fs)
    (hsane : fs.geo.Sane) (hfs : fs.geo.FsInfoReserved) (h : NamedTree fs.geo m₀ dirs chains)
    {s : Session} (hrun : s.Run fs (fun _ _ call => call.Deletes) m₀) (now : DosTime) {call : Call}
    (ha : call.Deletes) : Deletable fs m₀ dirs s now call := by
  obtain ⟨hboot, hmode⟩ := Fat32Fs.withMode_run hmount
  have hgeo : fs.geo.Sound := ⟨Fat32BootSector.geo_valid hboot, hsane⟩
  obtain ⟨dirs', chains', hsub, htree, hlists⟩ := deletions_keep hgeo hfs hmode h hrun
  refine ⟨dirs', chains', hsub, htree, hlists, ?_⟩
  have hnext := Prog.wp_run (deletes_spec hgeo hfs hmode htree ha now s.handles)
  revert hnext
  rcases (call.prog fs now s.handles).run disk s.memory with ⟨_ | _, m'⟩
  · exact id
  · exact id

theorem logVolume_named : NamedTree smallFs.geo logVolume {2} [[2], [3]] where
  toWellFormedTree := logVolume_wellFormed
  named := by
    have hone : ∀ d ∈ ({2} : Set Nat), listing smallFs.geo logVolume d = [(logSlot, ['A'])] := by
      rintro _ rfl
      exact listing_logVolume
    refine ⟨fun d hd => ?_, fun d hd x hx _ => ?_, fun d hd x hx hdot => ?_⟩
    · rw [hone d hd]
      exact List.pairwise_singleton _ _
    · rw [hone d hd, List.mem_singleton] at hx
      rw [hx]
      decide
    · rw [hone d hd, List.mem_singleton] at hx
      rw [hx, logSlot_entry.1.2.1] at hdot
      cases hdot

/-- The file `A` is removed twice: the second call fails. -/
theorem deletions_exact_twice :
    Deletable smallFs logVolume {2}
      (Session.exec smallFs ⟨⟨[], []⟩, logVolume⟩ ⟨0, 0⟩ (.remove ['/', 'A'])) ⟨0, 0⟩
      (.remove ['/', 'A']) :=
  deletions_exact (by decide) smallFs_sane (fun h => absurd rfl h.1) logVolume_named
    (.call .mount (show Call.Deletes (.remove ['/', 'A']) from trivial)) ⟨0, 0⟩ trivial

end Vibra.Fat32
