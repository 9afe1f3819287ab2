import Vibra.Fat32.FileWrite
import Vibra.Lib.KeyedList

/-! # Directories as maps

In a tree with names every directory has one entry for each name, without regard to
ASCII case. Here is what an entry that comes or goes does to such a tree.
-/

namespace Vibra.Fat32

open Lib (Memory LinkTable)
open Lib.KeyedList (lookup Unique)

variable {geo : Fat32Geo} {m m' : Memory} {dirs : Set Nat} {chains rest rest' : List (List Nat)}
  {d e : Nat} {x y : DirSlot × Name} {l l' : List Nat} {p : Nat × Nat}

def nameKey (x : DirSlot × Name) : Name := foldName x.2

theorem listed_eq_lookup (geo : Fat32Geo) (m : Memory) (d : Nat) (name : Name) :
    listed geo m d name = lookup nameKey (listing geo m d) (foldName name) := by
  rw [listed, lookup]
  congr 1
  funext x
  rw [Bool.eq_iff_iff, eqIgnoreAsciiCase_iff]
  exact (decide_eq_true_iff (p := nameKey x = foldName name)).symm

/-- Each name once, no entry without a name, and dot entries that lead to the
directory itself or to the one above it. -/
structure Named (geo : Fat32Geo) (m : Memory) (dirs : Set Nat) : Prop where
  unique : ∀ d ∈ dirs, Unique nameKey (listing geo m d)
  shown : ∀ d ∈ dirs, ∀ x ∈ listing geo m d, x.1.entry.isDot = false → Fat32Fs.isHidden x.2 = false
  up : ∀ d ∈ dirs, ∀ x ∈ listing geo m d, x.1.entry.isDot = true → x.1.entry.isDirectory = true ∧
    (x.1.entry.cluster < 2 ∨ x.1.entry.cluster = d ∨ x.1.entry.cluster ∈ dirs ∧
      ∃ y ∈ listing geo m x.1.entry.cluster, y.1.entry.isDot = false ∧ y.1.entry.cluster = d)

/-- A well-formed volume whose directories are maps. -/
structure NamedTree (geo : Fat32Geo) (m : Memory) (dirs : Set Nat) (chains : List (List Nat)) :
    Prop extends WellFormedTree geo m dirs chains where
  named : Named geo m dirs

theorem Named.inside (h : Named geo m dirs) : DotsInside geo m dirs := by
  intro d hd x hx hdot
  obtain ⟨hdir, hcluster⟩ := h.up d hd x hx hdot
  refine ⟨hdir, ?_⟩
  rcases hcluster with hlt | rfl | ⟨hin, -⟩
  · exact Or.inl hlt
  · exact Or.inr hd
  · exact Or.inr hin

/-- `m'` lists `x` in the directory `d`, and else what `m` lists. -/
structure Inserted (geo : Fat32Geo) (m : Memory) (dirs : Set Nat) (d : Nat) (x : DirSlot × Name)
    (m' : Memory) : Prop where
  here : ∃ pre post, listing geo m d = pre ++ post ∧ listing geo m' d = pre ++ x :: post
  other : ∀ e ∈ dirs, e ≠ d → listing geo m' e = listing geo m e

namespace Inserted

variable (h : Inserted geo m dirs d x m')

include h

theorem mem_iff (he : e ∈ dirs) : y ∈ listing geo m' e ↔ y ∈ listing geo m e ∨ e = d ∧ y = x := by
  by_cases hed : e = d
  · subst hed
    obtain ⟨pre, post, hold, hnew⟩ := h.here
    rw [hold, hnew, List.mem_append, List.mem_append, List.mem_cons]
    tauto
  · rw [h.other e he hed]
    simp [hed]

theorem mem_here : x ∈ listing geo m' d := by
  obtain ⟨pre, post, -, hnew⟩ := h.here
  rw [hnew]
  simp

theorem unique_iff : Unique nameKey (listing geo m' d) ↔
    Unique nameKey (listing geo m d) ∧ ∀ y ∈ listing geo m d, nameKey y ≠ nameKey x := by
  obtain ⟨pre, post, hold, hnew⟩ := h.here
  rw [hold, hnew]
  exact Lib.KeyedList.unique_insert

theorem lookup_eq (hkey : ∀ y ∈ listing geo m d, nameKey y ≠ nameKey x) :
    lookup nameKey (listing geo m' d) =
      Function.update (lookup nameKey (listing geo m d)) (nameKey x) (some x) := by
  obtain ⟨pre, post, hold, hnew⟩ := h.here
  rw [hold] at hkey
  rw [hold, hnew]
  exact Lib.KeyedList.lookup_insert hkey

end Inserted

theorem FatDirEntry.Alike.isDot {entry entry' : FatDirEntry} (h : entry.Alike entry') :
    entry'.isDot = entry.isDot := by
  rw [FatDirEntry.isDot, FatDirEntry.isDot, h.1]

namespace Named

theorem addEntry (h : Named geo m dirs) (hins : Inserted geo m dirs d x m')
    (hdot : x.1.entry.isDot = false) (hshown : Fat32Fs.isHidden x.2 = false)
    (hkey : ∀ y ∈ listing geo m d, nameKey y ≠ nameKey x) : Named geo m' dirs where
  unique e he := by
    by_cases hed : e = d
    · subst hed
      exact hins.unique_iff.mpr ⟨h.unique e he, hkey⟩
    · rw [hins.other e he hed]
      exact h.unique e he
  shown e he y hy hydot := by
    rcases (hins.mem_iff he).mp hy with hy | ⟨-, rfl⟩
    · exact h.shown e he y hy hydot
    · exact hshown
  up e he y hy hydot := by
    rcases (hins.mem_iff he).mp hy with hy | ⟨-, rfl⟩
    · obtain ⟨hdir, hcluster⟩ := h.up e he y hy hydot
      refine ⟨hdir, hcluster.imp_right (Or.imp_right fun ⟨hin, z, hz, hzdot⟩ => ?_)⟩
      exact ⟨hin, z, (hins.mem_iff hin).mpr (Or.inl hz), hzdot⟩
    · rw [hydot] at hdot
      cases hdot

theorem dropEntry {dirs' : Set Nat} (h : Named geo m dirs) (hsub : dirs' ⊆ dirs)
    (hins : Inserted geo m' dirs' d x m) (hx : x.1.entry.cluster ∉ dirs')
    (hgone : ∀ e ∈ dirs, e ∉ dirs' → ∀ y ∈ listing geo m e, y.1.entry.isDot = true) :
    Named geo m' dirs' := by
  have hold : ∀ {e y}, e ∈ dirs' → y ∈ listing geo m' e → y ∈ listing geo m e :=
    fun he hy => (hins.mem_iff he).mpr (Or.inl hy)
  refine ⟨fun e he => ?_, fun e he y hy hydot => h.shown e (hsub he) y (hold he hy) hydot,
    fun e he y hy hydot => ?_⟩
  · by_cases hed : e = d
    · subst hed
      exact (hins.unique_iff.mp (h.unique e (hsub he))).1
    · rw [← hins.other e he hed]
      exact h.unique e (hsub he)
  · obtain ⟨hdir, hcluster⟩ := h.up e (hsub he) y (hold he hy) hydot
    refine ⟨hdir, hcluster.imp_right (Or.imp_right fun ⟨hin, z, hz, hzdot, hze⟩ => ?_)⟩
    have hin' : y.1.entry.cluster ∈ dirs' := by
      by_contra hnot
      rw [hgone _ hin hnot z hz] at hzdot
      cases hzdot
    refine ⟨hin', z, ((hins.mem_iff hin').mp hz).resolve_right ?_, hzdot, hze⟩
    rintro ⟨-, rfl⟩
    exact hx (hze ▸ he)

theorem refreshed (h : Named geo m dirs) (htree : Tree geo m dirs chains)
    (hr : Refreshed geo dirs m m') : Named geo m' dirs := by
  have hold : ∀ {e y}, e ∈ dirs → y ∈ listing geo m' e → ∃ x ∈ listing geo m e, refresh m' x = y := by
    intro e y he hy
    rw [hr.list e he] at hy
    exact List.mem_map.mp hy
  refine ⟨fun e he => ?_, fun e he y hy hydot => ?_, fun e he y hy hydot => ?_⟩
  · rw [hr.list e he, Lib.KeyedList.Unique, List.map_map]
    exact h.unique e he
  · obtain ⟨x, hx, rfl⟩ := hold he hy
    refine h.shown e he x hx ?_
    rw [← hydot]
    exact (hr.alike e he x hx).isDot.symm
  · obtain ⟨x, hx, rfl⟩ := hold he hy
    have halike := hr.alike e he x hx
    have hxdot : x.1.entry.isDot = true := halike.isDot.symm.trans hydot
    obtain ⟨hdir, hcluster⟩ := h.up e he x hx hxdot
    have heq : (refresh m' x).1.entry.cluster = x.1.entry.cluster := hr.cluster e he x hx hdir
    refine ⟨halike.isDirectory.trans hdir, ?_⟩
    rw [heq]
    refine hcluster.imp_right (Or.imp_right ?_)
    rintro ⟨hin, z, hz, hzdot, hze⟩
    refine ⟨hin, refresh m' z, ?_⟩
    have hzdir : z.1.entry.isDirectory = true := by
      by_contra hfile
      have hz2 := (htree.file _ hin z hz hzdot (by simpa using hfile)).resolve_left ?_
      · exact hz2.1 (hze ▸ he)
      · rw [hze]
        obtain ⟨l, hl, hhead⟩ := htree.dir e he
        exact Nat.not_lt.mpr (htree.inRange hl (List.mem_of_mem_head? hhead)).1
    have hzalike := hr.alike _ hin z hz
    refine ⟨?_, hzalike.isDot.trans hzdot, (hr.cluster _ hin z hz hzdir).trans hze⟩
    rw [hr.list _ hin]
    exact List.mem_map_of_mem hz

end Named

end Vibra.Fat32
