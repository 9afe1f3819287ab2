import Vibra.Vfs.RamFs

/-! # Mount resolution

A mount table comes of mounting and unmounting in any order.
-/

namespace Vibra.Vfs

open Lib.Path (parts)
open Fat32 (Name FsError pathParts)

variable {D : Driver}

namespace MountTable

/-- `MountTable::mount`; `device` is the disk below the file system. -/
def mount (mounts : List (MountPoint D)) (path : Name) (fs : MountedFs D) (readonly : Bool)
    (device : Nat) : List (MountPoint D) × Except FsError Unit :=
  if mounts.any fun mount => mount.path == normalizePath path then (mounts, .error .alreadyExists)
  else (mounts ++ [⟨normalizePath path, fs, readonly, device⟩], .ok ())

def unmount (mounts : List (MountPoint D)) (path : Name) :
    List (MountPoint D) × Except FsError Unit :=
  match mounts.findIdx? fun mount => mount.path == normalizePath path with
  | some pos => (mounts.eraseIdx pos, .ok ())
  | none => (mounts, .error .notFound)

inductive Call (D : Driver) where
  | mount (path : Name) (fs : MountedFs D) (readonly : Bool) (device : Nat)
  | unmount (path : Name)

def exec (mounts : List (MountPoint D)) : Call D → List (MountPoint D)
  | .mount path fs readonly device => (mount mounts path fs readonly device).1
  | .unmount path => (unmount mounts path).1

def run (calls : List (Call D)) : List (MountPoint D) := calls.foldl exec []

end MountTable

theorem covers_iff {point path : Name} :
    covers point path = true ↔ path = point ∨ ∃ rest, path = point ++ '/' :: rest := by
  rw [covers, Bool.or_eq_true, beq_iff_eq, Bool.and_eq_true, List.isPrefixOf_iff_prefix]
  refine or_congr Iff.rfl ⟨?_, ?_⟩
  · rintro ⟨⟨rest, rfl⟩, hhead⟩
    rw [List.drop_left] at hhead
    cases rest with
    | nil => cases hhead
    | cons c rest =>
      obtain rfl : c = '/' := by simpa using hhead
      exact ⟨rest, rfl⟩
  · rintro ⟨rest, rfl⟩
    exact ⟨⟨_, rfl⟩, by rw [List.drop_left]; rfl⟩

def ComponentPrefix (point path : Name) : Prop := parts '/' point <+: parts '/' path

theorem ComponentPrefix.of_covers {point path : Name} (h : covers point path = true) :
    ComponentPrefix point path := by
  rcases covers_iff.mp h with rfl | ⟨rest, rfl⟩
  · exact List.prefix_rfl
  · exact ⟨parts '/' rest, (Lib.Path.parts_append _ _).symm⟩

theorem append_drop_of_covers {point path : Name} (h : covers point path = true) :
    point ++ path.drop point.length = path := by
  rcases covers_iff.mp h with rfl | ⟨rest, rfl⟩
  · rw [List.drop_length, List.append_nil]
  · rw [List.drop_left]

theorem covers_length {p q path : Name} (hp : covers p path = true) (hq : covers q path = true)
    (hlen : p.length ≤ q.length) : (parts '/' p).length ≤ (parts '/' q).length := by
  suffices h : ComponentPrefix p q from h.length_le
  have hpre : p <+: q :=
    List.prefix_of_prefix_length_le ⟨_, append_drop_of_covers hp⟩ ⟨_, append_drop_of_covers hq⟩ hlen
  obtain ⟨t, rfl⟩ := hpre
  cases t with
  | nil => rw [List.append_nil]; exact List.prefix_rfl
  | cons c t =>
    have hpath := append_drop_of_covers hq
    rcases covers_iff.mp hp with heq | ⟨rest, heq⟩
    · have := congrArg List.length (hpath.trans heq)
      simp at this
    · rw [heq, List.append_assoc, List.append_cancel_left_eq, List.cons_append] at hpath
      obtain rfl := (List.cons.inj hpath).1
      exact ⟨parts '/' t, (Lib.Path.parts_append _ _).symm⟩

theorem foldl_best (path : Name) (entries : List (MountPoint D × Nat))
    (best : Option (Nat × Name) × Nat) :
    let last := entries.foldl (fun best entry =>
      if covers entry.1.path path && decide (best.2 < entry.1.path.length) then
        (some (entry.2, path.drop entry.1.path.length), entry.1.path.length)
      else best) best
    (∀ e ∈ entries, covers e.1.path path = true → e.1.path.length ≤ last.2) ∧ best.2 ≤ last.2 ∧
    (last = best ∨ ∃ e ∈ entries, covers e.1.path path = true ∧ best.2 < e.1.path.length ∧
      last = (some (e.2, path.drop e.1.path.length), e.1.path.length)) := by
  induction entries generalizing best with
  | nil => exact ⟨by simp, le_refl _, .inl rfl⟩
  | cons e entries ih =>
    rw [List.foldl_cons]
    split
    next hbetter =>
      obtain ⟨hcov, hlt⟩ := Bool.and_eq_true_iff.mp hbetter
      have hlt := of_decide_eq_true hlt
      obtain ⟨hmax, hle, hlast⟩ := ih (some (e.2, path.drop e.1.path.length), e.1.path.length)
      refine ⟨?_, hlt.le.trans hle, .inr ?_⟩
      · intro e' he' hcov'
        rcases List.mem_cons.mp he' with rfl | he'
        · exact hle
        · exact hmax e' he' hcov'
      · rcases hlast with hlast | ⟨e', he', hcov', hlt', hlast⟩
        · exact ⟨e, List.mem_cons_self, hcov, hlt, hlast⟩
        · exact ⟨e', List.mem_cons_of_mem _ he', hcov', hlt.trans hlt', hlast⟩
    next hworse =>
      obtain ⟨hmax, hle, hlast⟩ := ih best
      refine ⟨?_, hle, ?_⟩
      · intro e' he' hcov'
        rcases List.mem_cons.mp he' with rfl | he'
        · have : e'.1.path.length ≤ best.2 := by simpa [hcov'] using hworse
          exact this.trans hle
        · exact hmax e' he' hcov'
      · rcases hlast with hlast | ⟨e', he', hrest⟩
        · exact .inl hlast
        · exact .inr ⟨e', List.mem_cons_of_mem _ he', hrest⟩

theorem findFs_cases {mounts : List (MountPoint D)} (hne : ∀ mp ∈ mounts, mp.path ≠ [])
    (path : Name) :
    (findFs mounts path = none ∧ ∀ mp ∈ mounts, covers mp.path (normalizePath path) = false) ∨
    ∃ idx mp, findFs mounts path = some (idx, (normalizePath path).drop mp.path.length) ∧
      mounts[idx]? = some mp ∧ covers mp.path (normalizePath path) = true ∧
      ∀ other ∈ mounts, covers other.path (normalizePath path) = true →
        other.path.length ≤ mp.path.length := by
  obtain ⟨hmax, -, hlast⟩ := foldl_best (normalizePath path) mounts.zipIdx (none, 0)
  have hmem : ∀ mp ∈ mounts, ∃ idx, (mp, idx) ∈ mounts.zipIdx := by
    intro mp hmp
    obtain ⟨idx, hidx, rfl⟩ := List.getElem_of_mem hmp
    exact ⟨idx, List.mk_mem_zipIdx_iff_getElem?.mpr (List.getElem?_eq_getElem hidx)⟩
  rcases hlast with hlast | ⟨⟨mp, idx⟩, he, hcov, -, hlast⟩
  · left
    refine ⟨congrArg Prod.fst hlast, fun mp hmp => ?_⟩
    obtain ⟨idx, hidx⟩ := hmem mp hmp
    rw [Bool.eq_false_iff]
    intro hcov
    have hle := hmax _ hidx hcov
    rw [hlast] at hle
    exact hne mp hmp (List.eq_nil_of_length_eq_zero (Nat.le_zero.mp hle))
  · right
    refine ⟨idx, mp, congrArg Prod.fst hlast, List.mk_mem_zipIdx_iff_getElem?.mp he, hcov, ?_⟩
    intro other hother hcov'
    obtain ⟨idx', hidx'⟩ := hmem other hother
    have hle := hmax _ hidx' hcov'
    rwa [hlast] at hle

/-- A mount whose components are the longest prefix of the path's. -/
structure Longest (mounts : List (MountPoint D)) (path : Name) (mp : MountPoint D) : Prop where
  mem : mp ∈ mounts
  componentPrefix : ComponentPrefix mp.path path
  longest : ∀ other ∈ mounts, ComponentPrefix other.path path →
    (parts '/' other.path).length ≤ (parts '/' mp.path).length

/-- What resolving a normalized path should give: a longest mount and the path below it,
or nothing if no mount lies on the path. -/
def Resolves (mounts : List (MountPoint D)) (path : Name) : Option (Nat × Name) → Prop
  | none => ∀ mp ∈ mounts, ¬ComponentPrefix mp.path path
  | some (idx, relative) =>
    ∃ mp, mounts[idx]? = some mp ∧ Longest mounts path mp ∧ mp.path ++ relative = path

/-- A longest mount ends in the path where the path ends or where a slash follows. -/
def Bordered (mounts : List (MountPoint D)) (path : Name) : Prop :=
  (∀ mp ∈ mounts, ¬ComponentPrefix mp.path path) ∨
  ∃ mp, Longest mounts path mp ∧ (path = mp.path ∨ ∃ rest, path = mp.path ++ '/' :: rest)

theorem normalizePath_ne_nil (path : Name) : normalizePath path ≠ [] := by
  unfold normalizePath
  extract_lets normalized
  split
  · simp
  · assumption

namespace MountTable

theorem exec_path_ne_nil {mounts : List (MountPoint D)} (h : ∀ mp ∈ mounts, mp.path ≠ [])
    (call : Call D) : ∀ mp ∈ exec mounts call, mp.path ≠ [] := by
  intro mp hmp
  cases call with
  | mount path fs readonly device =>
    rw [exec, mount] at hmp
    split at hmp
    · exact h mp hmp
    · rcases List.mem_append.mp hmp with hmp | hmp
      · exact h mp hmp
      · rw [List.mem_singleton.mp hmp]
        exact normalizePath_ne_nil path
  | unmount path =>
    rw [exec, unmount] at hmp
    split at hmp
    · exact h mp (List.mem_of_mem_eraseIdx hmp)
    · exact h mp hmp

theorem run_path_ne_nil (calls : List (Call D)) : ∀ mp ∈ run calls, mp.path ≠ [] := by
  suffices h : ∀ mounts : List (MountPoint D), (∀ mp ∈ mounts, mp.path ≠ []) →
      ∀ mp ∈ calls.foldl exec mounts, mp.path ≠ [] from h [] (by simp)
  induction calls with
  | nil => exact fun _ h => h
  | cons call calls ih => exact fun mounts h => ih _ (exec_path_ne_nil h call)

end MountTable

theorem Longest.of_covers {mounts : List (MountPoint D)} {path : Name} {mp best : MountPoint D}
    (h : Longest mounts path mp) (hcov : covers mp.path path = true) (hmem : best ∈ mounts)
    (hbest : covers best.path path = true) (hlen : mp.path.length ≤ best.path.length) :
    Longest mounts path best :=
  ⟨hmem, .of_covers hbest, fun other ho hpre =>
    (h.longest other ho hpre).trans (covers_length hcov hbest hlen)⟩

/-- After any calls on the table, a path resolves as it should exactly when a longest mount
ends at a border of the normalized path. -/
theorem findFs_resolves (calls : List (MountTable.Call D)) (path : Name) :
    Resolves (MountTable.run calls) (normalizePath path) (findFs (MountTable.run calls) path) ↔
      Bordered (MountTable.run calls) (normalizePath path) := by
  rcases findFs_cases (MountTable.run_path_ne_nil calls) path with
    ⟨hnone, huncovered⟩ | ⟨idx, best, hsome, hidx, hcov, hmax⟩
  · rw [hnone]
    refine ⟨.inl, ?_⟩
    rintro (h | ⟨mp, hmp, hborder⟩)
    · exact h
    · exact absurd (covers_iff.mpr hborder) (Bool.eq_false_iff.mp (huncovered mp hmp.mem))
  · rw [hsome]
    have hmem := List.mem_of_getElem? hidx
    constructor
    · rintro ⟨mp, hmp, hlongest, -⟩
      obtain rfl := Option.some.inj (hidx.symm.trans hmp)
      exact .inr ⟨best, hlongest, covers_iff.mp hcov⟩
    · rintro (h | ⟨mp, hmp, hborder⟩)
      · exact absurd (.of_covers hcov) (h best hmem)
      · have hcov' := covers_iff.mpr hborder
        exact ⟨best, hidx, hmp.of_covers hcov' hmem hcov (hmax mp hmp.mem hcov'),
          append_drop_of_covers hcov⟩

/-- The root file system alone, mounted at the root as at boot, does not serve its files. -/
theorem findFs_resolves_fails :
    let mounts := MountTable.run [.mount (D := ramDriver) ['/'] (.other ()) false 0]
    findFs mounts "/cfg".toList = none ∧
      ¬Resolves mounts (normalizePath "/cfg".toList) (findFs mounts "/cfg".toList) := by
  intro mounts
  have hnone : findFs mounts "/cfg".toList = none := by decide
  refine ⟨hnone, ?_⟩
  rw [hnone]
  intro h
  have hmem : mounts[0]? = some ⟨['/'], .other (), false, 0⟩ := by rfl
  exact h _ (List.mem_of_getElem? hmem) ⟨parts '/' (normalizePath "/cfg".toList), rfl⟩

theorem dropComponent_cases (path : Name) : dropComponent path = [] ∨
    ∃ front rest, dropComponent path = front ++ ['/'] ∧ path = front ++ '/' :: rest := by
  rw [dropComponent]
  set tail := path.reverse.dropWhile (· == '/')
  have hsuffix : tail.dropWhile (· != '/') <:+ path.reverse :=
    (List.dropWhile_suffix _).trans (List.dropWhile_suffix _)
  cases hdrop : tail.dropWhile (· != '/') with
  | nil => exact .inl rfl
  | cons c front =>
    have hc : c = '/' := by
      have hhead := List.head?_dropWhile_not (· != '/') tail
      rw [hdrop] at hhead
      simpa using hhead
    rcases hsuffix with ⟨rest, hrest⟩
    rw [hdrop, hc] at hrest
    refine .inr ⟨front.reverse, rest.reverse, by rw [hc, List.reverse_cons], ?_⟩
    rw [← List.reverse_reverse path, ← hrest]
    simp

theorem parts_dropComponent_subset (path : Name) :
    pathParts (dropComponent path) ⊆ pathParts path := by
  rcases dropComponent_cases path with hnil | ⟨front, rest, hdrop, hpath⟩
  · rw [hnil]
    exact List.nil_subset _
  · have hfront : pathParts (front ++ ['/']) = pathParts front ++ pathParts [] :=
      Lib.Path.parts_append front []
    have hall : pathParts (front ++ '/' :: rest) = pathParts front ++ pathParts rest :=
      Lib.Path.parts_append front rest
    rw [hdrop, hfront, hpath, hall]
    exact List.append_subset.mpr ⟨List.subset_append_left _ _, List.nil_subset _⟩

theorem normalizePath_dotless (path : Name) :
    ∀ part ∈ pathParts (normalizePath path), part ≠ ['.'] ∧ part ≠ ['.', '.'] := by
  have hfold : ∀ ps : List Name, Lib.Path.Clean '/' ps → ∀ acc : Name,
      (∀ part ∈ pathParts acc, part ≠ ['.'] ∧ part ≠ ['.', '.']) →
      ∀ part ∈ pathParts (ps.foldl (fun acc part => if part = ['.'] then acc
        else if part = ['.', '.'] then dropComponent acc else acc ++ '/' :: part) acc),
        part ≠ ['.'] ∧ part ≠ ['.', '.'] := by
    intro ps hclean
    induction ps with
    | nil => exact fun acc hacc => hacc
    | cons p ps ih =>
      intro acc hacc
      have hps := ih fun q hq => hclean q (List.mem_cons_of_mem _ hq)
      apply hps
      dsimp only
      split
      · exact hacc
      next hdot =>
        split
        · exact fun part hpart => hacc part (parts_dropComponent_subset acc hpart)
        next hup =>
          have hp := hclean p List.mem_cons_self
          have hone : pathParts p = [p] := Lib.Path.parts_of_not_mem hp.1 hp.2
          have happend : pathParts (acc ++ '/' :: p) = pathParts acc ++ pathParts p :=
            Lib.Path.parts_append acc p
          intro part hpart
          rw [happend, hone] at hpart
          rcases List.mem_append.mp hpart with hpart | hpart
          · exact hacc part hpart
          · rw [List.mem_singleton.mp hpart]
            exact ⟨hdot, hup⟩
  unfold normalizePath
  extract_lets normalized
  split
  · exact fun part hpart => absurd hpart (by decide +revert)
  · exact hfold _ (Lib.Path.clean_parts path) [] (by decide)

theorem resolveFs_parts {mounts : List (MountPoint D)} {path target : Name} {idx : Nat}
    {mount : MountPoint D} (h : resolveFs mounts path = .ok (idx, mount, target)) :
    pathParts target ⊆ pathParts (normalizePath path) := by
  rcases foldl_best (normalizePath path) mounts.zipIdx (none, 0) with ⟨-, -, hlast⟩
  rw [resolveFs, findFs] at h
  rcases hlast with hlast | ⟨e, -, hcov, -, hlast⟩
  · rw [hlast] at h
    cases h
  · rw [hlast] at h
    dsimp only at h
    cases hget : mounts[e.2]? with
    | none =>
      rw [hget] at h
      cases h
    | some mp =>
      rw [hget] at h
      have htarget := congrArg (fun r => r.2.2) (Except.ok.inj h)
      dsimp only at htarget
      rw [← htarget]
      split
      · exact List.nil_subset _
      next hne =>
        rcases covers_iff.mp hcov with heq | ⟨rest, heq⟩
        · rw [heq, List.drop_length] at hne
          exact absurd rfl hne
        · have hall : pathParts (e.1.path ++ '/' :: rest) = pathParts e.1.path ++ pathParts rest :=
            Lib.Path.parts_append _ _
          have hrest : pathParts ('/' :: rest) = pathParts rest := Lib.Path.parts_cons rest
          rw [heq, List.drop_left, hall, hrest]
          exact List.subset_append_right _ _

end Vibra.Vfs
