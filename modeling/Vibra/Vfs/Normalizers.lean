import Vibra.Vfs.Legacy
import Vibra.Vfs.RamFsTree

/-! # Three normalizers of paths

`ramfs::normalize_path` and `fs::resolve_path` keep a stack of components. `mount::normalize_path`
edits a string:
-/

namespace Vibra.Vfs

open Fat32 (Name pathParts)
open Lib.Path (join parts Clean)

def steps (path : Name) : List Name := (pathParts path).filter (· ≠ ['.'])

abbrev up : Name := ['.', '.']

/-- Components with the number of slashes before each, and the slashes behind the last. -/
structure Slashed where
  comps : List (Nat × Name)
  trail : Nat

namespace Slashed

def push (s : Slashed) (part : Name) : Slashed := ⟨s.comps ++ [(s.trail + 1, part)], 0⟩

def pop (s : Slashed) : Slashed :=
  ⟨s.comps.dropLast, (s.comps.getLast?.map (·.1)).getD 0⟩

def step (s : Slashed) (part : Name) : Slashed := if part = up then s.pop else s.push part

def run (ps : List Name) : Slashed := ps.foldl step ⟨[], 0⟩

def render (s : Slashed) : Name :=
  s.comps.flatMap (fun c => List.replicate c.1 '/' ++ c.2) ++ List.replicate s.trail '/'

/-- Components are not empty and hold no slash, and there is a slash before each. -/
structure Proper (s : Slashed) : Prop where
  slash : ∀ c ∈ s.comps, 0 < c.1
  name : ∀ c ∈ s.comps, c.2 ≠ [] ∧ '/' ∉ c.2

theorem run_append (ps : List Name) (p : Name) : run (ps ++ [p]) = (run ps).step p := by
  rw [run, List.foldl_append]
  rfl

theorem pop_nil {s : Slashed} (h : s.comps = []) : s.pop = ⟨[], 0⟩ := by
  rw [pop, h]
  rfl

theorem pop_concat {s : Slashed} {cs : List (Nat × Name)} {c : Nat × Name}
    (h : s.comps = cs ++ [c]) : s.pop = ⟨cs, c.1⟩ := by
  rw [pop, h, List.dropLast_concat, List.getLast?_concat]
  rfl

theorem Proper.push {s : Slashed} (h : s.Proper) {part : Name} (hne : part ≠ [])
    (hpart : '/' ∉ part) : (s.push part).Proper := by
  constructor
  · intro c hc
    rcases List.mem_append.mp hc with hc | hc
    · exact h.slash c hc
    · rw [List.mem_singleton.mp hc]
      exact Nat.succ_pos _
  · intro c hc
    rcases List.mem_append.mp hc with hc | hc
    · exact h.name c hc
    · rw [List.mem_singleton.mp hc]
      exact ⟨hne, hpart⟩

theorem Proper.pop {s : Slashed} (h : s.Proper) : s.pop.Proper :=
  ⟨fun c hc => h.slash c (List.dropLast_subset _ hc),
    fun c hc => h.name c (List.dropLast_subset _ hc)⟩

theorem proper_run {ps : List Name} (h : Clean '/' ps) : (run ps).Proper := by
  induction ps using List.reverseRecOn with
  | nil => exact ⟨by simp [run], by simp [run]⟩
  | append_singleton ps p ih =>
    have hps := ih (h.of_subset fun q hq => List.mem_append_left _ hq)
    have hp := h p (by simp)
    rw [run_append, step]
    split
    · exact hps.pop
    · exact hps.push hp.1 hp.2

theorem dropWhile_slashes (t : Nat) (s : Name) :
    (List.replicate t '/' ++ s).dropWhile (· == '/') = s.dropWhile (· == '/') := by
  apply List.dropWhile_append_of_pos
  intro c hc
  rw [List.eq_of_mem_replicate hc]
  rfl

theorem dropComponent_concat (s : Name) (k t : Nat) {p : Name} (hne : p ≠ []) (hp : '/' ∉ p)
    (hk : 0 < k) :
    dropComponent (s ++ (List.replicate k '/' ++ p) ++ List.replicate t '/') =
      s ++ List.replicate k '/' := by
  have hrev : (s ++ (List.replicate k '/' ++ p) ++ List.replicate t '/').reverse =
      List.replicate t '/' ++ (p.reverse ++ (List.replicate k '/' ++ s.reverse)) := by
    simp
  have hname : (p.reverse ++ (List.replicate k '/' ++ s.reverse)).dropWhile (· == '/') =
      p.reverse ++ (List.replicate k '/' ++ s.reverse) := by
    cases hrev : p.reverse with
    | nil => exact absurd (List.reverse_eq_nil_iff.mp hrev) hne
    | cons c cs =>
      have hc : c ∈ p := List.mem_reverse.mp (by rw [hrev]; exact List.mem_cons_self)
      have hslash : c ≠ '/' := fun he => hp (he ▸ hc)
      rw [List.cons_append, List.dropWhile_cons_of_neg (by simpa using hslash)]
  have hfront : (p.reverse ++ (List.replicate k '/' ++ s.reverse)).dropWhile (· != '/') =
      List.replicate k '/' ++ s.reverse := by
    rw [List.dropWhile_append_of_pos]
    · cases k with
      | zero => exact absurd hk (Nat.lt_irrefl 0)
      | succ k => rw [List.replicate_succ, List.cons_append, List.dropWhile_cons_of_neg (by simp)]
    · intro c hc
      have hslash : c ≠ '/' := fun he => hp (he ▸ List.mem_reverse.mp hc)
      simpa using hslash
  rw [dropComponent, hrev, dropWhile_slashes, hname, hfront]
  simp

theorem dropComponent_slashes (t : Nat) : dropComponent (List.replicate t '/') = [] := by
  have h := dropWhile_slashes t []
  rw [List.append_nil] at h
  rw [dropComponent, List.reverse_replicate, h]
  rfl

theorem render_push (s : Slashed) (part : Name) :
    (s.push part).render = s.render ++ '/' :: part := by
  simp [render, push, List.replicate_succ']

theorem render_pop {s : Slashed} (h : s.Proper) : s.pop.render = dropComponent s.render := by
  rcases List.eq_nil_or_concat' s.comps with hnil | ⟨cs, c, hcs⟩
  · have hrender : s.render = List.replicate s.trail '/' := by simp [render, hnil]
    rw [pop_nil hnil, hrender, dropComponent_slashes]
    rfl
  · have hmem : c ∈ s.comps := by
      rw [hcs]
      simp
    have hname := h.name c hmem
    rw [pop_concat hcs, render, render, hcs, List.flatMap_append, List.flatMap_singleton,
      dropComponent_concat _ _ _ hname.1 hname.2 (h.slash c hmem)]

theorem render_run {ps : List Name} (h : Clean '/' ps) :
    (run ps).render = ps.foldl (fun acc part =>
      if part = up then dropComponent acc else acc ++ '/' :: part) [] := by
  induction ps using List.reverseRecOn with
  | nil => rfl
  | append_singleton ps p ih =>
    have hclean : Clean '/' ps := h.of_subset fun q hq => List.mem_append_left _ hq
    rw [run_append, List.foldl_append, List.foldl_cons, List.foldl_nil, ← ih hclean, step]
    split
    · exact render_pop (proper_run hclean)
    · exact render_push _ _

theorem comps_run (ps : List Name) (h : ∀ p ∈ ps, p ≠ [] ∧ p ≠ ['.']) :
    (run ps).comps.map (·.2) = ps.foldl RamFs.pushPart [] := by
  induction ps using List.reverseRecOn with
  | nil => rfl
  | append_singleton ps p ih =>
    have hp := h p (by simp)
    rw [run_append, List.foldl_append, List.foldl_cons, List.foldl_nil,
      ← ih fun q hq => h q (List.mem_append_left _ hq), step, RamFs.pushPart,
      if_neg (not_or.mpr hp)]
    split
    · exact List.map_dropLast.symm ▸ rfl
    · simp [push]

def Tidy (s : Slashed) : Prop := (∀ c ∈ s.comps, c.1 = 1) ∧ s.trail = 0

theorem render_tidy {s : Slashed} (h : s.Tidy) : s.render = join '/' (s.comps.map (·.2)) := by
  rw [render, h.2, List.replicate_zero, List.append_nil, join, List.flatMap_map]
  apply List.flatMap_congr
  intro c hc
  rw [h.1 c hc]
  rfl

theorem length_render (s : Slashed) :
    s.render.length = (s.comps.map fun c => c.1 + c.2.length).sum + s.trail := by
  simp [render, List.length_flatMap]

theorem tidy_of_length {s : Slashed} (h : s.Proper)
    (hlen : s.render.length = (join '/' (s.comps.map (·.2))).length) : s.Tidy := by
  rw [length_render] at hlen
  have hsum : ∀ cs : List (Nat × Name), (∀ c ∈ cs, 0 < c.1) → ∀ t,
      (cs.map fun c => c.1 + c.2.length).sum + t = (join '/' (cs.map (·.2))).length →
        (∀ c ∈ cs, c.1 = 1) ∧ t = 0 := by
    intro cs hcs
    induction cs with
    | nil =>
      intro t ht
      exact ⟨by simp, by simpa using ht⟩
    | cons c cs ih =>
      intro t ht
      have hc := hcs c List.mem_cons_self
      rw [List.map_cons, List.sum_cons, List.map_cons, Lib.Path.join_cons, List.length_append,
        List.length_cons] at ht
      rcases ih (fun d hd => hcs d (List.mem_cons_of_mem c hd)) (t + (c.1 - 1)) (by omega)
        with ⟨hones, hzero⟩
      refine ⟨?_, by omega⟩
      intro d hd
      rcases List.mem_cons.mp hd with rfl | hd
      · omega
      · exact hones d hd
  exact hsum s.comps h.slash s.trail hlen

/-! ## Which paths leave no slash over -/

/-- Nothing stands before, or a `..` at the root. -/
def AtRoot (ps : List Name) : Prop :=
  ps = [] ∨ ∃ before, ps = before ++ [up] ∧ before.foldl RamFs.pushPart [] = []

/-- How deep components lead; `none` is a `..` too many. -/
def level (ps : List Name) : Option Nat :=
  ps.foldl (fun depth p => depth.bind fun n =>
    if p = up then (if n = 0 then none else some (n - 1)) else some (n + 1)) (some 0)

theorem level_append (ps : List Name) (p : Name) :
    level (ps ++ [p]) = (level ps).bind fun n =>
      if p = up then (if n = 0 then none else some (n - 1)) else some (n + 1) := by
  rw [level, List.foldl_append]
  rfl

variable {ps : List Name}

def Looked (ps : List Name) : Prop := ∀ p ∈ ps, p ≠ [] ∧ p ≠ ['.']

theorem Looked.init {p : Name} (h : Looked (ps ++ [p])) : Looked ps :=
  fun q hq => h q (List.mem_append_left _ hq)

theorem comps_nil_iff (h : Looked ps) :
    (run ps).comps = [] ↔ ps.foldl RamFs.pushPart [] = [] := by
  rw [← comps_run ps h, List.map_eq_nil_iff]

theorem run_eq_init (h : Looked ps) (hclean : Clean '/' ps) :
    run ps = ⟨[], 0⟩ ↔ AtRoot ps := by
  constructor
  · intro hrun
    rcases List.eq_nil_or_concat' ps with rfl | ⟨before, p, rfl⟩
    · exact Or.inl rfl
    · have hproper := proper_run (hclean.of_subset fun q hq => List.mem_append_left [p] hq)
      rw [run_append, step] at hrun
      split at hrun
      · rename_i hup
        subst hup
        rcases List.eq_nil_or_concat' (run before).comps with hnil | ⟨cs, c, hcs⟩
        · exact Or.inr ⟨before, rfl, (comps_nil_iff h.init).mp hnil⟩
        · rw [pop_concat hcs] at hrun
          have hpos := hproper.slash c (by rw [hcs]; simp)
          have hzero := congrArg Slashed.trail hrun
          exact absurd hzero (Nat.ne_of_gt hpos)
      · have hnil := congrArg Slashed.comps hrun
        simp [push] at hnil
  · rintro (rfl | ⟨before, rfl, hbefore⟩)
    · rfl
    · rw [run_append, step, if_pos rfl, pop_nil ((comps_nil_iff h.init).mpr hbefore)]

theorem tidy_run (h : Looked ps) (hclean : Clean '/' ps) :
    (run ps).Tidy ↔ ∃ front names, ps = front ++ names ∧ AtRoot front ∧ up ∉ names := by
  constructor
  · intro htidy
    induction ps using List.reverseRecOn with
    | nil => exact ⟨[], [], rfl, Or.inl rfl, by simp⟩
    | append_singleton ps p ih =>
      have hclean' := hclean.of_subset fun q hq => List.mem_append_left [p] hq
      rw [run_append, step] at htidy
      split at htidy
      · rename_i hup
        subst hup
        rcases List.eq_nil_or_concat' (run ps).comps with hnil | ⟨cs, c, hcs⟩
        · exact ⟨ps ++ [up], [], by simp, Or.inr ⟨ps, rfl, (comps_nil_iff h.init).mp hnil⟩,
            by simp⟩
        · rw [pop_concat hcs] at htidy
          have hpos := (proper_run hclean').slash c (by rw [hcs]; simp)
          exact absurd htidy.2 (Nat.ne_of_gt hpos)
      · rename_i hname
        have hlast := htidy.1 ((run ps).trail + 1, p) (by simp [push])
        have hbefore : (run ps).Tidy :=
          ⟨fun c hc => htidy.1 c (List.mem_append_left _ hc), by simpa using hlast⟩
        rcases ih h.init hclean' hbefore with ⟨front, names, rfl, hfront, hnames⟩
        refine ⟨front, names ++ [p], by simp, hfront, ?_⟩
        simpa [hnames] using Ne.symm hname
  · rintro ⟨front, names, rfl, hfront, hnames⟩
    induction names using List.reverseRecOn with
    | nil =>
      rw [List.append_nil] at h hclean ⊢
      rw [(run_eq_init h hclean).mpr hfront]
      exact ⟨by simp, rfl⟩
    | append_singleton names p ih =>
      rw [← List.append_assoc] at h hclean ⊢
      have hp : p ≠ up := fun he => hnames (by simp [he])
      have hbefore := ih h.init (hclean.of_subset fun q hq => List.mem_append_left _ hq)
        fun hup => hnames (List.mem_append_left _ hup)
      rw [run_append, step, if_neg hp]
      refine ⟨?_, rfl⟩
      intro c hc
      rcases List.mem_append.mp hc with hc | hc
      · exact hbefore.1 c hc
      · rw [List.mem_singleton.mp hc, hbefore.2]

theorem exists_first {y : Name} {rest : List (Nat × Name)} (h : Looked ps) (hclean : Clean '/' ps)
    (hcomps : (run ps).comps = (1, y) :: rest) :
    ∃ front inner, ps = front ++ y :: inner ∧ AtRoot front ∧ y ≠ up ∧
      level inner = some rest.length := by
  induction ps using List.reverseRecOn generalizing rest with
  | nil => cases hcomps
  | append_singleton ps p ih =>
    have hclean' := hclean.of_subset fun q hq => List.mem_append_left [p] hq
    rw [run_append, step] at hcomps
    split at hcomps
    · rename_i hup
      subst hup
      rcases List.eq_nil_or_concat' (run ps).comps with hnil | ⟨cs, c, hcs⟩
      · rw [pop_nil hnil] at hcomps
        cases hcomps
      · rw [pop_concat hcs] at hcomps
        rw [show cs = (1, y) :: rest from hcomps] at hcs
        rcases ih h.init hclean' hcs with ⟨front, inner, rfl, hfront, hy, hlevel⟩
        refine ⟨front, inner ++ [up], by simp, hfront, hy, ?_⟩
        rw [level_append, hlevel]
        simp
    · rename_i hname
      cases hbefore : (run ps).comps with
      | nil =>
        rw [push, hbefore] at hcomps
        injection hcomps with hfirst hrest
        injection hfirst with htrail hp
        have hroot : run ps = ⟨[], 0⟩ := by
          cases hrun : run ps with
          | mk comps trail =>
            rw [hrun] at hbefore htrail
            simp only at hbefore htrail
            rw [hbefore, Nat.succ.inj htrail]
        refine ⟨ps, [], by rw [hp], (run_eq_init h.init hclean').mp hroot, hp ▸ hname, ?_⟩
        rw [← hrest]
        rfl
      | cons c cs =>
        rw [push, hbefore] at hcomps
        injection hcomps with hfirst hrest
        subst hfirst
        rcases ih h.init hclean' hbefore with ⟨front, inner, rfl, hfront, hy, hlevel⟩
        refine ⟨front, inner ++ [p], by simp, hfront, hy, ?_⟩
        rw [level_append, hlevel, ← hrest]
        simp [hname]

theorem comps_excursion {front inner : List Name} {y : Name} {n : Nat}
    (h : Looked (front ++ y :: inner)) (hclean : Clean '/' (front ++ y :: inner))
    (hfront : AtRoot front) (hy : y ≠ up) (hlevel : level inner = some n) :
    ∃ rest, (run (front ++ y :: inner)).comps = (1, y) :: rest ∧ rest.length = n := by
  induction inner using List.reverseRecOn generalizing n with
  | nil =>
    have hroot := (run_eq_init h.init (hclean.of_subset fun q hq =>
      List.mem_append_left _ hq)).mpr hfront
    rw [run_append, step, if_neg hy, hroot]
    exact ⟨[], rfl, Option.some.inj hlevel⟩
  | append_singleton inner p ih =>
    have hassoc : front ++ y :: (inner ++ [p]) = front ++ y :: inner ++ [p] := by simp
    rw [hassoc] at h hclean ⊢
    rw [level_append] at hlevel
    rcases Option.bind_eq_some_iff.mp hlevel with ⟨m, hm, hstep⟩
    rcases ih h.init (hclean.of_subset fun q hq => List.mem_append_left _ hq) hm
      with ⟨rest, hrest, hlen⟩
    rw [run_append, step]
    split at hstep
    · rename_i hup
      rw [if_pos hup]
      split at hstep
      · cases hstep
      · rename_i hm0
        rcases List.eq_nil_or_concat' rest with rfl | ⟨cs, c, rfl⟩
        · exact absurd hlen.symm hm0
        · rw [@pop_concat _ ((1, y) :: cs) c hrest]
          rw [List.length_append, List.length_singleton] at hlen
          exact ⟨cs, rfl, by rw [← Option.some.inj hstep]; omega⟩
    · rename_i hname
      rw [if_neg hname, push, hrest]
      refine ⟨rest ++ [((run (front ++ y :: inner)).trail + 1, p)], rfl, ?_⟩
      rw [List.length_append, List.length_singleton, hlen]
      exact Option.some.inj hstep

theorem slash_run (h : Looked ps) (hclean : Clean '/' ps) :
    run ps = ⟨[], 1⟩ ↔ ∃ front y inner, ps = front ++ (y :: inner ++ [up]) ∧ AtRoot front ∧
      y ≠ up ∧ level inner = some 0 := by
  constructor
  · intro hrun
    rcases List.eq_nil_or_concat' ps with rfl | ⟨before, p, rfl⟩
    · cases hrun
    · rw [run_append, step] at hrun
      split at hrun
      · rename_i hup
        subst hup
        rcases List.eq_nil_or_concat' (run before).comps with hnil | ⟨cs, c, hcs⟩
        · rw [pop_nil hnil] at hrun
          cases hrun
        · rw [pop_concat hcs] at hrun
          injection hrun with hnil hone
          subst hnil
          have hfirst : (run before).comps = (1, c.2) :: [] := by
            rw [hcs, ← hone]
            rfl
          rcases exists_first h.init (hclean.of_subset fun q hq => List.mem_append_left _ hq)
            hfirst with ⟨front, inner, rfl, hfront, hy, hlevel⟩
          exact ⟨front, c.2, inner, by simp, hfront, hy, hlevel⟩
      · have hnil := congrArg Slashed.comps hrun
        simp [push] at hnil
  · rintro ⟨front, y, inner, rfl, hfront, hy, hlevel⟩
    have hassoc : front ++ (y :: inner ++ [up]) = front ++ y :: inner ++ [up] := by simp
    rw [hassoc] at h hclean ⊢
    rcases comps_excursion h.init (hclean.of_subset fun q hq => List.mem_append_left _ hq) hfront
      hy hlevel with ⟨rest, hrest, hlen⟩
    cases List.length_eq_zero_iff.mp hlen
    rw [run_append, step, if_pos rfl, @pop_concat _ [] (1, y) hrest]

end Slashed

/-! ## The three normalizers -/

theorem steps_looked (path : Name) : Slashed.Looked (steps path) := by
  intro p hp
  have h := List.mem_filter.mp hp
  have hclean : Clean '/' (pathParts path) := Lib.Path.clean_parts path
  exact ⟨(hclean p h.1).1, by simpa using h.2⟩

theorem steps_clean (path : Name) : Clean '/' (steps path) := by
  have hclean : Clean '/' (pathParts path) := Lib.Path.clean_parts path
  exact hclean.of_subset fun q hq => (List.mem_filter.mp hq).1

theorem normParts_steps (path : Name) :
    RamFs.normParts path = (steps path).foldl RamFs.pushPart [] := by
  rw [RamFs.normParts_eq, steps, List.foldl_filter]
  congr 1
  funext stack part
  by_cases h : part = ['.']
  · simp [h, RamFs.pushPart]
  · simp [h]

theorem normalizePath_render (path : Name) :
    normalizePath path =
      if (Slashed.run (steps path)).render = [] then ['/']
      else (Slashed.run (steps path)).render := by
  rw [Slashed.render_run (steps_clean path), steps, List.foldl_filter, normalizePath]
  have hfold : ∀ ps : List Name, ∀ acc : Name, ps.foldl (fun acc part => if part = ['.'] then acc
        else if part = ['.', '.'] then dropComponent acc else acc ++ '/' :: part) acc =
      ps.foldl (fun acc part => if decide (part ≠ ['.']) then
        (if part = up then dropComponent acc else acc ++ '/' :: part) else acc) acc := by
    intro ps
    induction ps with
    | nil => exact fun acc => rfl
    | cons p ps ih =>
      intro acc
      rw [List.foldl_cons, List.foldl_cons, ih]
      by_cases h : p = ['.']
      · simp [h]
      · simp [h]
  rw [hfold]

theorem resolvePath_root (path : Name) : resolvePath ['/'] path = RamFs.normalizePath path := by
  have hroot : parts '/' ['/'] = [] := rfl
  rw [resolvePath, hroot, ite_self]
  rfl

/-- The root, or components that are neither empty nor dots, with a slash before each. -/
def Canonical (path : Name) : Prop :=
  path = ['/'] ∨ ∃ ps, ps ≠ [] ∧ RamFs.NormalParts ps ∧ path = join '/' ps

theorem canonical_pathOf {ps : List Name} (h : RamFs.NormalParts ps) :
    Canonical (RamFs.pathOf ps) := by
  by_cases hps : ps = []
  · exact Or.inl (if_pos hps)
  · exact Or.inr ⟨ps, hps, h, if_neg hps⟩

/-- The normalizers give the same normal path and leave it as it is. -/
structure Agree (path : Name) : Prop where
  mount_ram : normalizePath path = RamFs.normalizePath path
  ram_resolve : RamFs.normalizePath path = resolvePath ['/'] path
  canonical : Canonical (normalizePath path)
  mount_idem : normalizePath (normalizePath path) = normalizePath path
  ram_idem : RamFs.normalizePath (RamFs.normalizePath path) = RamFs.normalizePath path
  resolve_idem : resolvePath ['/'] (resolvePath ['/'] path) = resolvePath ['/'] path

/-- From the start, or from a `..` at the root, the path does not go up, or it is one excursion
that ends at the root. -/
def Direct (path : Name) : Prop :=
  ∃ front rest, steps path = front ++ rest ∧ Slashed.AtRoot front ∧
    (up ∉ rest ∨ ∃ y inner, rest = y :: inner ++ [up] ∧ y ≠ up ∧ Slashed.level inner = some 0)

theorem direct_iff (path : Name) :
    Direct path ↔ (Slashed.run (steps path)).Tidy ∨ Slashed.run (steps path) = ⟨[], 1⟩ := by
  rw [Slashed.tidy_run (steps_looked path) (steps_clean path),
    Slashed.slash_run (steps_looked path) (steps_clean path)]
  constructor
  · rintro ⟨front, rest, hsteps, hfront, hrest | ⟨y, inner, rfl, hy, hlevel⟩⟩
    · exact Or.inl ⟨front, rest, hsteps, hfront, hrest⟩
    · exact Or.inr ⟨front, y, inner, hsteps, hfront, hy, hlevel⟩
  · rintro (⟨front, names, hsteps, hfront, hnames⟩ | ⟨front, y, inner, hsteps, hfront, hy, hlevel⟩)
    · exact ⟨front, names, hsteps, hfront, Or.inl hnames⟩
    · exact ⟨front, _, hsteps, hfront, Or.inr ⟨y, inner, rfl, hy, hlevel⟩⟩

theorem mount_eq_ram_iff (path : Name) :
    normalizePath path = RamFs.normalizePath path ↔ Direct path := by
  have hproper := Slashed.proper_run (steps_clean path)
  have hcomps := Slashed.comps_run (steps path) (steps_looked path)
  rw [direct_iff, normalizePath_render, RamFs.normalizePath, normParts_steps, ← hcomps]
  generalize Slashed.run (steps path) = s at hproper
  rw [RamFs.pathOf]
  by_cases hnil : s.comps = []
  · have hrender : s.render = List.replicate s.trail '/' := by simp [Slashed.render, hnil]
    rw [hrender, hnil, List.map_nil, if_pos rfl]
    constructor
    · intro h
      cases s with
      | mk comps trail =>
        cases trail with
        | zero => exact Or.inl ⟨by simp [show comps = [] from hnil], rfl⟩
        | succ trail =>
          rw [if_neg (by simp)] at h
          have hlen := congrArg List.length h
          rw [List.length_replicate, List.length_singleton] at hlen
          have hone : trail + 1 = 1 := hlen
          exact Or.inr (by rw [show comps = [] from hnil, hone])
    · rintro (h | h)
      · rw [h.2]
        rfl
      · rw [h]
        rfl
  · have hmap : s.comps.map (·.2) ≠ [] := by simpa using hnil
    have hjoin : join '/' (s.comps.map (·.2)) ≠ [] := Lib.Path.join_eq_nil.not.mpr hmap
    rw [if_neg hmap]
    constructor
    · intro h
      apply Or.inl
      apply Slashed.tidy_of_length hproper
      split at h
      · rename_i hempty
        exfalso
        rcases List.exists_mem_of_ne_nil _ hnil with ⟨c, hc⟩
        have hflat := (List.append_eq_nil_iff.mp hempty).1
        have hname := (List.append_eq_nil_iff.mp (List.flatMap_eq_nil_iff.mp hflat c hc)).2
        exact (hproper.name c hc).1 hname
      · rw [h]
    · rintro (h | h)
      · rw [Slashed.render_tidy h, if_neg hjoin]
      · exact absurd (congrArg Slashed.comps h) hnil

theorem direct_pathOf {ps : List Name} (h : RamFs.NormalParts ps) : Direct (RamFs.pathOf ps) := by
  have hparts : pathParts (RamFs.pathOf ps) = ps := by
    rw [RamFs.pathOf]
    split
    · rename_i hnil
      rw [hnil]
      rfl
    · exact Lib.Path.parts_join h.clean
  refine ⟨[], steps (RamFs.pathOf ps), rfl, Or.inl rfl, Or.inl ?_⟩
  intro hup
  rw [steps, hparts] at hup
  exact h.dotDot (List.mem_filter.mp hup).1

/-- The three normalizers agree on a path, and are idempotent on what they make of it, exactly if
the path is direct. -/
theorem normalizers_agree_iff (path : Name) : Agree path ↔ Direct path := by
  have hnormal := RamFs.normalParts_normParts path
  constructor
  · exact fun h => (mount_eq_ram_iff path).mp h.mount_ram
  · intro h
    have hmount := (mount_eq_ram_iff path).mpr h
    have hagain := (mount_eq_ram_iff (RamFs.normalizePath path)).mpr (direct_pathOf hnormal)
    refine ⟨hmount, (resolvePath_root path).symm, ?_, ?_, RamFs.normalizePath_idem path, ?_⟩
    · rw [hmount]
      exact canonical_pathOf hnormal
    · rw [hmount, hagain, RamFs.normalizePath_idem]
    · rw [resolvePath_root, resolvePath_root, RamFs.normalizePath_idem]

/-- A component after a `..` gets a second slash, and a `..` at the end leaves one. -/
theorem normalizers_agree_fails :
    ¬ Agree "/a/../b".toList ∧ ¬ Agree "/a/b/..".toList := by
  constructor
  · intro h
    exact absurd h.mount_ram (by decide)
  · intro h
    exact absurd h.mount_ram (by decide)

end Vibra.Vfs
