import Vibra.Vfs.RamFs

/-! # The file system in memory is a tree

A normalized path is a list of components, so the flat list of entries is a tree of component lists.
-/

namespace Vibra.Vfs

open Lib.Path (Clean join parts)
open Fat32 (Name FsError DirEntry SeekFrom)

namespace RamFs

/-- The components that `normalize_path` keeps. -/
structure NormalParts (ps : List Name) : Prop where
  clean : Clean '/' ps
  dot : ['.'] ∉ ps
  dotDot : ['.', '.'] ∉ ps

theorem NormalParts.of_subset {ps qs : List Name} (h : NormalParts ps)
    (hsub : ∀ q ∈ qs, q ∈ ps) : NormalParts qs :=
  ⟨h.clean.of_subset hsub, fun hq => h.dot (hsub _ hq), fun hq => h.dotDot (hsub _ hq)⟩

theorem NormalParts.init {ps : List Name} {p : Name} (h : NormalParts (ps ++ [p])) :
    NormalParts ps :=
  h.of_subset fun _ hq => List.mem_append_left _ hq

theorem normalParts_pushPart {ps : List Name} {part : Name} (h : NormalParts ps)
    (hpart : '/' ∉ part) : NormalParts (pushPart ps part) := by
  unfold pushPart
  split
  · exact h
  next hdot =>
    obtain ⟨hne, hdot⟩ := not_or.mp hdot
    split
    · exact h.of_subset fun q hq => List.dropLast_subset _ hq
    next hdots =>
      refine ⟨fun q hq => ?_, ?_, ?_⟩
      · rcases List.mem_append.mp hq with hq | hq
        · exact h.clean q hq
        · rw [List.mem_singleton.mp hq]
          exact ⟨hne, hpart⟩
      · simp [h.dot, Ne.symm hdot]
      · simp [h.dotDot, Ne.symm hdots]

theorem normalParts_foldl {ps parts : List Name} (h : NormalParts ps)
    (hparts : ∀ p ∈ parts, '/' ∉ p) : NormalParts (parts.foldl pushPart ps) := by
  induction parts generalizing ps with
  | nil => exact h
  | cons p parts ih =>
    exact ih (normalParts_pushPart h (hparts p (by simp))) fun q hq => hparts q (by simp [hq])

theorem normalParts_normParts (path : Name) : NormalParts (normParts path) :=
  normalParts_foldl ⟨by simp [Clean], by simp, by simp⟩
    fun _ hp => Lib.Path.not_mem_of_mem_splitOn hp

theorem foldl_pushPart {ps : List Name} (h : NormalParts ps) (stack : List Name) :
    ps.foldl pushPart stack = stack ++ ps := by
  induction ps generalizing stack with
  | nil => simp
  | cons p ps ih =>
    have hne := (h.clean p (by simp)).1
    have hdot : p ≠ ['.'] := fun he => h.dot (by simp [he])
    have hdots : p ≠ ['.', '.'] := fun he => h.dotDot (by simp [he])
    rw [List.foldl_cons, ih (h.of_subset fun q hq => by simp [hq]), pushPart,
      if_neg (not_or.mpr ⟨hne, hdot⟩), if_neg hdots, List.append_assoc]
    rfl

theorem normParts_eq (path : Name) : normParts path = (parts '/' path).foldl pushPart [] := by
  rw [normParts, parts, List.foldl_filter]
  congr 1
  funext stack part
  by_cases h : part = []
  · simp [h, pushPart]
  · simp [h]

theorem normParts_pathOf {ps : List Name} (h : NormalParts ps) : normParts (pathOf ps) = ps := by
  rw [normParts_eq, pathOf]
  split
  next hnil =>
    rw [hnil]
    rfl
  · rw [Lib.Path.parts_join h.clean, foldl_pushPart h, List.nil_append]

theorem pathOf_injective {ps qs : List Name} (hp : NormalParts ps) (hq : NormalParts qs)
    (h : pathOf ps = pathOf qs) : ps = qs := by
  rw [← normParts_pathOf hp, h, normParts_pathOf hq]

theorem normalizePath_pathOf {ps : List Name} (h : NormalParts ps) :
    normalizePath (pathOf ps) = pathOf ps := by
  rw [normalizePath, normParts_pathOf h]

theorem normalizePath_idem (path : Name) :
    normalizePath (normalizePath path) = normalizePath path :=
  normalizePath_pathOf (normalParts_normParts path)

theorem pathOf_nil : pathOf [] = ['/'] := rfl

theorem pathOf_concat (ps : List Name) (p : Name) :
    pathOf (ps ++ [p]) = join '/' ps ++ '/' :: p := by
  rw [pathOf, if_neg (by simp), Lib.Path.join_concat]

theorem pathOf_eq_root {ps : List Name} (h : NormalParts ps) : pathOf ps = ['/'] ↔ ps = [] := by
  constructor
  · intro he
    exact pathOf_injective h ⟨by simp [Clean], by simp, by simp⟩ he
  · rintro rfl
    exact pathOf_nil

theorem pathOf_slash {ps : List Name} (h : NormalParts ps) :
    (if pathOf ps = ['/'] then ['/'] else pathOf ps ++ ['/']) = join '/' ps ++ ['/'] := by
  by_cases hps : ps = []
  · simp [hps, pathOf_nil]
  · rw [if_neg ((pathOf_eq_root h).not.mpr hps), pathOf, if_neg hps]

theorem parentPath_concat {ps : List Name} {p : Name} (h : NormalParts (ps ++ [p])) :
    parentPath (pathOf (ps ++ [p])) = pathOf ps := by
  have hp := (h.clean p (by simp)).2
  rw [pathOf_concat, parentPath, Lib.Path.rfind_append hp]
  by_cases hps : ps = []
  · simp [hps, pathOf_nil]
  · have hlen : (join '/' ps).length ≠ 0 := by
      simpa [Lib.Path.join_eq_nil] using hps
    cases hl : (join '/' ps).length with
    | zero => exact absurd hl hlen
    | succ n =>
      rw [pathOf, if_neg hps]
      simp only
      rw [← hl, List.take_left]

theorem exists_concat {name : Name} (h : normalizePath name = name) (hne : name ≠ ['/']) :
    ∃ ps p, NormalParts (ps ++ [p]) ∧ name = pathOf (ps ++ [p]) := by
  have hnormal := normalParts_normParts name
  rw [normalizePath] at h
  rcases List.eq_nil_or_concat (normParts name) with hps | ⟨ps, p, hps⟩
  · rw [hps, pathOf_nil] at h
    exact absurd h.symm hne
  · rw [hps, List.concat_eq_append] at hnormal h
    exact ⟨ps, p, hnormal, h.symm⟩

theorem eq_concat_of_parentPath {ps : List Name} {name : Name} (hps : NormalParts ps)
    (h : normalizePath name = name) (hne : name ≠ ['/']) (hparent : parentPath name = pathOf ps) :
    ∃ p, NormalParts (ps ++ [p]) ∧ name = join '/' ps ++ '/' :: p := by
  obtain ⟨qs, p, hnormal, rfl⟩ := exists_concat h hne
  rw [parentPath_concat hnormal] at hparent
  obtain rfl := pathOf_injective hnormal.init hps hparent
  exact ⟨p, hnormal, pathOf_concat qs p⟩

theorem parentPath_of_slash {ps : List Name} {name rest : Name} (hps : NormalParts ps)
    (h : normalizePath name = name) (hname : name = join '/' ps ++ '/' :: rest) (hrest : rest ≠ [])
    (hslash : '/' ∉ rest) : name ≠ ['/'] ∧ parentPath name = pathOf ps := by
  have hclean : Clean '/' (ps ++ [rest]) := by
    intro q hq
    rcases List.mem_append.mp hq with hq | hq
    · exact hps.clean q hq
    · rw [List.mem_singleton.mp hq]
      exact ⟨hrest, hslash⟩
  have hjoin : name = join '/' (ps ++ [rest]) := by rw [hname, Lib.Path.join_concat]
  have hroot : name ≠ ['/'] := by
    intro he
    have hparts := Lib.Path.parts_join hclean
    rw [← hjoin, he, Lib.Path.parts_cons, Lib.Path.parts_nil] at hparts
    simp at hparts
  obtain ⟨qs, p, hnormal, he⟩ := exists_concat h hroot
  have hqs : qs ++ [p] = ps ++ [rest] := by
    apply Lib.Path.join_injective hnormal.clean hclean
    rw [← hjoin, he, pathOf_concat, Lib.Path.join_concat]
  refine ⟨hroot, ?_⟩
  rw [he, parentPath_concat hnormal, (List.append_inj' hqs rfl).1]

/-! ## The tree -/

/-- The entries are a tree: names are normal and used once, the root is a directory, and
the parent of every other entry is a directory. -/
structure Tree (entries : List RamFsEntry) : Prop where
  once : (entries.map (·.name)).Nodup
  normal : ∀ e ∈ entries, normalizePath e.name = e.name
  root : ∃ e ∈ entries, e.name = ['/'] ∧ e.fileType = .directory
  parent : ∀ e ∈ entries, e.name ≠ ['/'] →
    ∃ d ∈ entries, d.name = parentPath e.name ∧ d.fileType = .directory

theorem tree_mounted : Tree new.mount.entries where
  once := by simp [new, mount, RamFsEntry.newDir]
  normal := by
    intro e he
    rw [show e = RamFsEntry.newDir ['/'] by simpa [new, mount] using he]
    exact @normalizePath_pathOf [] ⟨by simp [Clean], by simp, by simp⟩
  root := ⟨.newDir ['/'], by simp [new, mount], rfl, rfl⟩
  parent := by
    intro e he hne
    rw [show e = RamFsEntry.newDir ['/'] by simpa [new, mount] using he] at hne
    exact absurd rfl hne

theorem parentExists_iff {entries : List RamFsEntry} {path : Name} :
    parentExists entries path = true ↔
      ∃ d ∈ entries, d.name = parentPath path ∧ d.fileType = .directory := by
  simp [parentExists]

namespace Tree

variable {entries : List RamFsEntry}

theorem eq_of_name (h : Tree entries) {e d : RamFsEntry} (he : e ∈ entries) (hd : d ∈ entries)
    (hname : e.name = d.name) : e = d :=
  List.inj_on_of_nodup_map h.once he hd hname

theorem append (h : Tree entries) {e : RamFsEntry} (hnormal : normalizePath e.name = e.name)
    (hnew : ∀ d ∈ entries, d.name ≠ e.name) (hparent : parentExists entries e.name = true) :
    Tree (entries ++ [e]) where
  once := by
    rw [List.map_append, List.nodup_append]
    refine ⟨h.once, by simp, ?_⟩
    intro n hn m hm
    obtain ⟨d, hd, rfl⟩ := List.mem_map.mp hn
    rw [show m = e.name by simpa using hm]
    exact hnew d hd
  normal := by
    intro d hd
    rcases List.mem_append.mp hd with hd | hd
    · exact h.normal d hd
    · rwa [List.mem_singleton.mp hd]
  root := by
    obtain ⟨d, hd, hroot⟩ := h.root
    exact ⟨d, List.mem_append_left _ hd, hroot⟩
  parent := by
    intro d hd hne
    obtain ⟨p, hp, hdir⟩ : ∃ p ∈ entries, p.name = parentPath d.name ∧
        p.fileType = .directory := by
      rcases List.mem_append.mp hd with hd | hd
      · exact h.parent d hd hne
      · rw [List.mem_singleton.mp hd]
        exact parentExists_iff.mp hparent
    exact ⟨p, List.mem_append_left _ hp, hdir⟩

theorem mem_eraseIdx (h : Tree entries) {pos : Nat} {e : RamFsEntry}
    (hpos : entries[pos]? = some e) (d : RamFsEntry) :
    d ∈ entries.eraseIdx pos ↔ d ∈ entries ∧ d ≠ e := by
  rw [List.mem_eraseIdx_iff_getElem?]
  obtain ⟨hlt, he⟩ := List.getElem?_eq_some_iff.mp hpos
  have hnodup := List.Nodup.of_map _ h.once
  constructor
  · rintro ⟨i, hi, hd⟩
    refine ⟨List.mem_of_getElem? hd, ?_⟩
    rintro rfl
    obtain ⟨hi', hd⟩ := List.getElem?_eq_some_iff.mp hd
    exact hi ((hnodup.getElem_inj_iff).mp (hd.trans he.symm))
  · rintro ⟨hd, hne⟩
    obtain ⟨i, hi, rfl⟩ := List.getElem_of_mem hd
    refine ⟨i, ?_, List.getElem?_eq_getElem hi⟩
    rintro rfl
    exact hne he

theorem eraseIdx (h : Tree entries) {pos : Nat} {e : RamFsEntry} (hpos : entries[pos]? = some e)
    (hroot : e.name ≠ ['/'])
    (hleaf : ∀ d ∈ entries, d.name ≠ ['/'] → parentPath d.name = e.name →
      e.fileType ≠ .directory) : Tree (entries.eraseIdx pos) := by
  have hmem := h.mem_eraseIdx hpos
  constructor
  · exact h.once.sublist ((List.eraseIdx_sublist _ _).map _)
  · exact fun d hd => h.normal d ((hmem d).mp hd).1
  · obtain ⟨d, hd, hname, hdir⟩ := h.root
    refine ⟨d, (hmem d).mpr ⟨hd, ?_⟩, hname, hdir⟩
    rintro rfl
    exact hroot hname
  · intro d hd hne
    obtain ⟨hd, -⟩ := (hmem d).mp hd
    obtain ⟨p, hp, hname, hdir⟩ := h.parent d hd hne
    refine ⟨p, (hmem p).mpr ⟨hp, ?_⟩, hname, hdir⟩
    rintro rfl
    exact hleaf d hd hne hname.symm hdir

theorem modify (h : Tree entries) (idx : Nat) (data : List UInt8) :
    Tree (entries.modify idx fun e => { e with data := data }) := by
  have hmap : ∀ {β : Type} (g : RamFsEntry → β), (∀ e, g { e with data := data } = g e) →
      (entries.modify idx fun e => { e with data := data }).map g = entries.map g := by
    intro β g hg
    apply List.ext_getElem? 
    intro i
    rw [List.getElem?_map, List.getElem?_map, List.getElem?_modify]
    split <;> cases entries[i]? <;> simp [hg]
  have hkeys := hmap (fun e => (e.name, e.fileType)) fun _ => rfl
  have hmem : ∀ n t, (∃ d ∈ entries.modify idx fun e => { e with data := data },
      d.name = n ∧ d.fileType = t) ↔ ∃ d ∈ entries, d.name = n ∧ d.fileType = t := by
    intro n t
    have := congrArg ((n, t) ∈ ·) hkeys
    simpa using this
  constructor
  · rw [hmap (·.name) fun _ => rfl]
    exact h.once
  · intro d hd
    obtain ⟨e, he, hname, -⟩ := (hmem d.name d.fileType).mp ⟨d, hd, rfl, rfl⟩
    exact hname ▸ h.normal e he
  · obtain ⟨d, hd, hname, hdir⟩ := h.root
    obtain ⟨e, he⟩ := (hmem _ _).mpr ⟨d, hd, hname, hdir⟩
    exact ⟨e, he⟩
  · intro d hd hne
    obtain ⟨e, he, hname, -⟩ := (hmem d.name d.fileType).mp ⟨d, hd, rfl, rfl⟩
    rw [hmem, ← hname]
    exact h.parent e he (hname ▸ hne)

end Tree

def children (entries : List RamFsEntry) (path : Name) : List RamFsEntry :=
  entries.filter fun e => e.name ≠ ['/'] ∧ parentPath e.name = path

def childPath (path name : Name) : Name :=
  if path = ['/'] then '/' :: name else path ++ '/' :: name

/-- The line of a listing shows the entry. -/
structure Shows (path : Name) (e : RamFsEntry) (line : DirEntry) : Prop where
  name : childPath path line.name = e.name
  fileType : line.fileType = e.fileType
  size : line.size = e.data.length

theorem childPath_eq {ps : List Name} (hps : NormalParts ps) (p : Name) :
    childPath (pathOf ps) p = join '/' ps ++ '/' :: p := by
  unfold childPath
  by_cases h : ps = []
  · simp [h, pathOf_nil]
  · rw [if_neg ((pathOf_eq_root hps).not.mpr h), pathOf, if_neg h]

theorem childLine_spec {path : Name} {e : RamFsEntry} (hpath : normalizePath path = path)
    (he : normalizePath e.name = e.name) :
    (∃ line, childLine path e = some line ∧ Shows path e line ∧ e.name ≠ ['/'] ∧
      parentPath e.name = path) ∨
    childLine path e = none ∧ ¬(e.name ≠ ['/'] ∧ parentPath e.name = path) := by
  have hps := normalParts_normParts path
  rw [normalizePath] at hpath
  generalize normParts path = ps at hps hpath
  subst hpath
  unfold childLine
  extract_lets dirPrefix relative
  have hbelow : dirPrefix = join '/' ps ++ ['/'] := pathOf_slash hps
  by_cases hchild : e.name ≠ ['/'] ∧ parentPath e.name = pathOf ps
  · obtain ⟨hne, hparent⟩ := hchild
    obtain ⟨p, hnormal, hname⟩ := eq_concat_of_parentPath hps he hne hparent
    obtain ⟨hp, hsep⟩ := hnormal.clean p (by simp)
    have hrel : relative = p := by simp [relative, hbelow, hname]
    have hdiff : e.name ≠ pathOf ps := by
      rw [hname, ← pathOf_concat]
      intro heq
      have := pathOf_injective hnormal hps heq
      simp at this
    have hstarts : dirPrefix.isPrefixOf e.name = true := by
      rw [List.isPrefixOf_iff_prefix, hbelow]
      exact ⟨p, by simp [hname]⟩
    refine .inl ⟨⟨relative, e.fileType, e.data.length, e.permissions, 0, 0⟩, ?_, ⟨?_, rfl, rfl⟩,
      hne, hparent⟩
    · rw [if_neg (by simp [hdiff, hstarts]), if_neg (by simp [hrel, hp, hsep])]
    · dsimp only
      rw [hrel, childPath_eq hps, hname]
  · refine .inr ⟨?_, hchild⟩
    split
    · rfl
    next hinside =>
      obtain ⟨-, hstarts⟩ := not_or.mp hinside
      split
      · rfl
      next hrel =>
        obtain ⟨hrest, hsep⟩ := not_or.mp hrel
        obtain ⟨rest, hname⟩ := List.isPrefixOf_iff_prefix.mp (not_not.mp hstarts)
        rw [hbelow] at hname
        have heq : relative = rest := by simp [relative, hbelow, ← hname]
        rw [heq] at hrest hsep
        exact absurd (parentPath_of_slash hps he (by simp [← hname]) hrest hsep) hchild

theorem filterMap_childLine {path : Name} (hpath : normalizePath path = path)
    {entries : List RamFsEntry} (h : ∀ e ∈ entries, normalizePath e.name = e.name) :
    List.Forall₂ (Shows path) (children entries path) (entries.filterMap (childLine path)) := by
  induction entries with
  | nil => exact .nil
  | cons e entries ih =>
    have ih := ih fun d hd => h d (by simp [hd])
    rcases childLine_spec hpath (h e (by simp)) with ⟨line, hline, hshows, hchild⟩ | ⟨hnone, hchild⟩
    · rw [List.filterMap_cons_some hline, children, List.filter_cons_of_pos (by simpa using hchild)]
      exact .cons hshows ih
    · rw [List.filterMap_cons_none hnone, children,
        List.filter_cons_of_neg (by simpa using hchild)]
      exact ih

theorem Tree.readdir {fs : RamFs} (h : Tree fs.entries) {path : Name} {lines : List DirEntry}
    (hlist : fs.readdir path = .ok lines) :
    List.Forall₂ (Shows (normalizePath path)) (children fs.entries (normalizePath path)) lines := by
  unfold RamFs.readdir at hlist
  dsimp only at hlist
  split at hlist
  · cases hlist
  · obtain rfl := Except.ok.inj hlist
    exact filterMap_childLine (normalizePath_idem path) h.normal

theorem Tree.readdir_parent {fs : RamFs} (h : Tree fs.entries) {e : RamFsEntry}
    (he : e ∈ fs.entries) (hne : e.name ≠ ['/']) :
    ∃ lines, fs.readdir (parentPath e.name) = .ok lines := by
  obtain ⟨d, hd, hname, -⟩ := h.parent e he hne
  have hnormal := h.normal d hd
  rw [hname] at hnormal
  refine ⟨fs.entries.filterMap (childLine (parentPath e.name)), ?_⟩
  unfold RamFs.readdir
  rw [hnormal, if_neg]
  simpa using ⟨d, hd, hname⟩

theorem Tree.count_children {entries : List RamFsEntry} (h : Tree entries) {e : RamFsEntry}
    (he : e ∈ entries) (hne : e.name ≠ ['/']) (path : Name) :
    (children entries path).count e = if path = parentPath e.name then 1 else 0 := by
  have hnodup := List.Nodup.of_map _ h.once
  split
  next hp =>
    refine List.count_eq_one_of_mem (hnodup.filter _) (List.mem_filter.mpr ⟨he, ?_⟩)
    simp [hne, hp]
  next hp =>
    refine List.count_eq_zero.mpr fun hmem => ?_
    have := (List.mem_filter.mp hmem).2
    simp [hne, Ne.symm hp] at this

/-! ## Runs -/

inductive Op where
  | mount
  | unmount
  | create (path : Name)
  | mkdir (path : Name)
  | remove (path : Name)
  | rmdir (path : Name)
  | writeData (path : Name) (data : List UInt8)
  | openFile (path : Name)
  | write (handle : Nat) (buf : List UInt8)
  | read (handle len : Nat)
  | seek (handle : Nat) (pos : SeekFrom)

/-- The file system and the handles that have been returned. -/
structure Session where
  fs : RamFs
  handles : List RamFsFile

namespace Session

variable (s : Session)

def finish {α : Type} (after : RamFs × Except FsError α) (reply : α → Reply) :
    Session × Except FsError Reply :=
  ({ s with fs := after.1 }, after.2.map reply)

/-- A handle that a call returns joins the others. -/
def finishOpen (after : RamFs × Except FsError RamFsFile) : Session × Except FsError Reply :=
  match after.2 with
  | .ok file => (⟨after.1, s.handles ++ [file]⟩, .ok .opened)
  | .error e => ({ s with fs := after.1 }, .error e)

/-- A call on a handle. -/
def onHandle {α : Type} (handle : Nat) (body : RamFsFile → RamFs × RamFsFile × Except FsError α)
    (reply : α → Reply) : Session × Except FsError Reply :=
  match s.handles[handle]? with
  | none => (s, .error .notFound)
  | some file =>
    (⟨(body file).1, s.handles.set handle (body file).2.1⟩, (body file).2.2.map reply)

def step : Op → Session × Except FsError Reply
  | .mount => s.finish (s.fs.mount, .ok ()) fun _ => .done
  | .unmount => s.finish (s.fs.unmount, .ok ()) fun _ => .done
  | .create path => s.finishOpen (s.fs.create path)
  | .mkdir path => s.finish (s.fs.mkdir path) fun _ => .done
  | .remove path => s.finish (s.fs.remove path) fun _ => .done
  | .rmdir path => s.finish (s.fs.rmdir path) fun _ => .done
  | .writeData path data => s.finish (s.fs.writeData path data) fun _ => .done
  | .openFile path => s.finishOpen (s.fs, s.fs.openFile path)
  | .write handle buf => s.onHandle handle (fun f => f.write s.fs buf) .number
  | .read handle len => s.onHandle handle (fun f => (s.fs, f.read s.fs len)) .bytes
  | .seek handle pos => s.onHandle handle (fun f => (s.fs, f.seek s.fs pos)) .number

def run (ops : List Op) : Session := ops.foldl (fun s op => (s.step op).1) s

/-- After `mount()`. -/
def mounted : Session := ⟨new.mount, []⟩

end Session

theorem Tree.mount {fs : RamFs} (h : Tree fs.entries) : fs.mount.entries = fs.entries := by
  obtain ⟨d, hd, hname, -⟩ := h.root
  exact if_pos (by simpa using ⟨d, hd, hname⟩)

/-- What a call does to the entries: nothing, or with success one change. -/
inductive Outcome {α : Type} (es : List RamFsEntry) :
    List RamFsEntry → Except FsError α → Prop
  | same (result : Except FsError α) : Outcome es es result
  | appended (e : RamFsEntry) (a : α) (hnormal : normalizePath e.name = e.name)
      (hnew : ∀ d ∈ es, d.name ≠ e.name) (hparent : parentExists es e.name = true) :
      Outcome es (es ++ [e]) (.ok a)
  | erased (pos : Nat) (e : RamFsEntry) (a : α) (hpos : es[pos]? = some e) (hroot : e.name ≠ ['/'])
      (hleaf : e.fileType = .directory → ∀ d ∈ es, ¬(e.name ++ ['/']) <+: d.name) :
      Outcome es (es.eraseIdx pos) (.ok a)
  | changed (idx : Nat) (data : List UInt8) (a : α) :
      Outcome es (es.modify idx fun e => { e with data := data }) (.ok a)

namespace Outcome

variable {α β : Type} {es es' : List RamFsEntry} {result : Except FsError α}

theorem keeps (h : Outcome es es' result) {error : FsError} (he : result = .error error) :
    es' = es := by
  cases h with
  | same => rfl
  | appended => cases he
  | erased => cases he
  | changed => cases he

theorem tree (h : Outcome es es' result) (htree : Tree es) : Tree es' := by
  cases h with
  | same => exact htree
  | appended e a hnormal hnew hparent => exact htree.append hnormal hnew hparent
  | changed idx data => exact htree.modify idx data
  | erased pos e a hpos hroot hleaf =>
    refine htree.eraseIdx hpos hroot fun d hd hne hparent hdir => hleaf hdir d hd ?_
    obtain ⟨ps, p, hnormal, hname⟩ :=
      exists_concat (htree.normal e (List.mem_of_getElem? hpos)) hroot
    rw [hname] at hparent ⊢
    obtain ⟨q, -, hd⟩ := eq_concat_of_parentPath hnormal (htree.normal d hd) hne hparent
    rw [pathOf, if_neg (by simp)]
    exact ⟨q, by rw [hd, List.append_assoc, List.singleton_append]⟩

theorem map (h : Outcome es es' result) (f : α → β) : Outcome es es' (result.map f) := by
  cases h with
  | same => exact .same _
  | appended e a hnormal hnew hparent => exact .appended e (f a) hnormal hnew hparent
  | erased pos e a hpos hroot hleaf => exact .erased pos e (f a) hpos hroot hleaf
  | changed idx data a => exact .changed idx data (f a)

end Outcome

section Calls

variable (fs : RamFs) (path : Name)

theorem exists_of_findIdx? {name : Name} {pos : Nat}
    (h : fs.entries.findIdx? (fun e => e.name == name) = some pos) :
    ∃ e, fs.entries[pos]? = some e ∧ e.name = name := by
  obtain ⟨hlt, hname, -⟩ := List.findIdx?_eq_some_iff_getElem.mp h
  exact ⟨_, List.getElem?_eq_getElem hlt, by simpa using hname⟩

theorem outcome_create :
    Outcome fs.entries (fs.create path).1.entries (fs.create path).2 := by
  unfold RamFs.create
  extract_lets path
  split
  · exact .same _
  next hnew =>
    split
    · exact .same _
    next hparent =>
      have hnew : ∀ d ∈ fs.entries, d.name ≠ path := by simpa using hnew
      have hparent : parentExists fs.entries path = true := by simpa using hparent
      exact .appended (.newFile path) _ (normalizePath_idem _) hnew hparent

theorem outcome_mkdir : Outcome fs.entries (fs.mkdir path).1.entries (fs.mkdir path).2 := by
  unfold RamFs.mkdir
  extract_lets path
  split
  · exact .same _
  split
  · exact .same _
  next hnew =>
    split
    · exact .same _
    next hparent =>
      have hnew : ∀ d ∈ fs.entries, d.name ≠ path := by simpa using hnew
      have hparent : parentExists fs.entries path = true := by simpa using hparent
      exact .appended (.newDir path) _ (normalizePath_idem _) hnew hparent

theorem outcome_remove : Outcome fs.entries (fs.remove path).1.entries (fs.remove path).2 := by
  unfold RamFs.remove
  extract_lets path
  split
  · exact .same _
  next hroot =>
    split
    · exact .same _
    next pos hpos =>
      obtain ⟨e, he, hname⟩ := exists_of_findIdx? fs hpos
      rw [he, Option.map_some]
      split
      · exact .same _
      next hfile =>
        exact .erased pos e _ he (hname ▸ hroot) fun hdir => absurd (congrArg some hdir) hfile

theorem outcome_rmdir : Outcome fs.entries (fs.rmdir path).1.entries (fs.rmdir path).2 := by
  unfold RamFs.rmdir
  extract_lets path
  split
  · exact .same _
  next hroot =>
    split
    · exact .same _
    next pos hpos =>
      obtain ⟨e, he, hname⟩ := exists_of_findIdx? fs hpos
      split
      · exact .same _
      split
      · exact .same _
      next hempty =>
        refine .erased pos e _ he (hname ▸ hroot) fun _ d hd hbelow => hempty ?_
        rw [hname] at hbelow
        have hne : d.name ≠ path := fun heq => absurd hbelow.length_le (by simp [heq])
        refine List.any_eq_true.mpr ⟨d, hd, ?_⟩
        rw [List.isPrefixOf_iff_prefix.mpr hbelow, bne_iff_ne.mpr hne, Bool.and_self]

theorem outcome_writeData (data : List UInt8) :
    Outcome fs.entries (fs.writeData path data).1.entries (fs.writeData path data).2 := by
  unfold RamFs.writeData
  split
  · exact .changed _ _ _
  · exact .same _

theorem outcome_write (f : RamFsFile) (buf : List UInt8) :
    Outcome fs.entries (f.write fs buf).1.entries (f.write fs buf).2.2 := by
  unfold RamFsFile.write
  split
  · exact .same _
  split
  · exact .changed _ _ _
  · exact .same _

end Calls

namespace Session

variable (s : Session)

theorem outcome_finishOpen {after : RamFs × Except FsError RamFsFile}
    (h : Outcome s.fs.entries after.1.entries after.2) :
    Outcome s.fs.entries (s.finishOpen after).1.fs.entries (s.finishOpen after).2 := by
  have h := h.map fun _ => Reply.opened
  unfold finishOpen
  split
  next hok => rwa [hok] at h
  next hfail => rwa [hfail] at h

theorem outcome_onHandle {α : Type} (handle : Nat)
    {body : RamFsFile → RamFs × RamFsFile × Except FsError α} (reply : α → Reply)
    (h : ∀ f, Outcome s.fs.entries (body f).1.entries (body f).2.2) :
    Outcome s.fs.entries (s.onHandle handle body reply).1.fs.entries
      (s.onHandle handle body reply).2 := by
  unfold onHandle
  split
  · exact .same _
  · exact (h _).map reply

theorem outcome_step (h : Tree s.fs.entries) (op : Op) :
    Outcome s.fs.entries (s.step op).1.fs.entries (s.step op).2 := by
  cases op with
  | mount =>
    unfold step finish
    rw [h.mount]
    exact .same _
  | unmount => exact .same _
  | create path => exact s.outcome_finishOpen (outcome_create s.fs path)
  | mkdir path => exact (outcome_mkdir s.fs path).map _
  | remove path => exact (outcome_remove s.fs path).map _
  | rmdir path => exact (outcome_rmdir s.fs path).map _
  | writeData path data => exact (outcome_writeData s.fs path data).map _
  | openFile path => exact s.outcome_finishOpen (.same _)
  | write handle buf => exact s.outcome_onHandle _ _ fun f => outcome_write s.fs f buf
  | read handle len => exact s.outcome_onHandle _ _ fun f => .same _
  | seek handle pos => exact s.outcome_onHandle _ _ fun f => .same _

theorem tree_run (h : Tree s.fs.entries) (ops : List Op) : Tree (s.run ops).fs.entries := by
  induction ops generalizing s with
  | nil => exact h
  | cons op ops ih => exact ih _ ((s.outcome_step h op).tree h)

end Session

/-- After `mount()` every sequence of calls leaves a tree, which the listings show
entry by entry, and a failed call leaves the entries as they were. -/
theorem stays_tree (ops : List Op) :
    let s := Session.mounted.run ops
    Tree s.fs.entries ∧
    (∀ path lines, s.fs.readdir path = .ok lines →
      List.Forall₂ (Shows (normalizePath path)) (children s.fs.entries (normalizePath path))
        lines) ∧
    (∀ e ∈ s.fs.entries, e.name ≠ ['/'] →
      (∃ lines, s.fs.readdir (parentPath e.name) = .ok lines) ∧
      ∀ path, (children s.fs.entries path).count e = if path = parentPath e.name then 1 else 0) ∧
    ∀ op error, (s.step op).2 = .error error → (s.step op).1.fs.entries = s.fs.entries := by
  intro s
  have htree : Tree s.fs.entries := Session.tree_run _ tree_mounted ops
  refine ⟨htree, fun path lines => htree.readdir, fun e he hne => ?_, fun op error herr => ?_⟩
  · exact ⟨htree.readdir_parent he hne, htree.count_children he hne⟩
  · exact (s.outcome_step htree op).keeps herr

end RamFs

end Vibra.Vfs
