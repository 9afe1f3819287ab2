import Vibra.Fat32.DirectoryMap
import Vibra.Fat32.HandleCoherence

/-! # Creating a file

Which paths notice that an entry comes or changes, and what `create` leaves on a volume: an
empty file under the path, and every path that does not come by its entry reads as before.
-/

namespace Vibra.Fat32

open Lib (Memory Prog LinkTable)
open Lib.Prog (wp)
open Lib.LinkTable (Partition)

variable {geo : Fat32Geo} {fs : Fat32Fs} {now : DosTime} {m m' : Memory} {dirs : Set Nat}
  {chains rest rest' : List (List Nat)} {l : List Nat} {a d e : Nat} {x y : DirSlot × Name}
  {p : Nat × Nat} {path other name : Name} {parts : List Name} {key : Name}

/-- The walk along the names from the directory comes by the name `key` in the directory `d`. -/
def meets (geo : Fat32Geo) (m : Memory) (d : Nat) (key : Name) : Nat → List Name → Bool
  | _, [] => false
  | a, part :: rest =>
    (a == d && foldName part == key) ||
      match listed geo m a part with
      | none => false
      | some x => x.1.entry.isDirectory && meets geo m d key x.1.entry.cluster rest

/-- The walk of `other` comes by the entry that `path` names. -/
def comesBy (geo : Fat32Geo) (m : Memory) (path other : Name) : Bool :=
  match resolveParent geo m path with
  | .ok (d, name) => meets geo m d (foldName name) geo.rootCluster (pathParts other)
  | .error _ => false

theorem meets_concat (h : resolveDirs geo m a parts = .ok d) :
    meets geo m d (foldName name) a (parts ++ [name]) = true := by
  induction parts generalizing a with
  | nil =>
    cases h
    simp [meets]
  | cons part parts ih =>
    rw [resolveDirs] at h
    rw [List.cons_append, meets]
    cases hfind : listed geo m a part with
    | none =>
      rw [hfind] at h
      cases h
    | some x =>
      rw [hfind] at h
      dsimp only at h
      split at h
      · cases h
      next hdir =>
        have hdir : x.1.entry.isDirectory = true := by simpa using hdir
        simp [hdir, ih h]

theorem meets_of_parent (h : resolveParent geo m path = .ok (d, name)) :
    meets geo m d (foldName name) geo.rootCluster (pathParts path) = true := by
  rcases resolveParent_eq h with ⟨hdirs, hparts⟩
  rw [hparts]
  exact meets_concat hdirs

theorem Inserted.listed_other (h : Inserted geo m dirs d x m') (ha : a < 2 ∨ a ∈ dirs)
    (hkey : ∀ y ∈ listing geo m d, nameKey y ≠ nameKey x)
    (hne : ¬(a = d ∧ foldName name = nameKey x)) : listed geo m' a name = listed geo m a name := by
  rcases ha with hlt | ha
  · rw [listed, listed, listing_of_lt hlt, listing_of_lt hlt]
  · by_cases had : a = d
    · subst had
      rw [listed_eq_lookup, listed_eq_lookup, h.lookup_eq hkey, Function.update_of_ne]
      exact fun heq => hne ⟨rfl, heq⟩
    · rw [listed, listed, h.other a ha had]

theorem Inserted.resolveParts_unmet (h : Inserted geo m dirs d x m') (htree : Tree geo m dirs chains)
    (hdots : DotsInside geo m dirs) (hkey : ∀ y ∈ listing geo m d, nameKey y ≠ nameKey x)
    (ha : a < 2 ∨ a ∈ dirs) (hmeets : meets geo m d (nameKey x) a parts = false) :
    resolveParts geo m' a parts = resolveParts geo m a parts := by
  induction parts generalizing a with
  | nil => rfl
  | cons part parts ih =>
    rw [meets, Bool.or_eq_false_iff] at hmeets
    rcases hmeets with ⟨hhere, hbelow⟩
    have hne : ¬(a = d ∧ foldName part = nameKey x) := by simpa using hhere
    rw [resolveParts, resolveParts, h.listed_other ha hkey hne]
    cases hfind : listed geo m a part with
    | none => rfl
    | some y =>
      rw [hfind] at hbelow
      dsimp only at hbelow ⊢
      cases hdir : y.1.entry.isDirectory with
      | false => rfl
      | true =>
        rw [hdir, Bool.true_and] at hbelow
        rw [ih ?_ hbelow]
        have hy : y ∈ listing geo m a := List.mem_of_find?_eq_some hfind
        rcases ha with hlt | ha
        · rw [listing_of_lt hlt] at hy
          cases hy
        · cases hdot : y.1.entry.isDot with
          | true => exact (hdots a ha y hy hdot).2
          | false => exact Or.inr (htree.sub a ha y hy hdot hdir).1

theorem Inserted.resolve_unmet (h : Inserted geo m dirs d x m') (htree : Tree geo m dirs chains)
    (hdots : DotsInside geo m dirs) (hkey : ∀ y ∈ listing geo m d, nameKey y ≠ nameKey x)
    (hmeets : meets geo m d (nameKey x) geo.rootCluster (pathParts path) = false) :
    resolve geo m' path = resolve geo m path := by
  rw [resolve, resolve, h.resolveParts_unmet htree hdots hkey (Or.inr htree.root) hmeets]

theorem sublist_collect (lfn : List (List Nat)) (slots : List (Nat × Nat)) :
    ((collect m lfn slots).map fun x => x.1.pos).Sublist slots := by
  induction slots generalizing lfn with
  | nil => exact List.Sublist.slnil
  | cons q slots ih =>
    rw [collect]
    split
    · exact List.nil_sublist _
    split
    · exact (ih []).cons q
    split
    · exact (ih _).cons q
    split
    · exact (ih []).cons_cons q
    · exact (ih []).cons q

theorem Tree.line_unique (hgeo : geo.Valid) (h : Tree geo m dirs chains) (hd : d ∈ dirs)
    (he : e ∈ dirs) (hx : x ∈ listing geo m d) (hy : y ∈ listing geo m e)
    (hpos : x.1.pos = y.1.pos) : d = e ∧ x = y := by
  have hyd := (mem_listing hy).1
  rw [← hpos] at hyd
  obtain rfl := h.slot_dir hgeo hd he (mem_listing hx).1 hyd
  rcases h.dir_chain hd with ⟨k, hk, -, hchain⟩
  have hslots : (dirSlots geo (chainOf geo m d)).Nodup := by
    rw [hchain]
    exact nodup_dirSlots hgeo (h.part.chain_nodup hk) fun c hc => (h.inRange hk hc).1
  exact ⟨rfl, List.inj_on_of_nodup_map (hslots.sublist (sublist_collect [] _)) hx hy hpos⟩

theorem nameKey_of_listed (h : listed geo m d name = some x) : nameKey x = foldName name := by
  rw [listed_eq_lookup] at h
  simpa using List.find?_some h

theorem NamedTree.resolve_ne (hgeo : fs.geo.Valid) (h : NamedTree fs.geo m dirs chains)
    (hd : d ∈ dirs) (hx : listed fs.geo m d name = some x) (hdir : x.1.entry.isDirectory = false)
    (hmeets : meets fs.geo m d (foldName name) fs.geo.rootCluster (pathParts other) = false) :
    resolve fs.geo m other ≠ .ok (some x.1) := by
  intro hres
  by_cases hother : pathParts other = []
  · rw [resolve, if_pos hother, Except.ok.injEq, Option.some.injEq] at hres
    rw [← hres, rootSlot_isDirectory] at hdir
    cases hdir
  · rcases resolve_entry h hother hres with ⟨e, name', y, hparent, he, hy, hmem, hslot⟩
    rcases h.toTree.line_unique hgeo he hd hmem (List.mem_of_find?_eq_some hx)
      (congrArg DirSlot.pos hslot) with ⟨rfl, rfl⟩
    have hkey : foldName name' = foldName name :=
      (nameKey_of_listed hy).symm.trans (nameKey_of_listed hx)
    rw [← hkey, meets_of_parent hparent] at hmeets
    cases hmeets

theorem readFile_congr (hgeo : fs.geo.Valid) (htree : Tree fs.geo m dirs chains)
    (hdots : DotsInside fs.geo m dirs) (hres : resolve fs.geo m' other = resolve fs.geo m other)
    (hcontent : ∀ e ∈ dirs, ∀ y ∈ listing fs.geo m e, y.1.entry.isFile = true →
      content fs.geo m' y.1.entry = content fs.geo m y.1.entry) :
    readFile fs m' other = readFile fs m other := by
  rw [readFile_run hgeo, readFile_run hgeo, openResult, openResult, hres]
  cases hfound : resolve fs.geo m other with
  | error e => rfl
  | ok found =>
    cases found with
    | none => rfl
    | some slot =>
      dsimp only
      by_cases hdir : slot.entry.isDirectory = true
      · rw [if_pos hdir, if_pos hdir]
      · by_cases hfile : (!slot.entry.isFile) = true
        · rw [if_neg hdir, if_neg hdir, if_pos hfile, if_pos hfile]
        · rw [if_neg hdir, if_neg hdir, if_neg hfile, if_neg hfile]
          have hother : pathParts other ≠ [] := by
            intro hother
            rw [resolve, if_pos hother] at hfound
            cases hfound
            exact hdir (rootSlot_isDirectory _)
          rw [resolve, if_neg hother] at hfound
          rcases resolveParts_mem htree hdots (Or.inr htree.root) hfound with ⟨e, he, y, hy, rfl⟩
          exact congrArg Except.ok (hcontent e he y hy (by simpa using hfile))

theorem EntryPut.content_eq {entry : FatDirEntry} (htree : WellFormedTree geo m dirs (l :: rest))
    (hd : d ∈ dirs) (h : EntryPut geo m dirs d l rest entry p m' rest') (he : e ∈ dirs)
    (hy : y ∈ listing geo m e) (hfile : y.1.entry.isFile = true) :
    content geo m' y.1.entry = content geo m y.1.entry := by
  have hdot := htree.inside.not_dot he hy hfile
  rw [content, content, h.file_chain htree hd he hy hfile]
  rcases htree.file e he y hy hdot (FatDirEntry.isDirectory_of_isFile hfile) with
    hlt | ⟨hnot, k, hk, hhead⟩
  · rw [chainOf, if_pos hlt]
    rfl
  · have hne : k.head? ≠ some d := by
      rw [hhead]
      intro heq
      exact hnot (Option.some.inj heq ▸ hd)
    rw [htree.chainOf_head hk hhead, chainBytes_congr (h.kept k hk hne).2]

section Published

variable {l₀ : List Nat} {start size : Nat}

theorem FileAt.resolve_ne_published (hat : FileAt fs.geo m dirs p l₀ rest)
    (hp : Published fs.geo m dirs p l rest start size m')
    (h : resolve fs.geo m other ≠ .ok (some (dirSlotAt m p))) :
    resolve fs.geo m' other ≠ .ok (some (dirSlotAt m' p)) := by
  intro hres
  have hrefreshed := hat.published_refreshed hp
  have hfile : (entryAt m' p).isFile = true := hp.head.alike.isFile.trans hat.isFile
  by_cases hother : pathParts other = []
  · rw [resolve, if_pos hother, Except.ok.injEq, Option.some.injEq] at hres
    have hdir := rootSlot_isDirectory fs.geo
    rw [hres, dirSlotAt_entry, FatDirEntry.isDirectory_of_isFile hfile] at hdir
    cases hdir
  · rw [hrefreshed.resolve_eq hat.tree hat.inside hother] at hres
    cases hfound : resolve fs.geo m other with
    | error e => simp [hfound, Except.map] at hres
    | ok found =>
      cases found with
      | none => simp [hfound, Except.map] at hres
      | some slot =>
        rw [hfound] at hres
        have hslot : dirSlotAt m' slot.pos = dirSlotAt m' p := by simpa [Except.map] using hres
        have hpos : slot.pos = p := by simpa using congrArg DirSlot.pos hslot
        rw [resolve, if_neg hother] at hfound
        rcases resolveParts_mem hat.tree hat.inside (Or.inr hat.tree.root) hfound with
          ⟨e, he, y, hy, rfl⟩
        apply h
        rw [resolve, if_neg hother, hfound, (mem_listing hy).2.1, hpos]

end Published

/-! ## `create` -/

theorem resolveDirs_proper (htree : Tree geo m dirs chains) (hd : d ∈ dirs)
    (hproper : ∀ part ∈ parts, foldName part ≠ ['.'] ∧ foldName part ≠ ['.', '.'])
    (h : resolveDirs geo m d parts = .ok e) : e ∈ dirs := by
  induction parts generalizing d with
  | nil =>
    obtain rfl := Except.ok.inj h
    exact hd
  | cons part parts ih =>
    rw [resolveDirs] at h
    cases hfind : listed geo m d part with
    | none =>
      rw [hfind] at h
      cases h
    | some x =>
      rw [hfind] at h
      dsimp only at h
      split at h
      · cases h
      next hdir =>
        have hx : x ∈ listing geo m d := List.mem_of_find?_eq_some hfind
        have hdir : x.1.entry.isDirectory = true := by simpa using hdir
        have hdot : x.1.entry.isDot = false := by
          by_contra hdot
          have hkey : foldName x.2 = foldName part := nameKey_of_listed hfind
          rcases hproper part List.mem_cons_self with ⟨hone, htwo⟩
          rcases htree.dots d hd x hx (by simpa using hdot) with hname | hname
          · apply hone
            rw [← hkey, hname]
            rfl
          · apply htwo
            rw [← hkey, hname]
            rfl
        exact ih (htree.sub d hd x hx hdot hdir).1
          (fun part hpart => hproper part (List.mem_cons_of_mem _ hpart)) h

def ProperParts (path : Name) : Prop :=
  ∀ part ∈ pathParts path, foldName part ≠ ['.'] ∧ foldName part ≠ ['.', '.']

theorem ProperParts.of_dotless
    (h : ∀ part ∈ pathParts path, part ≠ ['.'] ∧ part ≠ ['.', '.']) : ProperParts path := by
  have hdots : ∀ n, ∀ part : Name, foldName part = List.replicate n '.' →
      part = List.replicate n '.' := by
    intro n part hfold
    rw [List.eq_replicate_iff] at hfold ⊢
    refine ⟨by rw [← hfold.1, foldName, List.length_map], fun c hc => asciiLower_eq_dot ?_⟩
    exact hfold.2 _ (List.mem_map_of_mem hc)
  intro part hpart
  exact ⟨fun hfold => (h part hpart).1 (hdots 1 part hfold),
    fun hfold => (h part hpart).2 (hdots 2 part hfold)⟩

/-- A new entry for the path comes behind all that is listed or into a hole, and it is shown
under the name that the path asks for. -/
def ShowsName (geo : Fat32Geo) (m : Memory) (path : Name) : Prop :=
  ∀ d name n83, resolveParent geo m path = .ok (d, name) → to83 name = some n83 →
    listed geo m d name = none → CleanEnd geo m d ∧
      foldName (entryName (pendingLfn geo m d) (Fat32Fs.fileEntry ⟨0, 0⟩ n83)) = foldName name

/-- The checks that `create` makes before it writes. -/
def Creatable (fs : Fat32Fs) (m : Memory) (path : Name) : Prop :=
  fs.readOnly = false ∧ ∃ d name, resolveParent fs.geo m path = .ok (d, name) ∧
    to83 name ≠ none ∧ ∀ x, listed fs.geo m d name = some x → x.1.entry.isDirectory = false

theorem resolveParts_of_resolveDirs (h : resolveDirs geo m a parts = .error .notFound) :
    resolveParts geo m a (parts ++ [name]) = .ok none := by
  induction parts generalizing a with
  | nil => cases h
  | cons part parts ih =>
    rw [resolveDirs] at h
    rw [List.cons_append, resolveParts]
    cases hfind : listed geo m a part with
    | none => rfl
    | some x =>
      rw [hfind] at h
      dsimp only at h ⊢
      rw [if_neg (by simp)]
      split at h
      · cases h
      next hdir => rw [if_neg hdir, ih h]

theorem openResult_of_parent (h : resolveParent fs.geo m path = .error .notFound) :
    openResult fs m path = .error .notFound := by
  rw [resolveParent] at h
  cases hlast : (pathParts path).getLast? with
  | none =>
    rw [hlast] at h
    cases h
  | some name =>
    rw [hlast] at h
    have hdirs : resolveDirs fs.geo m fs.geo.rootCluster (pathParts path).dropLast =
        .error .notFound := by
      cases hd : resolveDirs fs.geo m fs.geo.rootCluster (pathParts path).dropLast with
      | ok d =>
        rw [hd] at h
        cases h
      | error e =>
        rw [hd] at h
        exact congrArg _ (Except.error.inj h)
    have hparts := List.dropLast_append_getLast? name hlast
    have hne : pathParts path ≠ [] := by
      intro hnil
      rw [hnil] at hlast
      cases hlast
    rw [openResult, resolve, if_neg hne, ← hparts, resolveParts_of_resolveDirs hdirs]

def NoParent (fs : Fat32Fs) (m : Memory) (path : Name) : Prop :=
  fs.readOnly = false ∧ resolveParent fs.geo m path = .error .notFound

/-- What `create` leaves: the empty file `f` under the path, and all other paths as they were. -/
structure Created (fs : Fat32Fs) (m : Memory) (dirs : Set Nat) (path : Name) (f : Fat32File)
    (m' : Memory) : Prop where
  coherent : ∃ l rest, Coherent fs dirs path ⟨f, m'⟩ l rest
  data : f.data = []
  position : f.position = 0
  tree : ∃ chains, NamedTree fs.geo m' dirs chains
  others : ∀ other, comesBy fs.geo m path other = false →
    resolve fs.geo m' other ≠ .ok (some (dirSlotAt m' f.slot.pos)) ∧
      readFile fs m' other = readFile fs m other

theorem NamedTree.nil_cons (h : NamedTree geo m dirs chains) : NamedTree geo m dirs ([] :: chains) where
  toWellFormedTree := {
    part := Partition.nil_cons.mpr h.part
    root := h.root
    dir := fun d hd => (h.dir d hd).imp fun k hk => ⟨List.mem_cons_of_mem _ hk.1, hk.2⟩
    sub := h.sub
    file := fun d hd x hx hdot hdir => (h.file d hd x hx hdot hdir).imp_right fun ⟨hnot, _, hk, hhead⟩ =>
      ⟨hnot, _, List.mem_cons_of_mem _ hk, hhead⟩
    once := h.once
    dots := h.dots
    inside := h.inside
    fits := h.fits }
  named := h.named

section Create

variable {n83 : List UInt8}

def newHandle (geo : Fat32Geo) (slot : DirSlot) : Fat32File := ⟨geo, slot, 0, 0, 0, [], false⟩

theorem created_of_published (hgeo : fs.geo.Sound) (h : NamedTree fs.geo m dirs chains)
    (hparent : resolveParent fs.geo m path = .ok (d, name)) (hd : d ∈ dirs) (hx : listed fs.geo m d name = some x) (hdir : x.1.entry.isDirectory = false)
    (hat : FileAt fs.geo m dirs x.1.pos l rest)
    (hp : Published fs.geo m dirs x.1.pos [] rest 0 0 m') :
    Created fs m dirs path (newHandle fs.geo x.1) m' := by
  have hpath : pathParts path ≠ [] := by
    rw [(resolveParent_eq hparent).2]
    simp
  have hres : resolve fs.geo m path = .ok (some x.1) :=
    (resolve_iff hpath).mpr ⟨d, name, hparent, by rw [hx]; rfl⟩
  have hslot : x.1 = dirSlotAt m x.1.pos := (mem_listing (List.mem_of_find?_eq_some hx)).2.1
  have hstart : StartOf [] 0 := Nat.two_pos
  have hsize : (0 : Nat) ≤ ([] : List Nat).length * fs.geo.clusterSize := Nat.zero_le _
  have hempty : content fs.geo m' (entryAt m' x.1.pos) = [] := by
    rw [content, hp.fileSize, List.take_zero]
  refine ⟨⟨[], rest, hat.published_fileAt hp hstart hsize, ?_, rfl, rfl, hp.cluster.symm,
    hp.fileSize.symm, hempty.symm⟩, rfl, rfl, ⟨_, h.published hat hp hstart hsize⟩, ?_⟩
  · have hfound := (hat.published_refreshed hp).resolve_eq hat.tree hat.inside hpath
    rw [hres] at hfound
    exact hfound
  · intro other hother
    rw [comesBy, hparent] at hother
    have hne : resolve fs.geo m other ≠ .ok (some (dirSlotAt m x.1.pos)) := by
      rw [← hslot]
      exact h.resolve_ne hgeo.toValid hd hx hdir hother
    have hread := hat.readFile_published hgeo.toValid hp hstart (f := fun _ => []) rfl other
    refine ⟨hat.resolve_ne_published hp hne, ?_⟩
    rw [hread, if_neg hne]
    cases readFile fs m other <;> rfl

theorem created_of_put (hgeo : fs.geo.Sound) (h : NamedTree fs.geo m dirs chains)
    (hparent : resolveParent fs.geo m path = .ok (d, name)) (hd : d ∈ dirs)
    (hn83 : to83 name = some n83) (hx : listed fs.geo m d name = none)
    (hname : foldName (entryName (pendingLfn fs.geo m d) (Fat32Fs.fileEntry now n83)) = foldName name)
    (hput : EntryPut fs.geo m dirs d [] chains (Fat32Fs.fileEntry now n83) p m' rest') :
    Created fs m dirs path (newHandle fs.geo ⟨Fat32Fs.fileEntry now n83, p.1, p.2⟩) m' := by
  have hpath : pathParts path ≠ [] := by
    rw [(resolveParent_eq hparent).2]
    simp
  have hnew : ∀ y ∈ listing fs.geo m d, nameKey y ≠ foldName name := by
    rw [listed_eq_lookup] at hx
    exact Lib.KeyedList.lookup_eq_none.mp hx
  have hkey : ∀ y ∈ listing fs.geo m d, nameKey y ≠
      foldName (entryName (pendingLfn fs.geo m d) (Fat32Fs.fileEntry now n83)) := by
    rw [hname]
    exact hnew
  have hentry := puttable_fileEntry now hn83
  have hdir : (Fat32Fs.fileEntry now n83).isDirectory = false := by
    have hattr : (0x20 : UInt8) &&& FatDirEntry.attrDirectory = 0 := by decide
    simp [FatDirEntry.isDirectory, Fat32Fs.fileEntry, hattr]
  have hcluster : (Fat32Fs.fileEntry now n83).cluster = 0 := by
    simp [FatDirEntry.cluster, Fat32Fs.fileEntry]
  have hsize : (Fat32Fs.fileEntry now n83).fileSize = 0 := rfl
  have htree := h.nil_cons.created hd hentry hdir hcluster hsize hput (isHidden_of_to83 hn83 hname) hkey
  set line := (dirSlotAt m' p, entryName (pendingLfn fs.geo m d) (Fat32Fs.fileEntry now n83))
  have hline : line ∈ listing fs.geo m' d := hput.inserted.mem_here
  have hfile : line.1.entry.isFile = true :=
    FatDirEntry.isFile_of_listed (hput.alike.isListed.trans hentry.listed)
      (hput.alike.isDirectory.trans hdir)
  rcases htree.toWellFormedTree.fileAt hd hline hfile with ⟨l, rest, hat⟩
  have hempty : content fs.geo m' (entryAt m' p) = [] := by
    rw [content, hput.size]
    exact List.take_zero
  have hlisted : listed fs.geo m' d name = some line := by
    rw [listed_eq_lookup, hput.inserted.lookup_eq hkey]
    rw [← hname]
    exact Function.update_self _ _ _
  have hresolve : ∀ {other}, comesBy fs.geo m path other = false →
      resolve fs.geo m' other = resolve fs.geo m other := by
    intro other hother
    rw [comesBy, hparent] at hother
    apply hput.inserted.resolve_unmet h.toTree h.inside hkey
    exact (congrArg (fun key => meets _ _ _ key _ _) hname).trans hother
  refine ⟨⟨l, rest, hat, ?_, rfl, rfl, (hput.cluster.trans hcluster).symm,
    (hput.size.trans (congrArg (· % 2 ^ 32) hsize)).symm, hempty.symm⟩, rfl, rfl, ⟨_, htree⟩, fun other hother => ⟨?_, ?_⟩⟩
  · have hdirs := hput.inserted.resolveDirs_eq h.toTree h.inside hkey (Or.inr h.root)
      (resolveParent_eq hparent).1
    rw [resolve, if_neg hpath, (resolveParent_eq hparent).2, resolveParts_concat]
    exact ⟨d, hdirs, by rw [hlisted]; rfl⟩
  · intro hres
    have hother' : pathParts other ≠ [] := by
      intro hroot
      rw [resolve, if_pos hroot, Except.ok.injEq, Option.some.injEq] at hres
      have hslot : rootSlot fs.geo = line.1 := hres
      have hfalse := FatDirEntry.isDirectory_of_isFile hfile
      rw [← hslot, rootSlot_isDirectory] at hfalse
      cases hfalse
    rw [hresolve hother] at hres
    rcases resolve_entry h hother' hres with ⟨e, name', y, -, he, -, hy, hslot⟩
    have hy' : y ∈ listing fs.geo m' e := (hput.inserted.mem_iff he).mpr (Or.inl hy)
    rcases htree.toTree.line_unique hgeo.toValid he hd hy' hline (congrArg DirSlot.pos hslot) with
      ⟨rfl, rfl⟩
    exact hkey _ hy rfl
  · exact readFile_congr hgeo.toValid h.toTree h.inside (hresolve hother) fun e he y hy hyfile =>
      hput.content_eq h.nil_cons.toWellFormedTree hd he hy hyfile

variable (hgeo : fs.geo.Sound) (hfs : fs.geo.FsInfoReserved)
  (h : NamedTree fs.geo m dirs chains)

include hgeo hfs h

/-- `create` on a volume: an empty file and everything else as before, or nothing at all. -/
theorem create_spec (now : DosTime) (hproper : ProperParts path)
    (hshows : Creatable fs m path → ShowsName fs.geo m path) :
    wp disk (fun _ _ => True) (fun f m' => Creatable fs m path ∧ Created fs m dirs path f m')
      (fun e m' => m' = m ∧ (e = .notFound → NoParent fs m path))
      (fs.create now path) m := by
  rw [Fat32Fs.create, Fat32Fs.guardWrite]
  by_cases hreadOnly : fs.readOnly = true
  · rw [if_pos hreadOnly]
    exact ⟨rfl, fun he => by cases he⟩
  have hrw : fs.readOnly = false := by simpa using hreadOnly
  rw [if_neg hreadOnly, Prog.wp_bind, wp_parentCluster]
  cases hparent : resolveParent fs.geo m path with
  | error e =>
    refine ⟨rfl, ?_⟩
    rintro rfl
    exact ⟨hrw, hparent⟩
  | ok parent =>
    rcases parent with ⟨d, name⟩
    rcases resolveParent_eq hparent with ⟨hdirs, hparts⟩
    have hd : d ∈ dirs := by
      refine resolveDirs_proper h.toTree h.root (fun part hpart => hproper part ?_) hdirs
      exact List.dropLast_subset _ hpart
    dsimp only
    cases hn83 : to83 name with
    | none => exact ⟨rfl, fun he => by cases he⟩
    | some n83 =>
      dsimp only
      have h83 : to83 name ≠ none := by simp [hn83]
      rw [Prog.wp_bind, Fat32Fs.createSlot, Prog.wp_bind, wp_findInDir_listed]
      cases hx : listed fs.geo m d name with
      | none =>
        have hable : Creatable fs m path := ⟨hrw, d, name, hparent, h83, by simp [hx]⟩
        rcases hshows hable d name n83 hparent hn83 hx with ⟨hclean, hname⟩
        dsimp only [Option.map_none]
        have hshown : foldName (entryName (pendingLfn fs.geo m d) (Fat32Fs.fileEntry now n83)) =
            foldName name := hname
        rw [Prog.wp_bind]
        have hinsert := insertEntry_spec (G := fun _ _ => True)
          (E := fun e m' => m' = m ∧ (e = .notFound → NoParent fs m path))
          (Q := fun p m' => Creatable fs m path ∧ Created fs m dirs path
            (newHandle fs.geo ⟨Fat32Fs.fileEntry now n83, p.1, p.2⟩) m') hgeo hfs
          h.toTree.leaveNone hd hclean (puttable_fileEntry now hn83) (fun _ _ => trivial)
          ⟨rfl, fun he => by cases he⟩
          fun p m' rest' hput => ⟨hable, created_of_put hgeo h hparent hd hn83 hx hshown hput⟩
        refine Prog.wp_post hinsert (fun _ m₁ hput => ?_) fun _ _ he => he
        rw [Prog.wp_bind]
        exact Prog.wp_post hput (fun _ _ hcreated => hcreated) fun _ _ he => he
      | some x =>
        dsimp only [Option.map_some]
        by_cases hdir : x.1.entry.isDirectory = true
        · rw [if_pos hdir]
          exact ⟨rfl, fun he => by cases he⟩
        · rw [if_neg hdir]
          have hfile : x.1.entry.isDirectory = false := by simpa using hdir
          have hable : Creatable fs m path :=
            ⟨hrw, d, name, hparent, h83, fun y hy => Option.some.inj (hx.symm.trans hy) ▸ hfile⟩
          have htruncate := truncateEntry_spec (G := fun _ _ => True)
            (E := fun e m' => m' = m ∧ (e = .notFound → NoParent fs m path))
            (Q := fun _ m' => Creatable fs m path ∧
              Created fs m dirs path (newHandle fs.geo x.1) m')
            hgeo hfs h hd (List.mem_of_find?_eq_some hx) hfile now (fun _ _ => trivial)
            fun m' l rest hat hp =>
              ⟨hable, created_of_published hgeo h hparent hd hx hfile hat hp⟩
          rw [Prog.wp_bind] at htruncate ⊢
          refine Prog.wp_post htruncate (fun _ m₁ hset => ?_) fun _ _ he => he
          rw [Prog.wp_bind]
          exact Prog.wp_post hset (fun _ _ hcreated => hcreated) fun _ _ he => he

end Create

section Append

variable {u : FileUse} {data : List UInt8} {f : Fat32File} {result : Except FsError Nat}

/-- What writing at the end of a file leaves: the longer file, and all other paths as they were. -/
structure Appended (fs : Fat32Fs) (dirs : Set Nat) (path : Name) (u : FileUse) (data : List UInt8)
    (rest : List (List Nat)) (f : Fat32File) (result : Except FsError Nat) (m' : Memory) : Prop where
  coherent : ∀ n, result = .ok n → ∃ l, Coherent fs dirs path ⟨f, m'⟩ l rest
  data : ∀ n, result = .ok n → f.data = u.file.data ++ data
  position : ∀ n, result = .ok n → f.position = f.data.length
  others : ∀ other, resolve fs.geo u.memory other ≠ .ok (some (dirSlotAt u.memory u.file.slot.pos)) →
    readFile fs m' other = readFile fs u.memory other ∧
      ∀ n, result = .ok n → resolve fs.geo m' other ≠ .ok (some (dirSlotAt m' f.slot.pos))

theorem Coherent.append_spec (hgeo : fs.geo.Sound) (hfs : fs.geo.FsInfoReserved)
    (h : Coherent fs dirs path u l rest) (now : DosTime)
    (hend : u.file.position = u.file.data.length)
    (hlimit : u.file.data.length + data.length < 2 ^ 32) :
    wp disk (fun _ _ => True) (fun r m' => Appended fs dirs path u data rest r.1 r.2 m')
      (fun _ _ => False) (u.file.write now data) u.memory := by
  have hat := h.fileAt
  apply h.write_published hgeo hfs now (Nat.le_of_eq hend) (hend ▸ hlimit) (fun _ _ => trivial)
  · intro f n l' m hw
    refine ⟨nofun, nofun, nofun, fun other _ => ⟨?_, nofun⟩⟩
    apply hat.readFile_cut hgeo.toValid hfs hw.ext hw.frame hw.part (fun _ hk => hk)
    rw [hend, h.length]
  · intro l' start m' hs hle hpub hbytes
    have hdata : Fat32File.overlay u.file.data u.file.position data = u.file.data ++ data := by
      rw [hend]
      exact overlay_length _ _
    refine ⟨fun _ _ => ⟨l', h.published hs hle hpub rfl rfl rfl rfl rfl hbytes⟩, fun _ _ => hdata,
      fun _ _ => ?_, fun other hne => ⟨?_, fun _ _ => hat.resolve_ne_published hpub hne⟩⟩
    · dsimp only
      rw [hdata, List.length_append, hend]
    · have hread := hat.readFile_published hgeo.toValid hpub hs
        (f := fun _ => Fat32File.overlay u.file.data u.file.position data) hbytes other
      rw [hread, if_neg hne]
      cases readFile fs u.memory other <;> rfl

end Append

end Vibra.Fat32
