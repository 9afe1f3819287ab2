import Vibra.Fat32.SlotUpdate

/-! # Calls that change directories

What `create`, `mkdir`, `remove` and `rmdir` do to a tree with names: the directory of the
path gets one entry or loses one, and all other listings stay.
-/

namespace Vibra.Fat32

open Lib (Memory Prog Write LinkTable)
open Lib.Prog (wp)
open Lib.LinkTable (Partition)

variable {geo : Fat32Geo} {m m₁ m' : Memory} {dirs : Set Nat} {chains rest rest' : List (List Nat)}
  {d e : Nat} {x y : DirSlot × Name} {l : List Nat} {p : Nat × Nat} {path name : Name}
  {n83 : List UInt8}

theorem isValid83_ne {b : UInt8} (h : isValid83 b = true) : b ≠ 0x00 ∧ b ≠ 0xE5 ∧ b ≠ 0x2E := by
  refine ⟨?_, ?_, ?_⟩
  all_goals
    rintro rfl
    revert h
    decide

theorem to83_spec (h : to83 name = some n83) :
    n83.length = 11 ∧ n83.headD 0 ≠ 0x00 ∧ n83.headD 0 ≠ 0xE5 ∧ n83.headD 0 ≠ 0x2E := by
  rw [to83] at h
  split at h
  · cases h
  next hlen =>
    split at h
    · cases h
    next hvalid =>
      obtain rfl := Option.some.inj h
      simp only [not_or, not_lt] at hlen
      obtain ⟨hne, hbase, hext⟩ := hlen
      simp only [Bool.not_eq_true', not_or, Bool.not_eq_false, List.all_eq_true] at hvalid
      refine ⟨by simp; omega, ?_⟩
      cases hutf : utf8 (splitExt (name.map asciiUpper)).1 with
      | nil => exact absurd hutf hne
      | cons b bytes => exact isValid83_ne (hvalid.1 b (by rw [hutf]; exact List.mem_cons_self))

theorem asciiLower_eq_dot {c : Char} (h : asciiLower c = '.') : c = '.' := by
  unfold asciiLower at h
  split at h
  next hc =>
    have hlo : 65 ≤ c.toNat := hc.1
    have hhi : c.toNat ≤ 90 := hc.2
    have hupper : ∀ n < 26, Char.ofNat (65 + n + 32) ≠ '.' := by decide
    refine absurd ?_ (hupper (c.toNat - 65) (by omega))
    rwa [Nat.add_sub_cancel' hlo]
  next => exact h

theorem isHidden_of_to83 {other : Name} (h : to83 name = some n83)
    (hfold : foldName other = foldName name) : Fat32Fs.isHidden other = false := by
  have hdots : ∀ k, foldName name = List.replicate k '.' → name = List.replicate k '.' := by
    intro k hk
    have hlen : name.length = k := by
      have := congrArg List.length hk
      simpa [foldName] using this
    refine List.eq_replicate_iff.mpr ⟨hlen, fun c hc => asciiLower_eq_dot ?_⟩
    have hmem : asciiLower c ∈ foldName name := List.mem_map_of_mem hc
    rw [hk] at hmem
    exact List.eq_of_mem_replicate hmem
  have hk : ∀ k < 3, other ≠ List.replicate k '.' := by
    rintro k hk rfl
    have hname := hdots k (by rw [← hfold, foldName, List.map_replicate]; rfl)
    have hnone : ∀ k < 3, to83 (List.replicate k '.') = none := by decide
    rw [hname, hnone k hk] at h
    cases h
  have h0 : other ≠ [] := hk 0 (by decide)
  have h1 : other ≠ ['.'] := hk 1 (by decide)
  have h2 : other ≠ ['.', '.'] := hk 2 (by decide)
  simp [Fat32Fs.isHidden, h0, h1, h2]

/-! ## Paths -/

/-- The directory and the name of a path, on the listings. -/
def resolveParent (geo : Fat32Geo) (m : Memory) (path : Name) : Except FsError (Nat × Name) :=
  match (pathParts path).getLast? with
  | none => .error .invalidPath
  | some name => (resolveDirs geo m geo.rootCluster (pathParts path).dropLast).map (·, name)

theorem wp_parentCluster {G : Memory → Write Sector Origin → Prop} {E : FsError → Memory → Prop}
    {Q : Nat × Name → Memory → Prop} : wp disk G Q E (parentCluster geo path) m ↔
      match resolveParent geo m path with
      | .ok r => Q r m
      | .error e => E e m := by
  rw [parentCluster, resolveParent]
  cases (pathParts path).getLast? with
  | none => exact Iff.rfl
  | some name =>
    dsimp only
    rw [Prog.wp_bind, wp_enterDirs]
    cases resolveDirs geo m geo.rootCluster (pathParts path).dropLast <;> exact Iff.rfl

theorem resolveParent_eq (h : resolveParent geo m path = .ok (d, name)) :
    resolveDirs geo m geo.rootCluster (pathParts path).dropLast = .ok d ∧
      pathParts path = (pathParts path).dropLast ++ [name] := by
  rw [resolveParent] at h
  cases hlast : (pathParts path).getLast? with
  | none =>
    rw [hlast] at h
    cases h
  | some last =>
    rw [hlast] at h
    cases hdirs : resolveDirs geo m geo.rootCluster (pathParts path).dropLast with
    | error e =>
      rw [hdirs] at h
      cases h
    | ok e =>
      rw [hdirs] at h
      obtain ⟨rfl, rfl⟩ := Prod.mk.inj (Except.ok.inj h)
      refine ⟨rfl, ?_⟩
      obtain ⟨parts, hparts⟩ := List.getLast?_eq_some_iff.mp hlast
      rw [hparts, List.dropLast_concat]

theorem resolveDirs_mem (htree : Tree geo m dirs chains) (hdots : DotsInside geo m dirs)
    {parts : List Name} (hd : d < 2 ∨ d ∈ dirs) (h : resolveDirs geo m d parts = .ok e) :
    e < 2 ∨ e ∈ dirs := by
  induction parts generalizing d with
  | nil =>
    obtain rfl := Except.ok.inj h
    exact hd
  | cons part parts ih =>
    rw [resolveDirs] at h
    cases hfind : listed geo m d part with
    | none =>
      rw [hfind] at h
      cases h
    | some x =>
      rw [hfind] at h
      dsimp only at h
      split at h
      · cases h
      next hdir =>
        have hx : x ∈ listing geo m d := List.mem_of_find?_eq_some hfind
        have hdir : x.1.entry.isDirectory = true := by simpa using hdir
        refine ih ?_ h
        rcases hd with hd | hd
        · rw [listing_of_lt hd] at hx
          cases hx
        · cases hdot : x.1.entry.isDot with
          | true => exact (hdots d hd x hx hdot).2
          | false => exact Or.inr (htree.sub d hd x hx hdot hdir).1

theorem resolveParts_concat {parts : List Name} {slot : DirSlot} :
    resolveParts geo m d (parts ++ [name]) = .ok (some slot) ↔
      ∃ e, resolveDirs geo m d parts = .ok e ∧ (listed geo m e name).map Prod.fst = some slot := by
  induction parts generalizing d with
  | nil =>
    have hiff : (∃ e, (.ok d : Except FsError Nat) = .ok e ∧
        (listed geo m e name).map Prod.fst = some slot) ↔
        (listed geo m d name).map Prod.fst = some slot := by
      constructor
      · rintro ⟨e, he, h⟩
        cases he
        exact h
      · exact fun h => ⟨d, rfl, h⟩
    rw [List.nil_append, resolveParts, resolveDirs, hiff]
    cases listed geo m d name <;> simp
  | cons part parts ih =>
    rw [List.cons_append, resolveParts, resolveDirs]
    cases listed geo m d part with
    | none => simp
    | some x =>
      dsimp only
      rw [if_neg (by simp)]
      cases x.1.entry.isDirectory with
      | false => simp
      | true => exact ih

theorem resolve_iff (hpath : pathParts path ≠ []) {slot : DirSlot} :
    resolve geo m path = .ok (some slot) ↔
      ∃ e name, resolveParent geo m path = .ok (e, name) ∧
        (listed geo m e name).map Prod.fst = some slot := by
  obtain ⟨last, hlast⟩ : ∃ last, (pathParts path).getLast? = some last :=
    ⟨_, List.getLast?_eq_some_getLast hpath⟩
  obtain ⟨parts, hparts⟩ := List.getLast?_eq_some_iff.mp hlast
  rw [resolve, if_neg hpath, resolveParent, hlast]
  dsimp only
  rw [hparts, List.dropLast_concat, resolveParts_concat]
  cases resolveDirs geo m geo.rootCluster parts with
  | error e => simp [Except.map]
  | ok e => simp [Except.map]

theorem Inserted.listed_eq (h : Inserted geo m dirs d x m') (he : e ∈ dirs)
    (hkey : ∀ y ∈ listing geo m d, nameKey y ≠ nameKey x) (hfind : listed geo m e name = some y) :
    listed geo m' e name = some y := by
  by_cases hed : e = d
  · subst hed
    rw [listed_eq_lookup] at hfind ⊢
    rw [h.lookup_eq hkey, Function.update_of_ne, hfind]
    intro heq
    have hy : nameKey y = foldName name := by simpa using List.find?_some hfind
    exact hkey y (List.mem_of_find?_eq_some hfind) (hy.trans heq)
  · rw [listed, h.other e he hed]
    exact hfind

theorem Inserted.resolveDirs_eq (h : Inserted geo m dirs d x m') (htree : Tree geo m dirs chains)
    (hdots : DotsInside geo m dirs) (hkey : ∀ y ∈ listing geo m d, nameKey y ≠ nameKey x)
    {parts : List Name} {a : Nat} (ha : a < 2 ∨ a ∈ dirs)
    (hres : resolveDirs geo m a parts = .ok e) : resolveDirs geo m' a parts = .ok e := by
  induction parts generalizing a with
  | nil => exact hres
  | cons part parts ih =>
    rw [resolveDirs] at hres ⊢
    cases hfind : listed geo m a part with
    | none =>
      rw [hfind] at hres
      cases hres
    | some y =>
      have hy : y ∈ listing geo m a := List.mem_of_find?_eq_some hfind
      rcases ha with ha | ha
      · rw [listing_of_lt ha] at hy
        cases hy
      · rw [h.listed_eq ha hkey hfind]
        rw [hfind] at hres
        dsimp only at hres ⊢
        split at hres
        · cases hres
        next hdir =>
          have hdir : y.1.entry.isDirectory = true := by simpa using hdir
          rw [if_neg (by simp [hdir])]
          refine ih ?_ hres
          cases hdot : y.1.entry.isDot with
          | true => exact (hdots a ha y hy hdot).2
          | false => exact Or.inr (htree.sub a ha y hy hdot hdir).1

theorem FatDirEntry.Alike.isListed {entry entry' : FatDirEntry} (h : entry.Alike entry') :
    entry'.isListed = entry.isListed := by
  rw [FatDirEntry.isListed, FatDirEntry.isListed, h.isFree, h.isLongName, h.2]

/-- An entry that the driver can put into a slot: with a name in 8.3 form, listed, and with
a cluster number of 32 bits. -/
structure FatDirEntry.Puttable (entry : FatDirEntry) : Prop where
  name : entry.name.length = 11
  listed : entry.isListed = true
  dot : entry.isDot = false
  high : entry.firstClusterHigh < 2 ^ 16
  low : entry.firstClusterLow < 2 ^ 16

theorem FatDirEntry.isListed_of_attributes {entry : FatDirEntry} (hzero : entry.firstByte ≠ 0x00)
    (hdeleted : entry.firstByte ≠ 0xE5)
    (hattr : entry.attributes = 0x20 ∨ entry.attributes = attrDirectory) :
    entry.isListed = true := by
  have hfree : entry.isFree = false := by
    simp only [isFree, Bool.or_eq_false_iff, decide_eq_false_iff_not]
    exact ⟨hzero, hdeleted⟩
  rw [isListed, hfree, isLongName]
  rcases hattr with hattr | hattr
  all_goals
    rw [hattr]
    decide

theorem puttable_of_to83 {entry : FatDirEntry} (h : to83 name = some n83) (hname : entry.name = n83)
    (hattr : entry.attributes = 0x20 ∨ entry.attributes = FatDirEntry.attrDirectory)
    (hhigh : entry.firstClusterHigh < 2 ^ 16) (hlow : entry.firstClusterLow < 2 ^ 16) :
    entry.Puttable := by
  obtain ⟨hlen, hzero, hdeleted, hdot⟩ := to83_spec h
  refine ⟨hname ▸ hlen, FatDirEntry.isListed_of_attributes ?_ ?_ hattr, ?_, hhigh, hlow⟩
  · rwa [FatDirEntry.firstByte, hname]
  · rwa [FatDirEntry.firstByte, hname]
  · rw [FatDirEntry.isDot, hname]
    have hne : ∀ b bytes, b = (0x2E : UInt8) → n83 ≠ b :: bytes := by
      rintro b bytes rfl rfl
      exact hdot rfl
    simp [Fat32Fs.dotName, Fat32Fs.dotdotName, hne]

theorem puttable_fileEntry (now : DosTime) (h : to83 name = some n83) :
    (Fat32Fs.fileEntry now n83).Puttable :=
  puttable_of_to83 h rfl (Or.inl rfl) (Nat.two_pow_pos 16) (Nat.two_pow_pos 16)

structure EntryPut (geo : Fat32Geo) (m : Memory) (dirs : Set Nat) (d : Nat) (l : List Nat)
    (rest : List (List Nat)) (entry : FatDirEntry) (p : Nat × Nat) (m' : Memory)
    (rest' : List (List Nat)) : Prop where
  but : TreeBut geo m' dirs p l rest'
  inserted : Inserted geo m dirs d (dirSlotAt m' p, entryName (pendingLfn geo m d) entry) m'
  alike : entry.Alike (entryAt m' p)
  cluster : (entryAt m' p).cluster = entry.cluster
  size : (entryAt m' p).fileSize = entry.fileSize % 2 ^ 32
  kept : ∀ k ∈ l :: rest, k.head? ≠ some d → k ∈ l :: rest' ∧ ∀ c ∈ k, SameCluster geo m m' c

theorem entryPut_of_freeSlot (hgeo : geo.Sound) (hd : d ∈ dirs) {entry : FatDirEntry}
    (he : entry.Puttable) (h : FreeSlot geo m dirs d l rest p m₁ rest') :
    EntryPut geo m dirs d l rest entry p (m₁.put (slotAddr p) entry.bytes) rest' := by
  obtain ⟨pre, post, ha, hfree, hpending, hbehind⟩ := h.around
  have hchange : SlotChange m₁ p (m₁.put (slotAddr p) entry.bytes) :=
    slotChange_put (Nat.le_of_eq (FatDirEntry.length_bytes he.name))
  have halike : entry.Alike (entryAt (m₁.put (slotAddr p) entry.bytes) p) := by
    rw [entryAt_put]
    exact ⟨FatDirEntry.ofBytes_put_name he.name, FatDirEntry.ofBytes_put_attributes he.name⟩
  obtain ⟨hbut, hins⟩ := h.but.fill hgeo hd ha hfree hpending hbehind hchange
    (halike.isListed.trans he.listed)
  rw [halike.entryName] at hins
  refine ⟨hbut, ⟨?_, fun e he hed => ?_⟩, halike, ?_, ?_, fun k hk hhead => ?_⟩
  · rw [← h.list d hd]
    exact hins.here
  · rw [hins.other e he hed, h.list e he]
  · rw [entryAt_put]
    exact FatDirEntry.ofBytes_put_cluster he.name he.high he.low
  · rw [entryAt_put]
    exact FatDirEntry.ofBytes_put_size he.name
  · obtain ⟨hmem, hsame⟩ := h.kept k hk hhead
    have hp : p ∈ dirSlots geo (chainOf geo m₁ d) := by
      rw [ha.eq]
      simp
    have hsame' := (h.but.slotChange hgeo hd hp hchange).2.2 k hmem hhead
    exact ⟨hmem, fun c hc i hi => (hsame' c hc i hi).trans (hsame c hc i hi)⟩

theorem insertEntry_spec {G : Memory → Write Sector Origin → Prop} {E : FsError → Memory → Prop}
    {Q : Nat × Nat → Memory → Prop} (hgeo : geo.Sound) (hfs : geo.FsInfoReserved)
    (h : ∀ p, TreeBut geo m dirs p l rest) (hd : d ∈ dirs) (hclean : CleanEnd geo m d)
    {entry : FatDirEntry} (he : entry.Puttable) (hG : ∀ m w, G m w) (hfull : E .diskFull m)
    (hQ : ∀ p m' rest', EntryPut geo m dirs d l rest entry p m' rest' → Q p m') :
    wp disk G (fun p m' => wp disk G (fun _ m' => Q p m') E (putEntry p.1 p.2 entry) m') E
      (findFreeSlot geo d) m := by
  refine findFreeSlot_tree hgeo hfs h hd hclean hG hfull fun p m₁ rest' hslot => ?_
  have hput := entryPut_of_freeSlot hgeo hd he hslot
  obtain ⟨pre, post, ha, -⟩ := hslot.around
  exact putEntry_spec he.name (mem_slotOffsets ha.offset).2 (fun w _ _ => hG m₁ w)
    (hQ p _ rest' hput)

theorem chainOf_kept (hpart : Partition (links geo m) geo.InRange chains)
    (hpart' : Partition (links geo m') geo.InRange rest) {c : Nat}
    (hc : c < 2 ∨ ∃ k ∈ chains, k ∈ rest ∧ k.head? = some c) :
    chainOf geo m' c = chainOf geo m c := by
  rcases hc with hlt | ⟨k, hk, hk', hhead⟩
  · rw [chainOf, chainOf, if_pos hlt, if_pos hlt]
  · cases k with
    | nil => cases hhead
    | cons a k =>
      obtain rfl : a = c := by simpa using hhead
      rw [chainOf_eq hpart hk, chainOf_eq hpart' hk']

theorem entry_of_pos (hy : y ∈ listing geo m' e) (hpos : y.1.pos = p) :
    y.1.entry = entryAt m' p := by
  obtain ⟨-, hy', -⟩ := mem_listing hy
  rw [hy', hpos, dirSlotAt_entry]

theorem EntryPut.file_chain {entry : FatDirEntry} (htree : WellFormedTree geo m dirs (l :: rest))
    (hd : d ∈ dirs) (h : EntryPut geo m dirs d l rest entry p m' rest') (he : e ∈ dirs)
    (hy : y ∈ listing geo m e) (hfile : y.1.entry.isFile = true) :
    chainOf geo m' y.1.entry.cluster = chainOf geo m y.1.entry.cluster := by
  refine chainOf_kept htree.part h.but.part ?_
  refine (htree.file e he y hy (htree.inside.not_dot he hy hfile)
    (FatDirEntry.isDirectory_of_isFile hfile)).imp_right fun ⟨hnot, k, hk, hhead⟩ =>
      ⟨k, hk, (h.kept k hk ?_).1, hhead⟩
  rw [hhead]
  intro heq
  exact hnot (Option.some.inj heq ▸ hd)

theorem NamedTree.created (h : NamedTree geo m dirs ([] :: chains)) (hd : d ∈ dirs) {entry : FatDirEntry}
    (hentry : entry.Puttable) (hdir : entry.isDirectory = false) (hcluster : entry.cluster = 0)
    (hsize : entry.fileSize = 0) (hp : EntryPut geo m dirs d [] chains entry p m' rest')
    (hshown : Fat32Fs.isHidden (entryName (pendingLfn geo m d) entry) = false)
    (hkey : ∀ y ∈ listing geo m d, nameKey y ≠ foldName (entryName (pendingLfn geo m d) entry)) :
    NamedTree geo m' dirs ([] :: rest') := by
  have hdot : (entryAt m' p).isDot = false := hp.alike.isDot.trans hentry.dot
  have htree : Tree geo m' dirs ([] :: rest') := by
    refine hp.but.putFile fun e he y hy hpos => ?_
    rw [entry_of_pos hy hpos]
    refine ⟨hdot, hp.alike.isDirectory.trans hdir, ?_⟩
    show (entryAt m' p).cluster < 2
    rw [hp.cluster, hcluster]
    exact Nat.two_pos
  have hnamed : Named geo m' dirs := h.named.addEntry hp.inserted hdot hshown hkey
  refine ⟨⟨htree, hnamed.inside, fun e he y hy hfile => ?_⟩, hnamed⟩
  rcases (hp.inserted.mem_iff he).mp hy with hold | ⟨-, rfl⟩
  · rw [hp.file_chain h.toWellFormedTree hd he hold hfile]
    exact h.fits e he y hold hfile
  · rw [dirSlotAt_entry, hp.size, hsize]
    exact Nat.zero_le _

section Erase

variable {G : Memory → Write Sector Origin → Prop} {E : FsError → Memory → Prop}
  {Q : Unit → Memory → Prop}

theorem freeChain_tree (hgeo : geo.Sound) (hfs : geo.FsInfoReserved)
    (h : TreeBut geo m dirs p l rest) {start : Nat} (hs : StartOf l start) (hG : ∀ m w, G m w)
    (hQ : ∀ m₁, SameData geo m m₁ → TreeBut geo m₁ dirs p [] rest →
      (∀ e ∈ dirs, listing geo m₁ e = listing geo m e) → Q () m₁) :
    wp disk G Q E (freeChain geo start) m := by
  rw [freeChain, Prog.wp_bind, wp_chain, chainOf_startOf h.part hs]
  refine freeClusters_spec hgeo (fun c hc => (h.part.dom_of_mem List.mem_cons_self hc).2)
    (fun m w _ => hG m w) fun m₁ hframe hlinks => ?_
  have hfree : Partition (fun c => if c ∈ l then .free else links geo m c) geo.InRange rest :=
    h.part.free (fun c hc => if_pos hc) fun c hc => if_neg hc
  have hpart : Partition (links geo m₁) geo.InRange ([] :: rest) :=
    LinkTable.Partition.nil_cons.mpr (hfree.congr fun c hc => hlinks c hc.2)
  have hsame : ∀ k ∈ rest, ∀ c ∈ k, SameCluster geo m m₁ c := fun k _ c _ i _ =>
    hframe.data _ (clusterAddr_not_inFat hgeo.toValid c i)
      (clusterAddr_not_inFsInfo hgeo.toValid hfs c i)
  exact hQ m₁ hframe.data (h.spared hgeo.toValid hpart (fun _ hk => hk) hsame) fun e he =>
    (h.listing_eq hgeo.toValid hpart (fun k hk => List.mem_cons_of_mem _ hk) hsame he).2

/-- The directory `d` has lost the entry `x`, and its chain is free. -/
structure Erased (geo : Fat32Geo) (m : Memory) (dirs : Set Nat) (d : Nat) (x : DirSlot × Name)
    (rest : List (List Nat)) (m' : Memory) : Prop where
  part : Partition (links geo m') geo.InRange ([] :: rest)
  inserted : Inserted geo m' dirs d x m
  kept : ∀ k ∈ rest, k.head? ≠ some d → ∀ c ∈ k, SameCluster geo m m' c

theorem firstByte_deleted (m : Memory) (p : Nat × Nat) :
    (entryAt (m.put (slotAddr p) [0xE5]) p).firstByte = 0xE5 := by
  rw [FatDirEntry.firstByte_entryAt]
  exact Memory.put_add (i := 0) (by simp)

theorem eraseEntry_spec (hgeo : geo.Sound) (hfs : geo.FsInfoReserved)
    (h : NamedTree geo m dirs chains) {dirs' : Set Nat} (hsub : dirs' ⊆ dirs)
    (hbut : TreeBut geo m dirs' x.1.pos l rest) (hs : StartOf l x.1.entry.cluster)
    (hd : d ∈ dirs') (hx : x ∈ listing geo m d) (hcluster : x.1.entry.cluster ∉ dirs')
    (hgone : ∀ e ∈ dirs, e ∉ dirs' → ∀ y ∈ listing geo m e, y.1.entry.isDot = true)
    (hG : ∀ m w, G m w)
    (hQ : ∀ m', NamedTree geo m' dirs' ([] :: rest) → Erased geo m dirs' d x rest m' → Q () m') :
    wp disk G Q E (do
      freeChain geo x.1.entry.cluster
      deleteEntry x.1) m := by
  rw [Prog.wp_bind]
  refine freeChain_tree hgeo hfs hbut hs hG fun m₁ hdata hbut₁ hlist => ?_
  have hx₁ : x ∈ listing geo m₁ d := by rwa [hlist d hd]
  have hp := (mem_listing hx₁).1
  have hchange : SlotChange m₁ x.1.pos (m₁.put (slotAddr x.1.pos) [0xE5]) :=
    slotChange_put (by simp)
  have hbyte := firstByte_deleted m₁ x.1.pos
  obtain ⟨hbut₂, hins, hgone₂⟩ := hbut₁.erase hgeo hd hx₁ rfl hchange
    (by rw [FatDirEntry.isEnd, hbyte]; rfl) (by rw [FatDirEntry.isFree, hbyte]; rfl)
  have hins₂ : Inserted geo (m₁.put (slotAddr x.1.pos) [0xE5]) dirs' d x m := by
    refine ⟨?_, fun e he hed => (hlist e he).symm.trans (hins.other e he hed)⟩
    rw [← hlist d hd]
    exact hins.here
  refine deleteEntry_spec (mem_slotOffsets (offsets_dirSlots _ hp)).2 (fun w _ _ => hG m₁ w)
    (hQ _ ?_ ⟨hbut₂.part, hins₂, fun k hk hhead c hc i hi => ?_⟩)
  · have hnamed := h.named.dropEntry hsub hins₂ hcluster hgone
    have htree := hbut₂.putFile fun e he y hy hpos => absurd hpos (hgone₂ e he y hy)
    refine ⟨⟨htree, hnamed.inside, fun e he y hy hfile => ?_⟩, hnamed⟩
    have hold : y ∈ listing geo m e := (hins₂.mem_iff he).mpr (Or.inl hy)
    have hkept : chainOf geo (m₁.put (slotAddr x.1.pos) [0xE5]) y.1.entry.cluster =
        chainOf geo m y.1.entry.cluster := by
      refine chainOf_kept hbut.part hbut₂.part ?_
      refine (hbut.file e he y hold (hgone₂ e he y hy)
        (h.inside.not_dot (hsub he) hold hfile)
        (FatDirEntry.isDirectory_of_isFile hfile)).imp_right ?_
      rintro ⟨_, k, hk, hhead⟩
      exact ⟨k, List.mem_cons_of_mem _ hk, List.mem_cons_of_mem _ hk, hhead⟩
    rw [hkept]
    exact h.fits e (hsub he) y hold hfile
  · rw [(hbut₁.slotChange hgeo hd hp hchange).2.2 k (List.mem_cons_of_mem _ hk) hhead c hc i hi]
    exact hdata _ (clusterAddr_not_inFat hgeo.toValid c i)
      (clusterAddr_not_inFsInfo hgeo.toValid hfs c i)

end Erase

theorem FatDirEntry.isFile_of_listed {entry : FatDirEntry} (h : entry.isListed = true)
    (hdir : entry.isDirectory = false) : entry.isFile = true := by
  simp only [isListed, Bool.and_eq_true, decide_eq_true_eq] at h
  rw [isFile, hdir, h.2]
  rfl

theorem NamedTree.published (h : NamedTree geo m dirs chains) {l₀ : List Nat} {start size : Nat}
    (hat : FileAt geo m dirs p l₀ rest) (hp : Published geo m dirs p l rest start size m')
    (hs : StartOf l start) (hsize : size ≤ l.length * geo.clusterSize) :
    NamedTree geo m' dirs (l :: rest) := by
  have hat' := hat.published_fileAt hp hs hsize
  refine ⟨⟨hat'.tree, hat'.inside, fun e he y hy hfile => ?_⟩,
    h.named.refreshed h.toTree (hat.published_refreshed hp)⟩
  by_cases hpos : y.1.pos = p
  · rw [entry_of_pos hy hpos, chainOf_startOf hp.part hat'.start]
    exact hat'.size
  · have hold := hat.published_listing hp he hy hpos
    have hdot := h.inside.not_dot he hold hfile
    have hdir := FatDirEntry.isDirectory_of_isFile hfile
    have hkept : chainOf geo m' y.1.entry.cluster = chainOf geo m y.1.entry.cluster := by
      refine chainOf_kept hat.part hp.part ?_
      exact (hat.file e he y hold hpos hdot hdir).imp_right fun ⟨_, k, hk, hhead⟩ =>
        ⟨k, List.mem_cons_of_mem _ hk, List.mem_cons_of_mem _ hk, hhead⟩
    rw [hkept]
    exact h.fits e he y hold hfile

theorem truncateEntry_spec {G : Memory → Write Sector Origin → Prop} {E : FsError → Memory → Prop}
    {Q : Unit → Memory → Prop} (hgeo : geo.Sound) (hfs : geo.FsInfoReserved)
    (h : NamedTree geo m dirs chains) (hd : d ∈ dirs) (hx : x ∈ listing geo m d)
    (hdir : x.1.entry.isDirectory = false) (now : DosTime) (hG : ∀ m w, G m w)
    (hQ : ∀ m' l rest, FileAt geo m dirs x.1.pos l rest →
      Published geo m dirs x.1.pos [] rest 0 0 m' → Q () m') :
    wp disk G Q E (do
      freeChain geo x.1.entry.cluster
      setEntry now x.1 0 0) m := by
  obtain ⟨hq, hx', hlisted⟩ := mem_listing hx
  have hentry : x.1.entry = entryAt m x.1.pos := congrArg DirSlot.entry hx'
  obtain ⟨l, rest, hat⟩ := h.toWellFormedTree.fileAt hd hx
    (FatDirEntry.isFile_of_listed (hentry ▸ hlisted) hdir)
  rw [Prog.wp_bind]
  refine freeChain_tree hgeo hfs hat.toTreeBut (hentry ▸ hat.start) hG fun m₁ hdata hbut _ => ?_
  have hw : WrittenAt geo m [] 0 0 m₁ := fun a hf hi _ => hdata a hf hi
  have hp := (hat.published now hgeo hfs hw hbut.part Nat.two_pos
    (Nat.two_pow_pos 32)).1
  exact setEntry_spec (mem_slotOffsets (offsets_dirSlots _ hq)).2 (fun w _ _ => hG m₁ w)
    (hQ _ l rest hat hp)

end Vibra.Fat32
