import Vibra.Fat32.Content

/-! # Changing one entry of a tree

A call takes the chain of one entry away from the tree, works on it, and puts an
entry with the new chain back. `TreeBut` is the tree in between.
-/

namespace Vibra.Fat32

open Lib (Memory LinkTable)
open Lib.LinkTable (Partition)

variable {geo : Fat32Geo} {m m' : Memory} {dirs : Set Nat} {chains rest rest' : List (List Nat)}
  {l l' : List Nat} {p : Nat × Nat}

/-- A tree in which the entry at `p` is left out; no other entry has the chain `l`. -/
structure TreeBut (geo : Fat32Geo) (m : Memory) (dirs : Set Nat) (p : Nat × Nat) (l : List Nat)
    (rest : List (List Nat)) : Prop where
  part : Partition (links geo m) geo.InRange (l :: rest)
  root : geo.rootCluster ∈ dirs
  dir : ∀ d ∈ dirs, ∃ k ∈ rest, k.head? = some d
  sub : ∀ d ∈ dirs, ∀ x ∈ listing geo m d, x.1.pos ≠ p → x.1.entry.isDot = false →
    x.1.entry.isDirectory = true → x.1.entry.cluster ∈ dirs ∧ x.1.entry.cluster ≠ geo.rootCluster
  file : ∀ d ∈ dirs, ∀ x ∈ listing geo m d, x.1.pos ≠ p → x.1.entry.isDot = false →
    x.1.entry.isDirectory = false → x.1.entry.cluster < 2 ∨
      x.1.entry.cluster ∉ dirs ∧ ∃ k ∈ rest, k.head? = some x.1.entry.cluster
  once : ∀ d ∈ dirs, ∀ x ∈ listing geo m d, ∀ d' ∈ dirs, ∀ y ∈ listing geo m d',
    x.1.pos ≠ p → y.1.pos ≠ p → x.1.entry.isDot = false → y.1.entry.isDot = false →
    2 ≤ x.1.entry.cluster → x.1.entry.cluster = y.1.entry.cluster → x.1.pos = y.1.pos
  dots : ∀ d ∈ dirs, ∀ x ∈ listing geo m d, x.1.pos ≠ p → x.1.entry.isDot = true →
    x.2 = ['.'] ∨ x.2 = ['.', '.']

theorem ne_of_head {k l : List Nat} {c d : Nat} (hk : k.head? = some c) (hl : l.head? = some d)
    (hne : c ≠ d) : k ≠ l := by
  rintro rfl
  rw [hk] at hl
  exact hne (Option.some.inj hl)

theorem startOf_head {c : Nat} (h : l.head? = some c) : StartOf l c := by
  cases l with
  | nil => cases h
  | cons a l => exact (Option.some.inj h).symm

theorem StartOf.head {c : Nat} (h : StartOf l c) (hc : 2 ≤ c) : l.head? = some c := by
  cases l with
  | nil =>
    have hlt : c < 2 := h
    omega
  | cons a l => exact congrArg some (Eq.symm h)

namespace Tree

variable (h : Tree geo m dirs chains)

include h

theorem leaveNone (p : Nat × Nat) : TreeBut geo m dirs p [] chains where
  part := LinkTable.Partition.nil_cons.mpr h.part
  root := h.root
  dir := h.dir
  sub d hd x hx _ := h.sub d hd x hx
  file d hd x hx _ := h.file d hd x hx
  once d hd x hx d' hd' y hy _ _ := h.once d hd x hx d' hd' y hy
  dots d hd x hx _ := h.dots d hd x hx

theorem leave {dirs' : Set Nat} (hsub : dirs' ⊆ dirs) (hroot : geo.rootCluster ∈ dirs')
    (hl : l ∈ chains) {c : Nat} (hhead : l.head? = some c) (hc : c ∉ dirs')
    (hdirs : ∀ d ∈ dirs, d ≠ c → d ∈ dirs')
    (honly : ∀ d ∈ dirs, ∀ x ∈ listing geo m d, x.1.pos ≠ p → x.1.entry.isDot = false →
      x.1.entry.cluster ≠ c) :
    TreeBut geo m dirs' p l (chains.erase l) where
  part := h.part.perm (List.perm_cons_erase hl)
  root := hroot
  dir d hd := by
    obtain ⟨k, hk, hkhead⟩ := h.dir d (hsub hd)
    exact ⟨k, (List.mem_erase_of_ne (ne_of_head hkhead hhead (ne_of_mem_of_not_mem hd hc))).mpr hk,
      hkhead⟩
  sub d hd x hx hpos hdot hdir := by
    obtain ⟨hin, hne⟩ := h.sub d (hsub hd) x hx hdot hdir
    exact ⟨hdirs _ hin (honly d (hsub hd) x hx hpos hdot), hne⟩
  file d hd x hx hpos hdot hfile := by
    refine (h.file d (hsub hd) x hx hdot hfile).imp_right fun ⟨hnot, k, hk, hkhead⟩ => ?_
    have hne := honly d (hsub hd) x hx hpos hdot
    exact ⟨fun hin => hnot (hsub hin), k, (List.mem_erase_of_ne (ne_of_head hkhead hhead hne)).mpr hk,
      hkhead⟩
  once d hd x hx d' hd' y hy _ _ := h.once d (hsub hd) x hx d' (hsub hd') y hy
  dots d hd x hx _ := h.dots d (hsub hd) x hx

theorem leaveFile {d : Nat} (hd : d ∈ dirs) {x : DirSlot × Name} (hx : x ∈ listing geo m d)
    (hdot : x.1.entry.isDot = false) (hfile : x.1.entry.isDirectory = false) :
    ∃ l rest, StartOf l x.1.entry.cluster ∧ TreeBut geo m dirs x.1.pos l rest ∧
      (∀ k ∈ rest, k ∈ chains) := by
  rcases h.file d hd x hx hdot hfile with hlt | ⟨hnot, l, hl, hhead⟩
  · exact ⟨[], chains, hlt, h.leaveNone _, fun _ hk => hk⟩
  · have h2 : 2 ≤ x.1.entry.cluster := (h.inRange hl (List.mem_of_mem_head? hhead)).1
    refine ⟨l, chains.erase l, startOf_head hhead,
      h.leave (fun _ hd => hd) h.root hl hhead hnot (fun _ hd _ => hd) ?_, fun k hk =>
        List.mem_of_mem_erase hk⟩
    intro d' hd' y hy hpos hdot' heq
    exact hpos (h.once d' hd' y hy d hd x hx hdot' hdot (by rwa [heq]) heq)

theorem leaveDir {d : Nat} (hd : d ∈ dirs) {x : DirSlot × Name} (hx : x ∈ listing geo m d)
    (hdot : x.1.entry.isDot = false) (hdir : x.1.entry.isDirectory = true) :
    ∃ l rest, l.head? = some x.1.entry.cluster ∧
      TreeBut geo m (dirs \ {x.1.entry.cluster}) x.1.pos l rest := by
  obtain ⟨hin, hne⟩ := h.sub d hd x hx hdot hdir
  obtain ⟨l, hl, hhead⟩ := h.dir _ hin
  have h2 : 2 ≤ x.1.entry.cluster := (h.inRange hl (List.mem_of_mem_head? hhead)).1
  refine ⟨l, chains.erase l, hhead, h.leave Set.sdiff_subset ⟨h.root, Ne.symm hne⟩ hl hhead
    (fun hc => hc.2 rfl) (fun d hd hne => ⟨hd, hne⟩) ?_⟩
  intro d' hd' y hy hpos hdot' heq
  exact hpos (h.once d' hd' y hy d hd x hx hdot' hdot (by rwa [heq]) heq)

end Tree

/-! ## The tree without the entry -/

namespace TreeBut

variable (h : TreeBut geo m dirs p l rest)

include h

theorem inRange {k : List Nat} (hk : k ∈ rest) {c : Nat} (hc : c ∈ k) : geo.InRange c :=
  h.part.dom_of_mem (List.mem_cons_of_mem _ hk) hc

theorem not_mem {k : List Nat} (hk : k ∈ rest) {c : Nat} (hc : c ∈ k) : c ∉ l := by
  intro hcl
  obtain ⟨-, -, hdisj⟩ := List.nodup_append.mp h.part.nodup
  exact hdisj c hcl c (List.mem_flatten.mpr ⟨k, hk, hc⟩) rfl

theorem dir_chain {d : Nat} (hd : d ∈ dirs) :
    ∃ k ∈ rest, k.head? = some d ∧ chainOf geo m d = k := by
  obtain ⟨k, hk, hhead⟩ := h.dir d hd
  refine ⟨k, hk, hhead, ?_⟩
  cases k with
  | nil => cases hhead
  | cons c k =>
    obtain rfl : c = d := by simpa using hhead
    exact chainOf_eq h.part (List.mem_cons_of_mem _ hk)

theorem relist (hpart : Partition (links geo m') geo.InRange (l' :: rest'))
    (hheads : ∀ k ∈ rest, ∀ c, k.head? = some c → ∃ k' ∈ rest', k'.head? = some c)
    (hlist : ∀ d ∈ dirs, ∀ y ∈ listing geo m' d, y.1.pos ≠ p → y ∈ listing geo m d) :
    TreeBut geo m' dirs p l' rest' where
  part := hpart
  root := h.root
  dir d hd := by
    obtain ⟨k, hk, hhead⟩ := h.dir d hd
    exact hheads k hk d hhead
  sub d hd x hx hpos := h.sub d hd x (hlist d hd x hx hpos) hpos
  file d hd x hx hpos hdot hfile :=
    (h.file d hd x (hlist d hd x hx hpos) hpos hdot hfile).imp_right
      fun ⟨hnot, k, hk, hhead⟩ => ⟨hnot, hheads k hk _ hhead⟩
  once d hd x hx d' hd' y hy hpos hpos' :=
    h.once d hd x (hlist d hd x hx hpos) d' hd' y (hlist d' hd' y hy hpos') hpos hpos'
  dots d hd x hx hpos := h.dots d hd x (hlist d hd x hx hpos) hpos

theorem cluster_ne {d : Nat} (hd : d ∈ dirs) {x : DirSlot × Name} (hx : x ∈ listing geo m d)
    (hpos : x.1.pos ≠ p) (hdot : x.1.entry.isDot = false) {c : Nat} (hhead : l.head? = some c) :
    x.1.entry.cluster ≠ c := by
  intro heq
  have hcl : c ∈ l := List.mem_of_mem_head? hhead
  have hk : ∃ k ∈ rest, k.head? = some c := by
    cases hdir : x.1.entry.isDirectory with
    | true => exact heq ▸ h.dir _ (h.sub d hd x hx hpos hdot hdir).1
    | false =>
      have h2 : 2 ≤ c := (h.part.dom_of_mem List.mem_cons_self hcl).1
      exact heq ▸ ((h.file d hd x hx hpos hdot hdir).resolve_left (by omega)).2
  obtain ⟨k, hk, hkhead⟩ := hk
  exact h.not_mem hk (List.mem_of_mem_head? hkhead) hcl

theorem once_put (hp : ∀ d ∈ dirs, ∀ x ∈ listing geo m d, x.1.pos = p → StartOf l x.1.entry.cluster) :
    ∀ d ∈ dirs, ∀ x ∈ listing geo m d, ∀ d' ∈ dirs, ∀ y ∈ listing geo m d',
      x.1.entry.isDot = false → y.1.entry.isDot = false → 2 ≤ x.1.entry.cluster →
      x.1.entry.cluster = y.1.entry.cluster → x.1.pos = y.1.pos := by
  intro d hd x hx d' hd' y hy hdot hdot' h2 heq
  by_cases hpos : x.1.pos = p
  · by_cases hpos' : y.1.pos = p
    · rw [hpos, hpos']
    · exact absurd heq.symm (h.cluster_ne hd' hy hpos' hdot' ((hp d hd x hx hpos).head h2))
  · by_cases hpos' : y.1.pos = p
    · exact absurd heq (h.cluster_ne hd hx hpos hdot ((hp d' hd' y hy hpos').head (heq ▸ h2)))
    · exact h.once d hd x hx d' hd' y hy hpos hpos' hdot hdot' h2 heq

theorem putFile (hp : ∀ d ∈ dirs, ∀ x ∈ listing geo m d, x.1.pos = p →
      x.1.entry.isDot = false ∧ x.1.entry.isDirectory = false ∧ StartOf l x.1.entry.cluster) :
    Tree geo m dirs (l :: rest) := by
  refine ⟨h.part, h.root, fun d hd => ?_, fun d hd x hx hdot hdir => ?_,
    fun d hd x hx hdot hfile => ?_, h.once_put fun d hd x hx hpos => (hp d hd x hx hpos).2.2,
    fun d hd x hx hdot => ?_⟩
  · obtain ⟨k, hk, hhead⟩ := h.dir d hd
    exact ⟨k, List.mem_cons_of_mem _ hk, hhead⟩
  · by_cases hpos : x.1.pos = p
    · rw [(hp d hd x hx hpos).2.1] at hdir
      cases hdir
    · exact h.sub d hd x hx hpos hdot hdir
  · by_cases hpos : x.1.pos = p
    · refine (Nat.lt_or_ge x.1.entry.cluster 2).imp_right fun h2 => ?_
      have hhead := (hp d hd x hx hpos).2.2.head h2
      refine ⟨fun hin => ?_, l, List.mem_cons_self, hhead⟩
      obtain ⟨k, hk, hkhead⟩ := h.dir _ hin
      exact h.not_mem hk (List.mem_of_mem_head? hkhead) (List.mem_of_mem_head? hhead)
    · exact (h.file d hd x hx hpos hdot hfile).imp_right fun ⟨hnot, k, hk, hhead⟩ =>
        ⟨hnot, k, List.mem_cons_of_mem _ hk, hhead⟩
  · by_cases hpos : x.1.pos = p
    · rw [(hp d hd x hx hpos).1] at hdot
      cases hdot
    · exact h.dots d hd x hx hpos hdot

theorem listing_eq (hgeo : geo.Valid) {chains : List (List Nat)}
    (hpart : Partition (links geo m') geo.InRange chains) (hsub : ∀ k ∈ rest, k ∈ chains)
    (hsame : ∀ k ∈ rest, ∀ c ∈ k, SameCluster geo m m' c) {d : Nat} (hd : d ∈ dirs) :
    chainOf geo m' d = chainOf geo m d ∧ listing geo m' d = listing geo m d := by
  obtain ⟨k, hk, hhead, hchain⟩ := h.dir_chain hd
  have hchain' : chainOf geo m' d = chainOf geo m d := by
    rw [hchain]
    cases k with
    | nil => cases hhead
    | cons c k =>
      obtain rfl : c = d := by simpa using hhead
      exact chainOf_eq hpart (hsub _ hk)
  refine ⟨hchain', listing_congr hgeo hchain' ?_⟩
  rw [hchain]
  exact hsame k hk

theorem spared (hgeo : geo.Valid) (hpart : Partition (links geo m') geo.InRange (l' :: rest'))
    (hsub : ∀ k ∈ rest, k ∈ rest') (hsame : ∀ k ∈ rest, ∀ c ∈ k, SameCluster geo m m' c) :
    TreeBut geo m' dirs p l' rest' :=
  h.relist hpart (fun k hk c hhead => ⟨k, hsub k hk, hhead⟩) fun d hd y hy _ => by
    rwa [(h.listing_eq hgeo hpart (fun k hk => List.mem_cons_of_mem _ (hsub k hk)) hsame hd).2]
      at hy

end TreeBut

def SlotOf (geo : Fat32Geo) (m : Memory) (dirs : Set Nat) (p : Nat × Nat) : Prop :=
  ∃ d ∈ dirs, p ∈ dirSlots geo (chainOf geo m d)

theorem SlotOf.offset (hp : SlotOf geo m dirs p) : p.2 ∈ slotOffsets := by
  obtain ⟨d, -, hp⟩ := hp
  exact offsets_dirSlots p hp

theorem SlotChange.sameCluster (hgeo : geo.Valid) (hc : SlotChange m p m') {c d : Nat}
    (hp : p ∈ dirSlots geo [c]) (hc2 : 2 ≤ c) (hd : 2 ≤ d) (hne : d ≠ c) :
    SameCluster geo m m' d := by
  obtain ⟨c', hc', hlo, hhi, hoff⟩ := mem_dirSlots.mp hp
  obtain rfl := List.mem_singleton.mp hc'
  obtain ⟨hle, hend⟩ := slotAddr_cluster hgeo hlo hhi hoff
  intro i hi
  refine hc _ ?_
  rcases Nat.lt_or_gt_of_ne hne with hlt | hlt
  · have := clusterAddr_apart hgeo hd hlt
    omega
  · have := clusterAddr_apart hgeo hc2 hlt
    omega

theorem SlotChange.sameFat (hgeo : geo.Valid) (hc : SlotChange m p m') {clusters : List Nat}
    (hp : p ∈ dirSlots geo clusters) : ∀ a, geo.InFat a → m' a = m a := by
  obtain ⟨c, hcl, hlo, hhi, hoff⟩ := mem_dirSlots.mp hp
  obtain ⟨hle, -⟩ := slotAddr_cluster hgeo hlo hhi hoff
  intro a ha
  refine hc a ?_
  by_contra hin
  refine clusterAddr_not_inFat hgeo c (a - geo.clusterAddr c) ?_
  rwa [Nat.add_sub_cancel' (by omega)]

namespace TreeBut

variable (h : TreeBut geo m dirs p l rest)

include h

theorem slotChange (hgeo : geo.Sound) {q : Nat × Nat} {d : Nat} (hd : d ∈ dirs)
    (hq : q ∈ dirSlots geo (chainOf geo m d)) (hc : SlotChange m q m') :
    Partition (links geo m') geo.InRange (l :: rest) ∧
      (∀ d ∈ dirs, chainOf geo m' d = chainOf geo m d) ∧
      ∀ k ∈ l :: rest, k.head? ≠ some d → ∀ c ∈ k, SameCluster geo m m' c := by
  obtain ⟨-, -, hlinks⟩ := frame_of_sameFat hgeo (hc.sameFat hgeo.toValid hq)
  have hpart := hlinks.partition h.part
  refine ⟨hpart, fun e he => ?_, fun k hk hnot c hck => ?_⟩
  · obtain ⟨k, hk, hhead, hchain⟩ := h.dir_chain he
    rw [hchain]
    cases k with
    | nil => cases hhead
    | cons c k =>
      obtain rfl : c = e := by simpa using hhead
      exact chainOf_eq hpart (List.mem_cons_of_mem _ hk)
  · obtain ⟨k', hk', hhead, hchain⟩ := h.dir_chain hd
    rw [hchain] at hq
    obtain ⟨c', hc', hqc⟩ := mem_dirSlots_singleton.mp hq
    refine hc.sameCluster hgeo.toValid hqc (h.inRange hk' hc').1 (h.part.dom_of_mem hk hck).1 ?_
    rintro rfl
    obtain rfl := h.part.eq_of_mem hk (List.mem_cons_of_mem _ hk') hck hc'
    exact hnot hhead

end TreeBut

end Vibra.Fat32
