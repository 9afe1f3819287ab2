import Mathlib.Data.List.TakeWhile
import Vibra.Fat32.NamedTree

/-! # Filling and emptying slots

What a listing shows once a free slot of its directory has got an entry, or once a listed
entry has been deleted; and which slot the search for a free one finds.
-/

namespace Vibra.Fat32

open Lib (Memory Prog Write LinkTable)
open Lib.Prog (wp)
open Lib.LinkTable (Partition)

variable {geo : Fat32Geo} {m m' : Memory} {dirs : Set Nat} {rest rest' : List (List Nat)}
  {d e : Nat} {x y : DirSlot × Name} {l : List Nat} {p : Nat × Nat} {pre post : List (Nat × Nat)}
  {lfn : List (List Nat)}

theorem SlotsAround.eq_of_pos {slots : List (Nat × Nat)} (h : SlotsAround slots pre p post)
    (hx : x ∈ collect m [] slots) (hpos : x.1.pos = p) (hlisted : (entryAt m p).isListed = true)
    (hpending : pendingAfter m [] pre = some lfn) :
    x = (dirSlotAt m p, entryName lfn (entryAt m p)) := by
  have hnot : ∀ {lfn qs}, x ∈ collect m lfn qs → p ∈ qs := by
    intro lfn qs hmem
    obtain ⟨q, hq, hxq, -⟩ := mem_collect hmem
    rwa [← hpos, hxq, dirSlotAt_pos]
  have hnodup := h.nodup
  rw [h.eq, List.nodup_append, List.nodup_cons] at hnodup
  obtain ⟨-, ⟨hpost, -⟩, hdisj⟩ := hnodup
  rw [h.collect_listed hlisted hpending, List.mem_append, List.mem_cons] at hx
  rcases hx with hx | hx | hx
  · exact absurd rfl (hdisj p (hnot hx) p List.mem_cons_self)
  · exact hx
  · exact absurd (hnot hx) hpost

namespace TreeBut

variable (h : TreeBut geo m dirs p l rest)

include h

theorem slotsAround (hgeo : geo.Valid) (hd : d ∈ dirs)
    (hslots : dirSlots geo (chainOf geo m d) = pre ++ p :: post) :
    SlotsAround (dirSlots geo (chainOf geo m d)) pre p post := by
  obtain ⟨k, hk, -, hchain⟩ := h.dir_chain hd
  refine ⟨hslots, nodup_dirSlots hgeo ?_ two_le_of_mem_chainOf, offsets_dirSlots⟩
  rw [hchain]
  exact h.part.chain_nodup (List.mem_cons_of_mem _ hk)

theorem listing_other (hgeo : geo.Sound) (hd : d ∈ dirs) (hp : p ∈ dirSlots geo (chainOf geo m d))
    (hc : SlotChange m p m') (he : e ∈ dirs) (hed : e ≠ d) :
    listing geo m' e = listing geo m e := by
  obtain ⟨-, hchain, hsame⟩ := h.slotChange hgeo hd hp hc
  obtain ⟨k, hk, hhead, hke⟩ := h.dir_chain he
  refine listing_congr hgeo.toValid (hchain e he) ?_
  rw [hke]
  refine hsame k (List.mem_cons_of_mem _ hk) ?_
  rw [hhead]
  exact fun heq => hed (Option.some.inj heq)

theorem slot_but (hgeo : geo.Sound) (hd : d ∈ dirs) (hp : p ∈ dirSlots geo (chainOf geo m d))
    (hc : SlotChange m p m')
    (hlist : ∀ e ∈ dirs, ∀ y ∈ listing geo m' e, y.1.pos ≠ p → y ∈ listing geo m e) :
    TreeBut geo m' dirs p l rest :=
  h.relist (h.slotChange hgeo hd hp hc).1 (fun k hk _ hhead => ⟨k, hk, hhead⟩) hlist

theorem fill (hgeo : geo.Sound) (hd : d ∈ dirs)
    (ha : SlotsAround (dirSlots geo (chainOf geo m d)) pre p post) (hfree : freeAt m p = true)
    (hpending : pendingAfter m [] pre = some lfn)
    (hbehind : (entryAt m p).isEnd = true → collect m [] post = []) (hc : SlotChange m p m')
    (hlisted : (entryAt m' p).isListed = true) :
    TreeBut geo m' dirs p l rest ∧
      Inserted geo m dirs d (dirSlotAt m' p, entryName lfn (entryAt m' p)) m' := by
  have hp : p ∈ dirSlots geo (chainOf geo m d) := by
    rw [ha.eq]
    simp
  have hchain := (h.slotChange hgeo hd hp hc).2.1 d hd
  have hins : Inserted geo m dirs d (dirSlotAt m' p, entryName lfn (entryAt m' p)) m' := by
    refine ⟨⟨collect m [] pre, collect m [] post, ?_, ?_⟩, fun e he hed =>
      h.listing_other hgeo hd hp hc he hed⟩
    · rw [listing, ha.collect_free hfree hpending]
      split
      next hend => rw [hbehind hend]
      next => rfl
    · rw [listing, hchain, ha.collect_put hc hlisted hpending]
  refine ⟨h.slot_but hgeo hd hp hc fun e he y hy hpos => ?_, hins⟩
  refine ((hins.mem_iff he).mp hy).resolve_right ?_
  rintro ⟨-, rfl⟩
  exact hpos rfl

theorem erase (hgeo : geo.Sound) (hd : d ∈ dirs) (hx : x ∈ listing geo m d) (hpos : x.1.pos = p)
    (hc : SlotChange m p m') (hend : (entryAt m' p).isEnd = false)
    (hfree : (entryAt m' p).isFree = true) :
    TreeBut geo m' dirs p l rest ∧ Inserted geo m' dirs d x m ∧
      ∀ e ∈ dirs, ∀ y ∈ listing geo m' e, y.1.pos ≠ p := by
  have hp : p ∈ dirSlots geo (chainOf geo m d) := hpos ▸ (mem_listing hx).1
  obtain ⟨pre, post, hslots⟩ := List.append_of_mem hp
  have ha := h.slotsAround hgeo.toValid hd hslots
  obtain ⟨⟨lfn, hpending⟩, hlisted⟩ := ha.pending_of_mem hx hpos
  obtain rfl := ha.eq_of_pos hx hpos hlisted hpending
  have hchain := (h.slotChange hgeo hd hp hc).2.1 d hd
  have hins : Inserted geo m' dirs d (dirSlotAt m p, entryName lfn (entryAt m p)) m := by
    refine ⟨⟨collect m [] pre, collect m [] post, ?_, ?_⟩, fun e he hed =>
      (h.listing_other hgeo hd hp hc he hed).symm⟩
    · rw [listing, hchain, ha.collect_delete hc hend hfree, hpending]
      rfl
    · rw [listing, ha.collect_listed hlisted hpending]
  refine ⟨h.slot_but hgeo hd hp hc fun e he y hy _ => (hins.mem_iff he).mpr (Or.inl hy), hins, ?_⟩
  rintro e - y hy rfl
  have hylisted := (mem_listing hy).2.2
  simp only [FatDirEntry.isListed, hfree, Bool.not_true, Bool.false_and] at hylisted
  cases hylisted

end TreeBut

def usedSlots (geo : Fat32Geo) (m : Memory) (d : Nat) : List (Nat × Nat) :=
  (dirSlots geo (chainOf geo m d)).takeWhile fun q => !freeAt m q

/-- The parts of a long name that an entry in the first free slot finds before it. -/
def pendingLfn (geo : Fat32Geo) (m : Memory) (d : Nat) : List (List Nat) :=
  (pendingAfter m [] (usedSlots geo m d)).getD []

def behindFree (geo : Fat32Geo) (m : Memory) (d : Nat) : List (DirSlot × Name) :=
  collect m [] ((dirSlots geo (chainOf geo m d)).dropWhile fun q => !freeAt m q).tail

/-- Where the first free slot is the end of the directory, nothing is listed behind it. -/
def CleanEnd (geo : Fat32Geo) (m : Memory) (d : Nat) : Prop :=
  ∀ p, (dirSlots geo (chainOf geo m d)).find? (freeAt m) = some p → (entryAt m p).isEnd = true →
    behindFree geo m d = []

theorem slots_of_find {slots : List (Nat × Nat)} (h : slots.find? (freeAt m) = some p) :
    freeAt m p = true ∧ slots = (slots.takeWhile fun q => !freeAt m q) ++
      p :: (slots.dropWhile fun q => !freeAt m q).tail := by
  obtain ⟨hp, pre, post, rfl, hpre⟩ := List.find?_eq_some_iff_append.mp h
  have htake : (pre ++ p :: post).takeWhile (fun q => !freeAt m q) = pre := by
    rw [List.takeWhile_append_of_pos hpre, List.takeWhile_cons_of_neg (by simp [hp]),
      List.append_nil]
  have hdrop : (pre ++ p :: post).dropWhile (fun q => !freeAt m q) = p :: post := by
    rw [List.dropWhile_append_of_pos hpre, List.dropWhile_cons_of_neg (by simp [hp])]
  rw [htake, hdrop]
  exact ⟨hp, rfl⟩

theorem pendingAfter_used (geo : Fat32Geo) (m : Memory) (d : Nat) :
    pendingAfter m [] (usedSlots geo m d) = some (pendingLfn geo m d) := by
  obtain ⟨lfn, hlfn⟩ : ∃ lfn, pendingAfter m [] (usedSlots geo m d) = some lfn :=
    pendingAfter_isSome fun q hq => by simpa using List.mem_takeWhile_imp hq
  rw [pendingLfn, hlfn]
  rfl

/-! ## A directory grows -/

theorem isEnd_of_zero (h : m (slotAddr p) = 0) : (entryAt m p).isEnd = true := by
  rw [FatDirEntry.isEnd, FatDirEntry.firstByte_entryAt, h]
  rfl

theorem collect_zeros {slots : List (Nat × Nat)} (h : ∀ q ∈ slots, m (slotAddr q) = 0) :
    collect m lfn slots = [] := by
  cases slots with
  | nil => rfl
  | cons q slots =>
    rw [collect, isEnd_of_zero (h q List.mem_cons_self)]
    rfl

theorem Grown.sameCluster (hgeo : geo.Sound) (hfs : geo.FsInfoReserved) {k : List Nat} {n c : Nat}
    (hg : Grown geo m k rest n m') (hc : geo.InRange c) (hused : links geo m c ≠ .free) :
    SameCluster geo m m' c := by
  intro i hi
  refine hg.frame _ (clusterAddr_not_inFat hgeo.toValid c i)
    (clusterAddr_not_inFsInfo hgeo.toValid hfs c i) ?_
  rintro ⟨hlo, hhi⟩
  have hne : c ≠ n := by
    rintro rfl
    exact hused hg.free
  rcases Nat.lt_or_gt_of_ne hne with hlt | hlt
  · have := clusterAddr_apart hgeo.toValid hc.1 hlt
    omega
  · have := clusterAddr_apart hgeo.toValid hg.range.1 hlt
    omega

theorem dirSlots_append (geo : Fat32Geo) (k l : List Nat) :
    dirSlots geo (k ++ l) = dirSlots geo k ++ dirSlots geo l := List.flatMap_append

theorem Grown.zero_slots (hgeo : geo.Valid) {k : List Nat} {n : Nat}
    (hg : Grown geo m k rest n m') : ∀ q ∈ dirSlots geo [n], m' (slotAddr q) = 0 := by
  intro q hq
  obtain ⟨c, hc, hlo, hhi, hoff⟩ := mem_dirSlots.mp hq
  obtain rfl := List.mem_singleton.mp hc
  obtain ⟨hle, hend⟩ := slotAddr_cluster hgeo hlo hhi hoff
  have := hg.zeros (slotAddr q - geo.clusterAddr c) (by omega)
  rwa [Nat.add_sub_cancel' hle] at this

theorem dirSlots_singleton (hgeo : geo.Valid) (n : Nat) :
    ∃ post, dirSlots geo [n] =
      (geo.dataStartSector + (n - 2) * geo.sectorsPerCluster, 0) ::
      (geo.dataStartSector + (n - 2) * geo.sectorsPerCluster, 32) ::
      (geo.dataStartSector + (n - 2) * geo.sectorsPerCluster, 64) :: post := by
  obtain ⟨count, hcount⟩ := Nat.exists_eq_add_of_lt hgeo.spc
  rw [dirSlots, List.flatMap_singleton, hcount, Nat.zero_add]
  exact ⟨_, rfl⟩

/-- A free slot for a new entry. Listings are as they were, and so are the chains apart from
that of the directory. -/
structure FreeSlot (geo : Fat32Geo) (m : Memory) (dirs : Set Nat) (d : Nat) (l : List Nat)
    (rest : List (List Nat)) (p : Nat × Nat) (m' : Memory) (rest' : List (List Nat)) : Prop where
  but : TreeBut geo m' dirs p l rest'
  list : ∀ e ∈ dirs, listing geo m' e = listing geo m e
  kept : ∀ k ∈ l :: rest, k.head? ≠ some d → k ∈ l :: rest' ∧ ∀ c ∈ k, SameCluster geo m m' c
  around : ∃ pre post, SlotsAround (dirSlots geo (chainOf geo m' d)) pre p post ∧
    freeAt m' p = true ∧ pendingAfter m' [] pre = some (pendingLfn geo m d) ∧
    ((entryAt m' p).isEnd = true → collect m' [] post = [])

theorem freeSlot_found (hgeo : geo.Sound) (h : TreeBut geo m dirs p l rest) (hd : d ∈ dirs)
    (hclean : CleanEnd geo m d)
    (hfind : (dirSlots geo (chainOf geo m d)).find? (freeAt m) = some p) :
    FreeSlot geo m dirs d l rest p m rest := by
  obtain ⟨hfree, hslots⟩ := slots_of_find hfind
  exact ⟨h, fun _ _ => rfl, fun k hk _ => ⟨hk, fun _ _ _ _ => rfl⟩, _, _,
    h.slotsAround hgeo.toValid hd hslots, hfree, pendingAfter_used geo m d, hclean p hfind⟩

theorem freeSlot_grown (hgeo : geo.Sound) (hfs : geo.FsInfoReserved) {k : List Nat} {n : Nat}
    (hp : p = (geo.dataStartSector + (n - 2) * geo.sectorsPerCluster, 0))
    (h : TreeBut geo m dirs p l rest) (hd : d ∈ dirs) (hk : (d :: k) ∈ rest)
    (hfind : (dirSlots geo (chainOf geo m d)).find? (freeAt m) = none)
    (hg : Grown geo m (d :: k) (l :: rest.erase (d :: k)) n m') :
    FreeSlot geo m dirs d l rest p m' ((d :: k ++ [n]) :: rest.erase (d :: k)) := by
  have hchain : chainOf geo m d = d :: k := chainOf_eq h.part (List.mem_cons_of_mem _ hk)
  have hchain' : chainOf geo m' d = d :: k ++ [n] := chainOf_eq hg.part List.mem_cons_self
  rw [hchain] at hfind
  have hsame : ∀ j ∈ l :: rest, ∀ c ∈ j, SameCluster geo m m' c := fun j hj c hc =>
    hg.sameCluster hgeo hfs (h.part.dom_of_mem hj hc) ((h.part.chain j hj).ne_free hc)
  have hslots : ∀ q ∈ dirSlots geo (d :: k), SameSlot m m' q := fun q hq =>
    sameSlot_of_cluster hgeo.toValid hq (hsame _ (List.mem_cons_of_mem _ hk))
  have hused : usedSlots geo m d = dirSlots geo (d :: k) := by
    rw [usedSlots, hchain, List.takeWhile_eq_self_iff]
    intro q hq
    simpa using List.find?_eq_none.mp hfind q hq
  have hpending : pendingAfter m' [] (dirSlots geo (d :: k)) = some (pendingLfn geo m d) := by
    rw [pendingAfter_congr hslots, ← hused]
    exact pendingAfter_used geo m d
  have hkept : ∀ j ∈ l :: rest, j.head? ≠ some d →
      j ∈ l :: (d :: k ++ [n]) :: rest.erase (d :: k) := by
    intro j hj hhead
    rcases List.mem_cons.mp hj with rfl | hj
    · exact List.mem_cons_self
    · refine List.mem_cons_of_mem _ (List.mem_cons_of_mem _ ((List.mem_erase_of_ne ?_).mpr hj))
      rintro rfl
      exact hhead rfl
  have hpart : Partition (links geo m') geo.InRange (l :: (d :: k ++ [n]) :: rest.erase (d :: k)) :=
    hg.part.perm (List.Perm.swap _ _ _)
  have hlist : ∀ e ∈ dirs, listing geo m' e = listing geo m e := by
    intro e he
    by_cases hed : e = d
    · subst hed
      have hzeros := @collect_zeros m' (pendingLfn geo m e) _ (hg.zero_slots hgeo.toValid)
      rw [listing, listing, hchain', hchain, dirSlots_append, collect_append, hpending,
        collect_congr hslots, Option.map_some, Option.getD_some, hzeros, List.append_nil]
    · obtain ⟨j, hj, hhead, hje⟩ := h.dir_chain he
      have hjd : j.head? ≠ some d := by
        rw [hhead]
        exact fun heq => hed (Option.some.inj heq)
      have hmem := hkept j (List.mem_cons_of_mem _ hj) hjd
      refine listing_congr hgeo.toValid ?_ (hje ▸ hsame j (List.mem_cons_of_mem _ hj))
      rw [hje]
      cases j with
      | nil => cases hhead
      | cons c j =>
        obtain rfl : c = e := by simpa using hhead
        exact chainOf_eq hpart hmem
  have hbut : TreeBut geo m' dirs p l ((d :: k ++ [n]) :: rest.erase (d :: k)) := by
    refine h.relist hpart (fun j hj c hhead => ?_) fun e he y hy _ => hlist e he ▸ hy
    by_cases hjk : j = d :: k
    · subst hjk
      exact ⟨d :: k ++ [n], List.mem_cons_self, hhead⟩
    · exact ⟨j, List.mem_cons_of_mem _ ((List.mem_erase_of_ne hjk).mpr hj), hhead⟩
  obtain ⟨post, hpost⟩ : ∃ post, dirSlots geo [n] = p :: post := by
    obtain ⟨post, hpost⟩ := dirSlots_singleton hgeo.toValid n
    exact ⟨_, hp ▸ hpost⟩
  have hslots' : dirSlots geo (chainOf geo m' d) = dirSlots geo (d :: k) ++ p :: post := by
    rw [hchain', dirSlots_append, hpost]
  have hzero := hg.zero_slots hgeo.toValid
  rw [hpost] at hzero
  refine ⟨hbut, hlist, fun j hj hhead => ⟨hkept j hj hhead, hsame j hj⟩, _, _,
    hbut.slotsAround hgeo.toValid hd hslots', ?_, hpending, fun _ => ?_⟩
  · rw [freeAt, hzero p List.mem_cons_self]
    rfl
  · exact collect_zeros fun q hq => hzero q (List.mem_cons_of_mem _ hq)

theorem findFreeSlot_tree {G : Memory → Write Sector Origin → Prop} {E : FsError → Memory → Prop}
    {Q : Nat × Nat → Memory → Prop} (hgeo : geo.Sound) (hfs : geo.FsInfoReserved)
    (h : ∀ p, TreeBut geo m dirs p l rest) (hd : d ∈ dirs) (hclean : CleanEnd geo m d)
    (hG : ∀ m w, G m w) (hfull : E .diskFull m)
    (hQ : ∀ p m' rest', FreeSlot geo m dirs d l rest p m' rest' → Q p m') :
    wp disk G Q E (findFreeSlot geo d) m := by
  obtain ⟨j, hj, hhead, hchain⟩ := (h (0, 0)).dir_chain hd
  cases j with
  | nil => cases hhead
  | cons c k =>
    obtain rfl : c = d := by simpa using hhead
    have hperm : (l :: rest).Perm ((c :: k) :: l :: rest.erase (c :: k)) :=
      ((List.perm_cons_erase hj).cons l).trans (List.Perm.swap _ _ _)
    refine findFreeSlot_spec hgeo ((h (0, 0)).part.perm hperm) (fun m w _ _ => hG m w)
      (fun p hfind => ?_) (fun _ => hfull) fun n m' hfind hg => ?_
    · rw [← hchain] at hfind
      exact hQ p m rest (freeSlot_found hgeo (h p) hd hclean hfind)
    · rw [← hchain] at hfind
      exact hQ _ m' _ (freeSlot_grown hgeo hfs rfl (h _) hd hj hfind hg)

end Vibra.Fat32
