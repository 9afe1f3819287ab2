import Vibra.Fat32.DirectoryMap
import Mathlib.Order.Interval.Finset.Nat

/-! # The free count of the FSInfo sector

Every allocation takes one from the stored count. Nothing gives a cluster back to it: `free_chain`
clears the entries and leaves the FSInfo sector alone.
-/

namespace Vibra.Fat32

open Lib (Memory Prog LinkTable)
open Lib.Memory (le32 toLe32)
open Lib.Prog (wp)

variable {geo : Fat32Geo} {m m' : Memory} {s : Set Nat} {α : Type}

def storedFree (geo : Fat32Geo) (m : Memory) : Nat := le32 m (512 * geo.fsInfoSector + 488)

/-- The FSInfo sector is used, lies in the reserved area and has both signatures. -/
structure FsInfoValid (geo : Fat32Geo) (m : Memory) : Prop where
  used : geo.HasFsInfo
  reserved : geo.fsInfoSector < geo.fatStartSector
  lead : le32 m (512 * geo.fsInfoSector) = 0x4161_5252
  inner : le32 m (512 * geo.fsInfoSector + 484) = 0x6141_7272

/-- The clusters `2..total_clusters + 2` whose entry is 0. -/
def freeEntries (geo : Fat32Geo) (m : Memory) : Finset Nat :=
  (Finset.Ico 2 (geo.totalClusters + 2)).filter fun c => fatValue geo m c = 0

/-- The stored count is the number of zero entries. -/
structure FreeCounted (geo : Fat32Geo) (m : Memory) : Prop where
  info : FsInfoValid geo m
  count : storedFree geo m = (freeEntries geo m).card

theorem links_eq_free {c : Nat} : links geo m c = .free ↔ fatValue geo m c = 0 := by
  simp only [links, linkOf]
  split
  · simpa
  · split <;> simpa

theorem mem_freeEntries {c : Nat} :
    c ∈ freeEntries geo m ↔ geo.InRange c ∧ links geo m c = .free := by
  rw [links_eq_free, freeEntries, Finset.mem_filter, Finset.mem_Ico]
  exact Iff.rfl

theorem card_freeEntries_le (geo : Fat32Geo) (m : Memory) :
    (freeEntries geo m).card ≤ geo.totalClusters := by
  have hle := Finset.card_filter_le (Finset.Ico 2 (geo.totalClusters + 2))
    fun c => fatValue geo m c = 0
  rwa [Nat.card_Ico, Nat.add_sub_cancel] at hle

theorem freeEntries_congr (h : SameLinks geo (links geo m) (links geo m')) :
    freeEntries geo m' = freeEntries geo m := by
  ext c
  rw [mem_freeEntries, mem_freeEntries]
  exact and_congr_right fun hc => by rw [h c hc.2]

theorem FsInfoValid.congr (h : FsInfoValid geo m)
    (heq : ∀ i < 512, m' (512 * geo.fsInfoSector + i) = m (512 * geo.fsInfoSector + i)) :
    FsInfoValid geo m' ∧ storedFree geo m' = storedFree geo m := by
  have hword : ∀ i, i + 4 ≤ 512 →
      le32 m' (512 * geo.fsInfoSector + i) = le32 m (512 * geo.fsInfoSector + i) := by
    intro i hi
    refine Memory.le32_congr fun j hj => ?_
    rw [Nat.add_assoc]
    exact heq (i + j) (by omega)
  exact ⟨⟨h.used, h.reserved, (hword 0 (by decide)).trans h.lead,
    (hword 484 (by decide)).trans h.inner⟩, hword 488 (by decide)⟩

def SameBelow (geo : Fat32Geo) (m m' : Memory) : Prop :=
  ∀ a < 512 * geo.dataStartSector, m' a = m a

theorem SameBelow.sameFat (hgeo : geo.Valid) (h : SameBelow geo m m') :
    ∀ a, geo.InFat a → m' a = m a := by
  intro a ha
  have hdata := hgeo.data
  unfold Fat32Geo.InFat at ha
  exact h a (by omega)

theorem sameBelow_write {sector : Nat} (h : geo.dataStartSector ≤ sector) (buf : Sector) :
    SameBelow geo m (disk.write m sector buf) := fun a ha =>
  disk_write_of_outside (by omega)

theorem sameBelow_put {cluster within : Nat} (data : List UInt8) :
    SameBelow geo m (m.put (geo.clusterAddr cluster + within) data) := by
  intro a ha
  have hle := Nat.le_add_right geo.dataStartSector ((cluster - 2) * geo.sectorsPerCluster)
  unfold Fat32Geo.clusterAddr
  exact Memory.put_of_outside (by omega)

theorem ZeroedSectors.sameBelow {base count : Nat} (h : ZeroedSectors m base count m')
    (hbase : geo.dataStartSector ≤ base) : SameBelow geo m m' := by
  intro a ha
  rw [h a, if_neg (by omega)]

theorem FreeCounted.sameBelow (h : FreeCounted geo m) (hgeo : geo.Sound)
    (heq : SameBelow geo m m') : FreeCounted geo m' := by
  have hdata := hgeo.data
  have hres := h.info.reserved
  have hlinks := (frame_of_sameFat hgeo (heq.sameFat hgeo.toValid)).2.2
  have hsector : ∀ i < 512, m' (512 * geo.fsInfoSector + i) = m (512 * geo.fsInfoSector + i) :=
    fun i hi => heq _ (by omega)
  rcases h.info.congr hsector with ⟨hinfo, hstored⟩
  exact ⟨hinfo, by rw [hstored, h.count, freeEntries_congr hlinks]⟩

structure Used (geo : Fat32Geo) (m : Memory) (s : Set Nat) : Prop extends Region geo m s where
  used : ∀ c ∈ s, links geo m c ≠ .free

/-- The chain from the start cluster stays in the volume and reaches no free cluster. -/
def Intact (geo : Fat32Geo) (m : Memory) (start : Nat) : Prop :=
  start < 2 ∨ ∀ c, LinkTable.Leads (links geo m) start c →
    geo.InRange c ∧ links geo m c ≠ .free

theorem Intact.region {start : Nat} (h : Intact geo m start) :
    ∃ s, Used geo m s ∧ (start < 2 ∨ start ∈ s) := by
  rcases h with h | h
  · exact ⟨∅, ⟨.empty geo m, by simp⟩, Or.inl h⟩
  · exact ⟨_, ⟨⟨fun c hc => (h c hc).1, LinkTable.closed_leads _ start⟩, fun c hc => (h c hc).2⟩,
      Or.inr .refl⟩

theorem Used.sameBelow (h : Used geo m s) (hgeo : geo.Sound) (heq : SameBelow geo m m') :
    Used geo m' s := by
  have hlinks := (frame_of_sameFat hgeo (heq.sameFat hgeo.toValid)).2.2
  refine ⟨h.toRegion.sameLinks hlinks, ?_⟩
  intro c hc
  rw [hlinks c (h.range c hc).2]
  exact h.used c hc

theorem takenLinks_ne_free {t : LinkTable Nat} {prev : Option Nat} {c d : Nat}
    (h : c = d ∨ t c ≠ .free) : takenLinks t prev d c ≠ .free := by
  cases prev with
  | none =>
    simp only [takenLinks, Function.update_apply]
    split
    · simp
    next hne => exact h.resolve_left hne
  | some p =>
    simp only [takenLinks, Function.update_apply]
    split
    · simp
    · split
      · simp
      next hne => exact h.resolve_left hne

theorem Used.take (h : Used geo m s) {prev : Option Nat} {d : Nat} (hd : geo.InRange d)
    (hlinks : SameLinks geo (takenLinks (links geo m) prev d) (links geo m')) :
    Used geo m' (insert d s) := by
  have hregion := h.toRegion.take hd hlinks
  refine ⟨hregion, ?_⟩
  intro c hc
  rw [hlinks c (hregion.range c hc).2]
  exact takenLinks_ne_free (hc.imp_right (h.used c))

/-- What `alloc_cluster` may be given to link to: a used cluster, or no cluster. -/
def Linkable (geo : Fat32Geo) (m : Memory) (p : Nat) : Prop :=
  p < geo.totalClusters + 2 ∧ (2 ≤ p → links geo m p ≠ .free)

theorem Used.linkable (h : Used geo m s) {c : Nat} (hc : c ∈ s) : Linkable geo m c :=
  ⟨(h.range c hc).2, fun _ => h.used c hc⟩

theorem freeEntries_taken {prev : Option Nat} {d : Nat} (hd : geo.InRange d)
    (hfree : links geo m d = .free) (hprev : ∀ p ∈ prev, Linkable geo m p)
    (hlinks : SameLinks geo (takenLinks (links geo m) prev d) (links geo m')) :
    (freeEntries geo m').card = (freeEntries geo m).card - 1 := by
  have herase : freeEntries geo m' = (freeEntries geo m).erase d := by
    ext c
    rw [Finset.mem_erase, mem_freeEntries, mem_freeEntries]
    by_cases hc : geo.InRange c
    · rw [hlinks c hc.2]
      by_cases hcd : c = d
      · have hne := @takenLinks_ne_free (links geo m) prev c d (Or.inl hcd)
        exact ⟨fun hfree' => absurd hfree'.2 hne, fun herased => absurd hcd herased.1⟩
      · have hiff : takenLinks (links geo m) prev d c = .free ↔ links geo m c = .free := by
          refine ⟨fun h => ?_, fun h => ?_⟩
          · by_contra hne
            exact takenLinks_ne_free (Or.inr hne) h
          · cases prev with
            | none => simpa [takenLinks, hcd] using h
            | some p =>
              have hpc : c ≠ p := by
                rintro rfl
                exact (hprev c rfl).2 hc.1 h
              simpa [takenLinks, hcd, hpc] using h
        simp [hc, hcd, hiff]
    · simp [hc]
  rw [herase, Finset.card_erase_of_mem (mem_freeEntries.mpr ⟨hd, hfree⟩)]

/-! ## Programs that keep the count -/

/-- The program ends in `Q`, or with an error and the count still right. -/
def Keeps (geo : Fat32Geo) (Q : α → Memory → Prop) (p : Io α) (m : Memory) : Prop :=
  wp disk (fun _ _ => True) Q (fun _ m' => FreeCounted geo m') p m

theorem keeps_bind {β : Type} {p : Io α} {f : α → Io β} {Q : β → Memory → Prop} :
    Keeps geo Q (p >>= f) m ↔ Keeps geo (fun a m => Keeps geo Q (f a) m) p m :=
  Prog.wp_bind p f m

theorem keeps_attempt {p : Io α} {Q : Except FsError α → Memory → Prop}
    (h : Keeps geo (fun a m => Q (.ok a) m) p m)
    (he : ∀ e m, FreeCounted geo m → Q (.error e) m) : Keeps geo Q p.attempt m := by
  unfold Keeps
  rw [Prog.wp_attempt]
  exact Prog.wp_post h (fun _ _ h => h) fun e m hm => he e m hm

theorem le32_write {sector i : Nat} {buf : Sector} (h : i + 4 ≤ 512) :
    le32 (disk.write m sector buf) (512 * sector + i) = le32 buf i := by
  refine Memory.le32_congr fun j hj => ?_
  rw [Nat.add_assoc]
  exact disk_write_add (by omega)

theorem le32_read (sector i : Nat) :
    le32 (disk.read m sector) i = le32 m (512 * sector + i) :=
  Memory.le32_congr fun j _ => by rw [disk_read, Nat.add_assoc]

theorem updateFsinfo_counts {E : FsError → Memory → Prop} {Q : Unit → Memory → Prop}
    {nextFree : Nat} (h : FsInfoValid geo m)
    (hpos : 0 < storedFree geo m) (hknown : storedFree geo m ≠ 0xFFFF_FFFF)
    (hQ : ∀ m', (∀ a, ¬geo.InFsInfo a → m' a = m a) → FsInfoValid geo m' →
      storedFree geo m' = storedFree geo m - 1 → Q () m') :
    wp disk (fun _ _ => True) Q E (updateFsinfo geo nextFree) m := by
  have hlead : le32 (disk.read m geo.fsInfoSector) 0 = 0x4161_5252 := by
    rw [le32_read]
    exact h.lead
  have hinner : le32 (disk.read m geo.fsInfoSector) 484 = 0x6141_7272 := by
    rw [le32_read]
    exact h.inner
  have hfree : le32 (disk.read m geo.fsInfoSector) 488 = storedFree geo m := le32_read _ _
  have hlt : storedFree geo m < 2 ^ 32 := Memory.le32_lt _ _
  unfold updateFsinfo
  rw [if_neg (by rw [not_or]; exact h.used)]
  simp only [Prog.wp_bind, wp_readSector]
  rw [hlead, hinner, hfree, if_neg (by simp), if_neg (by simp), if_pos ⟨hknown, hpos⟩,
    wp_writeSector]
  refine ⟨trivial, hQ _ (fun a ha => disk_write_of_outside ?_) ⟨h.used, h.reserved, ?_, ?_⟩ ?_⟩
  · unfold Fat32Geo.InFsInfo at ha
    simp only [h.used, true_and] at ha
    omega
  · refine (le32_write (i := 0) (by decide)).trans ?_
    rw [Memory.le32_put_of_outside (Or.inl (by decide)),
      Memory.le32_put_of_outside (Or.inl (by decide)), hlead]
  · rw [le32_write (by decide), Memory.le32_put_of_outside (Or.inl (by decide)),
      Memory.le32_put_of_outside (Or.inl (by decide)), hinner]
  · rw [storedFree, le32_write (by decide), Memory.le32_put_of_outside (Or.inl (by decide)),
      Memory.le32_put, Nat.mod_eq_of_lt (by omega)]

theorem takeCluster_counts (hgeo : geo.Sound) (h : FreeCounted geo m) {prev : Option Nat}
    {d : Nat} (hd : geo.InRange d) (hfree : links geo m d = .free)
    (hprev : ∀ p ∈ prev, Linkable geo m p) {Q : Nat → Memory → Prop}
    (hQ : ∀ m', FreeCounted geo m' →
      SameLinks geo (takenLinks (links geo m) prev d) (links geo m') → Q d m') :
    Keeps geo Q (takeCluster geo prev d) m := by
  have hcov := hgeo.covers
  have hbounded := hgeo.bounded
  have hdlt := hd.2
  have hres := h.info.reserved
  have hcard : 0 < (freeEntries geo m).card :=
    Finset.card_pos.mpr ⟨d, mem_freeEntries.mpr ⟨hd, hfree⟩⟩
  have hmax := card_freeEntries_le geo m
  -- the table is complete when the count is changed
  have hinfo : ∀ m₁, (∀ a, ¬geo.InFat a → m₁ a = m a) →
      SameLinks geo (takenLinks (links geo m) prev d) (links geo m₁) →
      Keeps geo (fun _ m' => Q d m')
        ((updateFsinfo geo d).attempt : Io (Except FsError Unit)) m₁ := by
    intro m₁ hout hlinks
    have hsame : ∀ i < 512,
        m₁ (512 * geo.fsInfoSector + i) = m (512 * geo.fsInfoSector + i) := by
      intro i hi
      apply hout
      unfold Fat32Geo.InFat
      omega
    rcases h.info.congr hsame with ⟨hvalid, hstored⟩
    have hcount := h.count
    have hkeep : ∀ m₂, (∀ a, ¬geo.InFsInfo a → m₂ a = m₁ a) → FsInfoValid geo m₂ →
        storedFree geo m₂ = storedFree geo m₁ - 1 → Q d m₂ := by
      intro m₂ hrest hvalid₂ hstored₂
      have hlinks₂ := hlinks.trans (frame_of_fsInfo hgeo hrest).2
      refine hQ m₂ ⟨hvalid₂, ?_⟩ hlinks₂
      rw [hstored₂, hstored, hcount, freeEntries_taken hd hfree hprev hlinks₂]
    unfold Keeps
    rw [Prog.wp_attempt]
    exact updateFsinfo_counts hvalid (by omega) (by omega) hkeep
  unfold Keeps
  rw [takeCluster, Prog.wp_bind]
  refine fatSet_spec hgeo.toValid (by omega) (fun _ _ _ _ _ _ => trivial) fun m₁ h₁ => ?_
  have hlinks₁ := h₁.links hgeo
  rw [linkOf_eoc] at hlinks₁
  cases prev with
  | none =>
    simp only [Prog.wp_bind, Prog.wp_pure]
    exact hinfo m₁ h₁.outside hlinks₁
  | some p =>
    have hp := (hprev p rfl).1
    simp only [Prog.wp_bind, Prog.wp_pure]
    refine fatSet_spec hgeo.toValid (by omega) (fun _ _ _ _ _ _ => trivial) fun m₂ h₂ => ?_
    have hlinks₂ := h₂.links hgeo
    rw [linkOf_cluster hgeo hd] at hlinks₂
    exact hinfo m₂ (fun a ha => (h₂.outside a ha).trans (h₁.outside a ha))
      ((hlinks₁.update _ _).trans hlinks₂)

theorem allocCluster_counts (hgeo : geo.Sound) (h : FreeCounted geo m) {prev : Option Nat}
    (hprev : ∀ p ∈ prev, Linkable geo m p) {Q : Nat → Memory → Prop}
    (hQ : ∀ d m', FreeCounted geo m' → geo.InRange d →
      SameLinks geo (takenLinks (links geo m) prev d) (links geo m') → Q d m') :
    Keeps geo Q (allocCluster geo prev) m := by
  have hbounded := hgeo.bounded
  have hclusters := hgeo.clusters
  have hcount : (geo.totalClusters + 2) % 2 ^ 32 - 2 = geo.totalClusters := by omega
  rw [allocCluster, hcount]
  refine allocFrom_spec (fun _ => h) fun c hlo hhi hzero => ?_
  have hc : geo.InRange c := ⟨hlo, by omega⟩
  exact takeCluster_counts hgeo h hc (links_eq_free.mpr hzero) hprev fun m' h' => hQ c m' h' hc

theorem nextOrAlloc_counts (hgeo : geo.Sound) (h : FreeCounted geo m) (hs : Used geo m s)
    {c : Nat} (hc : c ∈ s) {Q : Nat → Memory → Prop}
    (hQ : ∀ d m' s', FreeCounted geo m' → Used geo m' s' → d ∈ s' → Q d m') :
    Keeps geo Q (nextOrAlloc geo c) m := by
  by_cases hnext : ∃ d, links geo m c = .next d
  · rcases hnext with ⟨d, hd⟩
    exact (nextOrAlloc_next hd).mpr (hQ d m s h hs (hs.closed c hc d hd))
  · refine (nextOrAlloc_end (not_exists.mp hnext)).mpr (allocCluster_counts hgeo h ?_ ?_)
    · intro p hp
      rcases Option.mem_some_iff.mp hp with rfl
      exact hs.linkable hc
    · exact fun d m' h' hd hlinks => hQ d m' _ h' (hs.take hd hlinks) (Set.mem_insert d s)

theorem walkTo_counts (hgeo : geo.Sound) (h : FreeCounted geo m) (hs : Used geo m s)
    {count c : Nat} (hc : c ∈ s) {Q : Nat → Memory → Prop}
    (hQ : ∀ d m' s', FreeCounted geo m' → Used geo m' s' → d ∈ s' → Q d m') :
    Keeps geo Q (walkTo geo count c) m := by
  induction count generalizing m s c with
  | zero => exact hQ c m s h hs hc
  | succ count ih =>
    rw [walkTo, keeps_bind]
    exact nextOrAlloc_counts hgeo h hs hc fun d m' s' h' hs' hd => ih h' hs' hd

theorem writeClusterRange_counts (hgeo : geo.Sound) (h : FreeCounted geo m) (hs : Used geo m s)
    {c within : Nat} (hc : c ∈ s) {data : List UInt8}
    (hfit : within + data.length ≤ geo.clusterSize) {Q : Unit → Memory → Prop}
    (hQ : ∀ m', FreeCounted geo m' → Used geo m' s → Q () m') :
    Keeps geo Q (writeClusterRange geo c within data) m :=
  writeClusterRange_spec hgeo.toValid (hs.range c hc).1 hfit (fun _ _ _ => trivial)
    (hQ _ (h.sameBelow hgeo (sameBelow_put data)) (hs.sameBelow hgeo (sameBelow_put data)))

theorem writeClusters_counts (hgeo : geo.Sound) (h : FreeCounted geo m) (hs : Used geo m s)
    {steps c position : Nat} (hc : c ∈ s) {data : List UInt8} {Q : Unit → Memory → Prop}
    (hQ : ∀ m', FreeCounted geo m' → Q () m') :
    Keeps geo Q (writeClusters geo steps c position data) m := by
  induction steps generalizing m s c position data with
  | zero => exact hQ m h
  | succ steps ih =>
    rw [writeClusters]
    by_cases hnil : data = []
    · rw [if_pos hnil]
      exact hQ m h
    · rw [if_neg hnil, keeps_bind]
      have hmod := Nat.mod_lt position hgeo.clusterSize_pos
      refine writeClusterRange_counts hgeo h hs hc (by rw [List.length_take]; omega)
        fun m' h' hs' => ?_
      dsimp only
      split
      · exact hQ m' h'
      · rw [keeps_bind]
        exact nextOrAlloc_counts hgeo h' hs' hc fun d m'' s'' h'' hs'' hd => ih h'' hs'' hd

theorem writeRange_counts (hgeo : geo.Sound) (h : FreeCounted geo m) {start offset : Nat}
    {data : List UInt8} (hstart : data ≠ [] → Intact geo m start)
    {Q : Nat × Except FsError Nat → Memory → Prop} (hQ : ∀ r m', FreeCounted geo m' → Q r m') :
    Keeps geo Q (writeRange geo start offset data) m := by
  rw [writeRange]
  by_cases hnil : data = []
  · rw [if_pos hnil]
    exact hQ _ m h
  · rcases (hstart hnil).region with ⟨s, hs, hmem⟩
    rw [if_neg hnil, keeps_bind]
    have hwrite : ∀ first m' s', FreeCounted geo m' → Used geo m' s' → first ∈ s' →
        Keeps geo (fun r m => Q (first, r) m) (Prog.attempt (do
          let cluster ← walkTo geo (offset / geo.clusterSize) first
          writeClusters geo data.length cluster offset data
          pure (offset + data.length)) : Io (Except FsError Nat)) m' := by
      intro first m' s' h' hs' hfirst
      refine keeps_attempt ?_ fun e m hm => hQ _ m hm
      rw [keeps_bind]
      refine walkTo_counts hgeo h' hs' hfirst fun d m'' s'' h'' hs'' hd => ?_
      rw [keeps_bind]
      exact writeClusters_counts hgeo h'' hs'' hd fun m hm => hQ _ m hm
    refine keeps_attempt ?_ fun e m hm => hQ _ m hm
    rw [startOrAlloc]
    split
    next =>
      refine allocCluster_counts hgeo h (by simp) fun d m' h' hd hlinks => ?_
      dsimp only
      rw [keeps_bind]
      exact hwrite d m' _ h' (hs.take hd hlinks) (Set.mem_insert d s)
    next hge =>
      exact keeps_bind.mpr (hwrite start m s h hs (hmem.resolve_left hge))

theorem dataStart_le {clusters : List Nat} {q : Nat × Nat} (h : q ∈ dirSlots geo clusters) :
    geo.dataStartSector ≤ q.1 := by
  rcases mem_dirSlots.mp h with ⟨c, -, hlo, -, -⟩
  exact Nat.le_trans (Nat.le_add_right _ _) hlo

theorem findFreeSlot_counts (hgeo : geo.Sound) (h : FreeCounted geo m) (hs : Used geo m s)
    {dir : Nat} (hmem : dir < 2 ∨ dir ∈ s) {Q : Nat × Nat → Memory → Prop}
    (hQ : ∀ slot m', FreeCounted geo m' → geo.dataStartSector ≤ slot.1 → Q slot m') :
    Keeps geo Q (findFreeSlot geo dir) m := by
  have hchain := hs.mem_chainOf hmem
  unfold Keeps
  simp only [findFreeSlot, Prog.wp_bind, wp_chain]
  rw [wp_freeSlotInClusters two_le_of_mem_chainOf]
  cases hfind : (dirSlots geo (chainOf geo m dir)).find? (freeAt m) with
  | some slot => exact hQ slot m h (dataStart_le (List.mem_of_find?_eq_some hfind))
  | none =>
    dsimp only
    rw [Prog.wp_bind]
    refine allocCluster_counts hgeo h ?_ fun d m' h' hd hlinks => ?_
    · intro p hp
      rcases Option.mem_some_iff.mp hp with rfl
      rcases List.eq_nil_or_concat' (chainOf geo m dir) with hnil | ⟨pre, last, hl⟩
      · rw [hnil, List.getLastD_nil]
        rcases hmem with hlt | hin
        · have hclusters := hgeo.clusters
          exact ⟨by omega, fun h2 => absurd h2 (by omega)⟩
        · exact hs.linkable hin
      · rw [hl, List.getLastD_concat]
        exact hs.linkable (hchain last (by simp [hl]))
    · simp only [clusterToSector_eq hd.1, Prog.wp_bind, Prog.wp_pure]
      refine zeroCluster_spec (fun _ _ _ _ _ _ => trivial) fun m'' hz => ?_
      exact hQ _ m'' (h'.sameBelow hgeo (hz.sameBelow (Nat.le_add_right _ _)))
        (Nat.le_add_right _ _)

theorem writeSector_counts (hgeo : geo.Sound) (h : FreeCounted geo m) {origin : Origin}
    {sector : Nat} {buf : Sector} (hsector : geo.dataStartSector ≤ sector)
    {Q : Unit → Memory → Prop} (hQ : ∀ m', FreeCounted geo m' → SameBelow geo m m' → Q () m') :
    Keeps geo Q (writeSector origin sector buf) m :=
  wp_writeSector.mpr ⟨trivial,
    hQ _ (h.sameBelow hgeo (sameBelow_write hsector buf)) (sameBelow_write hsector buf)⟩

/-! ## Calls -/

theorem listing_sector {d : Nat} {x : DirSlot × Name} (h : x ∈ listing geo m d) :
    geo.dataStartSector ≤ x.1.sector :=
  dataStart_le (mem_listing h).1

theorem resolve_sector {path : Name} {slot : DirSlot}
    (h : resolve geo m path = .ok (some slot)) :
    slot = rootSlot geo ∨ geo.dataStartSector ≤ slot.sector := by
  have hparts : ∀ (parts : List Name) (d : Nat), resolveParts geo m d parts = .ok (some slot) →
      geo.dataStartSector ≤ slot.sector := by
    intro parts
    induction parts with
    | nil =>
      intro d hd
      cases hd
    | cons part rest ih =>
      intro d hd
      rw [resolveParts] at hd
      cases hfind : listed geo m d part with
      | none =>
        rw [hfind] at hd
        cases hd
      | some x =>
        rw [hfind] at hd
        dsimp only at hd
        split at hd
        · cases hd
          exact listing_sector (List.mem_of_find?_eq_some hfind)
        · split at hd
          · cases hd
          · exact ih _ hd
  rw [resolve] at h
  split at h
  · cases h
    exact Or.inl rfl
  · exact Or.inr (hparts _ _ h)

def Clusterless (entry : FatDirEntry) : Prop := entry.isDirectory = true ∨ entry.cluster < 2

/-- The call frees no cluster, and the chain that it may extend is intact. -/
def Call.InStep (fs : Fat32Fs) (h : Handles) (m : Memory) : Call → Prop
  | .create path => ∀ dir name, resolveParent fs.geo m path = .ok (dir, name) →
      to83 name ≠ none →
      match listed fs.geo m dir name with
      | none => Intact fs.geo m dir
      | some x => Clusterless x.1.entry
  | .remove path => ∀ slot, resolve fs.geo m path = .ok (some slot) → Clusterless slot.entry
  | .truncate path => ∀ slot, resolve fs.geo m path = .ok (some slot) → Clusterless slot.entry
  | .mkdir path => ∀ dir name, resolveParent fs.geo m path = .ok (dir, name) →
      to83 name ≠ none → listed fs.geo m dir name = none → Intact fs.geo m dir
  | .rmdir path => ∀ slot, resolve fs.geo m path = .ok (some slot) →
      slot.entry.isDirectory = false ∨ slot.entry.cluster = fs.geo.rootCluster ∨
        slot.entry.cluster < 2 ∨
        ∃ x ∈ listing fs.geo m slot.entry.cluster, Fat32Fs.isHidden x.2 = false
  | .write i data => ∀ f, h.files[i]? = some f →
      f.readOnly = true ∨ data = [] ∨ Intact fs.geo m f.startCluster
  | .prepare _ _ | .writeBytes _ _ => False
  | .openFile _ | .read _ _ | .seek _ _ => True

def OnVolume (geo : Fat32Geo) (f : Fat32File) : Prop :=
  f.geo = geo ∧ geo.dataStartSector ≤ f.slot.sector

theorem freeChain_of_lt {start : Nat} (h : start < 2) : freeChain geo start = pure () := by
  rw [freeChain, chain, if_pos h]
  rfl

section Calls

variable {fs : Fat32Fs} {now : DosTime} {path : Name}

theorem keeps_guardWrite {body : Io α} {Q : α → Memory → Prop} (h : FreeCounted geo m)
    (hbody : Keeps geo Q body m) : Keeps geo Q (fs.guardWrite body) m := by
  unfold Fat32Fs.guardWrite
  split
  · exact h
  · exact hbody

theorem findSlot_counts (h : FreeCounted fs.geo m) {Q : DirSlot → Memory → Prop}
    (hQ : ∀ slot, resolve fs.geo m path = .ok (some slot) → Q slot m) :
    Keeps fs.geo Q (fs.findSlot path) m := by
  rw [Fat32Fs.findSlot, keeps_bind]
  refine wp_findPath.mpr ?_
  cases hres : resolve fs.geo m path with
  | error e => exact h
  | ok slot =>
    cases slot with
    | none => exact h
    | some slot => exact hQ slot hres

theorem setEntry_counts (hgeo : geo.Sound) (h : FreeCounted geo m) {slot : DirSlot}
    {cluster size : Nat} (hslot : geo.dataStartSector ≤ slot.sector) {Q : Unit → Memory → Prop}
    (hQ : ∀ m', FreeCounted geo m' → Q () m') :
    Keeps geo Q (setEntry now slot cluster size) m := by
  rw [setEntry, keeps_bind]
  exact writeSector_counts hgeo h hslot fun m' h' _ => hQ m' h'

theorem putEntry_counts (hgeo : geo.Sound) (h : FreeCounted geo m) {sector offset : Nat}
    {entry : FatDirEntry} (hsector : geo.dataStartSector ≤ sector) {Q : Unit → Memory → Prop}
    (hQ : ∀ m', FreeCounted geo m' → Q () m') :
    Keeps geo Q (putEntry sector offset entry) m := by
  rw [putEntry, keeps_bind]
  exact writeSector_counts hgeo h hsector fun m' h' _ => hQ m' h'

theorem file_sector {slot : DirSlot} (h : resolve geo m path = .ok (some slot))
    (hfile : slot.entry.isDirectory = false) : geo.dataStartSector ≤ slot.sector := by
  rcases resolve_sector h with rfl | hsector
  · rw [rootSlot_isDirectory] at hfile
    cases hfile
  · exact hsector

theorem remove_counts (hgeo : fs.geo.Sound) (h : FreeCounted fs.geo m)
    (hstep : (Call.remove path).InStep fs ⟨[], []⟩ m) {Q : Unit → Memory → Prop}
    (hQ : ∀ m', FreeCounted fs.geo m' → Q () m') : Keeps fs.geo Q (fs.remove path) m := by
  refine keeps_guardWrite h ?_
  rw [keeps_bind]
  refine findSlot_counts h fun slot hres => ?_
  by_cases hdir : slot.entry.isDirectory = true
  · rw [if_pos hdir]
    exact h
  · have hfile : slot.entry.isDirectory = false := by simpa using hdir
    have hlt := (hstep slot hres).resolve_left hdir
    rw [if_neg hdir, keeps_bind, freeChain_of_lt hlt]
    apply keeps_bind.mpr
    exact writeSector_counts hgeo h (file_sector hres hfile) fun m' h' _ => hQ m' h'

theorem truncate_counts (hgeo : fs.geo.Sound) (h : FreeCounted fs.geo m)
    (hstep : (Call.truncate path).InStep fs ⟨[], []⟩ m) {Q : Unit → Memory → Prop}
    (hQ : ∀ m', FreeCounted fs.geo m' → Q () m') : Keeps fs.geo Q (fs.truncate now path) m := by
  refine keeps_guardWrite h ?_
  rw [keeps_bind]
  refine findSlot_counts h fun slot hres => ?_
  by_cases hfile : slot.entry.isFile = true
  · have hnot := FatDirEntry.isDirectory_of_isFile hfile
    have hlt := (hstep slot hres).resolve_left (by simp [hnot])
    rw [if_neg (by simp [hfile]), keeps_bind, freeChain_of_lt hlt]
    exact setEntry_counts hgeo h (file_sector hres hnot) hQ
  · rw [if_pos (by simpa using hfile)]
    exact h

theorem rmdir_counts (h : FreeCounted fs.geo m)
    (hstep : (Call.rmdir path).InStep fs ⟨[], []⟩ m) {Q : Unit → Memory → Prop} :
    Keeps fs.geo Q (fs.rmdir path) m := by
  refine keeps_guardWrite h ?_
  rw [keeps_bind]
  refine findSlot_counts h fun slot hres => ?_
  by_cases hdir : slot.entry.isDirectory = true
  · rw [if_neg (by simp [hdir])]
    dsimp only
    by_cases hroot : slot.entry.cluster = fs.geo.rootCluster ∨ slot.entry.cluster < 2
    · rw [if_pos hroot]
      exact h
    · rw [if_neg hroot, keeps_bind]
      rw [not_or] at hroot
      have hvisible : ∃ x ∈ listing fs.geo m slot.entry.cluster,
          Fat32Fs.isHidden x.2 = false := by
        rcases hstep slot hres with hno | hno | hno | hvisible
        · rw [hdir] at hno
          cases hno
        · exact absurd hno hroot.1
        · exact absurd hno hroot.2
        · exact hvisible
      refine wp_readDir_listing.mpr ?_
      rw [if_pos (by simpa using hvisible)]
      exact h
  · rw [if_pos (by simpa using hdir)]
    exact h

theorem create_counts (hgeo : fs.geo.Sound) (h : FreeCounted fs.geo m)
    (hstep : (Call.create path).InStep fs ⟨[], []⟩ m) {Q : Fat32File → Memory → Prop}
    (hQ : ∀ f m', FreeCounted fs.geo m' → OnVolume fs.geo f → Q f m') :
    Keeps fs.geo Q (fs.create now path) m := by
  refine keeps_guardWrite h ?_
  rw [keeps_bind]
  refine wp_parentCluster.mpr ?_
  cases hparent : resolveParent fs.geo m path with
  | error e => exact h
  | ok r =>
    rcases r with ⟨dir, name⟩
    dsimp only
    cases hname : to83 name with
    | none => exact h
    | some name83 =>
      have hslot := hstep dir name hparent (by simp [hname])
      dsimp only
      rw [keeps_bind, Fat32Fs.createSlot, keeps_bind]
      refine wp_findInDir_listed.mpr ?_
      cases hfind : listed fs.geo m dir name with
      | none =>
        rw [hfind] at hslot
        rcases Intact.region hslot with ⟨s, hs, hmem⟩
        simp only [Option.map_none]
        rw [keeps_bind]
        refine findFreeSlot_counts hgeo h hs hmem fun slot m' h' hsector => ?_
        rw [keeps_bind]
        exact putEntry_counts hgeo h' hsector fun m'' h'' => hQ _ m'' h'' ⟨rfl, hsector⟩
      | some x =>
        rw [hfind] at hslot
        have hsector := listing_sector (List.mem_of_find?_eq_some hfind)
        simp only [Option.map_some]
        by_cases hdir : x.1.entry.isDirectory = true
        · rw [if_pos hdir]
          exact h
        · rw [if_neg hdir, keeps_bind, freeChain_of_lt (hslot.resolve_left hdir)]
          apply keeps_bind.mpr
          exact setEntry_counts hgeo h hsector fun m' h' => hQ _ m' h' ⟨rfl, hsector⟩

theorem mkdir_counts (hgeo : fs.geo.Sound) (h : FreeCounted fs.geo m)
    (hstep : (Call.mkdir path).InStep fs ⟨[], []⟩ m) {Q : Unit → Memory → Prop}
    (hQ : ∀ m', FreeCounted fs.geo m' → Q () m') : Keeps fs.geo Q (fs.mkdir now path) m := by
  refine keeps_guardWrite h ?_
  rw [keeps_bind]
  refine wp_parentCluster.mpr ?_
  cases hparent : resolveParent fs.geo m path with
  | error e => exact h
  | ok r =>
    rcases r with ⟨dir, name⟩
    dsimp only
    cases hname : to83 name with
    | none => exact h
    | some name83 =>
      dsimp only
      rw [keeps_bind]
      refine wp_findInDir_listed.mpr ?_
      cases hfind : listed fs.geo m dir name with
      | some x => exact h
      | none =>
        rcases (hstep dir name hparent (by simp [hname]) hfind).region with ⟨s, hs, hmem⟩
        dsimp only [Option.map_none]
        rw [keeps_bind]
        refine allocCluster_counts hgeo h (by simp) fun d m₁ h₁ hd hlinks => ?_
        have hs₁ := hs.take hd hlinks
        have hbase : fs.geo.dataStartSector ≤
            fs.geo.dataStartSector + (d - 2) * fs.geo.sectorsPerCluster := Nat.le_add_right _ _
        rw [clusterToSector_eq hd.1]
        dsimp only
        rw [keeps_bind]
        refine zeroCluster_spec (fun _ _ _ _ _ _ => trivial) fun m₂ hz => ?_
        have hs₂ := hs₁.sameBelow hgeo (hz.sameBelow hbase)
        rw [keeps_bind]
        refine writeSector_counts hgeo (h₁.sameBelow hgeo (hz.sameBelow hbase)) hbase
          fun m₃ h₃ hsame => ?_
        rw [keeps_bind]
        refine findFreeSlot_counts hgeo h₃ (hs₂.sameBelow hgeo hsame)
          (hmem.imp_right (Set.mem_insert_of_mem d)) fun slot m₄ h₄ hsector => ?_
        exact putEntry_counts hgeo h₄ hsector hQ

theorem openFile_counts (h : FreeCounted fs.geo m) {Q : Fat32File → Memory → Prop}
    (hQ : ∀ f, OnVolume fs.geo f → Q f m) : Keeps fs.geo Q (fs.openFile path) m := by
  rw [Fat32Fs.openFile, keeps_bind]
  refine findSlot_counts h fun slot hres => ?_
  by_cases hdir : slot.entry.isDirectory = true
  · rw [if_pos hdir]
    exact h
  · rw [if_neg hdir]
    split
    · exact h
    · rw [keeps_bind]
      refine (readOnly_readChain slot.entry.cluster).wp (fun data _ => ?_) fun _ _ => h
      exact hQ _ ⟨rfl, file_sector hres (by simpa using hdir)⟩

theorem write_counts (hgeo : geo.Sound) (h : FreeCounted geo m) {f : Fat32File}
    (hf : OnVolume geo f) {data : List UInt8}
    (hstep : f.readOnly = true ∨ data = [] ∨ Intact geo m f.startCluster)
    {Q : Fat32File × Except FsError Nat → Memory → Prop}
    (hQ : ∀ r m', FreeCounted geo m' → OnVolume geo r.1 → Q r m') :
    Keeps geo Q (f.write now data) m := by
  rw [Fat32File.write]
  by_cases hro : f.readOnly = true
  · rw [if_pos hro]
    exact hQ _ m h hf
  · have hchain : data ≠ [] → Intact geo m f.startCluster := fun hne =>
      (hstep.resolve_left hro).resolve_left hne
    rw [if_neg hro]
    dsimp only
    rw [keeps_bind, hf.1]
    refine writeRange_counts hgeo h hchain ?_
    rintro ⟨start, written⟩ m' h'
    cases written with
    | error e => exact hQ _ m' h' ⟨rfl, hf.2⟩
    | ok newEnd =>
      dsimp only
      rw [keeps_bind]
      exact keeps_attempt (setEntry_counts hgeo h' hf.2 fun m'' h'' => hQ _ m'' h'' ⟨rfl, hf.2⟩)
        fun e m'' h'' => hQ _ m'' h'' ⟨rfl, hf.2⟩

theorem call_counts (hgeo : fs.geo.Sound) (h : FreeCounted fs.geo m) {hs : Handles}
    (hfiles : ∀ f ∈ hs.files, OnVolume fs.geo f) {call : Call} (hstep : call.InStep fs hs m) :
    Keeps fs.geo (fun hs' m' => FreeCounted fs.geo m' ∧ ∀ f ∈ hs'.files, OnVolume fs.geo f)
      (call.prog fs now hs) m := by
  have hset : ∀ (i : Nat) (f : Fat32File), OnVolume fs.geo f →
      ∀ g ∈ hs.files.set i f, OnVolume fs.geo g := by
    intro i f hf g hg
    rcases List.mem_or_eq_of_mem_set hg with hg | rfl
    · exact hfiles g hg
    · exact hf
  have hadd : ∀ f : Fat32File, OnVolume fs.geo f →
      ∀ g ∈ hs.files ++ [f], OnVolume fs.geo g := by
    intro f hf g hg
    rcases List.mem_append.mp hg with hg | hg
    · exact hfiles g hg
    · rw [List.mem_singleton] at hg
      exact hg ▸ hf
  cases call with
  | create path =>
    rw [Call.prog, keeps_bind]
    exact create_counts hgeo h hstep fun f m' h' hf => ⟨h', hadd f hf⟩
  | openFile path =>
    rw [Call.prog, keeps_bind]
    exact openFile_counts h fun f hf => ⟨h, hadd f hf⟩
  | remove path =>
    rw [Call.prog, keeps_bind]
    exact remove_counts hgeo h hstep fun m' h' => ⟨h', hfiles⟩
  | truncate path =>
    rw [Call.prog, keeps_bind]
    exact truncate_counts hgeo h hstep fun m' h' => ⟨h', hfiles⟩
  | mkdir path =>
    rw [Call.prog, keeps_bind]
    exact mkdir_counts hgeo h hstep fun m' h' => ⟨h', hfiles⟩
  | rmdir path =>
    rw [Call.prog, keeps_bind]
    exact rmdir_counts h hstep
  | read i len =>
    rw [Call.prog]
    cases hf : hs.files[i]? with
    | none => exact ⟨h, hfiles⟩
    | some f =>
      have hon := hfiles f (List.mem_of_getElem? hf)
      refine ⟨h, hset i _ ⟨(f.read_geo len).trans hon.1, ?_⟩⟩
      unfold Fat32File.read
      split <;> exact hon.2
  | seek i pos =>
    rw [Call.prog]
    cases hf : hs.files[i]? with
    | none => exact ⟨h, hfiles⟩
    | some f =>
      have hon := hfiles f (List.mem_of_getElem? hf)
      refine ⟨h, hset i _ ⟨(f.seek_geo pos).trans hon.1, ?_⟩⟩
      unfold Fat32File.seek
      extract_lets new
      split <;> exact hon.2
  | write i data =>
    rw [Call.prog]
    cases hf : hs.files[i]? with
    | none => exact ⟨h, hfiles⟩
    | some f =>
      dsimp only
      rw [keeps_bind]
      exact write_counts hgeo h (hfiles f (List.mem_of_getElem? hf)) (hstep f hf)
        fun r m' h' hr => ⟨h', hset i r.1 hr⟩
  | prepare file shell => exact hstep.elim
  | writeBytes i data => exact hstep.elim

end Calls

/-- On a volume mounted read-write whose stored count is right, a run whose calls
all free no cluster and extend intact chains only ends with the count right. -/
theorem free_count_follows {m₀ : Memory} {fs : Fat32Fs}
    (hmount : (Fat32Fs.newRw.run disk m₀).1 = .ok fs) (hsane : fs.geo.Sane)
    (hcount : FreeCounted fs.geo m₀) {s : Session}
    (hrun : s.Run fs (fun s _ call => call.InStep fs s.handles s.memory) m₀) :
    FreeCounted fs.geo s.memory := by
  have hgeo : fs.geo.Sound := ⟨Fat32BootSector.geo_valid (Fat32Fs.withMode_run hmount).1, hsane⟩
  have hinv : FreeCounted fs.geo s.memory ∧ ∀ f ∈ s.handles.files, OnVolume fs.geo f := by
    induction hrun with
    | mount => exact ⟨hcount, by simp⟩
    | @call s now call _ ha ih =>
      have hstep := Prog.wp_run (p := call.prog fs now s.handles)
        (call_counts hgeo ih.1 ih.2 ha)
      unfold Session.exec
      revert hstep
      rcases (call.prog fs now s.handles).run disk s.memory with ⟨_ | handles, m'⟩
      · exact fun h => ⟨h, ih.2⟩
      · exact id
  exact hinv.1

/-- Three clusters behind a FSInfo sector: the root directory, the file "A" in
cluster 3, and one free cluster. -/
def countedVolume : Memory :=
  Memory.put (Memory.put (Memory.put (Memory.put (Memory.put (Memory.put (fun _ => 0)
    11 [0, 2, 1, 2, 0, 1]) 32 (toLe32 6 ++ toLe32 1)) 44 (toLe32 2 ++ [1]))
    512 (toLe32 0x4161_5252)) 996 (toLe32 0x6141_7272 ++ toLe32 1))
    1032 (toLe32 fatEoc ++ toLe32 fatEoc) |>.put 1536
    { Fat32Fs.fileEntry ⟨0, 0⟩ (0x41 :: List.replicate 10 0x20) with
      firstClusterLow := 3, fileSize := 2 }.bytes

def countedFs : Fat32Fs := ⟨⟨2, 1, 1, 3, 1, 512, 2, 1, 3, List.replicate 11 0⟩, false, false⟩

theorem countedVolume_read : (Fat32Fs.newRw.run disk countedVolume).1 = .ok countedFs ∧
    FreeCounted countedFs.geo countedVolume :=
  ⟨by decide,
    ⟨⟨by decide, by decide⟩, by decide, by decide, by decide⟩, by decide⟩

theorem countedVolume_mounts : (Fat32Fs.newRw.run disk countedVolume).1 = .ok countedFs :=
  countedVolume_read.1

theorem countedVolume_counted : FreeCounted countedFs.geo countedVolume :=
  countedVolume_read.2

/-- The directory "B" takes the free cluster, and the stored count goes to 0. -/
theorem free_count_follows_mkdir :
    let s := Session.exec countedFs ⟨⟨[], []⟩, countedVolume⟩ ⟨0, 0⟩ (.mkdir ['/', 'B'])
    storedFree countedFs.geo s.memory = 0 ∧ FreeCounted countedFs.geo s.memory := by
  refine ⟨by decide, ?_⟩
  have hsane : countedFs.geo.Sane := ⟨by decide, by decide, fun _ => Or.inl (by decide)⟩
  refine free_count_follows countedVolume_mounts hsane countedVolume_counted
    (.call .mount ?_)
  intro dir name hparent _ _
  have hparent' : resolveParent countedFs.geo countedVolume ['/', 'B'] = .ok (2, ['B']) := by
    decide
  have hdir : dir = 2 := by
    rw [hparent, Except.ok.injEq, Prod.mk.injEq] at hparent'
    exact hparent'.1
  subst hdir
  refine Or.inr fun c hc => ?_
  have hstop : links countedFs.geo countedVolume 2 = .stop := by decide
  have hclosed : LinkTable.Closed (links countedFs.geo countedVolume) {2} := by
    rintro _ rfl b hb
    rw [hstop] at hb
    cases hb
  rcases hclosed.mem_of_leads rfl hc with rfl
  exact ⟨⟨by decide, by decide⟩, by simp [hstop]⟩

/-- Removing the file "A" succeeds, and the count stays at 1 with two clusters free. -/
theorem free_count_follows_fails :
    (Fat32Fs.newRw.run disk countedVolume).1 = .ok countedFs ∧
    FreeCounted countedFs.geo countedVolume ∧
    ((countedFs.remove ['/', 'A']).run disk countedVolume).1 = .ok () ∧
    ¬FreeCounted countedFs.geo ((countedFs.remove ['/', 'A']).run disk countedVolume).2 := by
  refine ⟨countedVolume_mounts, countedVolume_counted, by decide, fun h => ?_⟩
  have hcount := h.count
  revert hcount
  decide

end Vibra.Fat32
