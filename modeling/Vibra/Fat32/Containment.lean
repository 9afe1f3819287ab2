import Vibra.Fat32.SlotSpec
import Vibra.Fat32.System

/-! # Where writes go

On a damaged volume a chain can lead out of the data area, and the driver follows it.
-/

namespace Vibra.Fat32

open Lib (Memory Prog Write LinkTable)
open Lib.Memory (toLe32)
open Lib.Prog (wp ReadOnly)

variable {geo : Fat32Geo} {m m' : Memory} {s : Set Nat} {α : Type}

def Fat32Geo.InDataArea (geo : Fat32Geo) (sector : Nat) : Prop :=
  geo.dataStartSector ≤ sector ∧
    sector < geo.dataStartSector + geo.totalClusters * geo.sectorsPerCluster

/-- Table writes go to the copies of the table, data and entries to the clusters. -/
def Contained (geo : Fat32Geo) (w : Write Sector Origin) : Prop :=
  match w.tag with
  | .fat => geo.fatStartSector ≤ w.sector ∧
      w.sector < geo.fatStartSector + geo.fatCount * geo.fatSize
  | .fsInfo => True
  | .data => geo.InDataArea w.sector
  | .entry => geo.InDataArea w.sector

theorem MetaWrite.contained {w : Write Sector Origin} (h : MetaWrite geo w) : Contained geo w := by
  rcases h with ⟨htag, hsector⟩ | ⟨htag, -⟩
  · simp only [Contained, htag]
    exact hsector
  · simp only [Contained, htag]

theorem inDataArea_of_cluster {c sector : Nat} (hc : geo.InRange c)
    (hlo : geo.dataStartSector + (c - 2) * geo.sectorsPerCluster ≤ sector)
    (hhi : sector < geo.dataStartSector + (c - 2) * geo.sectorsPerCluster + geo.sectorsPerCluster) :
    geo.InDataArea sector := by
  obtain ⟨h2, hlt⟩ := hc
  have hgap := copy_gap geo.sectorsPerCluster (show c - 2 < geo.totalClusters by omega)
  exact ⟨by omega, by omega⟩

theorem DataWrite.contained {c : Nat} {w : Write Sector Origin} (hc : geo.InRange c)
    (h : DataWrite geo c w) : Contained geo w := by
  obtain ⟨htag, hlo, hhi⟩ := h
  simp only [Contained, htag]
  exact inDataArea_of_cluster hc hlo hhi

structure Region (geo : Fat32Geo) (m : Memory) (s : Set Nat) : Prop where
  range : ∀ c ∈ s, geo.InRange c
  closed : LinkTable.Closed (links geo m) s

namespace Region

theorem empty (geo : Fat32Geo) (m : Memory) : Region geo m ∅ := ⟨by simp, by simp [LinkTable.Closed]⟩

theorem sameLinks (h : Region geo m s) (hlinks : SameLinks geo (links geo m) (links geo m')) :
    Region geo m' s :=
  ⟨h.range, h.closed.congr fun c hc => hlinks c (h.range c hc).2⟩

theorem sameFat (h : Region geo m s) (hgeo : geo.Sound) (heq : ∀ a, geo.InFat a → m' a = m a) :
    Region geo m' s :=
  h.sameLinks (frame_of_sameFat hgeo heq).2.2

theorem take (h : Region geo m s) {prev : Option Nat} {d : Nat} (hd : geo.InRange d)
    (hlinks : SameLinks geo (takenLinks (links geo m) prev d) (links geo m')) :
    Region geo m' (insert d s) := by
  have hrange : ∀ c ∈ insert d s, geo.InRange c := by
    rintro c (rfl | hc)
    · exact hd
    · exact h.range c hc
  refine ⟨hrange, LinkTable.Closed.congr ?_ fun c hc => hlinks c (hrange c hc).2⟩
  cases prev with
  | none => exact h.closed.insert_stop d
  | some p => exact (h.closed.insert_stop d).link (Set.mem_insert d s) p

theorem mem_walk (h : Region geo m s) {room start : Nat} (hstart : start ∈ s) :
    ∀ c ∈ walk geo m room start, c ∈ s := by
  induction room generalizing start with
  | zero => simp [walk]
  | succ room ih =>
    intro c hc
    rw [walk] at hc
    by_cases hend : endsChain (fatValue geo m start) = true
    · rw [if_pos hend, List.mem_singleton] at hc
      exact hc ▸ hstart
    · rw [if_neg hend] at hc
      rcases List.mem_cons.mp hc with rfl | hc
      · exact hstart
      · refine ih (h.closed start hstart _ ?_) c hc
        by_contra hne
        refine hend (endsChain_of_ne_next fun d hd => hne ?_)
        rw [(links_eq_next hd).2]
        exact hd

theorem mem_chainOf (h : Region geo m s) {start : Nat} (hstart : start < 2 ∨ start ∈ s) :
    ∀ c ∈ chainOf geo m start, c ∈ s := by
  unfold chainOf
  split
  · simp
  next hlt => exact h.mem_walk (hstart.resolve_left hlt)

end Region

def InVolume (geo : Fat32Geo) (m : Memory) (start : Nat) : Prop :=
  start < 2 ∨ ∀ c, LinkTable.Leads (links geo m) start c → geo.InRange c

theorem InVolume.region {start : Nat} (h : InVolume geo m start) :
    ∃ s, Region geo m s ∧ (start < 2 ∨ start ∈ s) := by
  rcases h with h | h
  · exact ⟨∅, .empty geo m, Or.inl h⟩
  · exact ⟨_, ⟨h, LinkTable.closed_leads _ start⟩, Or.inr .refl⟩

/-! ## Programs that keep to the volume -/

/-- Every write is contained, and the program ends in `Q` if it has a result. -/
def Safe (geo : Fat32Geo) (Q : α → Memory → Prop) (p : Io α) (m : Memory) : Prop :=
  wp disk (fun _ w => Contained geo w) Q (fun _ _ => True) p m

section Programs

@[simp] theorem safe_pure {Q : α → Memory → Prop} (a : α) : Safe geo Q (pure a) m ↔ Q a m := Iff.rfl

@[simp] theorem safe_fail {Q : α → Memory → Prop} (e : FsError) : Safe geo Q (.fail e) m :=
  trivial

theorem safe_bind {β : Type} {p : Io α} {f : α → Io β} {Q : β → Memory → Prop} :
    Safe geo Q (p >>= f) m ↔ Safe geo (fun a m => Safe geo Q (f a) m) p m :=
  Prog.wp_bind p f m

theorem safe_attempt {p : Io α} {Q : Except FsError α → Memory → Prop}
    (h : Safe geo (fun a m => Q (.ok a) m) p m) (he : ∀ e m, Q (.error e) m) :
    Safe geo Q p.attempt m := by
  unfold Safe
  rw [Prog.wp_attempt]
  exact Prog.wp_post h (fun _ _ h => h) fun e m _ => he e m

theorem safe_readOnly {p : Io α} (hp : ReadOnly p) {Q : α → Memory → Prop}
    (hQ : ∀ a, p.run disk m = (.ok a, m) → Q a m) : Safe geo Q p m :=
  hp.wp hQ fun _ _ => trivial

theorem allocCluster_safe (hgeo : geo.Sound) (hs : Region geo m s) {prev : Option Nat}
    (hprev : ∀ p ∈ prev, p < geo.totalClusters + 2) {Q : Nat → Memory → Prop}
    (hQ : ∀ d m', geo.InRange d → Region geo m' (insert d s) → Q d m') :
    Safe geo Q (allocCluster geo prev) m :=
  allocCluster_spec hgeo hprev (fun _ => trivial) (fun _ _ _ _ _ _ _ hw => hw.contained)
    fun d m' hd _ _ hlinks => hQ d m' hd (hs.take hd hlinks)

theorem nextOrAlloc_safe (hgeo : geo.Sound) (hs : Region geo m s) {c : Nat} (hc : c ∈ s)
    {Q : Nat → Memory → Prop}
    (hQ : ∀ d m' s', s ⊆ s' → Region geo m' s' → d ∈ s' → Q d m') :
    Safe geo Q (nextOrAlloc geo c) m := by
  by_cases hnext : ∃ d, links geo m c = .next d
  · obtain ⟨d, hd⟩ := hnext
    exact (nextOrAlloc_next hd).mpr (hQ d m s subset_rfl hs (hs.closed c hc d hd))
  · refine (nextOrAlloc_end (not_exists.mp hnext)).mpr (allocCluster_safe hgeo hs ?_ ?_)
    · intro p hp
      obtain rfl := Option.mem_some_iff.mp hp
      exact (hs.range c hc).2
    · exact fun d m' _ hs' => hQ d m' _ (Set.subset_insert d s) hs' (Set.mem_insert d s)

theorem walkTo_safe (hgeo : geo.Sound) (hs : Region geo m s) {count c : Nat} (hc : c ∈ s)
    {Q : Nat → Memory → Prop} (hQ : ∀ d m' s', Region geo m' s' → d ∈ s' → Q d m') :
    Safe geo Q (walkTo geo count c) m := by
  induction count generalizing m s c with
  | zero => exact hQ c m s hs hc
  | succ count ih =>
    rw [walkTo, safe_bind]
    exact nextOrAlloc_safe hgeo hs hc fun d m' s' _ hs' hd => ih hs' hd

theorem writeClusterRange_safe (hgeo : geo.Sound) (hs : Region geo m s) {c within : Nat}
    (hc : c ∈ s) {data : List UInt8} (hfit : within + data.length ≤ geo.clusterSize)
    {Q : Unit → Memory → Prop} (hQ : ∀ m', Region geo m' s → Q () m') :
    Safe geo Q (writeClusterRange geo c within data) m := by
  have hrange := hs.range c hc
  refine writeClusterRange_spec hgeo.toValid hrange.1 hfit (fun _ w hw => hw.contained hrange)
    (hQ _ (hs.sameFat hgeo fun a ha => Memory.put_of_outside ?_))
  by_contra hin
  refine clusterAddr_not_inFat hgeo.toValid c (a - geo.clusterAddr c) ?_
  rwa [Nat.add_sub_cancel' (by omega)]

theorem writeClusters_safe (hgeo : geo.Sound) (hs : Region geo m s) {steps c position : Nat}
    (hc : c ∈ s) {data : List UInt8} {Q : Unit → Memory → Prop} (hQ : ∀ m', Q () m') :
    Safe geo Q (writeClusters geo steps c position data) m := by
  induction steps generalizing m s c position data with
  | zero => exact hQ m
  | succ steps ih =>
    rw [writeClusters]
    by_cases hnil : data = []
    · rw [if_pos hnil]
      exact hQ m
    · rw [if_neg hnil, safe_bind]
      have hmod := Nat.mod_lt position hgeo.clusterSize_pos
      refine writeClusterRange_safe hgeo hs hc (by rw [List.length_take]; omega) fun m' hs' => ?_
      dsimp only
      split
      · exact hQ m'
      · rw [safe_bind]
        exact nextOrAlloc_safe hgeo hs' hc fun d m'' s'' _ hs'' hd => ih hs'' hd

theorem writeRange_safe (hgeo : geo.Sound) {start offset : Nat} {data : List UInt8}
    (hstart : data ≠ [] → InVolume geo m start) {Q : Nat × Except FsError Nat → Memory → Prop}
    (hQ : ∀ r m', Q r m') : Safe geo Q (writeRange geo start offset data) m := by
  rw [writeRange]
  by_cases hnil : data = []
  · rw [if_pos hnil]
    exact hQ _ m
  · obtain ⟨s, hs, hmem⟩ := (hstart hnil).region
    rw [if_neg hnil, safe_bind]
    have hwrite : ∀ first m' s', Region geo m' s' → first ∈ s' →
        Safe geo (fun r m => Q (first, r) m) (Prog.attempt (do
          let cluster ← walkTo geo (offset / geo.clusterSize) first
          writeClusters geo data.length cluster offset data
          pure (offset + data.length)) : Io (Except FsError Nat)) m' := by
      intro first m' s' hs' hfirst
      refine safe_attempt ?_ fun e m => hQ _ m
      rw [safe_bind]
      refine walkTo_safe hgeo hs' hfirst fun d m'' s'' hs'' hd => ?_
      rw [safe_bind]
      exact writeClusters_safe hgeo hs'' hd fun m => hQ _ m
    refine safe_attempt ?_ fun e m => hQ _ m
    rw [startOrAlloc]
    split
    next =>
      refine allocCluster_safe hgeo hs (by simp) fun d m' _ hs' => ?_
      dsimp only
      rw [safe_bind]
      exact hwrite d m' _ hs' (Set.mem_insert d s)
    next hge =>
      dsimp only
      rw [safe_pure, safe_bind]
      exact hwrite start m s hs (hmem.resolve_left hge)

theorem freeChain_safe (hgeo : geo.Sound) {start : Nat} (hstart : InVolume geo m start)
    {Q : Unit → Memory → Prop} (hQ : ∀ m', Q () m') : Safe geo Q (freeChain geo start) m := by
  obtain ⟨s, hs, hmem⟩ := hstart.region
  unfold Safe
  rw [freeChain, Prog.wp_bind, wp_chain]
  exact freeClusters_spec hgeo (fun c hc => (hs.range c (hs.mem_chainOf hmem c hc)).2)
    (fun _ _ hw => hw.contained) fun m' _ _ => hQ m'

theorem findFreeSlot_safe (hgeo : geo.Sound) (hs : Region geo m s) {dir : Nat}
    (hdir : dir < 2 ∨ dir ∈ s) {Q : Nat × Nat → Memory → Prop}
    (hQ : ∀ slot m', geo.InDataArea slot.1 → Q slot m') : Safe geo Q (findFreeSlot geo dir) m := by
  have hchain := hs.mem_chainOf hdir
  unfold Safe
  simp only [findFreeSlot, Prog.wp_bind, wp_chain]
  rw [wp_freeSlotInClusters two_le_of_mem_chainOf]
  cases hfind : (dirSlots geo (chainOf geo m dir)).find? (freeAt m) with
  | some slot =>
    obtain ⟨c, hc, hlo, hhi, -⟩ := mem_dirSlots.mp (List.mem_of_find?_eq_some hfind)
    exact hQ slot m (inDataArea_of_cluster (hs.range c (hchain c hc)) hlo hhi)
  | none =>
    dsimp only
    rw [Prog.wp_bind]
    refine allocCluster_safe hgeo hs ?_ fun d m' hd hs' => ?_
    · intro p hp
      obtain rfl := Option.mem_some_iff.mp hp
      rcases List.eq_nil_or_concat' (chainOf geo m dir) with hnil | ⟨pre, last, hl⟩
      · rw [hnil, List.getLastD_nil]
        rcases hdir with h | h
        · have := hgeo.clusters
          omega
        · exact (hs.range dir h).2
      · rw [hl, List.getLastD_concat]
        exact (hs.range last (hchain last (by simp [hl]))).2
    · simp only [clusterToSector_eq hd.1, Prog.wp_bind, Prog.wp_pure]
      refine zeroCluster_spec (fun _ _ w _ _ hw => hw.contained hd) fun m'' _ => hQ _ m'' ?_
      have := hgeo.spc
      exact inDataArea_of_cluster hd (Nat.le_refl _) (by simp only; omega)

theorem writeEntry_safe {sector : Nat} {buf : Sector} (h : geo.InDataArea sector)
    {Q : Unit → Memory → Prop} (hQ : ∀ m', Q () m') :
    Safe geo Q (writeSector .entry sector buf) m :=
  wp_writeSector.mpr ⟨h, hQ _⟩

end Programs

/-! ## Conditions on calls -/

def SlotInVolume (geo : Fat32Geo) (m : Memory) (slot : DirSlot) : Prop :=
  geo.InDataArea slot.sector ∧ InVolume geo m slot.entry.cluster

/-- The slot of the path, if there is one, meets `P`. -/
def Found (geo : Fat32Geo) (m : Memory) (path : Name) (P : DirSlot → Prop) : Prop :=
  ∀ slot, (findPath geo path).run disk m = (.ok (some slot), m) → P slot

/-- The directory of a new name, and the slot that the name has already, meet `P`. -/
def Resolved (geo : Fat32Geo) (m : Memory) (path : Name) (P : Nat → Option DirSlot → Prop) : Prop :=
  ∀ dir name slot, (parentCluster geo path).run disk m = (.ok (dir, name), m) →
    to83 name ≠ none → (findInDir geo dir name).run disk m = (.ok slot, m) → P dir slot

def CreateInVolume (geo : Fat32Geo) (m : Memory) (path : Name) : Prop :=
  Resolved geo m path fun dir slot =>
    match slot with
    | none => InVolume geo m dir
    | some slot => slot.entry.isDirectory = false → SlotInVolume geo m slot

/-- The slots and chains that the call changes lie in the volume. -/
def Call.InVolume (fs : Fat32Fs) (h : Handles) (m : Memory) : Call → Prop
  | .create path => CreateInVolume fs.geo m path
  | .remove path =>
    Found fs.geo m path fun slot => slot.entry.isDirectory = false → SlotInVolume fs.geo m slot
  | .truncate path =>
    Found fs.geo m path fun slot => slot.entry.isFile = true → SlotInVolume fs.geo m slot
  | .mkdir path =>
    Resolved fs.geo m path fun dir slot => slot = none → Fat32.InVolume fs.geo m dir
  | .rmdir path =>
    Found fs.geo m path fun slot => slot.entry.isDirectory = true →
      slot.entry.cluster ≠ fs.geo.rootCluster → 2 ≤ slot.entry.cluster →
      (∀ e ∈ scanDir fs.geo m (chainOf fs.geo m slot.entry.cluster), Fat32Fs.isHidden e.2 = true) →
      SlotInVolume fs.geo m slot
  | .write i data =>
    ∀ f, h.files[i]? = some f → f.readOnly = false →
      fs.geo.InDataArea f.slot.sector ∧ (data ≠ [] → Fat32.InVolume fs.geo m f.startCluster)
  | .prepare file _ =>
    (fs.lookup file).run disk m = (.ok none, m) → CreateInVolume fs.geo m file
  | .writeBytes i data =>
    ∀ sink, h.sinks[i]? = some sink → data ≠ [] →
      fs.geo.InDataArea sink.slot.sector ∧ Fat32.InVolume fs.geo m sink.startCluster
  | .openFile _ => True
  | .read _ _ => True
  | .seek _ _ => True

section Calls

variable {fs : Fat32Fs} {now : DosTime}

theorem safe_guardWrite {body : Io α} {Q : α → Memory → Prop} (h : Safe geo Q body m) :
    Safe geo Q (fs.guardWrite body) m := by
  unfold Fat32Fs.guardWrite
  split
  · exact safe_fail _
  · exact h

theorem setEntry_safe {slot : DirSlot} {cluster size : Nat} (h : geo.InDataArea slot.sector)
    {Q : Unit → Memory → Prop} (hQ : ∀ m', Q () m') :
    Safe geo Q (setEntry now slot cluster size) m := by
  rw [setEntry, safe_bind]
  exact writeEntry_safe h hQ

theorem putEntry_safe {sector offset : Nat} {entry : FatDirEntry} (h : geo.InDataArea sector)
    {Q : Unit → Memory → Prop} (hQ : ∀ m', Q () m') :
    Safe geo Q (putEntry sector offset entry) m := by
  rw [putEntry, safe_bind]
  exact writeEntry_safe h hQ

theorem deleteEntry_safe {slot : DirSlot} (h : geo.InDataArea slot.sector)
    {Q : Unit → Memory → Prop} (hQ : ∀ m', Q () m') : Safe geo Q (deleteEntry slot) m := by
  rw [deleteEntry, safe_bind]
  exact writeEntry_safe h hQ

theorem findSlot_safe {path : Name} {P : DirSlot → Prop} (h : Found fs.geo m path P)
    {Q : DirSlot → Memory → Prop} (hQ : ∀ slot, P slot → Q slot m) :
    Safe geo Q (fs.findSlot path) m := by
  rw [Fat32Fs.findSlot, safe_bind]
  refine safe_readOnly (readOnly_findPath path) fun slot hrun => ?_
  cases slot with
  | none => exact safe_fail _
  | some slot => exact hQ slot (h slot hrun)

theorem remove_safe (hgeo : fs.geo.Sound) {path : Name}
    (h : (Call.remove path).InVolume fs ⟨[], []⟩ m) {Q : Unit → Memory → Prop}
    (hQ : ∀ m', Q () m') : Safe fs.geo Q (fs.remove path) m := by
  refine safe_guardWrite ?_
  rw [safe_bind]
  refine findSlot_safe h fun slot hslot => ?_
  by_cases hdir : slot.entry.isDirectory = true
  · rw [if_pos hdir]
    exact safe_fail _
  · obtain ⟨harea, hchain⟩ := hslot (by simpa using hdir)
    rw [if_neg hdir, safe_bind]
    exact freeChain_safe hgeo hchain fun m' => deleteEntry_safe harea hQ

theorem truncate_safe (hgeo : fs.geo.Sound) {path : Name}
    (h : (Call.truncate path).InVolume fs ⟨[], []⟩ m) {Q : Unit → Memory → Prop}
    (hQ : ∀ m', Q () m') : Safe fs.geo Q (fs.truncate now path) m := by
  refine safe_guardWrite ?_
  rw [safe_bind]
  refine findSlot_safe h fun slot hslot => ?_
  by_cases hfile : slot.entry.isFile = true
  · obtain ⟨harea, hchain⟩ := hslot hfile
    rw [if_neg (by simp [hfile]), safe_bind]
    exact freeChain_safe hgeo hchain fun m' => setEntry_safe harea hQ
  · rw [if_pos (by simpa using hfile)]
    exact safe_fail _

theorem rmdir_safe (hgeo : fs.geo.Sound) {path : Name}
    (h : (Call.rmdir path).InVolume fs ⟨[], []⟩ m) {Q : Unit → Memory → Prop}
    (hQ : ∀ m', Q () m') : Safe fs.geo Q (fs.rmdir path) m := by
  refine safe_guardWrite ?_
  rw [safe_bind]
  refine findSlot_safe h fun slot hslot => ?_
  by_cases hdir : slot.entry.isDirectory = true
  · rw [if_neg (by simp [hdir])]
    dsimp only
    by_cases hroot : slot.entry.cluster = fs.geo.rootCluster ∨ slot.entry.cluster < 2
    · rw [if_pos hroot]
      exact safe_fail _
    · rw [if_neg hroot, safe_bind]
      rw [not_or] at hroot
      refine wp_readDir.mpr ?_
      by_cases hfull : (scanDir fs.geo m (chainOf fs.geo m slot.entry.cluster)).any
          fun e => !Fat32Fs.isHidden e.2
      · rw [if_pos hfull]
        exact safe_fail _
      · rw [if_neg hfull, safe_bind]
        obtain ⟨harea, hchain⟩ := hslot hdir hroot.1 (by omega) (by simpa using hfull)
        exact freeChain_safe hgeo hchain fun m' => deleteEntry_safe harea hQ
  · rw [if_pos (by simpa using hdir)]
    exact safe_fail _

theorem create_safe (hgeo : fs.geo.Sound) {path : Name} (h : CreateInVolume fs.geo m path)
    {Q : Fat32File → Memory → Prop} (hQ : ∀ f m', f.geo = fs.geo → Q f m') :
    Safe fs.geo Q (fs.create now path) m := by
  refine safe_guardWrite ?_
  rw [safe_bind]
  refine safe_readOnly (readOnly_parentCluster path) fun ⟨dir, name⟩ hparent => ?_
  dsimp only
  cases hname : to83 name with
  | none => exact safe_fail _
  | some name83 =>
    dsimp only
    rw [safe_bind, Fat32Fs.createSlot, safe_bind]
    refine safe_readOnly (readOnly_findInDir dir name) fun slot hfind => ?_
    have hslot := h dir name slot hparent (by simp [hname]) hfind
    cases slot with
    | none =>
      obtain ⟨s, hs, hdir⟩ := InVolume.region hslot
      rw [safe_bind]
      refine findFreeSlot_safe hgeo hs hdir fun slot m' harea => ?_
      dsimp only
      rw [safe_bind]
      exact putEntry_safe harea fun m' => hQ _ m' rfl
    | some slot =>
      dsimp only at hslot ⊢
      by_cases hdir : slot.entry.isDirectory = true
      · rw [if_pos hdir]
        exact safe_fail _
      · obtain ⟨harea, hchain⟩ := hslot (by simpa using hdir)
        rw [if_neg hdir, safe_bind]
        refine freeChain_safe hgeo hchain fun m' => ?_
        rw [safe_bind]
        exact setEntry_safe harea fun m' => hQ _ m' rfl

theorem mkdir_safe (hgeo : fs.geo.Sound) {path : Name}
    (h : (Call.mkdir path).InVolume fs ⟨[], []⟩ m) {Q : Unit → Memory → Prop}
    (hQ : ∀ m', Q () m') : Safe fs.geo Q (fs.mkdir now path) m := by
  refine safe_guardWrite ?_
  rw [safe_bind]
  refine safe_readOnly (readOnly_parentCluster path) fun ⟨dir, name⟩ hparent => ?_
  dsimp only
  cases hname : to83 name with
  | none => exact safe_fail _
  | some name83 =>
    dsimp only
    rw [safe_bind]
    refine safe_readOnly (readOnly_findInDir dir name) fun slot hfind => ?_
    have hslot := h dir name slot hparent (by simp [hname]) hfind
    cases slot with
    | some slot => exact safe_fail _
    | none =>
      obtain ⟨s, hs, hdir⟩ := InVolume.region (hslot rfl)
      dsimp only
      rw [safe_bind]
      refine allocCluster_safe hgeo hs (by simp) fun d m₁ hd hs₁ => ?_
      rw [clusterToSector_eq hd.1]
      dsimp only
      rw [safe_bind]
      refine zeroCluster_spec (fun _ _ w _ _ hw => hw.contained hd) fun m₂ hz => ?_
      have hs₂ := hs₁.sameFat hgeo (hz.sameFat hgeo.toValid)
      have hspc := hgeo.spc
      rw [safe_bind]
      refine wp_writeSector.mpr ⟨inDataArea_of_cluster hd (Nat.le_refl _) (by simp only; omega), ?_⟩
      rw [safe_bind]
      refine findFreeSlot_safe hgeo
        (hs₂.sameFat hgeo (sameFat_of_write hgeo.toValid (Nat.le_add_right _ _) _))
        (hdir.imp_right fun h => Set.mem_insert_of_mem d h) fun slot m₄ harea => ?_
      exact putEntry_safe harea hQ

theorem openFile_safe {path : Name} {Q : Fat32File → Memory → Prop}
    (hQ : ∀ f, f.geo = fs.geo → Q f m) : Safe fs.geo Q (fs.openFile path) m := by
  rw [Fat32Fs.openFile, safe_bind]
  refine findSlot_safe (P := fun _ => True) (fun _ _ => trivial) fun slot _ => ?_
  split
  · exact safe_fail _
  · split
    · exact safe_fail _
    · rw [safe_bind]
      exact safe_readOnly (readOnly_readChain _) fun data _ => hQ _ rfl

theorem write_safe (hgeo : fs.geo.Sound) {f : Fat32File} (hf : f.geo = fs.geo)
    {data : List UInt8}
    (h : f.readOnly = false →
      fs.geo.InDataArea f.slot.sector ∧ (data ≠ [] → InVolume fs.geo m f.startCluster))
    {Q : Fat32File × Except FsError Nat → Memory → Prop} (hQ : ∀ r m', r.1.geo = fs.geo → Q r m') :
    Safe fs.geo Q (f.write now data) m := by
  rw [Fat32File.write]
  by_cases hro : f.readOnly = true
  · rw [if_pos hro]
    exact hQ _ m hf
  · obtain ⟨harea, hchain⟩ := h (by simpa using hro)
    rw [if_neg hro]
    dsimp only
    rw [safe_bind, hf]
    refine writeRange_safe hgeo hchain fun ⟨start, written⟩ m' => ?_
    cases written with
    | error e => exact hQ _ m' rfl
    | ok newEnd =>
      dsimp only
      rw [safe_bind]
      exact safe_attempt (setEntry_safe harea fun m'' => hQ _ m'' rfl) fun e m'' => hQ _ m'' rfl

theorem append_safe (hgeo : fs.geo.Sound) {sink : Sink} {data : List UInt8}
    (harea : fs.geo.InDataArea sink.slot.sector) (hchain : InVolume fs.geo m sink.startCluster)
    {Q : Sink × Bool → Memory → Prop} (hQ : ∀ r m', Q r m') :
    Safe fs.geo Q (sink.append fs now data) m := by
  rw [Sink.append, safe_bind, Fat32Fs.writeAt]
  split
  · exact hQ _ m
  · refine writeRange_safe hgeo (fun _ => hchain) fun ⟨start, written⟩ m' => ?_
    cases written with
    | error e => exact hQ _ m'
    | ok newEnd =>
      dsimp only
      rw [safe_bind]
      exact safe_attempt (safe_guardWrite (setEntry_safe harea fun m'' => hQ _ m''))
        fun e m'' => hQ _ m''

theorem writeBytes_safe (hgeo : fs.geo.Sound) {sink : Sink} {data : List UInt8}
    (h : data ≠ [] → fs.geo.InDataArea sink.slot.sector ∧ InVolume fs.geo m sink.startCluster)
    {Q : Sink × Bool → Memory → Prop} (hQ : ∀ r m', Q r m') :
    Safe fs.geo Q (sink.writeBytes fs now data) m := by
  rw [Sink.writeBytes]
  by_cases hnil : data = []
  · rw [if_pos hnil]
    exact hQ _ m
  · obtain ⟨harea, hchain⟩ := h hnil
    rw [if_neg hnil]
    split
    · split
      · rw [safe_bind]
        exact append_safe hgeo harea hchain fun r m' => hQ _ m'
      · exact hQ _ m
    · exact append_safe hgeo harea hchain hQ

theorem findOrCreate_safe (hgeo : fs.geo.Sound) {file : Name}
    (h : (fs.lookup file).run disk m = (.ok none, m) → CreateInVolume fs.geo m file)
    {Q : Option (Nat × Nat × DirSlot) → Memory → Prop} (hQ : ∀ r m', Q r m') :
    Safe fs.geo Q (Sink.findOrCreate fs now file) m := by
  have hagain : ∀ m', Safe fs.geo (fun a m => Q (a.toOption.getD none) m)
      ((fs.lookup file).attempt : Io (Except FsError (Option (Nat × Nat × DirSlot)))) m' :=
    fun m' => safe_attempt (safe_readOnly (Fat32Fs.readOnly_lookup file) fun _ _ => hQ _ m')
      fun _ m'' => hQ _ m''
  rw [Sink.findOrCreate, safe_bind]
  refine safe_attempt (safe_readOnly (Fat32Fs.readOnly_lookup file) fun entry hrun => ?_)
    fun e m' => hQ none m'
  cases entry with
  | some entry => exact hQ _ m
  | none =>
    dsimp only
    rw [safe_bind]
    refine safe_attempt (create_safe hgeo (h hrun) fun _ m' _ => ?_) fun _ m' => ?_
    · rw [safe_bind]
      exact hagain m'
    · rw [safe_bind]
      exact hagain m'

theorem prepare_safe (hgeo : fs.geo.Sound) {file : Name} (shell : Bool)
    (h : (Call.prepare file shell).InVolume fs ⟨[], []⟩ m) {Q : Option Sink → Memory → Prop}
    (hQ : ∀ r m', Q r m') : Safe fs.geo Q (Sink.prepare fs now file shell) m := by
  rw [Sink.prepare, safe_bind]
  refine findOrCreate_safe hgeo h fun entry m' => ?_
  cases entry with
  | none => exact hQ _ m'
  | some entry =>
    dsimp only
    rw [safe_bind, Sink.ofEntry, safe_bind]
    exact safe_attempt (safe_readOnly (readOnly_chain _) fun _ _ => hQ _ m') fun _ m'' => hQ _ m''

theorem call_safe (hgeo : fs.geo.Sound) {h : Handles} (hfiles : ∀ f ∈ h.files, f.geo = fs.geo)
    {call : Call} (hc : call.InVolume fs h m) :
    Safe fs.geo (fun h' _ => ∀ f ∈ h'.files, f.geo = fs.geo) (call.prog fs now h) m := by
  have hset : ∀ (i : Nat) (f : Fat32File), f.geo = fs.geo →
      ∀ g ∈ h.files.set i f, g.geo = fs.geo := by
    intro i f hf g hg
    rcases List.mem_or_eq_of_mem_set hg with hg | rfl
    · exact hfiles g hg
    · exact hf
  have hadd : ∀ f : Fat32File, f.geo = fs.geo → ∀ g ∈ h.files ++ [f], g.geo = fs.geo := by
    intro f hf g hg
    rcases List.mem_append.mp hg with hg | hg
    · exact hfiles g hg
    · rw [List.mem_singleton] at hg
      exact hg ▸ hf
  cases call with
  | create path =>
    rw [Call.prog, safe_bind]
    exact create_safe hgeo hc fun f m' hf => hadd f hf
  | openFile path =>
    rw [Call.prog, safe_bind]
    exact openFile_safe fun f hf => hadd f hf
  | remove path =>
    rw [Call.prog, safe_bind]
    exact remove_safe hgeo hc fun m' => hfiles
  | truncate path =>
    rw [Call.prog, safe_bind]
    exact truncate_safe hgeo hc fun m' => hfiles
  | mkdir path =>
    rw [Call.prog, safe_bind]
    exact mkdir_safe hgeo hc fun m' => hfiles
  | rmdir path =>
    rw [Call.prog, safe_bind]
    exact rmdir_safe hgeo hc fun m' => hfiles
  | read i len =>
    rw [Call.prog]
    cases hf : h.files[i]? with
    | none => exact hfiles
    | some f =>
      exact hset i _ ((f.read_geo len).trans (hfiles f (List.mem_of_getElem? hf)))
  | seek i pos =>
    rw [Call.prog]
    cases hf : h.files[i]? with
    | none => exact hfiles
    | some f =>
      exact hset i _ ((f.seek_geo pos).trans (hfiles f (List.mem_of_getElem? hf)))
  | write i data =>
    rw [Call.prog]
    cases hf : h.files[i]? with
    | none => exact hfiles
    | some f =>
      dsimp only
      rw [safe_bind]
      exact write_safe hgeo (hfiles f (List.mem_of_getElem? hf)) (hc f hf)
        fun r m' hr => hset i r.1 hr
  | prepare file shell =>
    rw [Call.prog, safe_bind]
    refine prepare_safe hgeo shell hc fun r m' => ?_
    cases r with
    | none => exact hfiles
    | some sink => exact hfiles
  | writeBytes i data =>
    rw [Call.prog]
    cases hs : h.sinks[i]? with
    | none => exact hfiles
    | some sink =>
      dsimp only
      rw [safe_bind]
      exact writeBytes_safe hgeo (hc sink hs) fun r m' => hfiles

end Calls

theorem run_files {fs : Fat32Fs} (hgeo : fs.geo.Sound) {m₀ : Memory} {s : Session}
    (hrun : s.Run fs (fun s _ call => call.InVolume fs s.handles s.memory) m₀) :
    ∀ f ∈ s.handles.files, f.geo = fs.geo := by
  induction hrun with
  | mount => simp
  | @call s now call _ ha ih =>
    have hstep := Prog.wp_run (p := call.prog fs now s.handles) (call_safe hgeo ih ha)
    unfold Session.exec
    revert hstep
    rcases (call.prog fs now s.handles).run disk s.memory with ⟨_ | handles, m'⟩
    · exact fun _ => ih
    · exact id

/-- An empty volume of three clusters with its root directory in cluster 2. -/
def smallVolume : Memory :=
  Memory.put (Memory.put (Memory.put (Memory.put (fun _ => 0) 11 [0, 2, 1, 1, 0, 1]) 32
    (toLe32 5 ++ toLe32 1)) 44 (toLe32 2)) 520 (toLe32 fatEoc)

def smallFs : Fat32Fs := ⟨⟨1, 1, 1, 2, 1, 512, 2, 0, 3, List.replicate 11 0⟩, false, false⟩

theorem smallFs_sane : smallFs.geo.Sane := ⟨by decide, by decide, fun h => absurd rfl h.1⟩

def damagedVolume : Memory :=
  smallVolume.put 1024
    { Fat32Fs.fileEntry ⟨0, 0⟩ (0x41 :: List.replicate 10 0x20) with firstClusterLow := 1000 }.bytes

def crampedVolume : Memory := fun a =>
  if 512 ≤ a ∧ a < 1024 then 0xFF else smallVolume.put 32 (toLe32 202) a

def crampedFs : Fat32Fs := { smallFs with geo := { smallFs.geo with totalClusters := 200 } }

def Escapes (m₀ : Memory) (fs : Fat32Fs) (call : Call) : Prop :=
  (Fat32Fs.newRw.run disk m₀).1 = .ok fs ∧
    ∃ w ∈ Session.writes fs ⟨⟨[], []⟩, m₀⟩ ⟨0, 0⟩ call, ¬ Contained fs.geo w

theorem escapes_of_mem {m₀ : Memory} {fs : Fat32Fs} {call : Call} (sector : Nat) (tag : Origin)
    (hmount : (Fat32Fs.newRw.run disk m₀).1 = .ok fs)
    (hmem : (sector, tag) ∈
      (Session.writes fs ⟨⟨[], []⟩, m₀⟩ ⟨0, 0⟩ call).map fun w => (w.sector, w.tag))
    (hout : ¬ Contained fs.geo ⟨sector, fun _ => 0, tag⟩) : Escapes m₀ fs call := by
  obtain ⟨w, hw, heq⟩ := List.mem_map.mp hmem
  obtain ⟨rfl, rfl⟩ := Prod.mk.inj heq
  exact ⟨hmount, w, hw, hout⟩

end Vibra.Fat32
