import Vibra.Fat32.FileWrite

/-! # The invariant of the allocation table

In a well-formed volume all copies of the table agree and the used clusters are the disjoint union
of chains.
-/

namespace Vibra.Fat32

open Lib (Memory Prog LinkTable)
open Lib.Memory (le32 toLe32)
open Lib.Prog (wp)
open Lib.LinkTable (Partition)

variable {geo : Fat32Geo} {m m' : Memory}

structure WellFormed (geo : Fat32Geo) (m : Memory) (chains : List (List Nat)) : Prop where
  nonempty : ∀ l ∈ chains, l ≠ []
  copies : Copies geo m
  part : Partition (links geo m) geo.InRange chains

/-- A call of one of the table operations. -/
inductive TableOp where
  | writeRange (start offset : Nat) (data : List UInt8)
  | freeChain (start : Nat)
  | allocCluster (prev : Option Nat)
  | findFreeSlot (start : Nat)

/-- The call, without its result. -/
def TableOp.prog (geo : Fat32Geo) : TableOp → Io Unit
  | .writeRange start offset data => do
    let _ ← Fat32.writeRange geo start offset data
    pure ()
  | .freeChain start => Fat32.freeChain geo start
  | .allocCluster prev => do
    let _ ← Fat32.allocCluster geo prev
    pure ()
  | .findFreeSlot start => do
    let _ ← Fat32.findFreeSlot geo start
    pure ()

def withChain (l : List Nat) (rest : List (List Nat)) : List (List Nat) :=
  if l = [] then rest else l :: rest

/-- The start argument is the head of a chain, or none for an empty file, and
a cluster to extend is the tail of one. -/
def TableOp.Allowed (chains : List (List Nat)) : TableOp → Prop
  | .writeRange start _ _ => start < 2 ∨ ∃ l ∈ chains, l.head? = some start
  | .freeChain start => start < 2 ∨ ∃ l ∈ chains, l.head? = some start
  | .allocCluster prev => ∀ p ∈ prev, ∃ l ∈ chains, l.getLast? = some p
  | .findFreeSlot start => ∃ l ∈ chains, l.head? = some start

/-- One chain grew at its tail by clusters that were free. -/
def Grew (geo : Fat32Geo) (m : Memory) (pick : List Nat → Prop)
    (chains chains' : List (List Nat)) : Prop :=
  ∃ l rest new, pick l ∧ chains.Perm (withChain l rest) ∧ (∀ c ∈ new, links geo m c = .free) ∧
    chains'.Perm (withChain (l ++ new) rest)

/-- What a call may do to the chains. -/
def TableOp.Effect (geo : Fat32Geo) (m : Memory) (chains chains' : List (List Nat)) :
    TableOp → Prop
  | .writeRange start _ _ => Grew geo m (StartOf · start) chains chains'
  | .freeChain start =>
    ∃ l rest, StartOf l start ∧ chains.Perm (withChain l rest) ∧ chains'.Perm rest
  | .allocCluster prev => Grew geo m (fun l => l.getLast? = prev) chains chains'
  | .findFreeSlot start => Grew geo m (StartOf · start) chains chains'

theorem partition_withChain {t : LinkTable Nat} {l : List Nat} {rest : List (List Nat)} :
    Partition t geo.InRange (withChain l rest) ↔ Partition t geo.InRange (l :: rest) := by
  unfold withChain
  split
  next h =>
    subst h
    exact LinkTable.Partition.nil_cons.symm
  next => exact Iff.rfl

theorem exists_startOf {chains : List (List Nat)} (hne : ∀ l ∈ chains, l ≠ []) {start : Nat}
    (h : start < 2 ∨ ∃ l ∈ chains, l.head? = some start) :
    ∃ l rest, StartOf l start ∧ chains.Perm (withChain l rest) ∧ ∀ k ∈ rest, k ≠ [] := by
  rcases h with h | ⟨l, hl, hhead⟩
  · exact ⟨[], chains, h, .refl _, hne⟩
  · have hperm := List.perm_cons_erase hl
    refine ⟨l, chains.erase l, ?_, ?_, fun k hk => hne k (List.mem_of_mem_erase hk)⟩
    · cases l with
      | nil => simp at hhead
      | cons c l => simpa [StartOf, eq_comm] using hhead
    · rwa [withChain, if_neg (hne l hl)]

theorem WellFormed.grown {chains : List (List Nat)} {l : List Nat} {rest : List (List Nat)}
    (h : WellFormed geo m chains) (hrest : ∀ k ∈ rest, k ≠ [])
    (hcopies : Copies geo m → Copies geo m')
    (hpart : Partition (links geo m') geo.InRange (l :: rest)) :
    WellFormed geo m' (withChain l rest) where
  nonempty k hk := by
    unfold withChain at hk
    split at hk
    · exact hrest k hk
    next hl =>
      rcases List.mem_cons.mp hk with rfl | hk
      · exact hl
      · exact hrest k hk
  copies := hcopies h.copies
  part := partition_withChain.mpr hpart

/-- The state after a call, with or without an error. -/
def Kept (geo : Fat32Geo) (m : Memory) (chains : List (List Nat)) (op : TableOp) (m' : Memory) :
    Prop :=
  (∀ c, geo.HasEntry c → fatTop geo m' c = fatTop geo m c) ∧
    ∃ chains', WellFormed geo m' chains' ∧ op.Effect geo m chains chains'

theorem writeRange_kept (hgeo : geo.Sound) {chains : List (List Nat)}
    (h : WellFormed geo m chains) {start offset : Nat} {data : List UInt8}
    (ha : (TableOp.writeRange start offset data).Allowed chains) :
    wp disk (fun _ _ => True) (fun _ m' => Kept geo m chains (.writeRange start offset data) m')
      (fun _ m' => Kept geo m chains (.writeRange start offset data) m')
      ((TableOp.writeRange start offset data).prog geo) m := by
  obtain ⟨l, rest, hstart, hperm, hrest⟩ := exists_startOf h.nonempty ha
  have hpart := partition_withChain.mp (h.part.perm hperm)
  have hkept : ∀ n l' m', Writing geo m l rest offset data n l' m' →
      Kept geo m chains (.writeRange start offset data) m' := by
    intro n l' m' hw
    obtain ⟨new, rfl, hnew⟩ := hw.ext
    exact ⟨hw.top, _, h.grown hrest hw.copies hw.part, l, rest, new, hstart, hperm, hnew, .refl _⟩
  simp only [TableOp.prog, Prog.wp_bind, Prog.wp_pure]
  exact writeRange_spec hgeo hpart hstart (fun _ _ _ _ => trivial)
    (fun n l' _ m' _ hw _ _ => hkept n l' m' hw) (fun l' _ m' hw _ _ => hkept _ l' m' hw)

theorem freeChain_kept (hgeo : geo.Sound) {chains : List (List Nat)}
    (h : WellFormed geo m chains) {start : Nat} (ha : (TableOp.freeChain start).Allowed chains) :
    wp disk (fun _ _ => True) (fun _ m' => Kept geo m chains (.freeChain start) m')
      (fun _ m' => Kept geo m chains (.freeChain start) m')
      ((TableOp.freeChain start).prog geo) m := by
  obtain ⟨l, rest, hstart, hperm, hrest⟩ := exists_startOf h.nonempty ha
  have hpart := partition_withChain.mp (h.part.perm hperm)
  have hchain : chainOf geo m start = l := by
    cases l with
    | nil => exact if_pos hstart
    | cons c l =>
      obtain rfl : start = c := hstart
      exact chainOf_eq hpart List.mem_cons_self
  simp only [TableOp.prog, Fat32.freeChain, Prog.wp_bind, wp_chain, hchain]
  refine freeClusters_spec hgeo (fun c hc => (hpart.dom_of_mem List.mem_cons_self hc).2)
    (fun _ _ _ => trivial) fun m' hframe hlinks => ?_
  -- the table outside the volume's clusters is not looked at
  have hfree : Partition (fun c => if c ∈ l then .free else links geo m c) geo.InRange rest :=
    hpart.free (fun c hc => if_pos hc) fun c hc => if_neg hc
  exact ⟨hframe.top, rest, ⟨hrest, hframe.copies h.copies, hfree.congr fun c hc => hlinks c hc.2⟩,
    l, rest, hstart, hperm, .refl _⟩

theorem allocCluster_kept (hgeo : geo.Sound) {chains : List (List Nat)}
    (h : WellFormed geo m chains) {prev : Option Nat}
    (ha : (TableOp.allocCluster prev).Allowed chains) :
    wp disk (fun _ _ => True) (fun _ m' => Kept geo m chains (.allocCluster prev) m')
      (fun _ m' => Kept geo m chains (.allocCluster prev) m')
      ((TableOp.allocCluster prev).prog geo) m := by
  obtain ⟨l, rest, hprev, hperm, hrest⟩ : ∃ l rest, l.getLast? = prev ∧
      chains.Perm (withChain l rest) ∧ ∀ k ∈ rest, k ≠ [] := by
    cases prev with
    | none => exact ⟨[], chains, rfl, .refl _, h.nonempty⟩
    | some p =>
      obtain ⟨l, hl, hlast⟩ := ha p rfl
      refine ⟨l, chains.erase l, hlast, ?_, fun k hk => h.nonempty k (List.mem_of_mem_erase hk)⟩
      rw [withChain, if_neg (h.nonempty l hl)]
      exact List.perm_cons_erase hl
  have hpart := partition_withChain.mp (h.part.perm hperm)
  have hfull : Kept geo m chains (.allocCluster prev) m := by
    refine ⟨fun _ _ => rfl, _, h.grown hrest id hpart, l, rest, [], hprev, hperm, by simp, ?_⟩
    rw [List.append_nil]
  have hnew : ∀ d m', links geo m d = .free → TableFrame geo m m' →
      Partition (links geo m') geo.InRange ((l ++ [d]) :: rest) →
      Kept geo m chains (.allocCluster prev) m' := fun d m' hd hframe hp =>
    ⟨hframe.top, _, h.grown hrest hframe.copies hp, l, rest, [d], hprev, hperm, by simpa using hd,
      .refl _⟩
  simp only [TableOp.prog, Prog.wp_bind, Prog.wp_pure]
  rcases List.eq_nil_or_concat' l with rfl | ⟨pre, c, rfl⟩
  · obtain rfl : none = prev := hprev
    have hpart' := LinkTable.Partition.nil_cons.mp hpart
    exact allocCluster_spec hgeo (by simp) (fun _ => hfull) (fun _ _ _ _ _ _ _ _ => trivial)
      fun d m' hd hfree hframe hlinks =>
        hnew d m' hfree hframe (hlinks.partition (hpart'.alloc hd hfree))
  · obtain rfl : some c = prev := by simpa using hprev
    exact allocCluster_extend hgeo hpart hfull (fun _ _ _ _ _ => trivial)
      fun d m' _ hfree hframe hp => hnew d m' hfree hframe hp

theorem findFreeSlot_kept (hgeo : geo.Sound) {chains : List (List Nat)}
    (h : WellFormed geo m chains) {start : Nat}
    (ha : (TableOp.findFreeSlot start).Allowed chains) :
    wp disk (fun _ _ => True) (fun _ m' => Kept geo m chains (.findFreeSlot start) m')
      (fun _ m' => Kept geo m chains (.findFreeSlot start) m')
      ((TableOp.findFreeSlot start).prog geo) m := by
  obtain ⟨l, hl, hhead⟩ := ha
  obtain ⟨c, l, rfl⟩ := List.exists_cons_of_ne_nil (h.nonempty l hl)
  obtain rfl : c = start := by simpa using hhead
  have hperm : chains.Perm (withChain (c :: l) (chains.erase (c :: l))) :=
    List.perm_cons_erase hl
  have hrest : ∀ k ∈ chains.erase (c :: l), k ≠ [] :=
    fun k hk => h.nonempty k (List.mem_of_mem_erase hk)
  have hpart := partition_withChain.mp (h.part.perm hperm)
  have hsame : Kept geo m chains (.findFreeSlot c) m :=
    ⟨fun _ _ => rfl, _, h.grown hrest id hpart, c :: l, _, [], rfl, hperm, by simp, by simp⟩
  simp only [TableOp.prog, Prog.wp_bind, Prog.wp_pure]
  refine findFreeSlot_spec hgeo hpart (fun _ _ _ _ => trivial) (fun _ _ => hsame) (fun _ => hsame)
    fun d m' _ hg => ?_
  exact ⟨hg.top, _, h.grown hrest hg.copies hg.part, c :: l, _, [d], rfl, hperm,
    by simpa using hg.free, .refl _⟩

/-- The memories reached from `m₀` by allowed calls. -/
inductive TableRun (geo : Fat32Geo) (m₀ : Memory) : Memory → Prop
  | refl : TableRun geo m₀ m₀
  | step {m : Memory} {op : TableOp} (h : TableRun geo m₀ m)
      (ha : ∃ chains, WellFormed geo m chains ∧ op.Allowed chains) :
      TableRun geo m₀ ((op.prog geo).run disk m).2

theorem tableOp_kept (hgeo : geo.Sound) {chains : List (List Nat)} (h : WellFormed geo m chains)
    {op : TableOp} (ha : op.Allowed chains) : Kept geo m chains op ((op.prog geo).run disk m).2 := by
  have hwp : wp disk (fun _ _ => True) (fun _ m' => Kept geo m chains op m')
      (fun _ m' => Kept geo m chains op m') (op.prog geo) m := by
    cases op with
    | writeRange start offset data => exact writeRange_kept hgeo h ha
    | freeChain start => exact freeChain_kept hgeo h ha
    | allocCluster prev => exact allocCluster_kept hgeo h ha
    | findFreeSlot start => exact findFreeSlot_kept hgeo h ha
  have hrun := Prog.wp_run hwp
  revert hrun
  rcases (op.prog geo).run disk m with ⟨_ | _, _⟩ <;> exact id

/-- From a well-formed volume, every run of calls keeps the volume well-formed
and the reserved bits of every entry; and each call only frees a chain or makes
one grow at its tail by clusters that were free. -/
theorem table_invariant (hgeo : geo.Sound) {m₀ : Memory} {chains₀ : List (List Nat)}
    (h₀ : WellFormed geo m₀ chains₀) (hrun : TableRun geo m₀ m) :
    (∃ chains, WellFormed geo m chains) ∧
    (∀ c, geo.HasEntry c → fatTop geo m c = fatTop geo m₀ c) ∧
    ∀ chains op, WellFormed geo m chains → op.Allowed chains →
      Kept geo m chains op ((op.prog geo).run disk m).2 := by
  suffices h : (∃ chains, WellFormed geo m chains) ∧
      ∀ c, geo.HasEntry c → fatTop geo m c = fatTop geo m₀ c from
    ⟨h.1, h.2, fun chains op hw ha => tableOp_kept hgeo hw ha⟩
  induction hrun with
  | refl => exact ⟨⟨chains₀, h₀⟩, fun _ _ => rfl⟩
  | step _ ha ih =>
    obtain ⟨chains, hw, ha⟩ := ha
    obtain ⟨htop, chains', hw', -⟩ := tableOp_kept hgeo hw ha
    exact ⟨⟨chains', hw'⟩, fun c hc => (htop c hc).trans (ih.2 c hc)⟩

theorem partition_of_forall {t : LinkTable Nat} {chains : List (List Nat)}
    (hchain : ∀ l ∈ chains, LinkTable.IsChain t l) (hnodup : chains.flatten.Nodup)
    (hmem : ∀ c ∈ chains.flatten, 2 ≤ c ∧ c < geo.totalClusters + 2)
    (hused : ∀ i < geo.totalClusters, 2 + i ∈ chains.flatten ↔ t (2 + i) ≠ .free) :
    Partition t geo.InRange chains := by
  refine ⟨hchain, hnodup, fun c => ?_⟩
  constructor
  · intro hc
    obtain ⟨h2, hlt⟩ := hmem c hc
    obtain ⟨i, rfl⟩ : ∃ i, c = 2 + i := ⟨c - 2, by omega⟩
    exact ⟨⟨h2, hlt⟩, (hused i (by omega)).mp hc⟩
  · rintro ⟨⟨h2, hlt⟩, hne⟩
    obtain ⟨i, rfl⟩ : ∃ i, c = 2 + i := ⟨c - 2, by omega⟩
    exact (hused i (by omega)).mpr hne

def smallGeo : Fat32Geo := ⟨1, 1, 1, 2, 1, 512, 2, 0, 3, []⟩

def smallTable : Memory := Memory.put (fun _ => 0) 520 (toLe32 3 ++ toLe32 fatEoc)

theorem smallGeo_sound : smallGeo.Sound :=
  ⟨⟨by decide, by decide, by decide, by decide, by decide, by decide⟩,
    ⟨by decide, by decide, fun h => absurd rfl h.1⟩⟩

theorem smallTable_wellFormed : WellFormed smallGeo smallTable [[2, 3]] := by
  refine ⟨by simp, ?_, ?_⟩
  · intro k hk i hi
    obtain rfl : k = 0 := Nat.lt_one_iff.mp hk
    rfl
  · refine partition_of_forall (fun l hl => ?_) (by simp) (by decide) (by decide)
    rw [List.mem_singleton] at hl
    subst hl
    have h3 : links smallGeo smallTable 3 = .stop := by decide
    exact ⟨by decide, h3⟩

/-- Writing behind the end of the only file. -/
theorem table_invariant_small :
    ∃ chains, WellFormed smallGeo
      (((TableOp.writeRange 2 1024 [7]).prog smallGeo).run disk smallTable).2 chains := by
  have ha : (TableOp.writeRange 2 1024 [7]).Allowed [[2, 3]] := Or.inr ⟨[2, 3], by simp, rfl⟩
  exact (table_invariant smallGeo_sound smallTable_wellFormed
    (.step .refl ⟨[[2, 3]], smallTable_wellFormed, ha⟩)).1

theorem copies_differ_of_fsInfo : ∃ (geo : Fat32Geo) (m : Memory), geo.Valid ∧
    4 * (geo.totalClusters + 2) ≤ 512 * geo.fatSize ∧ WellFormed geo m [[2]] ∧
    ¬ Copies geo (((TableOp.allocCluster none).prog geo).run disk m).2 := by
  let geo : Fat32Geo := ⟨2, 2, 2, 6, 1, 512, 2, 3, 2, []⟩
  let table : Memory := Memory.put (Memory.put (Memory.put (fun _ => 0) 8 (toLe32 fatEoc)) 512
    (toLe32 0x4161_5252)) 996 (toLe32 0x6141_7272)
  let m : Memory := fun a => table ((a - 1024) % 1024)
  refine ⟨geo, m, ⟨by decide, by decide, by decide, by decide, by decide, by decide⟩, by decide,
    ⟨by simp, ?_, ?_⟩, ?_⟩
  · intro k hk i hi
    have haddr : (512 * (2 + k * 2) + i - 1024) % 1024 = (512 * 2 + i - 1024) % 1024 := by omega
    exact congrArg table haddr
  · refine partition_of_forall (fun l hl => ?_) (by simp) (by decide) (by decide)
    rw [List.mem_singleton] at hl
    subst hl
    change links geo m 2 = .stop
    decide
  · intro h
    have h1 := h 1 (by decide) 1004 (by decide)
    revert h1
    decide

theorem chain_lost_of_large : ∃ (geo : Fat32Geo) (m : Memory) (chains : List (List Nat)),
    geo.Valid ∧ 4 * (geo.totalClusters + 2) ≤ 512 * geo.fatSize ∧ WellFormed geo m chains ∧
    [2] ∈ chains ∧
    links geo (((TableOp.allocCluster (some 2)).prog geo).run disk m).2 2 = .free := by
  -- every cluster is a chain of its own, but for the last one
  obtain ⟨chains, hchains⟩ : ∃ chains : List (List Nat),
      chains = (List.range' 2 (2 ^ 28 - 2)).map fun c => [c] := ⟨_, rfl⟩
  have hflat : ∀ c, c ∈ chains.flatten ↔ 2 ≤ c ∧ c < 2 ^ 28 := by
    intro c
    simp only [hchains, List.mem_flatten, List.mem_map, List.mem_range'_1]
    constructor
    · rintro ⟨l, ⟨d, hd, rfl⟩, hc⟩
      rw [List.mem_singleton] at hc
      omega
    · intro hc
      exact ⟨[c], ⟨c, by omega, rfl⟩, by simp⟩
  have hsingle : ∀ l ∈ chains, ∃ c, 2 ≤ c ∧ c < 2 ^ 28 ∧ l = [c] := by
    intro l hl
    rw [hchains] at hl
    obtain ⟨c, hc, rfl⟩ := List.mem_map.mp hl
    rw [List.mem_range'_1] at hc
    exact ⟨c, by omega, by omega, rfl⟩
  have hnodup : chains.flatten.Nodup := by
    rw [hchains, ← List.flatMap_def, List.flatMap_singleton']
    exact List.nodup_range'
  have htwo : [2] ∈ chains := by
    rw [hchains]
    exact List.mem_map.mpr ⟨2, by rw [List.mem_range'_1]; omega, rfl⟩
  clear hchains
  obtain ⟨m, hm⟩ : ∃ m : Memory, m = fun a => if a < 1073742336 then 0xFF else 0 := ⟨_, rfl⟩
  let geo : Fat32Geo := ⟨1, 1, 2097153, 2097154, 1, 512, 2, 0, 268435455, []⟩
  have hgeo : geo.Valid := ⟨by decide, by decide, by decide, by decide, by decide, by decide⟩
  have hused : le32 (fun _ => 0xFF) 0 % 2 ^ 28 = 0x0FFF_FFFF := by decide
  have hunused : le32 (fun _ => 0) 0 % 2 ^ 28 = 0 := by decide
  have hvalue : ∀ c, fatValue geo m c = if c < 2 ^ 28 then 0x0FFF_FFFF else 0 := by
    intro c
    have hbyte : ∀ i < 4, m (512 + 4 * c + i) = if c < 2 ^ 28 then 0xFF else 0 := by
      intro i hi
      rw [hm]
      dsimp only
      congr 1
      rw [eq_iff_iff]
      omega
    have hle : le32 m (geo.entryAddr c) =
        le32 (fun _ => if c < 2 ^ 28 then 0xFF else 0) 0 := Memory.le32_congr hbyte
    rw [fatValue, hle]
    split
    · exact hused
    · exact hunused
  have hlinks : ∀ c, links geo m c = if c < 2 ^ 28 then .stop else .free := by
    intro c
    rw [links, hvalue]
    split
    · decide
    · decide
  refine ⟨geo, m, chains, hgeo, by decide, ⟨?_, ?_, ?_, hnodup, ?_⟩, htwo, ?_⟩
  · intro l hl
    obtain ⟨c, -, -, rfl⟩ := hsingle l hl
    simp
  · intro k hk i hi
    obtain rfl : k = 0 := Nat.lt_one_iff.mp hk
    rw [Nat.zero_mul, Nat.add_zero]
  · intro l hl
    obtain ⟨c, h2, hlt, rfl⟩ := hsingle l hl
    exact (hlinks c).trans (if_pos hlt)
  · intro c
    rw [hflat, hlinks]
    unfold Fat32Geo.InRange
    simp only [geo]
    split <;> simp <;> omega
  · -- the scan takes the only free cluster, and its number is cut to 0 in the link
    have hwp : wp disk (fun _ _ => True) (fun _ m' => links geo m' 2 = .free) (fun _ _ => False)
        ((TableOp.allocCluster (some 2)).prog geo) m := by
      have hcount : (268435455 + 2) % 2 ^ 32 - 2 = 268435455 := by decide
      simp only [TableOp.prog, allocCluster, geo, hcount, Prog.wp_bind, Prog.wp_pure]
      refine allocFrom_spec (fun hall => ?_) fun c hlo hhi hzero => ?_
      · refine hall (2 ^ 28) (by omega) (by omega) ?_
        rw [hvalue, if_neg (Nat.lt_irrefl _)]
      · obtain rfl : c = 2 ^ 28 := by
          rw [hvalue] at hzero
          split at hzero
          · cases hzero
          · omega
        simp only [takeCluster, Prog.wp_bind, Prog.wp_pure, Prog.wp_attempt]
        refine fatSet_spec hgeo (by decide) (fun _ _ _ _ _ _ => trivial) fun m₁ _ => ?_
        refine fatSet_spec hgeo (by decide) (fun _ _ _ _ _ _ => trivial) fun m₂ h₂ => ?_
        refine updateFsinfo_spec (fun _ _ _ _ => trivial) fun m₃ h₃ => ?_
        obtain rfl : m₃ = m₂ := funext fun a => h₃ a fun h => h.1.1 rfl
        rw [links_of_firstUpdated h₂.first (by decide), Function.update_self]
        decide
    have hrun := Prog.wp_run hwp
    generalize ((TableOp.allocCluster (some 2)).prog geo).run disk m = r at hrun ⊢
    obtain ⟨_ | _, m'⟩ := r
    · exact hrun.elim
    · exact hrun

/-- Three ways to lose the invariant: the FSInfo sector in the table, a cluster
number beyond the entries, and a chain extended at its head. -/
theorem table_invariant_fails :
    (∃ (geo : Fat32Geo) (m : Memory), geo.Valid ∧
      4 * (geo.totalClusters + 2) ≤ 512 * geo.fatSize ∧ WellFormed geo m [[2]] ∧
      ¬ Copies geo (((TableOp.allocCluster none).prog geo).run disk m).2) ∧
    (∃ (geo : Fat32Geo) (m : Memory) (chains : List (List Nat)), geo.Valid ∧
      4 * (geo.totalClusters + 2) ≤ 512 * geo.fatSize ∧ WellFormed geo m chains ∧ [2] ∈ chains ∧
      links geo (((TableOp.allocCluster (some 2)).prog geo).run disk m).2 2 = .free) ∧
    (WellFormed smallGeo smallTable [[2, 3]] ∧ ¬ [2, 3] <+: chainOf smallGeo
      (((TableOp.allocCluster (some 2)).prog smallGeo).run disk smallTable).2 2) :=
  ⟨copies_differ_of_fsInfo, chain_lost_of_large, smallTable_wellFormed, by decide⟩

/-! ## What `write_range` writes

The bytes of a chain after a call that has gone through, against the bytes before it.
-/

section Range

variable {chains rest : List (List Nat)} {l₀ l : List Nat}
  {start start' offset n : Nat} {data : List UInt8}

/-- The chain of `start` has become that of `start'`, with the data at the offset. Its other bytes
and the clusters of the other chains are the same. -/
structure RangeWritten (geo : Fat32Geo) (m : Memory) (chains : List (List Nat))
    (start offset : Nat) (data : List UInt8) (start' n : Nat) (m' : Memory) : Prop where
  size : n = offset + data.length
  grown : chainOf geo m start <+: chainOf geo m' start'
  covered : n ≤ (chainOf geo m' start').length * geo.clusterSize
  written : ((chainBytes geo m' (chainOf geo m' start')).drop offset).take data.length = data
  outside : ∀ i < (chainOf geo m start).length * geo.clusterSize, i < offset ∨ n ≤ i →
    (chainBytes geo m' (chainOf geo m' start')).getD i 0 =
      (chainBytes geo m (chainOf geo m start)).getD i 0
  others : ∀ k ∈ chains, k.head? ≠ some start → ∀ c ∈ k, SameCluster geo m m' c

section Written

variable (hgeo : geo.Sound) (hfs : geo.FsInfoReserved)
  (h : Writing geo m l₀ rest offset data data.length l m')

include hgeo hfs h

theorem Writing.written (hdata : data ≠ []) :
    ((chainBytes geo m' l).drop offset).take data.length = data := by
  have hlen := List.length_pos_iff.mpr hdata
  have hbound := h.bound.resolve_left (by omega)
  refine List.ext_getElem ?_ fun i hi hi' => ?_
  · rw [List.length_take, List.length_drop, length_chainBytes]
    omega
  · have hin : offset + i < l.length * geo.clusterSize := by omega
    have hget := getD_chainBytes (m := m') hgeo.toValid hin
    rw [h.content hfs i hi', List.getD_eq_getElem _ _ (by rw [length_chainBytes]; exact hin),
      List.getD_eq_getElem _ _ hi'] at hget
    rw [List.getElem_take, List.getElem_drop]
    exact hget

theorem Writing.outside {i : Nat} (hi : i < l₀.length * geo.clusterSize)
    (hout : i < offset ∨ offset + data.length ≤ i) :
    (chainBytes geo m' l).getD i 0 = (chainBytes geo m l₀).getD i 0 := by
  have hnodup : l.Nodup := h.part.chain_nodup List.mem_cons_self
  have hrange : ∀ c ∈ l, 2 ≤ c := fun c hc => (h.part.dom_of_mem List.mem_cons_self hc).1
  obtain ⟨new, rfl, -⟩ := h.ext
  have hlong : i < (l₀ ++ new).length * geo.clusterSize := by
    rw [List.length_append, Nat.add_mul]
    omega
  rw [getD_chainBytes hgeo.toValid hlong, getD_chainBytes hgeo.toValid hi,
    h.frame.fileAddr_eq hgeo.toValid hfs hnodup hrange hlong hout, fileAddr_append hgeo.toValid hi]

theorem Writing.others {k : List Nat} (hk : k ∈ rest) {c : Nat} (hc : c ∈ k) :
    SameCluster geo m m' c := by
  have hdom := h.part.dom_of_mem (List.mem_cons_of_mem _ hk) hc
  refine h.frame.sameCluster hgeo.toValid hfs
    (fun c hc => (h.part.dom_of_mem List.mem_cons_self hc).1) hdom.1 fun hcl => ?_
  have hnodup := h.part.nodup
  rw [List.flatten_cons, List.nodup_append] at hnodup
  exact hnodup.2.2 c hcl c (List.mem_flatten.mpr ⟨k, hk, hc⟩) rfl

end Written

theorem mem_rest_of_head (hperm : chains.Perm (withChain l rest)) (hstart : StartOf l start)
    {k : List Nat} (hk : k ∈ chains) (hhead : k.head? ≠ some start) : k ∈ rest := by
  have hmem := hperm.mem_iff.mp hk
  rw [withChain] at hmem
  split at hmem
  · exact hmem
  · rcases List.mem_cons.mp hmem with rfl | hmem
    · cases k with
      | nil => contradiction
      | cons c k => exact absurd (congrArg some (show c = start from hstart.symm)) hhead
    · exact hmem

/-- A call that goes through writes its range and nothing else. -/
theorem writeRange_exact (hgeo : geo.Sound) (hfs : geo.FsInfoReserved)
    (h : WellFormed geo m chains) (hstart : start < 2 ∨ ∃ l ∈ chains, l.head? = some start)
    (hdata : data ≠ [])
    (hrun : (writeRange geo start offset data).run disk m = (.ok (start', .ok n), m')) :
    RangeWritten geo m chains start offset data start' n m' := by
  obtain ⟨l₀, rest, hs, hperm, -⟩ := exists_startOf h.nonempty hstart
  have hpart := partition_withChain.mp (h.part.perm hperm)
  have hwp : wp disk (fun _ _ => True) (fun x m' => ∀ n, x.2 = .ok n →
      RangeWritten geo m chains start offset data x.1 n m') (fun _ _ => True)
      (writeRange geo start offset data) m := by
    refine writeRange_spec hgeo hpart hs (fun _ _ _ _ => trivial) (fun _ _ _ _ _ _ _ _ => nofun) ?_
    intro l start' m' hw hs' _ n hn
    obtain rfl : offset + data.length = n := by simpa using hn
    have hold := chainOf_startOf hpart hs
    have hnew := chainOf_startOf hw.part hs'
    have hbound := hw.bound.resolve_left (by simpa using hdata)
    obtain ⟨new, hl, -⟩ := hw.ext
    exact {
      size := rfl
      grown := by rw [hold, hnew, hl]; exact List.prefix_append l₀ new
      covered := by rw [hnew]; exact hbound
      written := by rw [hnew]; exact hw.written hgeo hfs hdata
      outside := fun i hi hout => by
        rw [hold] at hi ⊢
        rw [hnew]
        exact hw.outside hgeo hfs hi hout
      others := fun k hk hhead c hc =>
        hw.others hgeo hfs (mem_rest_of_head hperm hs hk hhead) hc }
  have := Prog.wp_run hwp
  rw [hrun] at this
  exact this n rfl

/-- One byte behind the chain of 2 and 3. -/
theorem writeRange_exact_small :
    ∃ m', RangeWritten smallGeo smallTable [[2, 3]] 2 1024 [7] 2 1025 m' :=
  ⟨((writeRange smallGeo 2 1024 [7]).run disk smallTable).2,
    writeRange_exact smallGeo_sound (fun h => absurd rfl h.1) smallTable_wellFormed
      (Or.inr ⟨[2, 3], List.mem_singleton_self _, rfl⟩) (by decide) (Prod.ext (by rfl) rfl)⟩

end Range

end Vibra.Fat32
