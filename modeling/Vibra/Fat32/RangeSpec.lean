import Vibra.Fat32.TableSpec

/-! # Writing along a chain

`write_range` walks to the cluster of the offset and writes chunk by chunk, extending the chain
where it ends.
-/

namespace Vibra.Fat32

open Lib (Memory Prog Write LinkTable)
open Lib.Prog (wp)
open Lib.LinkTable (Partition)

variable {geo : Fat32Geo} {m m' : Memory}

def Fat32Geo.clusterAddr (geo : Fat32Geo) (cluster : Nat) : Nat :=
  512 * (geo.dataStartSector + (cluster - 2) * geo.sectorsPerCluster)

def Fat32Geo.fileAddr (geo : Fat32Geo) (l : List Nat) (position : Nat) : Nat :=
  geo.clusterAddr (l.getD (position / geo.clusterSize) 0) + position % geo.clusterSize

theorem clusterToSector_eq {cluster : Nat} (h : 2 ≤ cluster) :
    geo.clusterToSector cluster =
      some (geo.dataStartSector + (cluster - 2) * geo.sectorsPerCluster) :=
  if_neg (by omega)

theorem Fat32Geo.Valid.clusterSize_pos (hgeo : geo.Valid) : 0 < geo.clusterSize := by
  have := hgeo.spc
  rw [hgeo.cluster]
  omega

theorem clusterAddr_apart (hgeo : geo.Valid) {c d : Nat} (hc : 2 ≤ c) (hcd : c < d) :
    geo.clusterAddr c + geo.clusterSize ≤ geo.clusterAddr d := by
  have h := copy_gap geo.sectorsPerCluster (show c - 2 < d - 2 by omega)
  rw [hgeo.cluster]
  unfold Fat32Geo.clusterAddr
  omega

theorem clusterAddr_inj (hgeo : geo.Valid) {c d i j : Nat} (hc : 2 ≤ c) (hd : 2 ≤ d)
    (hi : i < geo.clusterSize) (hj : j < geo.clusterSize)
    (h : geo.clusterAddr c + i = geo.clusterAddr d + j) : c = d ∧ i = j := by
  rcases Nat.lt_trichotomy c d with hlt | rfl | hlt
  · have := clusterAddr_apart hgeo hc hlt
    omega
  · omega
  · have := clusterAddr_apart hgeo hd hlt
    omega

theorem clusterAddr_not_inFat (hgeo : geo.Valid) (c i : Nat) :
    ¬ geo.InFat (geo.clusterAddr c + i) := by
  have h := hgeo.data
  have hle := Nat.le_add_right geo.dataStartSector ((c - 2) * geo.sectorsPerCluster)
  unfold Fat32Geo.InFat Fat32Geo.clusterAddr
  omega

def Fat32Geo.FsInfoReserved (geo : Fat32Geo) : Prop :=
  geo.HasFsInfo → geo.fsInfoSector < geo.fatStartSector

theorem clusterAddr_not_inFsInfo (hgeo : geo.Valid) (hfs : geo.FsInfoReserved) (c i : Nat) :
    ¬ geo.InFsInfo (geo.clusterAddr c + i) := by
  rintro ⟨hhas, hlo, hhi⟩
  have h := hfs hhas
  have hdata := hgeo.data
  have hle := Nat.le_add_right geo.dataStartSector ((c - 2) * geo.sectorsPerCluster)
  have hmul := Nat.zero_le (geo.fatCount * geo.fatSize)
  unfold Fat32Geo.clusterAddr at hhi
  omega

theorem sameFat_of_write (hgeo : geo.Valid) {sector : Nat} (h : geo.dataStartSector ≤ sector)
    (buf : Sector) : ∀ a, geo.InFat a → disk.write m sector buf a = m a := by
  intro a ha
  have hdata := hgeo.data
  unfold Fat32Geo.InFat at ha
  exact disk_write_of_outside (by omega)

theorem frame_of_sameFat (hgeo : geo.Sound) (h : ∀ a, geo.InFat a → m' a = m a) :
    (∀ c, geo.HasEntry c → fatTop geo m' c = fatTop geo m c) ∧
      (Copies geo m → Copies geo m') ∧ SameLinks geo (links geo m) (links geo m') := by
  have hmul : geo.fatSize ≤ geo.fatCount * geo.fatSize :=
    Nat.le_mul_of_pos_left _ hgeo.fatCount
  have hfirst : ∀ i < 512 * geo.fatSize, m' (512 * geo.fatStartSector + i) =
      m (512 * geo.fatStartSector + i) := by
    intro i hi
    refine h _ ?_
    unfold Fat32Geo.InFat
    omega
  have hcov := hgeo.covers
  refine ⟨fun c hc => ?_, fun hcopies k hk i hi => ?_, fun c hc => ?_⟩
  · rw [fatTop, fatTop, le32_of_first hfirst hc]
  · have hgap := copy_gap geo.fatSize hk
    rw [hfirst i hi, ← hcopies k hk i hi]
    refine h _ ?_
    unfold Fat32Geo.InFat
    omega
  · rw [links, links, fatValue, fatValue, le32_of_first hfirst (by omega)]

theorem SameLinks.partition {t t' : LinkTable Nat} (h : SameLinks geo t t')
    {chains : List (List Nat)} (hp : Partition t geo.InRange chains) :
    Partition t' geo.InRange chains :=
  hp.congr fun c hc => h c hc.2

/-! ## Writing inside a cluster -/

def DataWrite (geo : Fat32Geo) (cluster : Nat) (w : Write Sector Origin) : Prop :=
  w.tag = .data ∧ geo.dataStartSector + (cluster - 2) * geo.sectorsPerCluster ≤ w.sector ∧
    w.sector < geo.dataStartSector + (cluster - 2) * geo.sectorsPerCluster + geo.sectorsPerCluster

theorem disk_write_whole {sector : Nat} {data : List UInt8} (h : data.length = 512) :
    disk.write m sector (Memory.put (fun _ => 0) 0 data) = m.put (512 * sector) data := by
  funext a
  by_cases hin : a < 512 * sector ∨ 512 * sector + 512 ≤ a
  · rw [disk_write_of_outside hin, Memory.put_of_outside (by omega)]
  · obtain ⟨i, rfl⟩ : ∃ i, a = 512 * sector + i := ⟨a - 512 * sector, by omega⟩
    rw [disk_write_add (by omega), Memory.put_add (by omega),
      Memory.put_of_inside (by omega) (by omega), Nat.sub_zero]

section Clusters

variable {G : Memory → Write Sector Origin → Prop} {E : FsError → Memory → Prop}
  {Q : Unit → Memory → Prop}

theorem writeSectors_spec {base steps sectorIndex sectorOffset : Nat} {data : List UInt8}
    (hoff : sectorOffset < 512) (hsteps : data.length ≤ steps)
    (hfit : data ≠ [] →
      512 * sectorIndex + sectorOffset + data.length ≤ 512 * geo.sectorsPerCluster)
    (hG : ∀ j w, w.tag = .data → base ≤ w.sector → w.sector < base + geo.sectorsPerCluster →
      G (m.put (512 * (base + sectorIndex) + sectorOffset) (data.take j)) w)
    (hQ : Q () (m.put (512 * (base + sectorIndex) + sectorOffset) data)) :
    wp disk G Q E (writeSectors geo base steps sectorIndex sectorOffset data) m := by
  induction steps generalizing sectorIndex sectorOffset data m with
  | zero =>
    obtain rfl := List.length_eq_zero_iff.mp (Nat.le_zero.mp hsteps)
    rw [Memory.put_nil] at hQ
    exact hQ
  | succ steps ih =>
    rw [writeSectors]
    by_cases hnil : data = []
    · rw [if_pos hnil]
      subst hnil
      rw [Memory.put_nil] at hQ
      exact hQ
    · have hlen : 0 < data.length := List.length_pos_iff.mpr hnil
      have hfit' := hfit hnil
      rw [if_neg hnil, if_neg (by omega)]
      simp only [sectorSize]
      generalize htake : min (512 - sectorOffset) data.length = take
      have hhead : (data.take take).length = take := by
        rw [List.length_take]
        omega
      -- the rest of the data, from the next sector on
      have hrest : wp disk G Q E
          (writeSectors geo base steps (sectorIndex + 1) 0 (data.drop take))
          (m.put (512 * (base + sectorIndex) + sectorOffset) (data.take take)) := by
        have hput : ∀ j, Memory.put (m.put (512 * (base + sectorIndex) + sectorOffset)
            (data.take take)) (512 * (base + (sectorIndex + 1)) + 0) ((data.drop take).take j) =
            m.put (512 * (base + sectorIndex) + sectorOffset) (data.take (take + j)) := by
          intro j
          rw [List.take_add, Memory.put_append, hhead]
          rcases Nat.lt_or_ge take data.length with h | h
          · congr 1
            omega
          · rw [List.drop_eq_nil_of_le h, List.take_nil, Memory.put_nil, Memory.put_nil]
        refine ih (by decide) (by rw [List.length_drop]; omega) (fun hne => ?_)
          (fun j w htag hlo hhi => ?_) ?_
        · have hpos : 0 < (data.drop take).length := List.length_pos_iff.mpr hne
          rw [List.length_drop] at hpos ⊢
          omega
        · rw [hput]
          exact hG _ w htag hlo hhi
        · have := hput (data.drop take).length
          rw [List.take_length] at this
          rw [this, List.length_drop, List.take_of_length_le (by omega)]
          exact hQ
      have hGnow := fun w => hG 0 w
      simp only [List.take_zero, Memory.put_nil] at hGnow
      by_cases hwhole : sectorOffset = 0 ∧ take = 512
      · obtain ⟨rfl, rfl⟩ := hwhole
        rw [if_pos ⟨rfl, rfl⟩, Prog.wp_bind, wp_writeSector]
        refine ⟨hGnow _ rfl (by simp only; omega) (by simp only; omega), ?_⟩
        rw [disk_write_whole hhead]
        exact hrest
      · rw [if_neg hwhole, Prog.wp_bind, wp_readSector, Prog.wp_bind, wp_writeSector]
        refine ⟨hGnow _ rfl (by simp only; omega) (by simp only; omega), ?_⟩
        rw [disk_write_put (by omega)]
        exact hrest

theorem writeClusterRange_spec (hgeo : geo.Valid) {cluster within : Nat} {data : List UInt8}
    (hc : 2 ≤ cluster) (hfit : within + data.length ≤ geo.clusterSize)
    (hG : ∀ j w, DataWrite geo cluster w →
      G (m.put (geo.clusterAddr cluster + within) (data.take j)) w)
    (hQ : Q () (m.put (geo.clusterAddr cluster + within) data)) :
    wp disk G Q E (writeClusterRange geo cluster within data) m := by
  have haddr : 512 * (geo.dataStartSector + (cluster - 2) * geo.sectorsPerCluster +
      within / 512) + within % 512 = geo.clusterAddr cluster + within := by
    unfold Fat32Geo.clusterAddr
    omega
  rw [writeClusterRange, clusterToSector_eq hc]
  refine writeSectors_spec (Nat.mod_lt _ (by decide)) (Nat.le_refl _) (fun _ => ?_)
    (fun j w htag hlo hhi => ?_) ?_
  · have := hgeo.cluster
    simp only [sectorSize]
    omega
  · simp only [sectorSize]
    rw [haddr]
    exact hG j w ⟨htag, hlo, hhi⟩
  · simp only [sectorSize]
    rw [haddr]
    exact hQ

end Clusters

/-- The tables that a cut can leave while the chain `l` gets one more cluster. -/
def Extending (geo : Fat32Geo) (m : Memory) (l : List Nat) (rest : List (List Nat))
    (m' : Memory) : Prop :=
  Partition (links geo m') geo.InRange (l :: rest) ∨
    ∃ d, links geo m d = .free ∧
      (Partition (links geo m') geo.InRange ([d] :: l :: rest) ∨
        Partition (links geo m') geo.InRange ((l ++ [d]) :: rest))

section Next

variable {G : Memory → Write Sector Origin → Prop} {E : FsError → Memory → Prop}
  {Q : Nat → Memory → Prop}

theorem nextOrAlloc_next {c d : Nat} (h : links geo m c = .next d) :
    wp disk G Q E (nextOrAlloc geo c) m ↔ Q d m := by
  obtain ⟨hend, hval⟩ := links_eq_next h
  simp [nextOrAlloc, hval ▸ hend, hval]

theorem allocCluster_extend (hgeo : geo.Sound) {pre : List Nat} {c : Nat}
    {rest : List (List Nat)}
    (hpart : Partition (links geo m) geo.InRange ((pre ++ [c]) :: rest))
    (hfull : E .diskFull m)
    (hG : ∀ m' w, SameData geo m m' → Extending geo m (pre ++ [c]) rest m' → MetaWrite geo w →
      G m' w)
    (hQ : ∀ d m', geo.InRange d → links geo m d = .free → TableFrame geo m m' →
      Partition (links geo m') geo.InRange ((pre ++ [c] ++ [d]) :: rest) → Q d m') :
    wp disk G Q E (allocCluster geo (some c)) m := by
  have hc : geo.InRange c := hpart.dom_of_mem List.mem_cons_self (by simp)
  have happend : ∀ d, pre ++ [c] ++ [d] = pre ++ [c, d] := fun d => by simp
  refine allocCluster_spec hgeo (fun p hp => ?_) (fun _ => hfull)
    (fun d m' w hd hfree hdata htaking hw => ?_) fun d m' hd hfree hframe hlinks => ?_
  · rw [Option.mem_some_iff] at hp
    exact hp ▸ hc.2
  · refine hG m' w hdata ?_ hw
    rcases htaking with h | h | h
    · exact Or.inl (h.partition hpart)
    · exact Or.inr ⟨d, hfree, Or.inl (h.partition (hpart.alloc hd hfree))⟩
    · refine Or.inr ⟨d, hfree, Or.inr ?_⟩
      rw [happend]
      exact h.partition (hpart.extend hd hfree)
  · refine hQ d m' hd hfree hframe ?_
    rw [happend]
    exact hlinks.partition (hpart.extend hd hfree)

theorem nextOrAlloc_end {c : Nat} (h : ∀ d, links geo m c ≠ .next d) :
    wp disk G Q E (nextOrAlloc geo c) m ↔ wp disk G Q E (allocCluster geo (some c)) m := by
  simp [nextOrAlloc, endsChain_of_ne_next h]

end Next

/-! ## The state of the writing loop -/

theorem fileAddr_append (hgeo : geo.Valid) {l new : List Nat} {p : Nat}
    (hp : p < l.length * geo.clusterSize) : geo.fileAddr (l ++ new) p = geo.fileAddr l p := by
  have hlt : p / geo.clusterSize < l.length := (Nat.div_lt_iff_lt_mul hgeo.clusterSize_pos).mpr hp
  rw [Fat32Geo.fileAddr, Fat32Geo.fileAddr, List.getD_append _ _ _ _ hlt]

theorem fileAddr_inj (hgeo : geo.Valid) {l : List Nat} (hnodup : l.Nodup)
    (hrange : ∀ c ∈ l, 2 ≤ c) {p q : Nat} (hp : p < l.length * geo.clusterSize)
    (hq : q < l.length * geo.clusterSize) (h : geo.fileAddr l p = geo.fileAddr l q) : p = q := by
  have hpos := hgeo.clusterSize_pos
  have hpl : p / geo.clusterSize < l.length := (Nat.div_lt_iff_lt_mul hpos).mpr hp
  have hql : q / geo.clusterSize < l.length := (Nat.div_lt_iff_lt_mul hpos).mpr hq
  simp only [Fat32Geo.fileAddr, List.getD_eq_getElem _ _ hpl, List.getD_eq_getElem _ _ hql] at h
  obtain ⟨hc, hoff⟩ := clusterAddr_inj hgeo (hrange _ (List.getElem_mem hpl))
    (hrange _ (List.getElem_mem hql)) (Nat.mod_lt _ hpos) (Nat.mod_lt _ hpos) h
  have hidx := (List.Nodup.getElem_inj_iff hnodup).mp hc
  have hp' := Nat.div_add_mod p geo.clusterSize
  have hq' := Nat.div_add_mod q geo.clusterSize
  rw [← hp', ← hq', hidx, hoff]

/-- The chain `l` is `l₀` with clusters that were free at the start. -/
def Extends (geo : Fat32Geo) (m₀ : Memory) (l₀ l : List Nat) : Prop :=
  ∃ new, l = l₀ ++ new ∧ ∀ c ∈ new, links geo m₀ c = .free

/-- Outside the table and the FSInfo sector, `m` differs from `m₀` at the `n`
positions from `offset` on at most. -/
def WrittenAt (geo : Fat32Geo) (m₀ : Memory) (l : List Nat) (offset n : Nat) (m : Memory) : Prop :=
  ∀ a, ¬ geo.InFat a → ¬ geo.InFsInfo a →
    (∀ p, offset ≤ p → p < offset + n → p < l.length * geo.clusterSize → a ≠ geo.fileAddr l p) →
    m a = m₀ a

/-- The memory after `n` bytes of the data, with the chain grown from `l₀` to `l`. -/
structure Writing (geo : Fat32Geo) (m₀ : Memory) (l₀ : List Nat) (rest : List (List Nat))
    (offset : Nat) (data : List UInt8) (n : Nat) (l : List Nat) (m : Memory) : Prop where
  ext : Extends geo m₀ l₀ l
  part : Partition (links geo m) geo.InRange (l :: rest)
  top : ∀ c, geo.HasEntry c → fatTop geo m c = fatTop geo m₀ c
  copies : Copies geo m₀ → Copies geo m
  frame : WrittenAt geo m₀ l offset n m
  content : geo.FsInfoReserved → ∀ i < n, m (geo.fileAddr l (offset + i)) = data.getD i 0
  bound : n = 0 ∨ offset + n ≤ l.length * geo.clusterSize

/-- What a cut during the call can leave: part of the data, a chain grown so far,
and perhaps one cluster taken but not linked yet. -/
def Cut (geo : Fat32Geo) (m₀ : Memory) (l₀ : List Nat) (rest : List (List Nat)) (offset : Nat)
    (data : List UInt8) (m : Memory) : Prop :=
  ∃ n l, n ≤ data.length ∧ Extends geo m₀ l₀ l ∧ WrittenAt geo m₀ l offset n m ∧
    (Partition (links geo m) geo.InRange (l :: rest) ∨
      ∃ d, links geo m₀ d = .free ∧ Partition (links geo m) geo.InRange ([d] :: l :: rest))

def RangeWrite (geo : Fat32Geo) (w : Write Sector Origin) : Prop :=
  MetaWrite geo w ∨ ∃ c, geo.InRange c ∧ DataWrite geo c w

section Loop

variable {m₀ : Memory} {l₀ l : List Nat} {rest : List (List Nat)} {offset n : Nat}
  {data : List UInt8}

theorem Writing.start (hpart : Partition (links geo m₀) geo.InRange (l₀ :: rest)) :
    Writing geo m₀ l₀ rest offset data 0 l₀ m₀ where
  ext := ⟨[], by simp, by simp⟩
  part := hpart
  top _ _ := rfl
  copies := id
  frame _ _ _ _ := rfl
  content _ i hi := absurd hi (Nat.not_lt_zero i)
  bound := Or.inl rfl

theorem Writing.cut (h : Writing geo m₀ l₀ rest offset data n l m) (hn : n ≤ data.length) :
    Cut geo m₀ l₀ rest offset data m :=
  ⟨n, l, hn, h.ext, h.frame, Or.inl h.part⟩

theorem Writing.free (hpart₀ : Partition (links geo m₀) geo.InRange (l₀ :: rest))
    (h : Writing geo m₀ l₀ rest offset data n l m) {d : Nat} (hd : geo.InRange d)
    (hfree : links geo m d = .free) : links geo m₀ d = .free := by
  by_contra hused
  have hmem := (hpart₀.mem_iff d).mpr ⟨hd, hused⟩
  refine h.part.not_mem_of_free hfree ?_
  obtain ⟨new, rfl, -⟩ := h.ext
  simp only [List.flatten_cons, List.mem_append] at hmem ⊢
  tauto

theorem Extends.append {d : Nat} (h : Extends geo m₀ l₀ l) (hd : links geo m₀ d = .free) :
    Extends geo m₀ l₀ (l ++ [d]) := by
  obtain ⟨new, rfl, hnew⟩ := h
  refine ⟨new ++ [d], by simp, fun c hc => ?_⟩
  rcases List.mem_append.mp hc with hc | hc
  · exact hnew c hc
  · rw [List.mem_singleton] at hc
    exact hc ▸ hd

theorem WrittenAt.append (hgeo : geo.Valid) {d : Nat} (h : WrittenAt geo m₀ l offset n m) :
    WrittenAt geo m₀ (l ++ [d]) offset n m := by
  intro a hfat hinfo hne
  refine h a hfat hinfo fun p hlo hhi hlen => ?_
  have := hne p hlo hhi (by rw [List.length_append, Nat.add_mul]; omega)
  rwa [fileAddr_append hgeo hlen] at this

theorem WrittenAt.sameData (h : WrittenAt geo m₀ l offset n m) (hdata : SameData geo m m') :
    WrittenAt geo m₀ l offset n m' :=
  fun a hfat hinfo hne => (hdata a hfat hinfo).trans (h a hfat hinfo hne)

theorem Writing.extending (hgeo : geo.Valid)
    (hpart₀ : Partition (links geo m₀) geo.InRange (l₀ :: rest))
    (h : Writing geo m₀ l₀ rest offset data n l m) (hn : n ≤ data.length)
    (hdata : SameData geo m m') (hext : Extending geo m l rest m') :
    Cut geo m₀ l₀ rest offset data m' := by
  rcases hext with hp | ⟨d, hfree, hp | hp⟩
  · exact ⟨n, l, hn, h.ext, h.frame.sameData hdata, Or.inl hp⟩
  · have hd : geo.InRange d := hp.dom_of_mem List.mem_cons_self (by simp)
    exact ⟨n, l, hn, h.ext, h.frame.sameData hdata, Or.inr ⟨d, h.free hpart₀ hd hfree, hp⟩⟩
  · have hd : geo.InRange d := hp.dom_of_mem List.mem_cons_self (by simp)
    exact ⟨n, l ++ [d], hn, h.ext.append (h.free hpart₀ hd hfree),
      (h.frame.append hgeo).sameData hdata, Or.inl hp⟩

theorem Writing.extend (hgeo : geo.Sound)
    (hpart₀ : Partition (links geo m₀) geo.InRange (l₀ :: rest))
    (h : Writing geo m₀ l₀ rest offset data n l m) {d : Nat} (hd : geo.InRange d)
    (hfree : links geo m d = .free) (hframe : TableFrame geo m m')
    (hpart : Partition (links geo m') geo.InRange ((l ++ [d]) :: rest)) :
    Writing geo m₀ l₀ rest offset data n (l ++ [d]) m' where
  ext := h.ext.append (h.free hpart₀ hd hfree)
  part := hpart
  top c hc := (hframe.top c hc).trans (h.top c hc)
  copies hc := hframe.copies (h.copies hc)
  frame := (h.frame.append hgeo.toValid).sameData hframe.data
  content hfs i hi := by
    have hb : offset + n ≤ l.length * geo.clusterSize := h.bound.resolve_left (by omega)
    rw [fileAddr_append hgeo.toValid (by omega), ← h.content hfs i hi]
    exact hframe.data _ (clusterAddr_not_inFat hgeo.toValid _ _)
      (clusterAddr_not_inFsInfo hgeo.toValid hfs _ _)
  bound := by
    rcases h.bound with h | h
    · exact Or.inl h
    · refine Or.inr ?_
      rw [List.length_append, Nat.add_mul]
      omega

theorem fileAddr_chunk (hgeo : geo.Valid) {pre post : List Nat} {c position i : Nat}
    (hl : l = pre ++ c :: post) (hpre : pre.length = position / geo.clusterSize)
    (hi : position % geo.clusterSize + i < geo.clusterSize) :
    geo.clusterAddr c + position % geo.clusterSize + i = geo.fileAddr l (position + i) := by
  have hpos := hgeo.clusterSize_pos
  have hdm := Nat.div_add_mod position geo.clusterSize
  have hsum : position + i =
      position % geo.clusterSize + i + position / geo.clusterSize * geo.clusterSize := by
    rw [Nat.mul_comm] at hdm
    omega
  have hdiv : (position + i) / geo.clusterSize = pre.length := by
    rw [hsum, Nat.add_mul_div_right _ _ hpos, Nat.div_eq_of_lt hi, hpre, Nat.zero_add]
  have hmod : (position + i) % geo.clusterSize = position % geo.clusterSize + i := by
    rw [hsum, Nat.add_mul_mod_self_right, Nat.mod_eq_of_lt hi]
  rw [Fat32Geo.fileAddr, hdiv, hmod, hl, List.getD_append_right _ _ _ _ (Nat.le_refl _),
    Nat.sub_self, List.getD_cons_zero, Nat.add_assoc]

theorem Writing.chunk (hgeo : geo.Sound) (h : Writing geo m₀ l₀ rest offset data n l m)
    {pre post : List Nat} {c k : Nat} (hl : l = pre ++ c :: post)
    (hpre : pre.length = (offset + n) / geo.clusterSize) (hk : n + k ≤ data.length)
    (hfit : (offset + n) % geo.clusterSize + k ≤ geo.clusterSize) :
    Writing geo m₀ l₀ rest offset data (n + k) l
      (m.put (geo.clusterAddr c + (offset + n) % geo.clusterSize) ((data.drop n).take k)) := by
  have hlen : ((data.drop n).take k).length = k := by
    rw [List.length_take, List.length_drop]
    omega
  have hwindow : ∀ i < k, geo.clusterAddr c + (offset + n) % geo.clusterSize + i =
      geo.fileAddr l (offset + n + i) :=
    fun i hi => fileAddr_chunk hgeo.toValid hl hpre (by omega)
  have hbound : offset + n + k ≤ l.length * geo.clusterSize := by
    have hdm := Nat.div_add_mod (offset + n) geo.clusterSize
    have hsucc : (pre.length + 1) * geo.clusterSize ≤ l.length * geo.clusterSize :=
      Nat.mul_le_mul_right _ (by rw [hl]; simp)
    rw [hpre, Nat.add_mul, Nat.one_mul, Nat.mul_comm] at hsucc
    omega
  have hnodup : l.Nodup := h.part.chain_nodup List.mem_cons_self
  have hrange : ∀ d ∈ l, 2 ≤ d := fun d hd => (h.part.dom_of_mem List.mem_cons_self hd).1
  -- the table is untouched
  have hfat : ∀ a, geo.InFat a → m.put (geo.clusterAddr c + (offset + n) % geo.clusterSize)
      ((data.drop n).take k) a = m a := by
    intro a ha
    refine Memory.put_of_outside ?_
    by_contra hin
    refine clusterAddr_not_inFat hgeo.toValid c (a - geo.clusterAddr c) ?_
    rwa [Nat.add_sub_cancel' (by omega)]
  obtain ⟨htop, hcopies, hlinks⟩ := frame_of_sameFat hgeo hfat
  refine ⟨h.ext, hlinks.partition h.part, fun d hd => (htop d hd).trans (h.top d hd),
    fun hc => hcopies (h.copies hc), ?_, ?_, Or.inr (by omega)⟩
  · intro a hnf hni hne
    rw [Memory.put_of_outside, h.frame a hnf hni fun p hlo hhi => hne p hlo (by omega)]
    rw [hlen]
    by_contra hin
    have hi : a - (geo.clusterAddr c + (offset + n) % geo.clusterSize) < k := by omega
    refine hne (offset + n + (a - (geo.clusterAddr c + (offset + n) % geo.clusterSize)))
      (by omega) (by omega) (by omega) ?_
    rw [← hwindow _ hi]
    omega
  · intro hfs i hi
    by_cases hin : i < n
    · rw [Memory.put_of_outside, h.content hfs i hin]
      rw [hlen]
      by_contra hw
      generalize hx : geo.fileAddr l (offset + i) = x at hw
      have hj : x - (geo.clusterAddr c + (offset + n) % geo.clusterSize) < k := by omega
      have heq := hwindow _ hj
      rw [Nat.add_sub_cancel' (by omega), ← hx] at heq
      have := fileAddr_inj hgeo.toValid hnodup hrange (by omega) (by omega) heq
      omega
    · have hj : i - n < k := by omega
      have hpos : offset + i = offset + n + (i - n) := by omega
      rw [hpos, ← hwindow _ hj, Memory.put_add (by omega)]
      rw [List.getD_eq_getElem _ _ (by omega), List.getD_eq_getElem _ _ (by omega)]
      simp only [List.getElem_take, List.getElem_drop]
      congr 1
      omega

theorem links_next {pre post : List Nat} {c d : Nat}
    (h : Partition (links geo m) geo.InRange ((pre ++ c :: d :: post) :: rest)) :
    links geo m c = .next d :=
  (h.chain _ List.mem_cons_self).next

theorem links_stop {pre : List Nat} {c : Nat}
    (h : Partition (links geo m) geo.InRange ((pre ++ [c]) :: rest)) : links geo m c = .stop :=
  (h.chain _ List.mem_cons_self).stop

section Steps

variable {G : Memory → Write Sector Origin → Prop} {E : FsError → Memory → Prop}

theorem Writing.next (hgeo : geo.Sound)
    (hpart₀ : Partition (links geo m₀) geo.InRange (l₀ :: rest)) (hn : n ≤ data.length)
    (hG : ∀ m w, Cut geo m₀ l₀ rest offset data m → RangeWrite geo w → G m w)
    (h : Writing geo m₀ l₀ rest offset data n l m) {first : Nat} (hhead : l.head? = some first)
    {pre post : List Nat} {c : Nat} (hl : l = pre ++ c :: post) {Q : Nat → Memory → Prop}
    (hfull : Writing geo m₀ l₀ rest offset data n l m → E .diskFull m)
    (hQ : ∀ d post' l m, Writing geo m₀ l₀ rest offset data n l m → l.head? = some first →
      l = pre ++ [c] ++ d :: post' → Q d m) :
    wp disk G Q E (nextOrAlloc geo c) m := by
  subst hl
  cases post with
  | cons d post =>
    rw [nextOrAlloc_next (links_next h.part)]
    exact hQ d post _ m h hhead (by simp)
  | nil =>
    rw [nextOrAlloc_end fun d => by simp [links_stop h.part]]
    refine allocCluster_extend hgeo h.part (hfull h) (fun m' w hdata hext hw => ?_)
      fun d m' hd hfree hframe hpart => ?_
    · exact hG m' w (h.extending hgeo.toValid hpart₀ hn hdata hext) (Or.inl hw)
    · refine hQ d [] _ m' (h.extend hgeo hpart₀ hd hfree hframe hpart) ?_ rfl
      rw [List.head?_append, hhead]
      rfl

theorem walkTo_spec (hgeo : geo.Sound)
    (hpart₀ : Partition (links geo m₀) geo.InRange (l₀ :: rest)) (hn : n ≤ data.length)
    (hG : ∀ m w, Cut geo m₀ l₀ rest offset data m → RangeWrite geo w → G m w)
    {count : Nat} (h : Writing geo m₀ l₀ rest offset data n l m) {first : Nat}
    (hhead : l.head? = some first) {pre post : List Nat} {c : Nat} (hl : l = pre ++ c :: post)
    {Q : Nat → Memory → Prop}
    (hfull : ∀ l m, Writing geo m₀ l₀ rest offset data n l m → l.head? = some first →
      E .diskFull m)
    (hQ : ∀ pre' d post' l m, Writing geo m₀ l₀ rest offset data n l m → l.head? = some first →
      l = pre' ++ d :: post' → pre'.length = pre.length + count → Q d m) :
    wp disk G Q E (walkTo geo count c) m := by
  induction count generalizing l m pre post c with
  | zero => exact hQ pre c post l m h hhead hl rfl
  | succ count ih =>
    rw [walkTo, Prog.wp_bind]
    refine h.next hgeo hpart₀ hn hG hhead hl (fun h => hfull l m h hhead)
      fun d post' l' m' h' hhead' hl' => ?_
    refine ih h' hhead' hl' fun pre' e post'' l'' m'' h'' hhead'' hl'' hlen => ?_
    refine hQ pre' e post'' l'' m'' h'' hhead'' hl'' ?_
    rw [hlen]
    simp
    omega

theorem writeClusters_spec (hgeo : geo.Sound)
    (hpart₀ : Partition (links geo m₀) geo.InRange (l₀ :: rest)) (hn : n < data.length)
    (hG : ∀ m w, Cut geo m₀ l₀ rest offset data m → RangeWrite geo w → G m w)
    (steps : Nat) (hsteps : data.length ≤ n + steps)
    (h : Writing geo m₀ l₀ rest offset data n l m) {first : Nat} (hhead : l.head? = some first)
    {pre post : List Nat} {c : Nat} (hl : l = pre ++ c :: post)
    (hpre : pre.length = (offset + n) / geo.clusterSize) {Q : Unit → Memory → Prop}
    (hfull : ∀ k l m, k < data.length → Writing geo m₀ l₀ rest offset data k l m →
      l.head? = some first → E .diskFull m)
    (hQ : ∀ l m, Writing geo m₀ l₀ rest offset data data.length l m → l.head? = some first →
      Q () m) :
    wp disk G Q E (writeClusters geo steps c (offset + n) (data.drop n)) m := by
  have hpos := hgeo.clusterSize_pos
  induction steps generalizing n l m pre post c with
  | zero => omega
  | succ steps ih =>
    have hmod := Nat.mod_lt (offset + n) hpos
    have hne : data.drop n ≠ [] := by
      rw [ne_eq, List.drop_eq_nil_iff]
      omega
    have hc : geo.InRange c := h.part.dom_of_mem List.mem_cons_self (by simp [hl])
    rw [writeClusters, if_neg hne]
    simp only [List.length_drop, List.drop_drop]
    generalize hk : min (geo.clusterSize - (offset + n) % geo.clusterSize) (data.length - n) = k
    have hkle : n + k ≤ data.length := by omega
    have hkpos : 0 < k := by omega
    have hchunk := h.chunk hgeo hl hpre hkle (by omega)
    rw [Prog.wp_bind]
    refine writeClusterRange_spec hgeo.toValid hc.1
      (by rw [List.length_take, List.length_drop]; omega) (fun j w hw => ?_) ?_
    · -- a cut inside the chunk
      have hj := h.chunk hgeo (k := min j k) hl hpre (by omega) (by omega)
      rw [← List.take_take] at hj
      exact hG _ w (hj.cut (by omega)) (Or.inr ⟨c, hc, hw⟩)
    · by_cases hend : data.drop (n + k) = []
      · rw [if_pos hend, Prog.wp_pure]
        rw [List.drop_eq_nil_iff] at hend
        have hall : n + k = data.length := by omega
        exact hQ l _ (hall ▸ hchunk) hhead
      · rw [List.drop_eq_nil_iff] at hend
        rw [if_neg (by rw [List.drop_eq_nil_iff]; exact hend), Prog.wp_bind]
        -- the chunk ends at the end of its cluster
        have hkeq : k = geo.clusterSize - (offset + n) % geo.clusterSize := by omega
        have hdiv : (offset + (n + k)) / geo.clusterSize = pre.length + 1 := by
          have hdm := Nat.div_add_mod (offset + n) geo.clusterSize
          have hsum : offset + (n + k) = geo.clusterSize * ((offset + n) / geo.clusterSize + 1) := by
            rw [Nat.mul_add, Nat.mul_one]
            omega
          rw [hsum, Nat.mul_div_cancel_left _ hpos, hpre]
        refine hchunk.next hgeo hpart₀ hkle hG hhead hl
          (fun h => hfull _ l _ (by omega) h hhead) fun d post' l' m' h' hhead' hl' => ?_
        rw [Nat.add_assoc]
        exact ih (by omega) (by omega) h' hhead' hl' (by rw [hdiv]; simp)

def Full (geo : Fat32Geo) (m : Memory) : Prop := ∀ c, geo.InRange c → links geo m c ≠ .free

/-- The file has the chain `l`: its first cluster, or none. -/
def StartOf (l : List Nat) (start : Nat) : Prop :=
  match l with
  | [] => start < 2
  | c :: _ => start = c

theorem startOrAlloc_spec (hgeo : geo.Sound)
    (hpart₀ : Partition (links geo m₀) geo.InRange (l₀ :: rest)) {start : Nat}
    (hstart : StartOf l₀ start)
    (hG : ∀ m w, Cut geo m₀ l₀ rest offset data m → RangeWrite geo w → G m w)
    {Q : Nat → Memory → Prop} (hfull : l₀ = [] → Full geo m₀ → E .diskFull m₀)
    (hQ : ∀ c l m, Writing geo m₀ l₀ rest offset data 0 (c :: l) m → Q c m) :
    wp disk G Q E (startOrAlloc geo start) m₀ := by
  have h₀ : Writing geo m₀ l₀ rest offset data 0 l₀ m₀ := .start hpart₀
  rw [startOrAlloc]
  cases l₀ with
  | cons c l =>
    obtain rfl : start = c := hstart
    have hc : geo.InRange start := hpart₀.dom_of_mem List.mem_cons_self (by simp)
    rw [if_neg (by have := hc.1; omega), Prog.wp_pure]
    exact hQ start l m₀ h₀
  | nil =>
    have hpart := LinkTable.Partition.nil_cons.mp hpart₀
    have hlt : start < 2 := hstart
    rw [if_pos hlt]
    refine allocCluster_spec hgeo (by simp) (hfull rfl)
      (fun d m' w hd hfree hdata htaking hw => hG m' w ?_ (Or.inl hw))
      fun d m' hd hfree hframe hlinks => ?_
    · have hcut : ∀ p, Partition (links geo m') geo.InRange p → p = rest ∨ p = [d] :: rest →
          Cut geo m₀ [] rest offset data m' := by
        rintro p hp (rfl | rfl)
        · exact ⟨0, [], Nat.zero_le _, h₀.ext, h₀.frame.sameData hdata,
            Or.inl (LinkTable.Partition.nil_cons.mpr hp)⟩
        · exact ⟨0, [d], Nat.zero_le _, h₀.ext.append hfree,
            (h₀.frame.append hgeo.toValid).sameData hdata, Or.inl hp⟩
      rcases htaking with h | h | h
      · exact hcut _ (h.partition hpart) (Or.inl rfl)
      · exact hcut _ (h.partition (hpart.alloc hd hfree)) (Or.inr rfl)
      · exact hcut _ (h.partition (hpart.alloc hd hfree)) (Or.inr rfl)
    · exact hQ d [] m' (h₀.extend hgeo hpart₀ hd hfree hframe
        (hlinks.partition (hpart.alloc hd hfree)))

theorem writeRange_spec (hgeo : geo.Sound)
    (hpart₀ : Partition (links geo m₀) geo.InRange (l₀ :: rest)) {start : Nat}
    (hstart : StartOf l₀ start)
    (hG : ∀ m w, Cut geo m₀ l₀ rest offset data m → RangeWrite geo w → G m w)
    {Q : Nat × Except FsError Nat → Memory → Prop}
    (hfull : ∀ n l start' m, n < data.length → Writing geo m₀ l₀ rest offset data n l m →
      StartOf l start' → (l = [] → Full geo m₀) → Q (start', .error .diskFull) m)
    (hQ : ∀ l start' m, Writing geo m₀ l₀ rest offset data data.length l m → StartOf l start' →
      (data ≠ [] → l ≠ []) → Q (start', .ok (offset + data.length)) m) :
    wp disk G Q E (writeRange geo start offset data) m₀ := by
  have h₀ : Writing geo m₀ l₀ rest offset data 0 l₀ m₀ := .start hpart₀
  rw [writeRange]
  by_cases hnil : data = []
  · rw [if_pos hnil, Prog.wp_pure]
    subst hnil
    exact hQ l₀ start m₀ h₀ hstart (fun h => absurd rfl h)
  · have hlen : 0 < data.length := List.length_pos_iff.mpr hnil
    have hstartOf : ∀ {l : List Nat} {first : Nat}, l.head? = some first → StartOf l first := by
      intro l first hhead
      cases l with
      | nil => simp at hhead
      | cons c l => simpa [StartOf, eq_comm] using hhead
    rw [if_neg hnil, Prog.wp_bind, Prog.wp_attempt]
    refine startOrAlloc_spec hgeo hpart₀ hstart hG (fun hl hnone => ?_) fun first l m h => ?_
    · exact hfull 0 l₀ start m₀ hlen h₀ hstart fun _ => hnone
    · simp only [Prog.wp_bind, Prog.wp_attempt, Prog.wp_pure]
      refine walkTo_spec hgeo hpart₀ (Nat.zero_le _) hG h (show (first :: l).head? = some first from rfl)
        (show first :: l = [] ++ first :: l from rfl)
        (fun l m h hhead => hfull 0 l first m hlen h (hstartOf hhead) fun hl => by
          simp [hl] at hhead)
        fun pre d post l m h hhead hl hpre => ?_
      have hclusters := writeClusters_spec (E := fun e m => Q (first, .error e) m)
        (Q := fun _ m => Q (first, .ok (offset + data.length)) m) hgeo hpart₀ hlen hG
        data.length (by omega) h hhead hl (by rw [hpre]; simp)
        (fun k l m hk h hhead => hfull k l first m hk h (hstartOf hhead) fun hl => by
          simp [hl] at hhead)
        (fun l m h hhead => hQ l first m h (hstartOf hhead) (fun _ hl => by simp [hl] at hhead))
      exact hclusters

end Steps

end Loop

end Vibra.Fat32
