import Vibra.Iso.Records

/-! # Listing a directory

A directory is a run of blocks, each filled with records up to some byte and with zeros behind it.
-/

namespace Vibra.Iso

open Lib (Outcome Bytes RawDisk Memory)
open Lib.Outcome

/-- The blocks of a directory, by the records that lie in each. -/
structure Directory (blockSize : Nat) where
  blocks : List (List DirRecord)
  fits : ∀ b ∈ blocks, (b.flatMap DirRecord.bytes).length ≤ blockSize

def blockBytes (blockSize : Nat) (records : List DirRecord) : Bytes :=
  records.flatMap DirRecord.bytes ++
    List.replicate (blockSize - (records.flatMap DirRecord.bytes).length) 0

def endsFrom : Nat → List DirRecord → List (Nat × DirRecord)
  | _, [] => []
  | i, r :: rest => (i + r.length, r) :: endsFrom (i + r.length) rest

/-- The same for whole blocks from the `k`-th on. -/
def blockEnds (blockSize : Nat) : Nat → List (List DirRecord) → List (Nat × DirRecord)
  | _, [] => []
  | k, b :: rest => endsFrom (k * blockSize) b ++ blockEnds blockSize (k + 1) rest

namespace Directory

variable {blockSize : Nat} (dir : Directory blockSize)

def bytes : Bytes := dir.blocks.flatMap (blockBytes blockSize)

def size : Nat := dir.blocks.length * blockSize

def records : List DirRecord := dir.blocks.flatten

def ends : List (Nat × DirRecord) := blockEnds blockSize 0 dir.blocks

/-- What a complete listing shows: the records that are no dots and of files in one extent. -/
def shown (joliet : Bool) : List Record :=
  (dir.records.filter fun r => ¬ r.Dot ∧ ¬ r.MultiExtent).map (·.shown joliet)

end Directory

def DirRecord.listed (r : DirRecord) (joliet : Bool) : Option Record :=
  if r.Dot then none else some { r.shown joliet with name := r.heard joliet }

variable {blockSize : Nat}

theorem length_blockBytes {b : List DirRecord}
    (h : (b.flatMap DirRecord.bytes).length ≤ blockSize) :
    (blockBytes blockSize b).length = blockSize := by
  rw [blockBytes, List.length_append, List.length_replicate]
  omega

theorem Directory.length_bytes (dir : Directory blockSize) : dir.bytes.length = dir.size :=
  Lib.length_blocks fun b hb => length_blockBytes (dir.fits b hb)

theorem map_snd_endsFrom (i : Nat) (records : List DirRecord) :
    (endsFrom i records).map Prod.snd = records := by
  induction records generalizing i with
  | nil => rfl
  | cons r rest ih => rw [endsFrom, List.map_cons, ih]

theorem map_snd_blockEnds (k : Nat) (blocks : List (List DirRecord)) :
    (blockEnds blockSize k blocks).map Prod.snd = blocks.flatten := by
  induction blocks generalizing k with
  | nil => rfl
  | cons b rest ih => rw [blockEnds, List.map_append, map_snd_endsFrom, ih, List.flatten_cons]

/-! ## The loop -/

theorem getD_of_drop {full rest : Bytes} {i limit : Nat} {b : UInt8}
    (h : full.drop i = b :: rest) (hi : i < limit) :
    i < (full.take limit).length ∧ (full.take limit).getD i 0 = b := by
  have hget : full[i]? = some b := by
    have h0 := congrArg (fun l => l[0]?) h
    simpa using h0
  obtain ⟨hlt, -⟩ := List.getElem?_eq_some_iff.mp hget
  refine ⟨by rw [List.length_take]; omega, ?_⟩
  rw [List.getD_eq_getElem?_getD, List.getElem?_take_of_lt hi, hget, Option.getD_some]

theorem filter_ends_eq_nil {ends : List (Nat × DirRecord)} {i limit : Nat}
    (h : ∀ p ∈ ends, i < p.1) (hi : limit ≤ i) : ends.filter (·.1 ≤ limit) = [] := by
  rw [List.filter_eq_nil_iff]
  intro p hp
  have hlt := h p hp
  simp only [decide_eq_true_eq]
  omega

section Loop

variable {joliet : Bool} {full : Bytes} {limit : Nat}

/-- From byte `i` on the loop lists what ends in the bytes it has. -/
def ListsFrom (blockSize : Nat) (joliet : Bool) (data : Bytes) (limit i : Nat)
    (ends : List (Nat × DirRecord)) : Prop :=
  (∀ p ∈ ends, i < p.1) ∧ ∀ fuel, data.length - i < fuel →
    listLoop blockSize joliet data fuel i =
      .ok ((ends.filter (·.1 ≤ limit)).filterMap fun p => p.2.listed joliet)

theorem listsFrom_end {data : Bytes} {i : Nat} (hi : data.length ≤ i) :
    ListsFrom blockSize joliet data limit i [] := by
  refine ⟨by simp, fun fuel hfuel => ?_⟩
  obtain ⟨fuel, rfl⟩ : ∃ n, fuel = n + 1 := ⟨fuel - 1, by omega⟩
  rw [listLoop, if_neg (by omega)]
  rfl

theorem listsFrom_of_limit {i : Nat} {ends : List (Nat × DirRecord)} (hends : ∀ p ∈ ends, i < p.1)
    (hi : limit ≤ i) : ListsFrom blockSize joliet (full.take limit) limit i ends := by
  refine ⟨hends, fun fuel hfuel => ?_⟩
  obtain ⟨fuel, rfl⟩ : ∃ n, fuel = n + 1 := ⟨fuel - 1, by omega⟩
  have hlen : (full.take limit).length ≤ limit := List.length_take_le limit full
  rw [listLoop, if_neg (by omega), filter_ends_eq_nil hends hi]
  rfl

theorem ListsFrom.record {r : DirRecord} {tail : Bytes} {i : Nat} {ends : List (Nat × DirRecord)}
    (hnamed : ¬ r.Dot → r.Named joliet) (hfull : full.drop i = r.bytes ++ tail)
    (hrest : ListsFrom blockSize joliet (full.take limit) limit (i + r.length) ends) :
    ListsFrom blockSize joliet (full.take limit) limit i ((i + r.length, r) :: ends) := by
  have hpos := r.length_pos
  have hends : ∀ p ∈ (i + r.length, r) :: ends, i < p.1 := by
    intro p hp
    rcases List.mem_cons.mp hp with rfl | hp
    · change i < i + r.length
      omega
    · have hlt := hrest.1 p hp
      omega
  by_cases hlimit : limit ≤ i
  · exact listsFrom_of_limit hends hlimit
  refine ⟨hends, fun fuel hfuel => ?_⟩
  obtain ⟨b, bytes, hb⟩ : ∃ b bytes, r.bytes = b :: bytes := ⟨_, _, rfl⟩
  have hbyte : b.toNat = r.length := by
    rw [← r.bytes_zero, hb, List.getD_cons_zero]
  have hdrop : full.drop i = b :: (bytes ++ tail) := by rw [hfull, hb, List.cons_append]
  obtain ⟨hin, hget⟩ := getD_of_drop hdrop (Nat.not_le.mp hlimit)
  have hlen := congrArg List.length hfull
  rw [List.length_drop, List.length_append, r.length_bytes] at hlen
  rw [List.length_take] at hin hfuel
  obtain ⟨fuel, rfl⟩ : ∃ n, fuel = n + 1 := ⟨fuel - 1, by omega⟩
  rw [listLoop, if_pos (by rw [List.length_take]; exact hin), hget, hbyte, if_neg (by omega)]
  by_cases hcut : i + r.length ≤ limit
  · have hslice : ((full.take limit).drop i).take r.length = r.bytes := by
      rw [List.drop_take, List.take_take, hfull, Nat.min_eq_left (by omega), ← r.length_bytes,
        List.take_left]
    have hnext := hrest.2 fuel (by rw [List.length_take]; omega)
    rw [if_neg (by rw [List.length_take]; omega), hslice, DirRecord.parseRecord_bytes hnamed, hnext,
      ok_bind, List.filter_cons_of_pos (by simpa using hcut), List.filterMap_cons]
    unfold DirRecord.listed
    by_cases hdot : r.Dot
    · simp only [if_pos hdot, Option.toList_none, List.nil_append, pure_eq]
    · simp only [if_neg hdot, Option.toList_some, List.singleton_append, pure_eq]
  · rw [if_pos (by rw [List.length_take]; omega), List.filter_cons_of_neg (by simpa using hcut),
      filter_ends_eq_nil hrest.1 (by omega)]
    rfl

theorem ListsFrom.records {records : List DirRecord} {tail : Bytes} {i : Nat}
    {ends : List (Nat × DirRecord)} (hnamed : ∀ r ∈ records, ¬ r.Dot → r.Named joliet)
    (hfull : full.drop i = records.flatMap DirRecord.bytes ++ tail)
    (hrest : ListsFrom blockSize joliet (full.take limit) limit
      (i + (records.flatMap DirRecord.bytes).length) ends) :
    ListsFrom blockSize joliet (full.take limit) limit i (endsFrom i records ++ ends) := by
  induction records generalizing i with
  | nil => exact hrest
  | cons r records ih =>
    rw [List.flatMap_cons, List.append_assoc] at hfull
    have hnext : full.drop (i + r.length) = records.flatMap DirRecord.bytes ++ tail := by
      rw [← List.drop_drop, hfull, ← r.length_bytes, List.drop_left]
    rw [List.flatMap_cons, List.length_append, r.length_bytes, ← Nat.add_assoc] at hrest
    apply ListsFrom.record (hnamed r (List.mem_cons_self ..)) hfull
    exact ih (fun r' hr' => hnamed r' (List.mem_cons_of_mem r hr')) hnext hrest

theorem ListsFrom.zeros {zeros : Nat} {tail : Bytes} {k i : Nat} {ends : List (Nat × DirRecord)}
    (hfull : full.drop i = List.replicate zeros 0 ++ tail) (hlo : k * blockSize ≤ i)
    (hend : i + zeros = (k + 1) * blockSize)
    (hrest : ListsFrom blockSize joliet (full.take limit) limit ((k + 1) * blockSize) ends) :
    ListsFrom blockSize joliet (full.take limit) limit i ends := by
  cases zeros with
  | zero =>
    rw [← hend] at hrest
    exact hrest
  | succ zeros =>
    have hends : ∀ p ∈ ends, i < p.1 := by
      intro p hp
      have hlt := hrest.1 p hp
      omega
    by_cases hlimit : limit ≤ i
    · exact listsFrom_of_limit hends hlimit
    refine ⟨hends, fun fuel hfuel => ?_⟩
    rw [List.replicate_succ, List.cons_append] at hfull
    obtain ⟨hin, hget⟩ := getD_of_drop hfull (Nat.not_le.mp hlimit)
    have hnext : (i / blockSize + 1) * blockSize = (k + 1) * blockSize := by
      congr 2
      apply Nat.div_eq_of_lt_le
      · exact hlo
      · omega
    obtain ⟨fuel, rfl⟩ : ∃ n, fuel = n + 1 := ⟨fuel - 1, by omega⟩
    rw [listLoop, if_pos hin, hget]
    simp only [UInt8.toNat_zero, if_true, hnext]
    rw [if_neg (by omega)]
    exact hrest.2 fuel (by omega)

theorem listsFrom_blocks {blocks : List (List DirRecord)} {k : Nat}
    (hfits : ∀ b ∈ blocks, (b.flatMap DirRecord.bytes).length ≤ blockSize)
    (hnamed : ∀ r ∈ blocks.flatten, ¬ r.Dot → r.Named joliet)
    (hfull : full.drop (k * blockSize) = blocks.flatMap (blockBytes blockSize)) :
    ListsFrom blockSize joliet (full.take limit) limit (k * blockSize)
      (blockEnds blockSize k blocks) := by
  induction blocks generalizing k with
  | nil =>
    apply listsFrom_end
    have hlen := congrArg List.length hfull
    rw [List.length_drop, List.flatMap_nil, List.length_nil] at hlen
    rw [List.length_take]
    omega
  | cons b blocks ih =>
    have hb := hfits b (List.mem_cons_self ..)
    have hsucc : (k + 1) * blockSize = k * blockSize + blockSize := Nat.succ_mul k blockSize
    rw [List.flatMap_cons] at hfull
    have hnext : full.drop ((k + 1) * blockSize) = blocks.flatMap (blockBytes blockSize) := by
      rw [hsucc, ← List.drop_drop, hfull, List.drop_left' (length_blockBytes hb)]
    have hrest := ih (fun b' hb' => hfits b' (List.mem_cons_of_mem b hb'))
      (fun r hr => hnamed r (by simp only [List.flatten_cons]; exact List.mem_append_right b hr))
      hnext
    rw [blockBytes, List.append_assoc] at hfull
    have hzeros : full.drop (k * blockSize + (b.flatMap DirRecord.bytes).length) =
        List.replicate (blockSize - (b.flatMap DirRecord.bytes).length) 0 ++
          blocks.flatMap (blockBytes blockSize) := by
      rw [← List.drop_drop, hfull, List.drop_left]
    refine ListsFrom.records (fun r hr => hnamed r ?_) hfull
      (ListsFrom.zeros hzeros (Nat.le_add_right _ _) (by omega) hrest)
    simp only [List.flatten_cons]
    exact List.mem_append_left _ hr

end Loop

/-! ## The listing -/

theorem le_of_mem_endsFrom {i : Nat} {records : List DirRecord} :
    ∀ p ∈ endsFrom i records, p.1 ≤ i + (records.flatMap DirRecord.bytes).length := by
  induction records generalizing i with
  | nil => simp [endsFrom]
  | cons r rest ih =>
    intro p hp
    rw [List.flatMap_cons, List.length_append, r.length_bytes]
    rcases List.mem_cons.mp hp with rfl | hp
    · change i + r.length ≤ _
      omega
    · have hle := ih p hp
      omega

theorem le_of_mem_blockEnds {k : Nat} {blocks : List (List DirRecord)}
    (hfits : ∀ b ∈ blocks, (b.flatMap DirRecord.bytes).length ≤ blockSize) :
    ∀ p ∈ blockEnds blockSize k blocks, p.1 ≤ (k + blocks.length) * blockSize := by
  induction blocks generalizing k with
  | nil => simp [blockEnds]
  | cons b rest ih =>
    have hb := hfits b (List.mem_cons_self ..)
    intro p hp
    rw [List.length_cons, show k + (rest.length + 1) = k + 1 + rest.length by omega, Nat.add_mul,
      Nat.succ_mul]
    rcases List.mem_append.mp hp with hp | hp
    · have hle := le_of_mem_endsFrom p hp
      omega
    · have hle := ih (fun b' hb' => hfits b' (List.mem_cons_of_mem b hb')) p hp
      rw [Nat.add_mul, Nat.succ_mul] at hle
      exact hle

theorem map_eq_map_filter_iff {α β : Type} {f g : α → β} {p : α → Prop} [DecidablePred p]
    {xs : List α} : xs.map f = (xs.filter p).map g ↔ ∀ x ∈ xs, p x ∧ f x = g x := by
  constructor
  · intro h
    have hlen := congrArg List.length h
    rw [List.length_map, List.length_map] at hlen
    have hall : ∀ x ∈ xs, p x := by
      simpa using List.length_filter_eq_length_iff.mp hlen.symm
    rw [List.filter_eq_self.mpr (by simpa using hall)] at h
    exact fun x hx => ⟨hall x hx, List.map_inj_left.mp h x hx⟩
  · intro h
    rw [List.filter_eq_self.mpr (by simpa using fun x hx => (h x hx).1)]
    exact List.map_congr_left fun x hx => (h x hx).2

/-- The record is one in a single extent, and the driver gives it its name. -/
def DirRecord.Right (r : DirRecord) (joliet : Bool) : Prop :=
  ¬ r.MultiExtent ∧ (joliet = true ∨ r.Whole)

theorem DirRecord.heard_eq_name_iff {r : DirRecord} {joliet : Bool} (h : r.Named joliet) :
    r.heard joliet = r.name joliet ↔ joliet = true ∨ r.Whole := by
  cases joliet with
  | true => exact ⟨fun _ => .inl rfl, fun _ => rfl⟩
  | false =>
    rw [DirRecord.heard_iff h]
    exact ⟨Or.inr, fun h => h.resolve_left Bool.false_ne_true⟩

theorem listed_eq_shown_iff {joliet : Bool} (dir : Directory blockSize)
    (hnamed : ∀ r ∈ dir.records, ¬ r.Dot → r.Named joliet) :
    dir.records.filterMap (·.listed joliet) = dir.shown joliet ↔
      ∀ r ∈ dir.records, ¬ r.Dot → r.Right joliet := by
  have hlisted : dir.records.filterMap (·.listed joliet) =
      (dir.records.filter fun r => ¬ r.Dot).map
        fun r => { r.shown joliet with name := r.heard joliet } := by
    rw [← List.filterMap_eq_map, List.filterMap_filter]
    apply List.filterMap_congr
    intro r _
    unfold DirRecord.listed
    by_cases hdot : r.Dot
    · simp [hdot]
    · simp [hdot]
  have hshown : dir.shown joliet =
      ((dir.records.filter fun r => ¬ r.Dot).filter fun r => ¬ r.MultiExtent).map
        (·.shown joliet) := by
    rw [Directory.shown, List.filter_filter]
    congr 2
    funext r
    simp [Bool.and_comm]
  rw [hlisted, hshown, map_eq_map_filter_iff]
  constructor
  · intro h r hr hdot
    obtain ⟨hsingle, heq⟩ := h r (by simp [hr, hdot])
    exact ⟨hsingle, (DirRecord.heard_eq_name_iff (hnamed r hr hdot)).mp (congrArg Record.name heq)⟩
  · intro h r hr
    obtain ⟨hr, hdot⟩ : r ∈ dir.records ∧ ¬ r.Dot := by simpa using hr
    have hright := h r hr hdot
    refine ⟨hright.1, ?_⟩
    rw [(DirRecord.heard_eq_name_iff (hnamed r hr hdot)).mpr hright.2]
    rfl

theorem readAbs_ofMemory {m : Memory} {sectors off len : Nat}
    (hon : off + len ≤ 512 * sectors) :
    readAbs (RawDisk.ofMemory sectors m) off len = .ok (m.slice off len) := by
  rw [readAbs]
  by_cases h0 : len = 0
  · rw [if_pos h0, h0]
    rfl
  · have hdm := Nat.div_add_mod off 512
    have hread : (RawDisk.ofMemory sectors m).read (off / 512)
        ((off % 512 + len + 511) / 512 * 512) =
          some (m.slice (512 * (off / 512)) ((off % 512 + len + 511) / 512 * 512)) :=
      RawDisk.read_ofMemory m (by omega)
    simp only [if_neg h0, hread, ofOption, ok_bind, pure_eq]
    rw [Memory.drop_slice (by omega), Memory.take_slice (by omega), hdm]

section List

variable {m : Memory} {sectors : Nat} {fs : IsoFs} (hdisk : fs.disk = RawDisk.ofMemory sectors m)
  {lba : Nat} {dir : Directory fs.blockSize}
  (hon : lba * fs.blockSize + dir.size ≤ 512 * sectors)
  (hbytes : m.slice (lba * fs.blockSize) dir.size = dir.bytes)
  (hnamed : ∀ r ∈ dir.records, ¬ r.Dot → r.Named fs.joliet)

include hdisk hon hbytes hnamed

theorem list_eq : fs.list lba dir.size =
    .ok ((dir.ends.filter (·.1 ≤ maxDirBytes)).filterMap fun p => p.2.listed fs.joliet) := by
  have hlists : ListsFrom fs.blockSize fs.joliet (dir.bytes.take maxDirBytes) maxDirBytes
      (0 * fs.blockSize) dir.ends :=
    listsFrom_blocks dir.fits hnamed (by rw [Nat.zero_mul]; rfl)
  rw [Nat.zero_mul] at hlists
  have hread : readAbs fs.disk (lba * fs.blockSize) (min dir.size maxDirBytes) =
      .ok (dir.bytes.take maxDirBytes) := by
    have htake : (m.slice (lba * fs.blockSize) dir.size).take (min dir.size maxDirBytes) =
        (m.slice (lba * fs.blockSize) dir.size).take maxDirBytes := by
      rw [List.take_eq_take_iff, Memory.length_slice]
      omega
    rw [hdisk, readAbs_ofMemory (by omega), ← hbytes, ← htake,
      Memory.take_slice (Nat.min_le_left _ _)]
  have hloop := hlists.2 ((dir.bytes.take maxDirBytes).length + 1) (by omega)
  rw [IsoFs.list]
  simp only [hread, ok_bind, hloop]
  split
  next hzero =>
    have hnil : dir.bytes.take maxDirBytes = [] := by
      apply List.length_eq_zero_iff.mp
      rw [List.length_take, dir.length_bytes, Nat.min_comm]
      exact hzero
    rw [hnil] at hloop
    exact hloop
  · rfl

omit hdisk hon hbytes hnamed in
theorem filterMap_ends {joliet : Bool} :
    dir.ends.filterMap (fun p => p.2.listed joliet) = dir.records.filterMap (·.listed joliet) := by
  have hrecords : dir.ends.map Prod.snd = dir.records := map_snd_blockEnds 0 dir.blocks
  rw [← hrecords, List.filterMap_map]
  rfl

theorem list_eq_shown_iff (hsize : dir.size ≤ maxDirBytes) :
    fs.list lba dir.size = .ok (dir.shown fs.joliet) ↔
      ∀ r ∈ dir.records, ¬ r.Dot → r.Right fs.joliet := by
  have hin : dir.ends.filter (·.1 ≤ maxDirBytes) = dir.ends := by
    rw [List.filter_eq_self]
    intro p hp
    have hle := le_of_mem_blockEnds dir.fits p hp
    rw [Nat.zero_add] at hle
    exact decide_eq_true (Nat.le_trans hle hsize)
  rw [list_eq hdisk hon hbytes hnamed, hin, filterMap_ends, ← listed_eq_shown_iff dir hnamed]
  exact ⟨Outcome.ok.inj, congrArg Outcome.ok⟩

theorem list_eq_shown
    (h : ∀ p ∈ dir.ends, ¬ p.2.Dot → p.1 ≤ maxDirBytes ∧ p.2.Right fs.joliet) :
    fs.list lba dir.size = .ok (dir.shown fs.joliet) := by
  have hrecords : dir.ends.map Prod.snd = dir.records := map_snd_blockEnds 0 dir.blocks
  have hin : (dir.ends.filter (·.1 ≤ maxDirBytes)).filterMap (fun p => p.2.listed fs.joliet) =
      dir.ends.filterMap (fun p => p.2.listed fs.joliet) := by
    rw [List.filterMap_filter]
    apply List.filterMap_congr
    intro p hp
    by_cases hdot : p.2.Dot
    · rw [DirRecord.listed, if_pos hdot, ite_self]
    · rw [if_pos (by simpa using (h p hp hdot).1)]
  rw [list_eq hdisk hon hbytes hnamed, hin, filterMap_ends, (listed_eq_shown_iff dir hnamed).mpr]
  intro r hr hdot
  rw [← hrecords] at hr
  obtain ⟨p, hp, rfl⟩ := List.mem_map.mp hr
  exact (h p hp hdot).2

end List

/-- An extent made of well-formed records is listed with one record for each that is no dot and
of a file in one extent, under its whole name, if each record that is no dot is in one extent, is
heard right and ends in the bytes that the driver reads; and an extent that the driver reads to
its end is listed so only then. -/
theorem list_iff (m : Memory) (sectors : Nat) (fs : IsoFs)
    (hdisk : fs.disk = RawDisk.ofMemory sectors m) (lba : Nat) (dir : Directory fs.blockSize)
    (hon : lba * fs.blockSize + dir.size ≤ 512 * sectors)
    (hbytes : m.slice (lba * fs.blockSize) dir.size = dir.bytes)
    (hnamed : ∀ r ∈ dir.records, ¬ r.Dot → r.Named fs.joliet) :
    ((∀ p ∈ dir.ends, ¬ p.2.Dot → p.1 ≤ maxDirBytes ∧ p.2.Right fs.joliet) →
        fs.list lba dir.size = .ok (dir.shown fs.joliet)) ∧
      (dir.size ≤ maxDirBytes →
        (fs.list lba dir.size = .ok (dir.shown fs.joliet) ↔
          ∀ r ∈ dir.records, ¬ r.Dot → r.Right fs.joliet)) :=
  ⟨list_eq_shown hdisk hon hbytes hnamed, list_eq_shown_iff hdisk hon hbytes hnamed⟩

instance (r : DirRecord) : Decidable r.Whole := inferInstanceAs (Decidable (_ ∨ _))

instance (r : DirRecord) (joliet : Bool) : Decidable (r.Right joliet) :=
  inferInstanceAs (Decidable (_ ∧ _))

/-- The record of the file `A` in block 30. -/
def recordOfA (flags : UInt8) (system : List SystemEntry)
    (h : (systemBytes system 0).length ≤ 200) : DirRecord where
  attrLength := 0
  lba := 30
  size := 5
  date := List.replicate 7 0
  flags := flags
  unitSize := 0
  gap := 0
  volume := 1
  identifier := [0x41]
  system := system
  zeros := 0
  lba_lt := by decide
  size_lt := by decide
  length_date := rfl
  identifier_ne := by decide
  fits := by
    have hpad : (evenPad [0x41]).length = 0 := rfl
    rw [hpad]
    simp only [List.length_singleton]
    omega

def oneRecord (r : DirRecord) : Directory 2048 where
  blocks := [[r]]
  fits b hb := by
    have hle := r.length_le
    rw [List.mem_singleton.mp hb, List.flatMap_singleton, r.length_bytes]
    omega

def oneRecordFs (r : DirRecord) : IsoFs :=
  ⟨RawDisk.ofMemory 100 (Memory.put (fun _ => 0) (20 * 2048) (oneRecord r).bytes), 2048, 20, 2048,
    false⟩

theorem oneRecord_slice (r : DirRecord) :
    Memory.slice (Memory.put (fun _ => 0) (20 * 2048) (oneRecord r).bytes) (20 * 2048)
      (oneRecord r).size = (oneRecord r).bytes := by
  rw [← (oneRecord r).length_bytes]
  exact Memory.slice_put_self

theorem oneRecord_size (r : DirRecord) : (oneRecord r).size = 2048 := by
  rw [Directory.size, oneRecord, List.length_singleton, Nat.one_mul]

theorem oneRecord_on (r : DirRecord) : 20 * 2048 + (oneRecord r).size ≤ 512 * 100 := by
  rw [oneRecord_size]
  decide

theorem oneRecord_size_le (r : DirRecord) : (oneRecord r).size ≤ maxDirBytes := by
  rw [oneRecord_size]
  decide

def inOnePiece : DirRecord := recordOfA 0 [.nm 0 ['a', 'b']] (by decide)

def inTwoPieces : DirRecord := recordOfA 0 [.nm 1 ['a'], .nm 0 ['b']] (by decide)

def inTwoExtents : DirRecord := recordOfA 0x80 [] (by decide)

theorem recordOfA_ascii {flags : UInt8} {system : List SystemEntry}
    {h : (systemBytes system 0).length ≤ 200} :
    ∀ b ∈ (recordOfA flags system h).identifier, b.toNat < 0x80 := by
  intro b hb
  rw [List.mem_singleton.mp hb]
  decide

theorem inOnePiece_named : inOnePiece.Named false :=
  ⟨by decide, fun _ => recordOfA_ascii, by decide, by decide⟩

theorem inTwoPieces_named : inTwoPieces.Named false :=
  ⟨by decide, fun _ => recordOfA_ascii, by decide, by decide⟩

theorem inTwoExtents_named : inTwoExtents.Named false :=
  ⟨by decide, fun _ => recordOfA_ascii, by decide, by decide⟩

section

variable {r : DirRecord} (hnamed : r.Named false)

include hnamed

theorem oneRecord_named : ∀ r' ∈ (oneRecord r).records, ¬ r'.Dot → r'.Named false := by
  have hrecords : (oneRecord r).records = [r] := rfl
  rw [hrecords, List.forall_mem_singleton]
  exact fun _ => hnamed

theorem oneRecord_list_iff (hdot : ¬ r.Dot) :
    (oneRecordFs r).list 20 2048 = .ok ((oneRecord r).shown false) ↔ r.Right false := by
  have hrecords : (oneRecord r).records = [r] := rfl
  have hiff : (oneRecordFs r).list 20 (oneRecord r).size = .ok ((oneRecord r).shown false) ↔
      ∀ r' ∈ (oneRecord r).records, ¬ r'.Dot → r'.Right false :=
    list_eq_shown_iff rfl (oneRecord_on r) (oneRecord_slice r) (oneRecord_named hnamed)
      (oneRecord_size_le r)
  rw [hrecords, List.forall_mem_singleton, oneRecord_size] at hiff
  exact hiff.trans ⟨fun h => h hdot, fun h _ => h⟩

end

theorem list_iff_inOnePiece :
    (oneRecordFs inOnePiece).list 20 2048 = .ok ((oneRecord inOnePiece).shown false) := by
  have hright : ∀ r ∈ (oneRecord inOnePiece).records, ¬ r.Dot → r.Right false := by
    have hrecords : (oneRecord inOnePiece).records = [inOnePiece] := rfl
    rw [hrecords, List.forall_mem_singleton]
    exact fun _ => by decide
  have hlist : (oneRecordFs inOnePiece).list 20 (oneRecord inOnePiece).size =
      .ok ((oneRecord inOnePiece).shown false) := ((list_iff _ 100 (oneRecordFs inOnePiece) rfl 20 (oneRecord inOnePiece)
    (oneRecord_on _) (oneRecord_slice _) (oneRecord_named inOnePiece_named)).2
      (oneRecord_size_le _)).mpr hright
  rw [oneRecord_size] at hlist
  exact hlist

/-- A continued piece is left out of the name, and an extent of a longer file is listed. -/
theorem list_wrong : inTwoPieces.Named false ∧ inTwoExtents.Named false ∧
    (oneRecordFs inTwoPieces).list 20 2048 ≠ .ok ((oneRecord inTwoPieces).shown false) ∧
    (oneRecordFs inTwoExtents).list 20 2048 ≠ .ok ((oneRecord inTwoExtents).shown false) := by
  refine ⟨inTwoPieces_named, inTwoExtents_named, ?_, ?_⟩
  · rw [ne_eq, oneRecord_list_iff inTwoPieces_named (by decide)]
    decide
  · rw [ne_eq, oneRecord_list_iff inTwoExtents_named (by decide)]
    decide

end Vibra.Iso
