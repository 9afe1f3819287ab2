import Vibra.Fat32.DirSpec

/-! # Writing one slot

The bytes of an entry, the three ways the driver changes a slot, and what each
does to a listing.
-/

namespace Vibra.Fat32

open Lib (Memory Prog Write)
open Lib.Memory (le16 toLe16 toLe32)
open Lib.Prog (wp)

variable {geo : Fat32Geo} {m m' : Memory}

namespace FatDirEntry

variable {entry : FatDirEntry}

theorem length_bytes (h : entry.name.length = 11) : entry.bytes.length = 32 := by
  simp [bytes, h]

theorem getD_bytes_append {pre mid post : List UInt8} {k i : Nat} (hpre : pre.length = k)
    (hi : i < mid.length) : (pre ++ (mid ++ post)).getD (k + i) 0 = mid.getD i 0 := by
  rw [List.getD_append_right _ _ _ _ (by omega), List.getD_append _ _ _ _ (by omega)]
  congr 1
  omega

section Layout

variable {buf : Sector} {offset : Nat} (hname : entry.name.length = 11)

include hname

theorem put_byte {i : Nat} (hi : i < 32) :
    buf.put offset entry.bytes (offset + i) = entry.bytes.getD i 0 :=
  Memory.put_add (by rw [length_bytes hname]; exact hi)

theorem ofBytes_put_name : (ofBytes (buf.put offset entry.bytes) offset).name = entry.name := by
  refine List.ext_getElem (by simp [ofBytes, hname]) fun i hi _ => ?_
  have hi11 : i < 11 := by simpa [ofBytes] using hi
  have h : buf.put offset entry.bytes (offset + i) = entry.bytes.getD i 0 :=
    put_byte hname (by omega)
  have hb : entry.bytes.getD i 0 = entry.name.getD i 0 := by
    rw [bytes]
    simp only [List.append_assoc]
    exact List.getD_append _ _ _ _ (by omega)
  simp only [ofBytes, Memory.slice, List.getElem_map, List.getElem_range, h, hb]
  rw [List.getD_eq_getElem _ _ (by omega)]

theorem ofBytes_put_attributes :
    (ofBytes (buf.put offset entry.bytes) offset).attributes = entry.attributes := by
  have h : buf.put offset entry.bytes (offset + 11) = entry.bytes.getD 11 0 :=
    put_byte hname (by omega)
  refine h.trans ?_
  simp only [bytes, List.append_assoc]
  exact getD_bytes_append (i := 0) hname (by simp)

theorem le16_put_bytes (pre post : List UInt8) {k n : Nat}
    (hbytes : entry.bytes = pre ++ (toLe16 n ++ post)) (hpre : pre.length = k) (hk : k + 2 ≤ 32) :
    le16 (buf.put offset entry.bytes) (offset + k) = n % 2 ^ 16 := by
  refine Memory.le16_of_bytes fun i hi => ?_
  rw [Nat.add_assoc, put_byte hname (by omega), hbytes]
  exact getD_bytes_append hpre hi

theorem ofBytes_put_high :
    (ofBytes (buf.put offset entry.bytes) offset).firstClusterHigh =
      entry.firstClusterHigh % 2 ^ 16 := by
  refine le16_put_bytes hname (entry.name ++ [entry.attributes, entry.reserved,
    entry.creationTimeTenths] ++ toLe16 entry.creationTime ++ toLe16 entry.creationDate ++
    toLe16 entry.lastAccessDate) (toLe16 entry.writeTime ++ toLe16 entry.writeDate ++
    toLe16 entry.firstClusterLow ++ toLe32 entry.fileSize) ?_ ?_ (by decide)
  · simp only [bytes, List.append_assoc]
  · simp [hname]

theorem ofBytes_put_low :
    (ofBytes (buf.put offset entry.bytes) offset).firstClusterLow =
      entry.firstClusterLow % 2 ^ 16 := by
  refine le16_put_bytes hname (entry.name ++ [entry.attributes, entry.reserved,
    entry.creationTimeTenths] ++ toLe16 entry.creationTime ++ toLe16 entry.creationDate ++
    toLe16 entry.lastAccessDate ++ toLe16 entry.firstClusterHigh ++ toLe16 entry.writeTime ++
    toLe16 entry.writeDate) (toLe32 entry.fileSize) ?_ ?_ (by decide)
  · simp only [bytes, List.append_assoc]
  · simp [hname]

theorem ofBytes_put_size :
    (ofBytes (buf.put offset entry.bytes) offset).fileSize = entry.fileSize % 2 ^ 32 := by
  refine Memory.le32_of_bytes fun i hi => ?_
  rw [Nat.add_assoc, put_byte hname (by omega)]
  simp only [bytes]
  rw [List.getD_append_right _ _ _ _ (by simp [hname])]
  congr 1
  simp [hname]

theorem ofBytes_put_cluster (hhigh : entry.firstClusterHigh < 2 ^ 16)
    (hlow : entry.firstClusterLow < 2 ^ 16) :
    (ofBytes (buf.put offset entry.bytes) offset).cluster = entry.cluster := by
  rw [cluster, cluster, ofBytes_put_high hname, ofBytes_put_low hname, Nat.mod_eq_of_lt hhigh,
    Nat.mod_eq_of_lt hlow]

end Layout
theorem firstByte_entryAt (m : Memory) (slot : Nat × Nat) :
    (entryAt m slot).firstByte = m (slotAddr slot) := by
  rw [firstByte, entryAt, ofBytes]
  simp [Memory.slice, List.range_succ_eq_map, slotAddr]

end FatDirEntry

theorem freeAt_eq (m : Memory) (slot : Nat × Nat) : freeAt m slot = (entryAt m slot).isFree := by
  rw [freeAt, FatDirEntry.isFree, FatDirEntry.firstByte_entryAt]
  rfl

theorem mem_slotOffsets {offset : Nat} (h : offset ∈ slotOffsets) :
    offset % 32 = 0 ∧ offset + 32 ≤ 512 := by
  revert offset
  decide

theorem slotAddr_apart {p q : Nat × Nat} (hp : p.2 ∈ slotOffsets) (hq : q.2 ∈ slotOffsets)
    (hne : p ≠ q) : slotAddr p + 32 ≤ slotAddr q ∨ slotAddr q + 32 ≤ slotAddr p := by
  obtain ⟨hp0, hp512⟩ := mem_slotOffsets hp
  obtain ⟨hq0, hq512⟩ := mem_slotOffsets hq
  obtain ⟨ps, po⟩ := p
  obtain ⟨qs, qo⟩ := q
  have hpair : ¬ (ps = qs ∧ po = qo) := fun h => hne (Prod.ext h.1 h.2)
  unfold slotAddr
  dsimp only at *
  omega

def SlotChange (m : Memory) (p : Nat × Nat) (m' : Memory) : Prop :=
  ∀ a, a < slotAddr p ∨ slotAddr p + 32 ≤ a → m' a = m a

theorem slotChange_put {p : Nat × Nat} {data : List UInt8} (h : data.length ≤ 32) :
    SlotChange m p (m.put (slotAddr p) data) :=
  fun _ ha => Memory.put_of_outside (by omega)

theorem SlotChange.sameSlot {p q : Nat × Nat} (h : SlotChange m p m') (hp : p.2 ∈ slotOffsets)
    (hq : q.2 ∈ slotOffsets) (hne : q ≠ p) : SameSlot m m' q := by
  intro i hi
  have := slotAddr_apart hp hq (Ne.symm hne)
  exact h _ (by omega)

section Programs

variable {G : Memory → Write Sector Origin → Prop} {E : FsError → Memory → Prop}
  {Q : Unit → Memory → Prop} {now : DosTime}

def FatDirEntry.updated (now : DosTime) (entry : FatDirEntry) (cluster size : Nat) : FatDirEntry :=
  { entry.setCluster cluster with
    fileSize := size
    writeDate := now.date
    writeTime := now.time }

theorem length_name_entryAt (m : Memory) (p : Nat × Nat) : (entryAt m p).name.length = 11 :=
  Memory.length_slice _ _ _

theorem length_name_updated (m : Memory) (now : DosTime) (p : Nat × Nat) (cluster size : Nat) :
    ((entryAt m p).updated now cluster size).name.length = 11 :=
  length_name_entryAt m p

theorem setEntry_spec {slot : DirSlot} {cluster size : Nat} (hoff : slot.offset + 32 ≤ 512)
    (hG : ∀ w, w.tag = .entry → w.sector = slot.sector → G m w)
    (hQ : Q () (m.put (slotAddr slot.pos)
      ((entryAt m slot.pos).updated now cluster size).bytes)) :
    wp disk G Q E (setEntry now slot cluster size) m := by
  rw [setEntry, Prog.wp_bind, wp_readSector]
  refine wp_writeSector.mpr ⟨hG _ rfl rfl, ?_⟩
  rw [disk_write_put]
  · exact hQ
  · refine Nat.le_trans (Nat.le_of_eq ?_) hoff
    exact congrArg _ (FatDirEntry.length_bytes (length_name_updated m now slot.pos cluster size))

theorem putEntry_spec {p : Nat × Nat} {entry : FatDirEntry} (hname : entry.name.length = 11)
    (hoff : p.2 + 32 ≤ 512) (hG : ∀ w, w.tag = .entry → w.sector = p.1 → G m w)
    (hQ : Q () (m.put (slotAddr p) entry.bytes)) :
    wp disk G Q E (putEntry p.1 p.2 entry) m := by
  rw [putEntry, Prog.wp_bind, wp_readSector]
  refine wp_writeSector.mpr ⟨hG _ rfl rfl, ?_⟩
  rw [disk_write_put]
  · exact hQ
  · rw [FatDirEntry.length_bytes hname]
    exact hoff

theorem deleteEntry_spec {slot : DirSlot} (hoff : slot.offset + 32 ≤ 512)
    (hG : ∀ w, w.tag = .entry → w.sector = slot.sector → G m w)
    (hQ : Q () (m.put (slotAddr slot.pos) [0xE5])) : wp disk G Q E (deleteEntry slot) m := by
  rw [deleteEntry, Prog.wp_bind, wp_readSector]
  refine wp_writeSector.mpr ⟨hG _ rfl rfl, ?_⟩
  rw [disk_write_put]
  · exact hQ
  · simp only [List.length_singleton]
    omega

end Programs

theorem entryAt_put {p : Nat × Nat} (entry : FatDirEntry) :
    entryAt (m.put (slotAddr p) entry.bytes) p =
      FatDirEntry.ofBytes ((disk.read m p.1).put p.2 entry.bytes) p.2 := by
  have h : disk.read (m.put (slotAddr p) entry.bytes) p.1 =
      (disk.read m p.1).put p.2 entry.bytes := by
    funext i
    rw [disk_read, Memory.put, Memory.put, slotAddr, disk_read]
    by_cases hi : p.2 ≤ i
    · rw [if_pos (by omega), if_pos hi]
      congr 1
      omega
    · rw [if_neg (by omega), if_neg hi]
  rw [entryAt, h]

section Updated

variable {now : DosTime} {p : Nat × Nat} {cluster size : Nat}

def setSlot (m : Memory) (now : DosTime) (p : Nat × Nat) (cluster size : Nat) : Memory :=
  m.put (slotAddr p) ((entryAt m p).updated now cluster size).bytes

theorem setSlot_change : SlotChange m p (setSlot m now p cluster size) :=
  slotChange_put (Nat.le_of_eq (FatDirEntry.length_bytes (length_name_entryAt m p)))

theorem entryAt_setSlot_cluster (h : cluster < 2 ^ 32) :
    (entryAt (setSlot m now p cluster size) p).cluster = cluster := by
  rw [setSlot, entryAt_put, FatDirEntry.ofBytes_put_cluster (length_name_updated m now p cluster size)]
  · simp only [FatDirEntry.cluster, FatDirEntry.updated, FatDirEntry.setCluster]
    omega
  · simp only [FatDirEntry.updated, FatDirEntry.setCluster]
    omega
  · simp only [FatDirEntry.updated, FatDirEntry.setCluster]
    omega

theorem entryAt_setSlot_size (h : size < 2 ^ 32) :
    (entryAt (setSlot m now p cluster size) p).fileSize = size := by
  rw [setSlot, entryAt_put, FatDirEntry.ofBytes_put_size (length_name_updated m now p cluster size)]
  exact Nat.mod_eq_of_lt h

theorem setSlot_head : SameHead m (setSlot m now p cluster size) p := by
  intro i hi
  have hname := length_name_updated m now p cluster size
  rw [setSlot, Memory.put_add (by rw [FatDirEntry.length_bytes hname]; omega)]
  simp only [FatDirEntry.bytes, List.append_assoc]
  by_cases h11 : i < 11
  · rw [List.getD_append _ _ _ _ (by omega)]
    refine (Memory.getD_slice h11).trans ?_
    rw [read_slot]
  · obtain rfl : i = 11 := by omega
    rw [FatDirEntry.getD_bytes_append (k := 11) (i := 0) hname (by simp)]
    exact read_slot 11

end Updated

section Listings

variable {p : Nat × Nat} {pre post : List (Nat × Nat)} {lfn : List (List Nat)}

theorem pendingAfter_isSome (h : ∀ q ∈ pre, freeAt m q = false) :
    ∃ lfn', pendingAfter m lfn pre = some lfn' := by
  induction pre generalizing lfn with
  | nil => exact ⟨lfn, rfl⟩
  | cons q rest ih =>
    have hfree := h q List.mem_cons_self
    rw [freeAt_eq] at hfree
    have hend : (entryAt m q).isEnd = false := by
      simp only [FatDirEntry.isFree, Bool.or_eq_false_iff] at hfree
      exact hfree.1
    have hrest := fun lfn => @ih lfn fun r hr => h r (List.mem_cons_of_mem _ hr)
    rw [pendingAfter, hend, hfree]
    simp only [Bool.false_eq_true, if_false]
    split
    · exact hrest _
    · exact hrest _

namespace SlotsAround

variable {slots : List (Nat × Nat)} (h : SlotsAround slots pre p post)

include h

theorem offset : p.2 ∈ slotOffsets := h.offsets p (by simp [h.eq])

theorem same (hc : SlotChange m p m') {q : Nat × Nat} (hq : q ∈ pre ∨ q ∈ post) :
    SameSlot m m' q := by
  have hnodup := h.nodup
  rw [h.eq, List.nodup_append] at hnodup
  obtain ⟨-, hpost, hdisj⟩ := hnodup
  refine hc.sameSlot h.offset (h.offsets q ?_) ?_
  · rw [h.eq]
    rcases hq with hq | hq
    · exact List.mem_append_left _ hq
    · exact List.mem_append_right _ (List.mem_cons_of_mem _ hq)
  · rintro rfl
    rcases hq with hq | hq
    · exact hdisj q hq q List.mem_cons_self rfl
    · exact (List.nodup_cons.mp hpost).1 hq

theorem collect_change (hc : SlotChange m p m') :
    collect m' [] slots = collect m [] pre ++
      ((pendingAfter m [] pre).map fun lfn => collect m' lfn (p :: post)).getD [] ∧
    collect m' [] post = collect m [] post := by
  rw [h.eq, collect_append, collect_congr fun q hq => h.same hc (Or.inl hq),
    pendingAfter_congr fun q hq => h.same hc (Or.inl hq)]
  exact ⟨rfl, collect_congr fun q hq => h.same hc (Or.inr hq)⟩

theorem collect_put (hc : SlotChange m p m') (hlisted : (entryAt m' p).isListed = true)
    {lfn : List (List Nat)} (hpending : pendingAfter m [] pre = some lfn) :
    collect m' [] slots = collect m [] pre ++
      (dirSlotAt m' p, entryName lfn (entryAt m' p)) :: collect m [] post := by
  obtain ⟨heq, hpost⟩ := h.collect_change hc
  simp only [FatDirEntry.isListed, Bool.and_eq_true, Bool.not_eq_true', decide_eq_true_eq]
    at hlisted
  obtain ⟨⟨hfree, hlong⟩, hlabel⟩ := hlisted
  have hend : (entryAt m' p).isEnd = false := by
    simp only [FatDirEntry.isFree, Bool.or_eq_false_iff] at hfree
    exact hfree.1
  rw [heq, hpending, Option.map_some, Option.getD_some, collect, hend, hfree, hlong]
  simp only [Bool.false_eq_true, if_false, if_pos hlabel, hpost]

theorem collect_delete (hc : SlotChange m p m') (hend : (entryAt m' p).isEnd = false)
    (hfree : (entryAt m' p).isFree = true) :
    collect m' [] slots = collect m [] pre ++
      ((pendingAfter m [] pre).map fun _ => collect m [] post).getD [] := by
  obtain ⟨heq, hpost⟩ := h.collect_change hc
  have hstep : ∀ lfn, collect m' lfn (p :: post) = collect m [] post := by
    intro lfn
    rw [collect, hend, hfree]
    simp only [Bool.false_eq_true, if_false, if_true, hpost]
  rw [heq]
  simp only [hstep]

theorem collect_free (hfree : freeAt m p = true) {lfn : List (List Nat)}
    (hpending : pendingAfter m [] pre = some lfn) :
    collect m [] slots = collect m [] pre ++
      if (entryAt m p).isEnd then [] else collect m [] post := by
  rw [freeAt_eq] at hfree
  rw [h.eq, collect_append, hpending, Option.map_some, Option.getD_some, collect, hfree]
  simp only [if_true]

theorem collect_listed (hlisted : (entryAt m p).isListed = true) {lfn : List (List Nat)}
    (hpending : pendingAfter m [] pre = some lfn) :
    collect m [] slots = collect m [] pre ++
      (dirSlotAt m p, entryName lfn (entryAt m p)) :: collect m [] post :=
  h.collect_put (fun _ _ => rfl) hlisted hpending

theorem pending_of_mem {x : DirSlot × Name} (hx : x ∈ collect m [] slots) (hpos : x.1.pos = p) :
    (∃ lfn, pendingAfter m [] pre = some lfn) ∧ (entryAt m p).isListed = true := by
  obtain ⟨q, hq, hxq, hlisted⟩ := mem_collect hx
  obtain rfl : q = p := by rw [← hpos, hxq, dirSlotAt_pos]
  refine ⟨?_, hlisted⟩
  cases hpending : pendingAfter m [] pre with
  | some lfn => exact ⟨lfn, rfl⟩
  | none =>
    rw [h.eq, collect_append, hpending, Option.map_none, Option.getD_none, List.append_nil] at hx
    obtain ⟨r, hr, hxr, -⟩ := mem_collect hx
    obtain rfl : r = q := by rw [← hpos, hxr, dirSlotAt_pos]
    have hnodup := h.nodup
    rw [h.eq, List.nodup_append] at hnodup
    exact absurd rfl (hnodup.2.2 r hr r List.mem_cons_self)

end SlotsAround

end Listings

end Vibra.Fat32
