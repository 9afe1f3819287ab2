import Vibra.Fat32.SlotSpec

/-! # Listings of directories

What a scan collects from the slots of a directory, and how the listing changes
when one slot changes.
-/

namespace Vibra.Fat32

open Lib (Memory)
open Lib.Memory (le16 le32)

variable {geo : Fat32Geo} {m m' : Memory} {lfn : List (List Nat)}

structure SlotsAround (slots pre : List (Nat × Nat)) (p : Nat × Nat) (post : List (Nat × Nat)) :
    Prop where
  eq : slots = pre ++ p :: post
  nodup : slots.Nodup
  offsets : ∀ q ∈ slots, q.2 ∈ slotOffsets

def entryAt (m : Memory) (slot : Nat × Nat) : FatDirEntry :=
  FatDirEntry.ofBytes (disk.read m slot.1) slot.2

def partAt (m : Memory) (slot : Nat × Nat) : List Nat := lfnPart (disk.read m slot.1) slot.2

def dirSlotAt (m : Memory) (slot : Nat × Nat) : DirSlot := ⟨entryAt m slot, slot.1, slot.2⟩

def DirSlot.pos (slot : DirSlot) : Nat × Nat := (slot.sector, slot.offset)

@[simp] theorem dirSlotAt_pos (m : Memory) (slot : Nat × Nat) : (dirSlotAt m slot).pos = slot := rfl

@[simp] theorem dirSlotAt_entry (m : Memory) (slot : Nat × Nat) :
    (dirSlotAt m slot).entry = entryAt m slot := rfl

def SameSlot (m m' : Memory) (slot : Nat × Nat) : Prop :=
  ∀ i < 32, m' (slotAddr slot + i) = m (slotAddr slot + i)

def SameHead (m m' : Memory) (slot : Nat × Nat) : Prop :=
  ∀ i < 12, m' (slotAddr slot + i) = m (slotAddr slot + i)

theorem SameSlot.head {slot : Nat × Nat} (h : SameSlot m m' slot) : SameHead m m' slot :=
  fun i hi => h i (by omega)

theorem read_slot {slot : Nat × Nat} (i : Nat) :
    disk.read m slot.1 (slot.2 + i) = m (slotAddr slot + i) := by
  rw [disk_read, slotAddr, Nat.add_assoc]

theorem SameSlot.entry {slot : Nat × Nat} (h : SameSlot m m' slot) :
    entryAt m' slot = entryAt m slot := by
  have hbyte : ∀ k i, k + i < 32 →
      disk.read m' slot.1 (slot.2 + k + i) = disk.read m slot.1 (slot.2 + k + i) := by
    intro k i hi
    rw [Nat.add_assoc, read_slot, read_slot, h _ hi]
  have h16 : ∀ k, k + 2 ≤ 32 →
      le16 (disk.read m' slot.1) (slot.2 + k) = le16 (disk.read m slot.1) (slot.2 + k) :=
    fun k hk => Memory.le16_congr fun i hi => hbyte k i (by omega)
  have h32 : le32 (disk.read m' slot.1) (slot.2 + 28) = le32 (disk.read m slot.1) (slot.2 + 28) :=
    Memory.le32_congr fun i hi => hbyte 28 i (by omega)
  have hname : (disk.read m' slot.1).slice slot.2 11 = (disk.read m slot.1).slice slot.2 11 :=
    Memory.slice_congr fun i hi => hbyte 0 i (by omega)
  simp only [entryAt, FatDirEntry.ofBytes, FatDirEntry.mk.injEq]
  exact ⟨hname, hbyte 11 0 (by omega), hbyte 12 0 (by omega), hbyte 13 0 (by omega),
    h16 14 (by omega), h16 16 (by omega), h16 18 (by omega), h16 20 (by omega), h16 22 (by omega),
    h16 24 (by omega), h16 26 (by omega), h32⟩

theorem SameSlot.part {slot : Nat × Nat} (h : SameSlot m m' slot) :
    partAt m' slot = partAt m slot := by
  refine List.map_congr_left fun k hk => Memory.le16_congr fun i hi => ?_
  have hk32 : k + 2 ≤ 32 := by
    revert k
    decide
  rw [Nat.add_assoc, read_slot, read_slot, h _ (by omega)]

theorem SameHead.name {slot : Nat × Nat} (h : SameHead m m' slot) :
    (entryAt m' slot).name = (entryAt m slot).name :=
  Memory.slice_congr fun i hi => by
    rw [read_slot, read_slot, h i (by omega)]

theorem SameHead.attributes {slot : Nat × Nat} (h : SameHead m m' slot) :
    (entryAt m' slot).attributes = (entryAt m slot).attributes := by
  change disk.read m' slot.1 (slot.2 + 11) = disk.read m slot.1 (slot.2 + 11)
  rw [read_slot, read_slot, h 11 (by omega)]

def FatDirEntry.isListed (entry : FatDirEntry) : Bool :=
  !entry.isFree && !entry.isLongName && entry.attributes &&& attrVolumeId = 0

def FatDirEntry.Alike (entry entry' : FatDirEntry) : Prop :=
  entry'.name = entry.name ∧ entry'.attributes = entry.attributes

section Alike

variable {entry entry' : FatDirEntry}

theorem SameHead.alike {slot : Nat × Nat} (h : SameHead m m' slot) :
    (entryAt m slot).Alike (entryAt m' slot) := ⟨h.name, h.attributes⟩

theorem FatDirEntry.Alike.isEnd (h : entry.Alike entry') : entry'.isEnd = entry.isEnd := by
  rw [FatDirEntry.isEnd, FatDirEntry.isEnd, firstByte, firstByte, h.1]

theorem FatDirEntry.Alike.isFree (h : entry.Alike entry') : entry'.isFree = entry.isFree := by
  rw [FatDirEntry.isFree, FatDirEntry.isFree, firstByte, firstByte, h.1]

theorem FatDirEntry.Alike.isLongName (h : entry.Alike entry') :
    entry'.isLongName = entry.isLongName := by
  rw [FatDirEntry.isLongName, FatDirEntry.isLongName, h.2]

theorem FatDirEntry.Alike.isDirectory (h : entry.Alike entry') :
    entry'.isDirectory = entry.isDirectory := by
  rw [FatDirEntry.isDirectory, FatDirEntry.isDirectory, h.2]

theorem FatDirEntry.Alike.isFile (h : entry.Alike entry') : entry'.isFile = entry.isFile := by
  rw [FatDirEntry.isFile, FatDirEntry.isFile, h.isDirectory, h.2]

theorem FatDirEntry.Alike.getName (h : entry.Alike entry') : entry'.getName = entry.getName := by
  rw [FatDirEntry.getName, FatDirEntry.getName, h.1]

theorem FatDirEntry.Alike.entryName (h : entry.Alike entry') (lfn : List (List Nat)) :
    Fat32.entryName lfn entry' = Fat32.entryName lfn entry := by
  rw [Fat32.entryName, Fat32.entryName, h.getName]

end Alike

/-- The entries and names that a scan collects from slots in order. -/
def collect (m : Memory) : List (List Nat) → List (Nat × Nat) → List (DirSlot × Name)
  | _, [] => []
  | lfn, slot :: rest =>
    let entry := entryAt m slot
    if entry.isEnd then []
    else if entry.isFree then collect m [] rest
    else if entry.isLongName then collect m (lfn ++ [partAt m slot]) rest
    else if entry.attributes &&& FatDirEntry.attrVolumeId = 0 then
      (dirSlotAt m slot, entryName lfn entry) :: collect m [] rest
    else collect m [] rest

/-- The parts of a long name that are pending behind the slots, if the scan gets there. -/
def pendingAfter (m : Memory) : List (List Nat) → List (Nat × Nat) → Option (List (List Nat))
  | lfn, [] => some lfn
  | lfn, slot :: rest =>
    let entry := entryAt m slot
    if entry.isEnd then none
    else if entry.isFree then pendingAfter m [] rest
    else if entry.isLongName then pendingAfter m (lfn ++ [partAt m slot]) rest
    else pendingAfter m [] rest

theorem foldl_scanAt_result (slots : List (Nat × Nat)) {st : ScanState} (h : st.done = false) :
    (slots.foldl (scanAt m) st).result = st.result ++ collect m st.lfn slots := by
  induction slots generalizing st with
  | nil => simp [collect]
  | cons slot rest ih =>
    have hstep : scanAt m st slot = scanSlot st slot.1 (disk.read m slot.1) slot.2 := rfl
    rw [List.foldl_cons, collect, hstep, scanSlot]
    rw [show FatDirEntry.ofBytes (disk.read m slot.1) slot.2 = entryAt m slot from rfl, h]
    rw [if_neg Bool.false_ne_true]
    by_cases hend : (entryAt m slot).isEnd = true
    · rw [if_pos hend, if_pos hend, foldl_scanAt_done rfl, List.append_nil]
    · rw [if_neg hend, if_neg hend]
      by_cases hfree : (entryAt m slot).isFree = true
      · rw [if_pos hfree, if_pos hfree, ih rfl]
      · rw [if_neg hfree, if_neg hfree]
        by_cases hlong : (entryAt m slot).isLongName = true
        · rw [if_pos hlong, if_pos hlong, ih rfl]
          rfl
        · rw [if_neg hlong, if_neg hlong, ih rfl]
          by_cases hlabel : (entryAt m slot).attributes &&& FatDirEntry.attrVolumeId = 0
          · rw [if_pos hlabel, if_pos hlabel, List.append_assoc]
            rfl
          · rw [if_neg hlabel, if_neg hlabel]

theorem scanDir_eq (clusters : List Nat) :
    scanDir geo m clusters = collect m [] (dirSlots geo clusters) := by
  rw [scanDir, foldl_scanAt_result _ rfl, List.nil_append]

theorem collect_append (pre post : List (Nat × Nat)) :
    collect m lfn (pre ++ post) =
      collect m lfn pre ++ ((pendingAfter m lfn pre).map fun lfn => collect m lfn post).getD [] := by
  induction pre generalizing lfn with
  | nil => rfl
  | cons slot rest ih =>
    rw [List.cons_append, collect, collect, pendingAfter]
    split
    · rfl
    · split
      · exact ih
      · split
        · exact ih
        · split
          · rw [ih, List.cons_append]
          · exact ih

theorem mem_collect {x : DirSlot × Name} {slots : List (Nat × Nat)}
    (h : x ∈ collect m lfn slots) :
    ∃ slot ∈ slots, x.1 = dirSlotAt m slot ∧ (entryAt m slot).isListed = true := by
  induction slots generalizing lfn with
  | nil => simp [collect] at h
  | cons slot rest ih =>
    have hrest : ∀ {lfn}, x ∈ collect m lfn rest → ∃ s ∈ slot :: rest,
        x.1 = dirSlotAt m s ∧ (entryAt m s).isListed = true := by
      intro lfn hx
      obtain ⟨s, hs, hprop⟩ := ih hx
      exact ⟨s, List.mem_cons_of_mem _ hs, hprop⟩
    rw [collect] at h
    split at h
    · simp at h
    · split at h
      · exact hrest h
      next hfree =>
        split at h
        · exact hrest h
        next hlong =>
          split at h
          next hlabel =>
            rcases List.mem_cons.mp h with rfl | h
            · refine ⟨slot, List.mem_cons_self, rfl, ?_⟩
              simp [FatDirEntry.isListed, hfree, hlong, hlabel]
            · exact hrest h
          next => exact hrest h

def refresh (m : Memory) (x : DirSlot × Name) : DirSlot × Name := (dirSlotAt m x.1.pos, x.2)

/-- A slot that a scan treats as before: only an entry that is no part of a long
name may differ behind its attributes. -/
def Alike (m m' : Memory) (slot : Nat × Nat) : Prop :=
  SameSlot m m' slot ∨ SameHead m m' slot ∧ (entryAt m slot).isLongName = false

theorem Alike.entry {slot : Nat × Nat} (h : Alike m m' slot) :
    (entryAt m slot).Alike (entryAt m' slot) :=
  h.elim (fun h => h.head.alike) fun h => h.1.alike

theorem collect_alike {slots : List (Nat × Nat)} (h : ∀ slot ∈ slots, Alike m m' slot) :
    collect m' lfn slots = (collect m lfn slots).map (refresh m') := by
  induction slots generalizing lfn with
  | nil => rfl
  | cons slot rest ih =>
    have hslot := h slot List.mem_cons_self
    have halike := hslot.entry
    have hrest : ∀ lfn, collect m' lfn rest = (collect m lfn rest).map (refresh m') :=
      fun lfn => ih fun s hs => h s (List.mem_cons_of_mem _ hs)
    rw [collect, collect]
    rw [halike.isEnd, halike.isFree, halike.isLongName, halike.2, halike.entryName]
    split
    · rfl
    · split
      · exact hrest _
      · split
        next hlong =>
          rcases hslot with hsame | ⟨-, hnot⟩
          · rw [hsame.part]
            exact hrest _
          · rw [hlong] at hnot
            cases hnot
        next =>
          split
          · rw [List.map_cons, hrest]
            rfl
          · exact hrest _

theorem collect_congr {slots : List (Nat × Nat)} (h : ∀ slot ∈ slots, SameSlot m m' slot) :
    collect m' lfn slots = collect m lfn slots := by
  rw [collect_alike fun slot hs => Or.inl (h slot hs)]
  refine (List.map_congr_left fun x hx => ?_).trans (List.map_id _)
  obtain ⟨slot, hs, hslot, -⟩ := mem_collect hx
  refine Prod.ext ?_ rfl
  change dirSlotAt m' x.1.pos = x.1
  rw [hslot, dirSlotAt_pos, dirSlotAt, (h slot hs).entry]
  rfl

theorem pendingAfter_congr {slots : List (Nat × Nat)} (h : ∀ slot ∈ slots, SameSlot m m' slot) :
    pendingAfter m' lfn slots = pendingAfter m lfn slots := by
  induction slots generalizing lfn with
  | nil => rfl
  | cons slot rest ih =>
    have hslot := h slot List.mem_cons_self
    have hrest := fun lfn => @ih lfn fun s hs => h s (List.mem_cons_of_mem _ hs)
    rw [pendingAfter, pendingAfter]
    rw [hslot.entry, hslot.part]
    simp only [hrest]

end Vibra.Fat32
