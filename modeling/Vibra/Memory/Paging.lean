import Vibra.Lib.RadixTree
import Vibra.Memory.Pmm

/-! # Page tables

`memory/paging.rs`: the words of a page table and the walk that translates an address.
-/

namespace Vibra.Paging

open Vibra.Lib

abbrev Word := BitVec 64

def entryPresent : Word := 1#64 <<< 0
def entryWritable : Word := 1#64 <<< 1
def entryUser : Word := 1#64 <<< 2
def entryPwt : Word := 1#64 <<< 3
def ptePcd : Word := 1#64 <<< 4
def entryHugePage : Word := 1#64 <<< 7
/-- The PAT bit of a 4 KiB entry. -/
def ptePat : Word := 1#64 <<< 7
/-- The PAT bit of a 2 MiB or a 1 GiB entry. -/
def hugePat : Word := 1#64 <<< 12
def entryNx : Word := 1#64 <<< 63

def addressMask : Word := 0x000ffffffffff000#64
def page4kMask : Word := 0xfff#64
def page2mMask : Word := 0x1fffff#64
def page1gMask : Word := 0x3fffffff#64
def page2mAddressMask : Word := addressMask &&& ~~~page2mMask
def page1gAddressMask : Word := addressMask &&& ~~~page1gMask

def Has (entry flag : Word) : Prop := entry &&& flag ≠ 0

instance (entry flag : Word) : Decidable (Has entry flag) :=
  inferInstanceAs (Decidable (_ ≠ _))

instance neZero_entries : NeZero 512 := ⟨by decide⟩

abbrev Tables := Word → Fin 512 → Word

/-- `CR4.LA57`, `EFER.NXE` and `CR3`. -/
structure Cpu where
  la57 : Bool
  nx : Bool
  cr3 : Word

def nxFlags (cpu : Cpu) (executable : Bool) : Word :=
  if executable || !cpu.nx then 0 else entryNx

def currentRootPhys (cpu : Cpu) : Word := cpu.cr3 &&& addressMask

def index (address : Word) (shift : Nat) : Fin 512 :=
  ⟨(address >>> shift).toNat % 512, Nat.mod_lt _ (by decide)⟩

def readEntry (tables : Tables) (table : Word) (i : Fin 512) : Option Word :=
  if Has (tables table i) entryPresent then some (tables table i) else none

inductive PageSize
  | size4KiB | size2MiB | size1GiB

structure Mapping where
  physicalAddress : Word
  pageSize : PageSize
  flags : Word

def translateFromRoot (cpu : Cpu) (tables : Tables) (rootPhys virtualAddress : Word) :
    Option Mapping := do
  let rootPhys ←
    if cpu.la57 then
      (readEntry tables rootPhys (index virtualAddress 48)).map (· &&& addressMask)
    else some rootPhys
  let pml4e ← readEntry tables rootPhys (index virtualAddress 39)
  let pdpte ← readEntry tables (pml4e &&& addressMask) (index virtualAddress 30)
  if Has pdpte entryHugePage then
    return ⟨(pdpte &&& page1gAddressMask) ||| (virtualAddress &&& page1gMask), .size1GiB, pdpte⟩
  let pde ← readEntry tables (pdpte &&& addressMask) (index virtualAddress 21)
  if Has pde entryHugePage then
    return ⟨(pde &&& page2mAddressMask) ||| (virtualAddress &&& page2mMask), .size2MiB, pde⟩
  let pte ← readEntry tables (pde &&& addressMask) (index virtualAddress 12)
  return ⟨(pte &&& addressMask) ||| (virtualAddress &&& page4kMask), .size4KiB, pte⟩

def translate (cpu : Cpu) (tables : Tables) (virtualAddress : Word) : Option Mapping :=
  translateFromRoot cpu tables (currentRootPhys cpu) virtualAddress

inductive Level
  | pml5 | pml4 | pdpt | pd | pt
  deriving DecidableEq

def Level.shift : Level → Nat
  | .pml5 => 48
  | .pml4 => 39
  | .pdpt => 30
  | .pd => 21
  | .pt => 12

/-- An entry of the level ends the walk. -/
def Level.ends : Level → Word → Bool
  | .pt, _ => true
  | .pdpt, entry | .pd, entry => Has entry entryHugePage
  | .pml5, _ | .pml4, _ => false

def next (l : Level) (entry : Word) : Radix.Next Word :=
  if Has entry entryPresent then
    if l.ends entry then .leaf else .child (entry &&& addressMask)
  else .absent

def shape : Radix.Shape Level Word (Fin 512) Word Word where
  index l address := index address l.shift
  next := next

def levels4 : List Level := [.pml4, .pdpt, .pd, .pt]

def levels (cpu : Cpu) : List Level := if cpu.la57 then .pml5 :: levels4 else levels4

/-- The entries the processor meets on its way to the page of the address. -/
def walk (cpu : Cpu) (tables : Tables) (address : Word) : Option (List (Level × Word)) :=
  Radix.walk shape tables (levels cpu) (currentRootPhys cpu) address

/-- The mapping a leaf of the level gives. -/
def mappingOf (address : Word) : Level × Word → Mapping
  | (.pdpt, entry) =>
    ⟨(entry &&& page1gAddressMask) ||| (address &&& page1gMask), .size1GiB, entry⟩
  | (.pd, entry) =>
    ⟨(entry &&& page2mAddressMask) ||| (address &&& page2mMask), .size2MiB, entry⟩
  | (_, entry) => ⟨(entry &&& addressMask) ||| (address &&& page4kMask), .size4KiB, entry⟩

/-- All entries of a walk have the flag, so the processor grants the right. -/
def Grants (flag : Word) (entries : List (Level × Word)) : Prop :=
  ∀ x ∈ entries, Has x.2 flag

instance (flag : Word) (entries : List (Level × Word)) : Decidable (Grants flag entries) :=
  inferInstanceAs (Decidable (∀ x ∈ entries, _))

def UserAccessible (cpu : Cpu) (tables : Tables) (address : Word) : Prop :=
  ∃ entries ∈ walk cpu tables address, Grants entryUser entries

instance (cpu : Cpu) (tables : Tables) (address : Word) :
    Decidable (UserAccessible cpu tables address) :=
  inferInstanceAs (Decidable (∃ entries ∈ walk cpu tables address, _))

theorem walk_level (tables : Tables) (l : Level) (ls : List Level) (table address : Word) :
    Radix.walk shape tables (l :: ls) table address =
      (readEntry tables table (index address l.shift)).bind fun entry =>
        if l.ends entry then some [(l, entry)]
        else (Radix.walk shape tables ls (entry &&& addressMask) address).map
          ((l, entry) :: ·) := by
  simp only [Radix.walk, shape, next, readEntry]
  by_cases hp : Has (tables table (index address l.shift)) entryPresent
  · by_cases he : l.ends (tables table (index address l.shift)) <;> simp [hp, he]
  · simp [hp]

theorem translate_levels4 (cpu : Cpu) (h : cpu.la57 = false) (tables : Tables)
    (root address : Word) :
    translateFromRoot cpu tables root address =
      (Radix.walk shape tables levels4 root address).bind fun entries =>
        entries.getLast?.map (mappingOf address) := by
  simp only [levels4, walk_level, translateFromRoot, Level.ends, Level.shift, h,
    Bool.false_eq_true, if_false, if_true, decide_eq_true_eq, Option.bind_eq_bind,
    Option.bind_some]
  cases readEntry tables root (index address 39) with
  | none => rfl
  | some e4 =>
  simp only [Option.bind_some]
  cases readEntry tables (e4 &&& addressMask) (index address 30) with
  | none => rfl
  | some e3 =>
  simp only [Option.bind_some]
  split
  · rfl
  cases readEntry tables (e3 &&& addressMask) (index address 21) with
  | none => rfl
  | some e2 =>
  simp only [Option.bind_some]
  split
  · rfl
  cases readEntry tables (e2 &&& addressMask) (index address 12) <;> rfl

theorem walk_ne_nil {tables : Tables} {ls : List Level} {table address : Word}
    {entries : List (Level × Word)}
    (h : Radix.walk shape tables ls table address = some entries) : entries ≠ [] := by
  rintro rfl
  cases ls with
  | nil => simp [Radix.walk] at h
  | cons l ls =>
    rw [walk_level] at h
    obtain ⟨entry, _, h⟩ := Option.bind_eq_some_iff.mp h
    split at h <;> simp at h

theorem getLast?_cons_walk {entries : List (Level × Word)} (h : entries ≠ []) (x : Level × Word) :
    (x :: entries).getLast? = entries.getLast? := by
  rw [List.getLast?_cons, List.getLast?_eq_some_getLast h]
  rfl

theorem translate_eq_walk (cpu : Cpu) (tables : Tables) (address : Word) :
    translate cpu tables address =
      (walk cpu tables address).bind fun entries => entries.getLast?.map (mappingOf address) := by
  cases h : cpu.la57 with
  | false =>
    simp only [translate, walk, levels, h, Bool.false_eq_true, if_false]
    exact translate_levels4 cpu h tables _ address
  | true =>
    simp only [translate, walk, levels, h, if_true, walk_level, Level.ends, Level.shift]
    have hinner : ∀ root, translateFromRoot { cpu with la57 := false } tables root address =
        _ := fun root => translate_levels4 { cpu with la57 := false } rfl tables root address
    rcases hroot : readEntry tables (currentRootPhys cpu) (index address 48) with _ | e5
    · simp [translateFromRoot, h, hroot]
    · have h5 : translateFromRoot cpu tables (currentRootPhys cpu) address =
          translateFromRoot { cpu with la57 := false } tables (e5 &&& addressMask) address := by
        simp only [translateFromRoot, h, hroot, Option.map_some, if_true, Bool.false_eq_true,
          if_false]
      rw [h5, hinner]
      simp only [Option.bind_some]
      cases hw : Radix.walk shape tables levels4 (e5 &&& addressMask) address with
      | none => rfl
      | some entries =>
        simp only [Option.bind_some, Option.map_some]
        simp [getLast?_cons_walk (walk_ne_nil hw)]

end Vibra.Paging

/-! ## Mapping pages of user processes

`map_user_pages` and `map_user_page_fresh` of `memory/vmm.rs`.
-/

namespace Vibra.Vmm

open Vibra.Paging

/-- The page tables and the frames they are made from. -/
structure Space where
  tables : Tables
  pmm : Pmm.State

def setEntry (tables : Tables) (table : Word) (i : Fin 512) (entry : Word) : Tables :=
  Function.update tables table (Function.update (tables table) i entry)

def setTable (tables : Tables) (table : Word) (entries : Fin 512 → Word) : Tables :=
  Function.update tables table entries

def Space.set (s : Space) (table : Word) (i : Fin 512) (entry : Word) : Space :=
  { s with tables := setEntry s.tables table i entry }

def Space.fill (s : Space) (table : Word) (entries : Fin 512 → Word) : Space :=
  { s with tables := setTable s.tables table entries }

/-- `alloc_frame_zeroed`, with the physical address of the frame. -/
def allocFrameZeroed (s : Space) : Option Word × Space :=
  match Pmm.allocFrame s.pmm with
  | (none, pmm) => (none, { s with pmm := pmm })
  | (some addr, pmm) =>
    (some (BitVec.ofNat 64 addr), { s with pmm := pmm }.fill (BitVec.ofNat 64 addr) fun _ => 0)

/-- `pml4_table_virt`, as a physical address. -/
def pml4Table (cpu : Cpu) (tables : Tables) : Word :=
  if cpu.la57 then
    match readEntry tables (currentRootPhys cpu) 0 with
    | some entry => entry &&& addressMask
    | none => currentRootPhys cpu
  else currentRootPhys cpu

/-- The mask with which `map_user_pages` takes the address from a 1 GiB entry. -/
def split1gMask : Word := 0x0000007fc0000000#64
def split2mMask : Word := 0x000fffffffe00000#64

def split1g (entry : Word) (i : Fin 512) : Word :=
  ((entry &&& split1gMask) + BitVec.ofNat 64 i * 2#64 * 1024#64 * 1024#64) |||
    (entryPresent ||| entryUser ||| entryWritable ||| entryHugePage)

def split2m (entry : Word) (i : Fin 512) : Word :=
  ((entry &&& split2mMask) + BitVec.ofNat 64 i * 4096#64) |||
    (entryPresent ||| entryUser ||| entryWritable)

/-- PML4 to PDPT. -/
def pdptOf (s : Space) (pml4 : Word) (i : Fin 512) : Option Word × Space :=
  let pml4e := s.tables pml4 i
  if Has pml4e entryPresent then
    (some (pml4e &&& addressMask),
      if Has pml4e entryUser then s else s.set pml4 i (pml4e ||| entryUser))
  else
    match allocFrameZeroed s with
    | (none, s) => (none, s)
    | (some frame, s) => (some frame, s.set pml4 i (frame ||| entryPresent ||| entryUser))

/-- PDPT to PD. -/
def pdOf (s : Space) (pdpt : Word) (i : Fin 512) : Option Word × Space :=
  let pdptEntry := s.tables pdpt i
  if Has pdptEntry entryPresent then
    if Has pdptEntry entryHugePage then
      match allocFrameZeroed s with
      | (none, s) => (none, s)
      | (some frame, s) =>
        (some frame, (s.fill frame (split1g pdptEntry)).set pdpt i
          (frame ||| entryPresent ||| entryUser ||| entryWritable))
    else
      (some (pdptEntry &&& addressMask),
        if Has pdptEntry entryUser then s else s.set pdpt i (pdptEntry ||| entryUser))
  else
    match allocFrameZeroed s with
    | (none, s) => (none, s)
    | (some frame, s) => (some frame, s.set pdpt i (frame ||| entryPresent ||| entryUser))

/-- PD to PT. -/
def ptOf (s : Space) (pd : Word) (i : Fin 512) : Option Word × Space :=
  let pdEntry := s.tables pd i
  if Has pdEntry entryPresent then
    if Has pdEntry entryHugePage then
      match allocFrameZeroed s with
      | (none, s) => (none, s)
      | (some frame, s) =>
        (some frame, (s.fill frame (split2m pdEntry)).set pd i
          (frame ||| entryPresent ||| entryUser ||| entryWritable))
    else (some (pdEntry &&& addressMask), s)
  else
    match allocFrameZeroed s with
    | (none, s) => (none, s)
    | (some frame, s) => (some frame, s.set pd i (frame ||| entryPresent ||| entryUser))

def userEntry (cpu : Cpu) (phys : Word) (writable executable : Bool) : Word :=
  phys ||| (entryPresent ||| entryUser ||| (if writable then entryWritable else 0) |||
    nxFlags cpu executable)

def mapUserPages (cpu : Cpu) (s : Space) (virt phys : Word) (writable executable : Bool) :
    Bool × Space :=
  let pml4 := pml4Table cpu s.tables
  match pdptOf s pml4 (index virt 39) with
  | (none, s) => (false, s)
  | (some pdpt, s) =>
    match pdOf s pdpt (index virt 30) with
    | (none, s) => (false, s)
    | (some pd, s) =>
      match ptOf s pd (index virt 21) with
      | (none, s) => (false, s)
      | (some pt, s) =>
        (true, s.set pt (index virt 12) (userEntry cpu phys writable executable))

/-- The first free slot from 2 on, `remaining` slots before 256. -/
def freeSlot (tables : Tables) (pml4 : Word) : Nat → Nat → Option (Fin 512)
  | 0, _ => none
  | remaining + 1, slot =>
    if Has (tables pml4 (Fin.ofNat 512 slot)) entryPresent then
      freeSlot tables pml4 remaining (slot + 1)
    else some (Fin.ofNat 512 slot)

/-- A table is made and its address written to a slot of the table above. -/
def pushTable (s : Space) (table : Word) (i : Fin 512) : Option Word × Space :=
  match allocFrameZeroed s with
  | (none, s) => (none, s)
  | (some frame, s) =>
    (some frame, s.set table i (frame ||| entryPresent ||| entryWritable ||| entryUser))

def mapUserPageFresh (cpu : Cpu) (s : Space) (phys : Word) (writable executable : Bool) :
    Option Word × Space :=
  let pml4 := pml4Table cpu s.tables
  match freeSlot s.tables pml4 254 2 with
  | none => (none, s)
  | some slot =>
    let virt := BitVec.ofNat 64 slot <<< 39
    match pushTable s pml4 slot with
    | (none, s) => (none, s)
    | (some pdpt, s) =>
      match pushTable s pdpt 0 with
      | (none, s) => (none, s)
      | (some pd, s) =>
        match pushTable s pd 0 with
        | (none, s) => (none, s)
        | (some pt, s) =>
          (some virt, s.set pt 0 (userEntry cpu phys writable executable))

end Vibra.Vmm
