import Vibra.Memory.FreshPage
import Vibra.Memory.Heap
import Vibra.Memory.SysWrite
import Vibra.Sched.Stacks
import Mathlib.Tactic.FinCases

/-! # Starting a user process

`spawn_user_process` takes a frame and a slot of the PML4 for the code and for the stack, then a
kernel stack, and last registers the task.
-/

namespace Vibra.User

open Vibra.Lib Vibra.Paging Vibra.Vmm Vibra.Sched
open Vibra.Syscall (Byte physical)

/-- The memory is that of the page tables, which has all frames, and that of the kernel stacks. -/
structure System where
  space : Space
  heap : Heap.FreeList
  kernelStacks : Words
  machine : Machine

def pageSize : Nat := 4096

def packWord (b : Nat → Byte) : Word := b 7 ++ b 6 ++ b 5 ++ b 4 ++ b 3 ++ b 2 ++ b 1 ++ b 0

def packPage (bytes : List Byte) : Fin 512 → Word := fun i =>
  packWord fun j => bytes.getD (8 * i.val + j) 0

/-- `alloc_frame`; the page is zeroed and the bytes are copied to its start. -/
def allocPage (s : Space) (bytes : List Byte) : Option Word × Space :=
  match allocFrameZeroed s with
  | (none, s) => (none, s)
  | (some frame, s) => (some frame, s.fill frame (packPage (bytes.take pageSize)))

def kstackLayout : Heap.Layout := ⟨kernelStackSize, 16, ⟨4, rfl⟩, by decide⟩

/-- `alloc_kstack`, with the top of the stack. `none` when the allocator does not return. -/
def allocKstack (hhdm : Nat) (heap : Heap.FreeList) (pmm : Pmm.State) :
    Option (Option Nat × Heap.FreeList × Pmm.State) :=
  (Heap.alloc hhdm kstackLayout heap pmm).map fun (ptr, heap, pmm) =>
    (if ptr = 0 then none else some (Heap.wrapAdd ptr kernelStackSize), heap, pmm)

/-- The kernel stack is made and the task is registered. -/
def register (hhdm : Nat) (name : String) (userCode stackTop : Word) (σ : System) :
    Option System :=
  match allocKstack hhdm σ.heap σ.space.pmm with
  | none => none
  | some (none, heap, pmm) =>
    some { σ with space := { σ.space with pmm := pmm }, heap := heap }
  | some (some kstackTop, heap, pmm) =>
    some
      { space := { σ.space with pmm := pmm }
        heap := heap
        kernelStacks := σ.kernelStacks.store (kstackTop - contextSize)
          (userContext userCode.toNat stackTop.toNat).words
        machine := Sched.spawnUserProcess σ.machine name kstackTop stackTop.toNat }

def spawnUserProcess (cpu : Paging.Cpu) (hhdm : Nat) (name : String) (code : List Byte)
    (σ : System) : Option System :=
  match allocPage σ.space code with
  | (none, s) => some { σ with space := s }
  | (some codePhys, s) =>
    match mapUserPageFresh cpu s codePhys false true with
    | (none, s) => some { σ with space := s }
    | (some userCode, s) =>
      match allocPage s [] with
      | (none, s) => some { σ with space := s }
      | (some stackPhys, s) =>
        match mapUserPageFresh cpu s stackPhys true false with
        | (none, s) => some { σ with space := s }
        | (some userStackBase, s) =>
          register hhdm name userCode (userStackBase + 4096#64) { σ with space := s }

def loadByte (tables : Tables) (p : Word) : Byte :=
  (tables (p &&& ~~~page4kMask) (Fin.ofNat 512 (p.toNat / 8))).extractLsb' (8 * (p.toNat % 8)) 8

def byteAt (cpu : Paging.Cpu) (tables : Tables) (address : Word) : Option Byte :=
  (physical cpu tables address).map (loadByte tables)

/-- User code has the page at `base` with these rights and these bytes, followed by zeros. -/
structure UserPage (cpu : Paging.Cpu) (tables : Tables) (base : Word) (writable executable : Bool)
    (bytes : List Byte) : Prop where
  content : ∀ k < pageSize, byteAt cpu tables (base + BitVec.ofNat 64 k) = some (bytes.getD k 0)
  rights : ∀ k < pageSize, ∃ entries, walk cpu tables (base + BitVec.ofNat 64 k) = some entries ∧
    Grants entryUser entries ∧ (Grants entryWritable entries ↔ writable = true) ∧
    (executable = true → ∀ x ∈ entries, ¬ Has x.2 entryNx)

/-- The page at `base` is new, in a frame that was free, and no new mapping shares the frame. -/
def Distinct (cpu : Paging.Cpu) (before after : Space) (base : Word) : Prop :=
  translate cpu before.tables base = none ∧
    ∃ frame ∈ free before.pmm, physical cpu after.tables base = some frame ∧
      ∀ address mapping, translate cpu after.tables address = some mapping →
        mapping.physicalAddress &&& ~~~page4kMask = frame →
          SamePage cpu address base ∨ translate cpu before.tables address = some mapping

/-- One ready task was added, with its code and its stack. -/
def Started (cpu : Paging.Cpu) (code : List Byte) (σ σ' : System) : Prop :=
  ∃ sched sched' task context, σ.machine.sched = some sched ∧ σ'.machine.sched = some sched' ∧
    sched'.tasks = sched.tasks ++ [task] ∧ task.state = .ready ∧
    Regs.load σ'.kernelStacks task.savedRsp = context ∧
    UserPage cpu σ'.space.tables (BitVec.ofNat 64 context.rip) false true code ∧
    UserPage cpu σ'.space.tables (BitVec.ofNat 64 context.rsp - 4096#64) true false [] ∧
    Distinct cpu σ.space σ'.space (BitVec.ofNat 64 context.rsp - 4096#64)

def presentEntries (cpu : Paging.Cpu) (tables : Tables) : Set (Word × Fin 512 × Word) :=
  {x | x.1 ∈ Radix.reach shape tables (levels cpu) (currentRootPhys cpu) ∧
    tables x.1 x.2.1 = x.2.2 ∧ Has x.2.2 entryPresent}

/-- Frames, page tables and tasks are as before. -/
def Unchanged (cpu : Paging.Cpu) (σ σ' : System) : Prop :=
  free σ'.space.pmm = free σ.space.pmm ∧
    presentEntries cpu σ'.space.tables = presentEntries cpu σ.space.tables ∧
    σ'.machine.sched = σ.machine.sched

/-- Nothing is missing: eight frames, two slots, a kernel stack and the scheduler. With five
levels the entry above the PML4 grants all rights. -/
structure CanStart (cpu : Paging.Cpu) (hhdm : Nat) (σ : System) : Prop where
  frames : enough σ.space.pmm 8
  slots : ∃ i ∈ freeSlots σ.space.tables (pml4Table cpu σ.space.tables),
    ∃ j ∈ freeSlots σ.space.tables (pml4Table cpu σ.space.tables), i ≠ j
  kstack : ∃ top heap pmm,
    allocKstack hhdm σ.heap (drawn σ.space.pmm 8) = some (some top, heap, pmm)
  scheduler : σ.machine.sched.isSome
  above : ∀ x ∈ aboveLower cpu σ.space.tables,
    Has x.2 entryUser ∧ Has x.2 entryWritable ∧ ¬ Has x.2 entryNx

theorem extract_packWord (b : Nat → Byte) {j : Nat} (h : j < 8) :
    (packWord b).extractLsb' (8 * j) 8 = b j := by
  apply BitVec.eq_of_getLsbD_eq
  intro k hk
  rw [BitVec.getLsbD_extractLsb', packWord]
  simp only [BitVec.getLsbD_append, hk, decide_true, Bool.true_and]
  interval_cases j <;> simp <;> grind

theorem extract_packPage (bytes : List Byte) {k : Nat} (h : k < pageSize) :
    (packPage bytes (Fin.ofNat 512 (k / 8))).extractLsb' (8 * (k % 8)) 8 = bytes.getD k 0 := by
  have hk : k < 4096 := h
  have hi : (Fin.ofNat 512 (k / 8)).val = k / 8 := Nat.mod_eq_of_lt (by omega)
  have hjoin : 8 * (k / 8) + k % 8 = k := by omega
  rw [packPage, extract_packWord _ (by omega), hi, hjoin]

theorem getD_take (bytes : List Byte) {k : Nat} (h : k < pageSize) :
    (bytes.take pageSize).getD k 0 = bytes.getD k 0 := by
  rw [List.getD_eq_getElem?_getD, List.getD_eq_getElem?_getD, List.getElem?_take_of_lt h]

theorem pointer_rights {frame : Word} (h : IsFrame frame) :
    Has (pointer frame) entryUser ∧ Has (pointer frame) entryWritable ∧
      ¬ Has (pointer frame) entryNx := by
  have hnx : ¬ Has frame entryNx := h.not_has (by decide)
  refine ⟨has_self _ (by decide), has_or.mpr (Or.inl (has_self _ (by decide))), ?_⟩
  rw [pointer, has_or, has_or, has_or]
  rintro (((h' | h') | h') | h')
  · exact hnx h'
  · exact absurd h' (by decide)
  · exact absurd h' (by decide)
  · exact absurd h' (by decide)

theorem userEntry_nx {cpu : Paging.Cpu} {phys : Word} (h : IsFrame phys) (writable : Bool) :
    ¬ Has (userEntry cpu phys writable true) entryNx := by
  have hnx : ¬ Has phys entryNx := h.not_has (by decide)
  have h1 : ¬ Has entryPresent entryNx := by decide
  have h2 : ¬ Has entryUser entryNx := by decide
  have h3 : ¬ Has entryWritable entryNx := by decide
  cases writable <;> simp [userEntry, has_or, nxFlags, hnx, h1, h2, h3]

theorem isFrame_aligned {x : Word} (h : IsFrame x) : x &&& page4kMask = 0 := by
  have hz : addressMask &&& page4kMask = 0 := by decide
  rw [← h, BitVec.and_assoc, hz]
  simp

theorem frame_of_address {frame : Word} (h : IsFrame frame) (address : Word) :
    (frame ||| (address &&& page4kMask)) &&& ~~~page4kMask = frame := by
  have hz : page4kMask &&& ~~~page4kMask = 0 := by decide
  have hm : addressMask &&& ~~~page4kMask = addressMask := by decide
  have hframe : frame &&& ~~~page4kMask = frame := by
    have hf : frame &&& addressMask = frame := h
    rw [← hf, BitVec.and_assoc, hm]
  rw [BitVec.and_or_distrib_right, BitVec.and_assoc, hz, hframe]
  simp

theorem allocPage_cases (s : Space) (bytes : List Byte) :
    allocPage s bytes = (none, s) ∧ grant s.pmm = none ∨
      ∃ frame s', allocPage s bytes = (some frame, s') ∧ (grant s.pmm).isSome ∧
        s'.pmm = (Pmm.allocFrame s.pmm).2 ∧ frame ∈ free s.pmm ∧
        free s'.pmm = free s.pmm \ {frame} ∧
        s'.tables = setTable s.tables frame (packPage (bytes.take pageSize)) := by
  unfold allocPage
  rcases allocFrameZeroed_cases s with ⟨hA, hg⟩ | ⟨frame, s1, hA, hg, hpmm, hfree, hfree1, htab⟩
  · rw [hA]
    exact Or.inl ⟨rfl, hg⟩
  · rw [hA]
    refine Or.inr ⟨frame, _, rfl, by rw [hg]; rfl, hpmm, hfree, hfree1, ?_⟩
    simp only [Space.fill, htab, setTable_twice]

/-- The part of the call that is done for the code and again for the stack. -/
def addPage (cpu : Paging.Cpu) (s : Space) (bytes : List Byte) (writable executable : Bool) :
    Option Word × Space :=
  match allocPage s bytes with
  | (none, s) => (none, s)
  | (some frame, s) => mapUserPageFresh cpu s frame writable executable

theorem spawnUserProcess_eq (cpu : Paging.Cpu) (hhdm : Nat) (name : String) (code : List Byte)
    (σ : System) :
    spawnUserProcess cpu hhdm name code σ =
      match addPage cpu σ.space code false true with
      | (none, s) => some { σ with space := s }
      | (some userCode, s) =>
        match addPage cpu s [] true false with
        | (none, s) => some { σ with space := s }
        | (some base, s) =>
          register hhdm name userCode (base + 4096#64) { σ with space := s } := by
  unfold spawnUserProcess addPage
  rcases allocPage σ.space code with ⟨_ | codePhys, s1⟩
  · rfl
  simp only
  rcases mapUserPageFresh cpu s1 codePhys false true with ⟨_ | userCode, s2⟩
  · rfl
  simp only
  rcases allocPage s2 [] with ⟨_ | stackPhys, s3⟩ <;> rfl

structure PageAdded (cpu : Paging.Cpu) (s s' : Space) (base frame : Word) (slot : Fin 512)
    (writable executable : Bool) (bytes : List Byte) : Prop
    extends Grown s s' levels4 (pml4Table cpu s.tables) where
  taken : frame ∈ free s.pmm
  kept : frame ∉ Radix.reach shape s'.tables levels4 (pml4Table cpu s.tables) ∧ frame ∉ free s'.pmm
  content : s'.tables frame = packPage (bytes.take pageSize)
  slot_mem : slot ∈ freeSlots s.tables (pml4Table cpu s.tables)
  base_eq : base = BitVec.ofNat 64 slot <<< 39
  slots : freeSlots s'.tables (pml4Table cpu s.tables) =
    freeSlots s.tables (pml4Table cpu s.tables) \ {slot}
  pmm : s'.pmm = drawn s.pmm 4
  page : ∃ path, (∀ x ∈ path, ∃ frame, IsFrame frame ∧ x.2 = pointer frame) ∧
    ∀ address, (∀ l ∈ levels4, index address l.shift = index base l.shift) →
      Radix.walk shape s'.tables levels4 (pml4Table cpu s.tables) address =
        some (path ++ [(.pt, userEntry cpu frame writable executable)])
  other : ∀ address, (∃ l ∈ levels4, index address l.shift ≠ index base l.shift) →
    Radix.walk shape s'.tables levels4 (pml4Table cpu s.tables) address =
      Radix.walk shape s.tables levels4 (pml4Table cpu s.tables) address

theorem addPage_spec {cpu : Paging.Cpu} {s : Space} (hwf : WellFormed cpu s) (bytes : List Byte)
    (writable executable : Bool) :
    ((addPage cpu s bytes writable executable).1.isSome ↔
        enough s.pmm 4 ∧ (freeSlots s.tables (pml4Table cpu s.tables)).Nonempty) ∧
      (grant s.pmm = none → addPage cpu s bytes writable executable = (none, s)) ∧
      ((grant s.pmm).isSome → ∃ x ∈ free s.pmm,
        x ∉ free (addPage cpu s bytes writable executable).2.pmm) ∧
      free (addPage cpu s bytes writable executable).2.pmm ⊆ free s.pmm ∧
      ∀ base, (addPage cpu s bytes writable executable).1 = some base →
        ∃ frame slot, PageAdded cpu s (addPage cpu s bytes writable executable).2 base frame slot
          writable executable bytes := by
  unfold addPage
  rcases allocPage_cases s bytes with ⟨hA, hg⟩ | ⟨frame, s1, hA, hg, hpmm, hfree, hfree1, htab⟩
  · simp [hA, hg, enough]
  · have hO := owned_pml4 hwf
    obtain ⟨hgrown, hsame⟩ := fill_grown hO hfree htab hfree1
    obtain ⟨hwf1, hp4, _⟩ := hwf.grown hgrown
    have hslots : freeSlots s1.tables (pml4Table cpu s.tables) =
        freeSlots s.tables (pml4Table cpu s.tables) := by
      have hroot : s1.tables (pml4Table cpu s.tables) = s.tables (pml4Table cpu s.tables) :=
        hsame _ Radix.mem_reach_self
      simp only [freeSlots, hroot]
    have hsub1 : free s1.pmm ⊆ free s.pmm := hgrown.inside.free
    obtain ⟨hok, hsub, hmade⟩ := mapUserPageFresh_spec hwf1 frame writable executable
    rw [hp4, hslots] at hok hmade
    have hnot : frame ∉ free s1.pmm := by
      rw [hfree1]
      exact fun h => h.2 rfl
    have hkept : frame ∉ Radix.reach shape s1.tables levels4 (pml4Table cpu s.tables) := by
      rw [Radix.reach_congr hsame]
      exact fun hr => Set.disjoint_left.mp hO.apart hr hfree
    rw [hA]
    refine ⟨?_, fun h => ?_, fun _ => ⟨frame, hfree, fun h => hnot (hsub h)⟩, hsub.trans hsub1,
      fun base hbase => ?_⟩
    · simp only [hok, hpmm, enough, hg, true_and]
      exact and_comm
    · rw [h] at hg
      cases hg
    · obtain ⟨hdrawn, slot, hslot, hbase, hpath⟩ := hmade base hbase
      obtain ⟨path, hmap, hptr⟩ := hpath.mapped
      obtain ⟨hcontent, hkept2⟩ := hmap.toGrown.keeps hkept hnot
      have hfilled : s1.tables frame = packPage (bytes.take pageSize) := by
        rw [htab, setTable_same]
      refine ⟨frame, slot, ⟨hgrown.trans hmap.toGrown, hfree, hkept2, hcontent.trans hfilled, hslot,
        hbase, ?_, ?_, ⟨path, hptr, hmap.page⟩, fun address ha => ?_⟩⟩
      · rw [hpath.freeSlots, hslots]
      · rw [hdrawn, hpmm]
        rfl
      · rw [hmap.other address ha, Radix.walk_congr hsame]

/-! ## The page that user code gets -/

theorem canonical_low (cpu : Paging.Cpu) {address : Word} (h : address.toNat < 2 ^ 47) :
    Syscall.Canonical cpu address := by
  have hmsb : address.msb = false := by
    rw [BitVec.msb_eq_false_iff_two_mul_lt]
    omega
  refine Or.inl ?_
  rw [BitVec.sshiftRight_eq_of_msb_false hmsb]
  apply BitVec.eq_of_toNat_eq
  rw [BitVec.toNat_ushiftRight, Nat.shiftRight_eq_div_pow]
  split
  · exact Nat.div_eq_of_lt (h.trans (by decide))
  · exact Nat.div_eq_of_lt h

section Slot

variable {slot : Fin 512} (hslot : slot.val < 256)

include hslot

theorem toNat_page {k : Nat} (hk : k < pageSize) :
    ((BitVec.ofNat 64 slot <<< 39) + BitVec.ofNat 64 k).toNat = slot.val * 2 ^ 39 + k := by
  have hk' : k < 4096 := hk
  rw [BitVec.toNat_add, toNat_slot, BitVec.toNat_ofNat]
  omega

theorem canonical_page (cpu : Paging.Cpu) {k : Nat} (hk : k < pageSize) :
    Syscall.Canonical cpu ((BitVec.ofNat 64 slot <<< 39) + BitVec.ofNat 64 k) := by
  have hk' : k < 4096 := hk
  apply canonical_low
  rw [toNat_page hslot hk]
  omega

theorem index_page {k : Nat} (hk : k < pageSize) :
    index ((BitVec.ofNat 64 slot <<< 39) + BitVec.ofNat 64 k) 48 = 0 ∧
      ∀ l ∈ levels4, index ((BitVec.ofNat 64 slot <<< 39) + BitVec.ofNat 64 k) l.shift =
        index (BitVec.ofNat 64 slot <<< 39) l.shift := by
  have hk' : k < 4096 := hk
  have h0 : (BitVec.ofNat 64 slot <<< 39).toNat / 4096 = slot.val * 2 ^ 27 := by
    rw [toNat_slot]
    omega
  have hpage : ((BitVec.ofNat 64 slot <<< 39) + BitVec.ofNat 64 k).toNat / 4096 =
      slot.val * 2 ^ 27 := by
    rw [toNat_page hslot hk]
    omega
  obtain ⟨h48, h39, h30, h21, h12⟩ := index_slot hpage
  obtain ⟨_, b39, b30, b21, b12⟩ := index_slot h0
  refine ⟨h48, ?_⟩
  simp [levels4, Level.shift, h39, h30, h21, h12, b39, b30, b21, b12]

theorem loadByte_page {tables : Tables} {frame : Word} (hframe : IsFrame frame) {bytes : List Byte}
    (hcontent : tables frame = packPage (bytes.take pageSize)) {k : Nat} (hk : k < pageSize) :
    loadByte tables (frame ||| (((BitVec.ofNat 64 slot <<< 39) + BitVec.ofNat 64 k) &&&
      page4kMask)) = bytes.getD k 0 := by
  have hk' : k < 4096 := hk
  have hmask : page4kMask = BitVec.ofNat 64 (2 ^ 12 - 1) := rfl
  have hoff : (((BitVec.ofNat 64 slot <<< 39) + BitVec.ofNat 64 k) &&& page4kMask).toNat = k := by
    rw [BitVec.toNat_and, toNat_page hslot hk, hmask, BitVec.toNat_ofNat,
      Nat.mod_eq_of_lt (by decide), Nat.and_two_pow_sub_one_eq_mod]
    omega
  have hal := isFrame_aligned hframe
  have hlow : frame.toNat % 4096 = 0 := by
    have hand := congrArg BitVec.toNat hal
    rw [BitVec.toNat_and, hmask, BitVec.toNat_ofNat, Nat.mod_eq_of_lt (by decide),
      Nat.and_two_pow_sub_one_eq_mod] at hand
    exact hand
  generalize hd : ((BitVec.ofNat 64 slot <<< 39) + BitVec.ofNat 64 k) &&& page4kMask = d at hoff
  have hdm : d &&& page4kMask = d := by
    rw [← hd, BitVec.and_assoc, BitVec.and_self]
  have hdisj : frame &&& d = 0 := by
    rw [← hdm, BitVec.and_comm d, ← BitVec.and_assoc, hal]
    simp
  have hsum : (frame ||| d).toNat = frame.toNat + k := by
    have hlt := frame.isLt
    rw [← BitVec.add_eq_or_of_and_eq_zero _ _ hdisj, BitVec.toNat_add, hoff]
    omega
  have hbase : (frame ||| d) &&& ~~~page4kMask = frame := by
    rw [← hd]
    exact frame_of_address hframe _
  have hidx : Fin.ofNat 512 ((frame.toNat + k) / 8) = Fin.ofNat 512 (k / 8) := by
    apply Fin.ext
    simp only [Fin.ofNat]
    omega
  have hbit : (frame.toNat + k) % 8 = k % 8 := by omega
  rw [loadByte, hbase, hsum, hidx, hbit, hcontent, extract_packPage _ hk, getD_take _ hk]

end Slot

def AboveGrants (cpu : Paging.Cpu) (tables : Tables) (writable executable : Bool) : Prop :=
  ∀ x ∈ aboveLower cpu tables, Has x.2 entryUser ∧ (writable = true → Has x.2 entryWritable) ∧
    (executable = true → ¬ Has x.2 entryNx)

theorem rights_iff (cpu : Paging.Cpu) (tables : Tables) {path : List (Level × Word)}
    {frame : Word} (writable executable : Bool) (hframe : IsFrame frame)
    (hpath : ∀ x ∈ path, ∃ frame, IsFrame frame ∧ x.2 = pointer frame)
    {entries : List (Level × Word)} (hentries : entries = aboveLower cpu tables ++
      (path ++ [(.pt, userEntry cpu frame writable executable)])) :
    (Grants entryUser entries ∧ (Grants entryWritable entries ↔ writable = true) ∧
      (executable = true → ∀ x ∈ entries, ¬ Has x.2 entryNx)) ↔
        AboveGrants cpu tables writable executable := by
  have huser : Grants entryUser path := by
    intro x hx
    obtain ⟨frame, hf, he⟩ := hpath x hx
    rw [he]
    exact (pointer_rights hf).1
  have hwrite : Grants entryWritable path := by
    intro x hx
    obtain ⟨frame, hf, he⟩ := hpath x hx
    rw [he]
    exact (pointer_rights hf).2.1
  have hexec : ∀ x ∈ path, ¬ Has x.2 entryNx := by
    intro x hx
    obtain ⟨frame, hf, he⟩ := hpath x hx
    rw [he]
    exact (pointer_rights hf).2.2
  have hleaf := userEntry_writable cpu writable executable (isFrame_aligned hframe)
  have hleafNx : executable = true → ¬ Has (userEntry cpu frame writable executable) entryNx := by
    rintro rfl
    exact userEntry_nx hframe writable
  have hnx : (executable = true → ∀ x ∈ entries, ¬ Has x.2 entryNx) ↔
      (executable = true → ∀ x ∈ aboveLower cpu tables, ¬ Has x.2 entryNx) := by
    rw [hentries]
    constructor
    · intro h hx x hmem
      exact h hx x (List.mem_append_left _ hmem)
    · intro h hx x hmem
      rcases List.mem_append.mp hmem with hmem | hmem
      · exact h hx x hmem
      rcases List.mem_append.mp hmem with hmem | hmem
      · exact hexec x hmem
      · obtain rfl : x = (.pt, userEntry cpu frame writable executable) := by simpa using hmem
        exact hleafNx hx
  have hgu : Grants entryUser entries ↔ Grants entryUser (aboveLower cpu tables) := by
    rw [hentries, grants_append, grants_append, grants_singleton]
    have hleafUser := userEntry_user cpu frame writable executable
    exact ⟨And.left, fun h => ⟨h, huser, hleafUser⟩⟩
  have hgw : Grants entryWritable entries ↔
      Grants entryWritable (aboveLower cpu tables) ∧ writable = true := by
    rw [hentries, grants_append, grants_append, grants_singleton, hleaf]
    exact ⟨fun h => ⟨h.1, h.2.2⟩, fun h => ⟨h.1, hwrite, h.2⟩⟩
  rw [hnx, hgu, hgw]
  constructor
  · rintro ⟨hu, hw, hx⟩ y hy
    exact ⟨hu y hy, fun h => (hw.mpr h).1 y hy, fun h => hx h y hy⟩
  · intro h
    exact ⟨fun y hy => (h y hy).1, ⟨And.right, fun hw => ⟨fun y hy => (h y hy).2.1 hw, hw⟩⟩,
      fun hx y hy => (h y hy).2.2 hx⟩

theorem PageAdded.userPage_iff {cpu : Paging.Cpu} {s0 s s' final : Space} {base frame : Word}
    {slot : Fin 512} {writable executable : Bool} {bytes : List Byte}
    (h : PageAdded cpu s s' base frame slot writable executable bytes)
    (hwf : WellFormed cpu s0) (hp4 : pml4Table cpu s.tables = pml4Table cpu s0.tables)
    (hg : Grown s0 final levels4 (pml4Table cpu s0.tables))
    (hcontent : final.tables frame = s'.tables frame)
    (hwalk : ∀ address, (∀ l ∈ levels4, index address l.shift = index base l.shift) →
      Radix.walk shape final.tables levels4 (pml4Table cpu s0.tables) address =
        Radix.walk shape s'.tables levels4 (pml4Table cpu s0.tables) address) :
    UserPage cpu final.tables base writable executable bytes ↔
      AboveGrants cpu s0.tables writable executable := by
  obtain ⟨path, hptr, hpage⟩ := h.page
  have hframe := isFrame_of_free h.taken
  have hslot : slot.val < 256 := h.slot_mem.2.1
  obtain rfl := h.base_eq
  rw [hp4] at hpage
  have hentries : ∀ k < pageSize, walk cpu final.tables
      ((BitVec.ofNat 64 slot <<< 39) + BitVec.ofNat 64 k) = some (aboveLower cpu s0.tables ++
        (path ++ [(.pt, userEntry cpu frame writable executable)])) := by
    intro k hk
    obtain ⟨h48, hidx⟩ := index_page hslot hk
    rw [walk_lower (r := (true, final)) hwf hg.inside fun _ => h48]
    change Option.map _ (Radix.walk shape final.tables levels4 _ _) = _
    rw [hwalk _ hidx, hpage _ hidx]
    rfl
  have hbytes : ∀ k < pageSize, byteAt cpu final.tables
      ((BitVec.ofNat 64 slot <<< 39) + BitVec.ofNat 64 k) = some (bytes.getD k 0) := by
    intro k hk
    have hmap : translate cpu final.tables ((BitVec.ofNat 64 slot <<< 39) + BitVec.ofNat 64 k) =
        some (mappingOf ((BitVec.ofNat 64 slot <<< 39) + BitVec.ofNat 64 k)
          (.pt, userEntry cpu frame writable executable)) := by
      rw [translate_eq_walk, hentries k hk, Option.bind_some, ← List.append_assoc,
        List.getLast?_concat]
      rfl
    have hload := loadByte_page hslot hframe (hcontent.trans h.content) hk
    rw [byteAt, Syscall.physical, if_pos (canonical_page hslot cpu hk), hmap]
    simp only [Option.map_some, mappingOf, userEntry_address]
    rw [show frame &&& addressMask = frame from hframe, hload]
  have hrights := rights_iff cpu s0.tables writable executable hframe hptr rfl
  constructor
  · intro hu
    obtain ⟨entries, hw, hr⟩ := hu.rights 0 (by decide)
    rw [hentries 0 (by decide), Option.some.injEq] at hw
    exact hrights.mp (hw ▸ hr)
  · intro ha
    exact ⟨hbytes, fun k hk => ⟨_, hentries k hk, hrights.mpr ha⟩⟩

/-- The page of the stack, which is added after that of the code. -/
theorem PageAdded.distinct {cpu : Paging.Cpu} {s0 s2 s4 : Space} {base1 base2 frame1 frame2 : Word}
    {slot1 slot2 : Fin 512} {w1 w2 x1 x2 : Bool} {bytes1 bytes2 : List Byte}
    (hwf : WellFormed cpu s0) (h1 : PageAdded cpu s0 s2 base1 frame1 slot1 w1 x1 bytes1)
    (h2 : PageAdded cpu s2 s4 base2 frame2 slot2 w2 x2 bytes2) :
    Distinct cpu s0 s4 base2 := by
  obtain ⟨_, hp4, _⟩ := hwf.grown h1.toGrown
  have hg2 := h2.toGrown
  have hpage2 := h2.page
  have hother2 := h2.other
  have hmem2 := h2.slot_mem
  rw [hp4] at hg2 hpage2 hother2 hmem2
  rw [h1.slots] at hmem2
  have hg := h1.toGrown.trans hg2
  have hslot2 : slot2.val < 256 := hmem2.1.2.1
  have hbase2 := h2.base_eq
  have hframe1 := isFrame_of_free h1.taken
  have hframe2 := isFrame_of_free h2.taken
  have hne : frame1 ≠ frame2 := by
    rintro rfl
    exact h1.kept.2 h2.taken
  have hI0 : Inside s0 (true, s0).2 levels4 (pml4Table cpu s0.tables) := Inside.refl s0 _ _
  have hI4 : Inside s0 (true, s4).2 levels4 (pml4Table cpu s0.tables) := hg.inside
  have hzero : base2 + BitVec.ofNat 64 0 = base2 := by simp
  have hlow : Lower cpu base2 := by
    intro _
    have hidx := (index_page hslot2 (show 0 < pageSize by decide)).1
    rwa [← hbase2, hzero] at hidx
  have h39 : index base2 39 = slot2 := by
    rw [hbase2]
    exact (index_slot (by rw [toNat_slot]; omega)).2.1
  have hleaf : ∀ {address frame : Word} {w x : Bool}, IsFrame frame → Lower cpu address →
      (∃ path, Radix.walk shape s4.tables levels4 (pml4Table cpu s0.tables) address =
        some (path ++ [(.pt, userEntry cpu frame w x)])) →
      translate cpu s4.tables address = some (mappingOf address (.pt, userEntry cpu frame w x)) := by
    rintro address frame w x _ hl ⟨path, hw⟩
    have hwalk := walk_lower hwf hI4 hl
    rw [translate_eq_walk, show walk cpu s4.tables address = _ from hwalk]
    change Option.bind (Option.map _ (Radix.walk shape s4.tables levels4 _ _)) _ = _
    rw [hw, Option.map_some, Option.bind_some, ← List.append_assoc, List.getLast?_concat]
    rfl
  have hphys : ∀ {address frame : Word} {w x : Bool}, IsFrame frame →
      (mappingOf address (.pt, userEntry cpu frame w x)).physicalAddress =
        frame ||| (address &&& page4kMask) := by
    intro address frame w x hf
    simp only [mappingOf, userEntry_address]
    rw [show frame &&& addressMask = frame from hf]
  refine ⟨?_, frame2, h1.toGrown.inside.free h2.taken, ?_, fun address mapping hmap hsame => ?_⟩
  · have habsent : ¬ Has (s0.tables (pml4Table cpu s0.tables) (index base2 39)) entryPresent := by
      rw [h39]
      exact hmem2.1.2.2
    have hnone : Radix.walk shape s0.tables levels4 (pml4Table cpu s0.tables) base2 = none :=
      walk_at_absent (l := .pml4) rfl habsent
    have hwalk := walk_lower hwf hI0 hlow
    rw [translate_eq_walk, show walk cpu s0.tables base2 = _ from hwalk]
    change Option.bind (Option.map _ (Radix.walk shape s0.tables levels4 _ _)) _ = _
    rw [hnone]
    rfl
  · obtain ⟨path, _, hw⟩ := hpage2
    have hoff : base2 &&& page4kMask = 0 := by
      have hmask : page4kMask = BitVec.ofNat 64 (2 ^ 12 - 1) := rfl
      apply BitVec.eq_of_toNat_eq
      rw [hbase2, BitVec.toNat_and, toNat_slot, hmask, BitVec.toNat_ofNat,
        Nat.mod_eq_of_lt (by decide), Nat.and_two_pow_sub_one_eq_mod]
      simp only [BitVec.ofNat_eq_ofNat, BitVec.toNat_ofNat, Nat.zero_mod]
      omega
    have hcanon : Syscall.Canonical cpu base2 := by
      have hcan := canonical_page hslot2 cpu (show 0 < pageSize by decide)
      rwa [← hbase2, hzero] at hcan
    rw [Syscall.physical, if_pos hcanon, hleaf hframe2 hlow ⟨path, hw base2 fun _ _ => rfl⟩,
      Option.map_some, hphys hframe2, hoff]
    simp
  · by_cases hl : Lower cpu address
    · by_cases hidx2 : ∀ l ∈ levels4, index address l.shift = index base2 l.shift
      · exact Or.inl (samePage_of_lower hl hlow hidx2)
      · push Not at hidx2
        have hw4 := hother2 address hidx2
        by_cases hidx1 : ∀ l ∈ levels4, index address l.shift = index base1 l.shift
        · obtain ⟨path, _, hw⟩ := h1.page
          have hcode := hleaf (w := w1) (x := x1) hframe1 hl ⟨path, by rw [hw4, hw address hidx1]⟩
          rw [hcode, Option.some.injEq] at hmap
          rw [← hmap, hphys hframe1, frame_of_address hframe1] at hsame
          exact absurd hsame hne
        · push Not at hidx1
          have hw0 := h1.other address hidx1
          have hwalk4 := walk_lower hwf hI4 hl
          have hwalk0 := walk_lower hwf hI0 hl
          have hsame0 : walk cpu s4.tables address = walk cpu s0.tables address := by
            rw [show walk cpu s4.tables address = _ from hwalk4,
              show walk cpu s0.tables address = _ from hwalk0]
            change Option.map _ (Radix.walk shape s4.tables levels4 _ _) = _
            rw [hw4, hw0]
          right
          rw [translate_eq_walk, ← hsame0, ← translate_eq_walk]
          exact hmap
    · have hsame0 := walk_upper hwf hI4 hl
      right
      rw [translate_eq_walk, ← show walk cpu s4.tables address = _ from hsame0,
        ← translate_eq_walk]
      exact hmap

/-! ## The whole call -/

theorem free_takesOnly {pmm pmm' : Pmm.State} (h : Heap.TakesOnly pmm pmm') :
    free pmm' ⊆ free pmm := by
  rintro x ⟨f, hf, rfl⟩
  exact ⟨f, h f hf, rfl⟩

theorem allocKstack_free {hhdm : Nat} {heap heap' : Heap.FreeList} {pmm pmm' : Pmm.State}
    {top : Option Nat} (h : allocKstack hhdm heap pmm = some (top, heap', pmm')) :
    free pmm' ⊆ free pmm := by
  obtain ⟨⟨ptr, fl, p⟩, halloc, heq⟩ := Option.map_eq_some_iff.mp h
  obtain ⟨_, _, rfl⟩ : _ ∧ fl = heap' ∧ p = pmm' := by simpa using heq
  exact free_takesOnly (Heap.alloc_takesOnly halloc)

theorem not_allOrNothing {cpu : Paging.Cpu} {code : List Byte} {σ σ' : System}
    (hmachine : σ'.machine = σ.machine) {x : Word} (hx : x ∈ free σ.space.pmm)
    (hlost : x ∉ free σ'.space.pmm) : ¬ (Started cpu code σ σ' ∨ Unchanged cpu σ σ') := by
  rintro (⟨sched, sched', task, _, h, h', htasks, _⟩ | h)
  · rw [hmachine, h] at h'
    cases h'
    have hlen := congrArg List.length htasks
    simp at hlen
  · exact hlost (h.1 ▸ hx)

theorem started_iff {cpu : Paging.Cpu} {name : String} {code : List Byte} {σ : System}
    {sched : Scheduler} (hsched : σ.machine.sched = some sched) {s2 s4 : Space}
    {userCode base frame1 frame2 : Word} {slot1 slot2 : Fin 512} (hwf : WellFormed cpu σ.space)
    (h1 : PageAdded cpu σ.space s2 userCode frame1 slot1 false true code)
    (h2 : PageAdded cpu s2 s4 base frame2 slot2 true false []) (top : Nat) (heap : Heap.FreeList)
    (pmm : Pmm.State) :
    Started cpu code σ
        { space := { s4 with pmm := pmm }
          heap := heap
          kernelStacks := σ.kernelStacks.store (top - contextSize)
            (userContext userCode.toNat (base + 4096#64).toNat).words
          machine := Sched.spawnUserProcess σ.machine name top (base + 4096#64).toNat } ↔
      ∀ x ∈ aboveLower cpu σ.space.tables,
        Has x.2 entryUser ∧ Has x.2 entryWritable ∧ ¬ Has x.2 entryNx := by
  obtain ⟨_, hp4, _⟩ := hwf.grown h1.toGrown
  have hg2 := h2.toGrown
  rw [hp4] at hg2
  have hg := h1.toGrown.trans hg2
  have hcode := h1.userPage_iff hwf rfl hg (hg2.keeps h1.kept.1 h1.kept.2).1 fun address ha => by
    have hother := h2.other address
    rw [hp4] at hother
    refine hother ⟨.pml4, by simp [levels4], ?_⟩
    rw [ha .pml4 (by simp [levels4])]
    have hslot := h2.slot_mem
    rw [hp4, h1.slots] at hslot
    have hne : slot1 ≠ slot2 := fun h => hslot.2 h.symm
    have hidx : ∀ slot : Fin 512, index (BitVec.ofNat 64 slot <<< 39) 39 = slot := fun slot =>
      (index_slot (by rw [toNat_slot]; omega)).2.1
    rw [h1.base_eq, h2.base_eq]
    simpa only [Level.shift, hidx] using hne
  have hstack := h2.userPage_iff hwf hp4 hg rfl fun _ _ => rfl
  have hdistinct := h1.distinct hwf h2
  have hback : base + 4096#64 - 4096#64 = base := BitVec.add_sub_cancel _ _
  have hgrants : AboveGrants cpu σ.space.tables false true ∧
      AboveGrants cpu σ.space.tables true false ↔ ∀ x ∈ aboveLower cpu σ.space.tables,
        Has x.2 entryUser ∧ Has x.2 entryWritable ∧ ¬ Has x.2 entryNx := by
    simp only [AboveGrants, Bool.false_eq_true, false_implies, true_and, true_implies, and_true]
    constructor
    · intro h x hx
      exact ⟨(h.1 x hx).1, (h.2 x hx).2, (h.1 x hx).2⟩
    · intro h
      exact ⟨fun x hx => ⟨(h x hx).1, (h x hx).2.2⟩, fun x hx => ⟨(h x hx).1, (h x hx).2.1⟩⟩
  rw [← hgrants, ← hcode, ← hstack]
  constructor
  · rintro ⟨sched1, sched2, task, context, hs1, hs2, htasks, _, hload, hpage, hpage', _⟩
    rw [hsched, Option.some.injEq] at hs1
    subst hs1
    simp only [Sched.spawnUserProcess, hsched, Option.some.injEq] at hs2
    subst hs2
    obtain ⟨_, htask⟩ := List.append_inj' htasks rfl
    obtain rfl := (List.cons.inj htask).1
    simp only [freshTask, Regs.load_store] at hload
    subst hload
    simp only [userContext, BitVec.ofNat_toNat, BitVec.setWidth_eq, hback] at hpage hpage'
    exact ⟨hpage, hpage'⟩
  · rintro ⟨hpage, hpage'⟩
    refine ⟨sched, _, _, _, hsched, by simp only [Sched.spawnUserProcess, hsched]; rfl, rfl, rfl,
      rfl, ?_⟩
    simp only [freshTask, Regs.load_store, userContext, BitVec.ofNat_toNat, BitVec.setWidth_eq,
      hback]
    exact ⟨hpage, hpage', hdistinct⟩

/-- Eight free frames, an empty root, and a heap without memory. -/
def smallSystem : System where
  space := emptySpace
  heap := ⟨fun _ => 0, none, [], 0⟩
  kernelStacks := fun _ => 0
  machine := ⟨some ⟨[], none, 0, 0, 1, 0⟩, 0, ⟨0, 0, 0⟩, 0⟩

theorem spawnUserProcess_small : ∃ σ',
    spawnUserProcess plainCpu 0 "init" [0x90] smallSystem = some σ' ∧
      σ'.machine = smallSystem.machine ∧
      Pmm.isFrameFree σ'.space.pmm.bitmap (⟨256, by decide⟩ : Pmm.Frame) = false := by
  have hrun : (spawnUserProcess plainCpu 0 "init" [0x90] smallSystem).map (fun σ' =>
      decide (σ'.machine = smallSystem.machine) &&
        !Pmm.isFrameFree σ'.space.pmm.bitmap (⟨256, by decide⟩ : Pmm.Frame)) = some true := by
    decide
  obtain ⟨σ', h, hσ⟩ := Option.map_eq_some_iff.mp hrun
  rw [Bool.and_eq_true, decide_eq_true_eq, Bool.not_eq_true'] at hσ
  exact ⟨σ', h, hσ⟩

end Vibra.User
