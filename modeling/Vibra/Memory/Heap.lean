import Mathlib.Data.Nat.Bitwise
import Mathlib.Data.Nat.Log
import Vibra.Memory.PmmOwnership
import Vibra.Lib.Span

/-! # Kernel heap free list

An address-ordered singly linked list of free blocks.
-/

namespace Vibra.Heap

open Lib (Span)

def usizeLimit : Nat := 2 ^ 64

def wrapAdd (a b : Nat) : Nat := (a + b) % usizeLimit
def wrapSub (a b : Nat) : Nat := (a + usizeLimit - b) % usizeLimit
def satAdd (a b : Nat) : Nat := min (a + b) (usizeLimit - 1)
/-- Bitwise `!`. -/
def bitNot (a : Nat) : Nat := usizeLimit - (a + 1)

def sizeMagicBits : Nat := 0x5649_0000_0000_0000
def sizeMask : Nat := 0x0000_FFFF_FFFF_FFFF

/-- `(addr + align - 1) & !(align - 1)`. -/
def alignUp (addr align : Nat) : Nat := wrapAdd addr (align - 1) &&& bitNot (align - 1)

def alignGranule : Nat := 16
/-- `size_of::<FreeNode>()`: a word and a pointer. -/
def freeNodeSize : Nat := 16
def minBlock : Nat := alignUp freeNodeSize 16
def maxRegions : Nat := 16
def maxHeapBytes : Nat := 64 * 1024 * 1024

/-- `core::alloc::Layout`: the alignment is a power of two, and the size rounded
up to it stays below `isize::MAX`. -/
structure Layout where
  size : Nat
  align : Nat
  align_pow : ∃ k, align = 2 ^ k
  fits : size + (align - 1) ≤ 2 ^ 63 - 1
deriving DecidableEq

namespace Layout

/-- The size that `allocate` and `deallocate` use for a layout. -/
def rounded (layout : Layout) : Nat := alignUp (max layout.size 1) alignGranule
/-- The alignment that `allocate` uses for a layout. -/
def granule (layout : Layout) : Nat := max layout.align alignGranule

end Layout

/-- `FreeList`, with the memory its nodes live in. The region array and its
count are one list; regions are pairs of start and end. -/
structure FreeList where
  words : Nat → Nat
  head : Option Nat
  regions : List (Span Nat)
  totalBytes : Nat

namespace FreeNode

def size (words : Nat → Nat) (ptr : Nat) : Nat := words ptr &&& sizeMask

def setSize (words : Nat → Nat) (ptr size : Nat) : Nat → Nat :=
  Function.update words ptr (sizeMagicBits ||| (size &&& sizeMask))

/-- A zero word is `None`. -/
def next (words : Nat → Nat) (ptr : Nat) : Option Nat :=
  if words (ptr + 8) = 0 then none else some (words (ptr + 8))

def setNext (words : Nat → Nat) (ptr : Nat) (next : Option Nat) : Nat → Nat :=
  Function.update words (ptr + 8) (next.getD 0)

end FreeNode

namespace FreeList

def regionOf (fl : FreeList) (addr : Nat) : Option (Span Nat) :=
  fl.regions.find? fun r => decide (r.start ≤ addr ∧ addr < r.stop)

/-- The node lies in one region and its header is intact. -/
def nodeOk (fl : FreeList) (addr : Nat) : Bool :=
  match fl.regionOf addr with
  | none => false
  | some region =>
    let word := fl.words addr
    let size := word &&& sizeMask
    decide (region.start ≤ addr ∧ addr + freeNodeSize < usizeLimit ∧
      addr + freeNodeSize ≤ region.stop ∧ word &&& bitNot sizeMask = sizeMagicBits ∧
      minBlock ≤ size ∧ addr + size < usizeLimit ∧ addr + size ≤ region.stop)

/-- Cut the list before a broken node. -/
def truncateBefore (fl : FreeList) (prev : Option Nat) : FreeList :=
  match prev with
  | some p => { fl with words := FreeNode.setNext fl.words p none }
  | none => { fl with head := none }

def maxSteps : Nat := usizeLimit

/-- The loop of `insert_block` and `deallocate`: find the first node at or above
`bound` and the node before it; a broken node cuts the list. `none` when the
loop does not end. -/
def seek (fl : FreeList) (bound : Nat) :
    Nat → Option Nat → Option Nat → Option (FreeList × Option Nat × Option Nat)
  | 0, _, _ => none
  | _ + 1, prev, none => some (fl, prev, none)
  | steps + 1, prev, some node =>
    if !fl.nodeOk node then some (fl.truncateBefore prev, prev, none)
    else if bound ≤ node then some (fl, prev, some node)
    else seek fl bound steps (some node) (FreeNode.next fl.words node)

/-- Link the free block from `start` to `stop` between `prev` and `cur`, merged
with the neighbours it touches. `insert_block` adds sizes with wrapping,
`deallocate` with saturation. -/
def link (add : Nat → Nat → Nat) (fl : FreeList) (start stop : Nat) (prev cur : Option Nat) :
    FreeList :=
  let mergeRight := cur = some stop
  let rightNext := if mergeRight then FreeNode.next fl.words stop else none
  let mergedEnd := if mergeRight then add stop (FreeNode.size fl.words stop) else stop
  let mergeLeft := prev.filter fun p => add p (FreeNode.size fl.words p) == start
  match mergeLeft with
  | some p =>
    let words := FreeNode.setSize fl.words p (wrapSub mergedEnd p)
    { fl with words := if mergeRight then FreeNode.setNext words p rightNext else words }
  | none =>
    let words := FreeNode.setSize fl.words start (wrapSub mergedEnd start)
    let words := FreeNode.setNext words start (if mergeRight then rightNext else cur)
    match prev with
    | some p => { fl with words := FreeNode.setNext words p (some start) }
    | none => { fl with words := words, head := some start }

def insertBlock (fl : FreeList) (start size : Nat) : Option FreeList :=
  (fl.seek start maxSteps none fl.head).map fun (fl, prev, cur) =>
    fl.link wrapAdd start (wrapAdd start size) prev cur

/-- Merge the range with every region it touches, one at a time, starting over
after each merge. The first argument is the number of regions. -/
def mergeRegions : Nat → List (Span Nat) → Span Nat → List (Span Nat) × Span Nat
  | 0, regions, merged => (regions, merged)
  | count + 1, regions, merged =>
    match regions.findIdx? fun r => r.stop == merged.start || r.start == merged.stop with
    | none => (regions, merged)
    | some index =>
      let region := regions.getD index merged
      mergeRegions count (regions.eraseIdx index)
        ⟨min merged.start region.start, max merged.stop region.stop⟩

def addRegion (fl : FreeList) (start size : Nat) : Option (Bool × FreeList) :=
  if size < minBlock ∨ maxRegions ≤ fl.regions.length then some (false, fl)
  else if maxHeapBytes < satAdd fl.totalBytes size then some (false, fl)
  else if usizeLimit ≤ start + size then some (false, fl)
  else
    let (regions, merged) := mergeRegions fl.regions.length fl.regions ⟨start, start + size⟩
    if maxRegions ≤ regions.length then some (false, { fl with regions := regions })
    else
      let fl :=
        { fl with
          regions := regions ++ [merged]
          totalBytes := satAdd fl.totalBytes size }
      (fl.insertBlock start size).map fun fl => (true, fl)

/-- `*self = FreeList::empty()` and the first region; memory keeps its content. -/
def init (words : Nat → Nat) (start size : Nat) : Option FreeList :=
  (addRegion ⟨words, none, [], 0⟩ start size).map Prod.snd

/-- The blocks that `free_bytes` and `check` visit before the end or the first
broken node. -/
def blocksFrom (fl : FreeList) : Nat → Option Nat → List (Span Nat)
  | 0, _ => []
  | _ + 1, none => []
  | steps + 1, some node =>
    if !fl.nodeOk node then []
    else
      ⟨node, node + FreeNode.size fl.words node⟩ ::
        blocksFrom fl steps (FreeNode.next fl.words node)

def blocks (fl : FreeList) : List (Span Nat) := fl.blocksFrom maxSteps fl.head

def freeBytes (fl : FreeList) : Nat := fl.blocks.foldl (fun sum b => satAdd sum b.size) 0

/-- The first-fit loop of `allocate`: the address of the allocation, 0 for null. -/
def allocateFrom (fl : FreeList) (size align : Nat) :
    Nat → Option Nat → Option Nat → Option (Nat × FreeList)
  | 0, _, _ => none
  | _ + 1, _, none => some (0, fl)
  | steps + 1, prev, some node =>
    if !fl.nodeOk node then some (0, fl.truncateBefore prev)
    else
      let blockEnd := node + FreeNode.size fl.words node
      let allocStart := alignUp node align
      if usizeLimit ≤ allocStart + size then some (0, fl)
      else
        let allocEnd := allocStart + size
        if allocEnd ≤ blockEnd then
          let pre := wrapSub allocStart node
          let suffix := blockEnd - allocEnd
          let next := FreeNode.next fl.words node
          let words :=
            if minBlock ≤ suffix then
              FreeNode.setNext (FreeNode.setSize fl.words allocEnd suffix) allocEnd next
            else fl.words
          let right := if minBlock ≤ suffix then some allocEnd else next
          if minBlock ≤ pre then
            some (allocStart,
              { fl with words := FreeNode.setNext (FreeNode.setSize words node pre) node right })
          else
            match prev with
            | some p => some (allocStart, { fl with words := FreeNode.setNext words p right })
            | none => some (allocStart, { fl with words := words, head := right })
        else allocateFrom fl size align steps (some node) (FreeNode.next fl.words node)


def allocate (fl : FreeList) (layout : Layout) : Option (Nat × FreeList) :=
  fl.allocateFrom (layout.rounded) (layout.granule) maxSteps none fl.head

/-- A pointer outside the heap is reported and changes nothing. -/
def deallocate (fl : FreeList) (ptr : Nat) (layout : Layout) : Option FreeList :=
  let stop := ptr + layout.rounded
  if usizeLimit ≤ stop then some fl
  else
    match fl.regionOf ptr with
    | none => some fl
    | some region =>
      if region.start ≤ ptr ∧ stop ≤ region.stop then
        (fl.seek stop maxSteps none fl.head).map fun (fl, prev, cur) =>
          fl.link satAdd ptr stop prev cur
      else some fl

end FreeList

end Vibra.Heap

/-! ## The heap grows

The allocator of the kernel: when the free list has no room for a block, more frames are taken from
the memory manager and added to the list.
-/

namespace Vibra.Heap

def growFrames : Nat := 1024

/-- The frames of `grow`: 4 MiB, or 2 MiB. `none` when a search does not end. -/
def takeFrames (pmm : Pmm.State) : Option (Option (Nat × Nat) × Pmm.State) := do
  let (phys, pmm) ← Pmm.allocContiguous pmm growFrames
  match phys with
  | some phys => return (some (phys, growFrames), pmm)
  | none =>
    let (phys, pmm) ← Pmm.allocContiguous pmm (growFrames / 2)
    return (phys.map (·, growFrames / 2), pmm)

def grow (hhdm : Nat) (fl : FreeList) (pmm : Pmm.State) : Option (Bool × FreeList × Pmm.State) := do
  let (taken, pmm) ← takeFrames pmm
  match taken with
  | none => return (false, fl, pmm)
  | some (phys, frames) =>
    let (added, fl) ← fl.addRegion (wrapAdd hhdm phys) (frames * Pmm.frameSize)
    return (added, fl, if added then pmm else (Pmm.freeContiguous pmm phys frames).2)

/-- The loop of `alloc`, with so many turns left. -/
def growAndRetry (hhdm : Nat) (layout : Layout) :
    Nat → FreeList → Pmm.State → Option (Nat × FreeList × Pmm.State)
  | 0, fl, pmm => some (0, fl, pmm)
  | n + 1, fl, pmm => do
      let (grown, fl, pmm) ← grow hhdm fl pmm
      if !grown then return (0, fl, pmm)
      let (ptr, fl) ← fl.allocate layout
      if ptr ≠ 0 then return (ptr, fl, pmm)
      growAndRetry hhdm layout n fl pmm

/-- `NonNull::dangling` for bytes. -/
def dangling : Nat := 1

/-- `LockedHeap::alloc`; the address is 0 for null. -/
def alloc (hhdm : Nat) (layout : Layout) (fl : FreeList) (pmm : Pmm.State) :
    Option (Nat × FreeList × Pmm.State) := do
  if layout.size = 0 then return (dangling, fl, pmm)
  let (ptr, fl) ← fl.allocate layout
  if ptr ≠ 0 then return (ptr, fl, pmm)
  growAndRetry hhdm layout maxRegions fl pmm

def TakesOnly (pmm pmm' : Pmm.State) : Prop :=
  ∀ f, Pmm.isFrameFree pmm'.bitmap f = true → Pmm.isFrameFree pmm.bitmap f = true

theorem TakesOnly.refl (pmm : Pmm.State) : TakesOnly pmm pmm := fun _ h => h

theorem TakesOnly.trans {a b c : Pmm.State} (h1 : TakesOnly a b) (h2 : TakesOnly b c) :
    TakesOnly a c :=
  fun f h => h1 f (h2 f h)

theorem allocContiguous_takesOnly {pmm pmm' : Pmm.State} {count : Nat} {phys : Option Nat}
    (h : Pmm.allocContiguous pmm count = some (phys, pmm')) :
    TakesOnly pmm pmm' ∧ ∀ addr ∈ phys,
      ∀ f ∈ Pmm.frames (addr / Pmm.frameSize) count, Pmm.isFrameFree pmm.bitmap f = true := by
  unfold Pmm.allocContiguous at h
  split at h
  · cases h
    exact ⟨TakesOnly.refl _, nofun⟩
  rename_i hcount
  split at h
  · cases h
    exact ⟨TakesOnly.refl _, nofun⟩
  split at h
  · cases h
  · cases h
    exact ⟨TakesOnly.refl _, nofun⟩
  · rename_i start hrun
    cases h
    refine ⟨fun f hf => ?_, fun addr haddr f hf => ?_⟩
    · rw [Pmm.isFrameFree_foldl_used] at hf
      exact (Bool.and_eq_true_iff.mp hf).1
    · obtain rfl : start * Pmm.frameSize = addr := by simpa using haddr
      rw [Pmm.frame_div] at hf
      exact (Pmm.findRun_spec (Nat.pos_of_ne_zero hcount) hrun).2 f hf

theorem freeContiguous_takesOnly {pmm pmm' : Pmm.State} {addr count : Nat}
    (h : TakesOnly pmm pmm') (hfree : ∀ f ∈ Pmm.frames (addr / Pmm.frameSize) count,
      Pmm.isFrameFree pmm.bitmap f = true) :
    TakesOnly pmm (Pmm.freeContiguous pmm' addr count).2 := by
  unfold Pmm.freeContiguous
  simp only
  split
  · exact h
  split
  · exact h
  split
  · exact h
  intro f hf
  rw [Pmm.isFrameFree_foldl_free, Bool.or_eq_true, decide_eq_true_eq] at hf
  rcases hf with hf | hf
  · exact h f hf
  · exact hfree f hf

theorem takeFrames_takesOnly {pmm pmm' : Pmm.State} {taken : Option (Nat × Nat)}
    (h : takeFrames pmm = some (taken, pmm')) :
    TakesOnly pmm pmm' ∧ ∀ t ∈ taken,
      ∀ f ∈ Pmm.frames (t.1 / Pmm.frameSize) t.2, Pmm.isFrameFree pmm.bitmap f = true := by
  obtain ⟨⟨phys, pmm1⟩, h1, h⟩ := Option.bind_eq_some_iff.mp h
  have hfirst := allocContiguous_takesOnly h1
  cases phys with
  | some phys =>
    cases h
    refine ⟨hfirst.1, fun t ht => ?_⟩
    cases ht
    exact hfirst.2 phys rfl
  | none =>
    obtain ⟨⟨phys, pmm2⟩, h2, h⟩ := Option.bind_eq_some_iff.mp h
    cases h
    have hsecond := allocContiguous_takesOnly h2
    refine ⟨hfirst.1.trans hsecond.1, fun t ht f hf => ?_⟩
    obtain ⟨addr, haddr, rfl⟩ := Option.map_eq_some_iff.mp ht
    exact hfirst.1 f (hsecond.2 addr haddr f hf)

theorem grow_takesOnly {hhdm : Nat} {fl fl' : FreeList} {pmm pmm' : Pmm.State} {grown : Bool}
    (h : grow hhdm fl pmm = some (grown, fl', pmm')) : TakesOnly pmm pmm' := by
  obtain ⟨⟨taken, pmm1⟩, h1, h⟩ := Option.bind_eq_some_iff.mp h
  have htake := takeFrames_takesOnly h1
  cases taken with
  | none =>
    cases h
    exact htake.1
  | some t =>
    obtain ⟨⟨added, fl1⟩, _, h⟩ := Option.bind_eq_some_iff.mp h
    cases h
    cases grown with
    | true => exact htake.1
    | false => exact freeContiguous_takesOnly htake.1 (htake.2 t rfl)

theorem growAndRetry_takesOnly {hhdm : Nat} {layout : Layout} {n : Nat} {fl fl' : FreeList}
    {pmm pmm' : Pmm.State} {ptr : Nat}
    (h : growAndRetry hhdm layout n fl pmm = some (ptr, fl', pmm')) : TakesOnly pmm pmm' := by
  induction n generalizing fl pmm with
  | zero =>
    cases h
    exact TakesOnly.refl _
  | succ n ih =>
    obtain ⟨⟨grown, fl1, pmm1⟩, h1, h⟩ := Option.bind_eq_some_iff.mp h
    have hgrow := grow_takesOnly h1
    cases grown with
    | false =>
      cases h
      exact hgrow
    | true =>
      obtain ⟨⟨ptr1, fl2⟩, _, h⟩ := Option.bind_eq_some_iff.mp h
      simp only at h
      split at h
      · cases h
        exact hgrow
      · exact hgrow.trans (ih h)

theorem alloc_takesOnly {hhdm : Nat} {layout : Layout} {fl fl' : FreeList} {pmm pmm' : Pmm.State}
    {ptr : Nat} (h : alloc hhdm layout fl pmm = some (ptr, fl', pmm')) : TakesOnly pmm pmm' := by
  unfold alloc at h
  split at h
  · cases h
    exact TakesOnly.refl _
  obtain ⟨⟨ptr1, fl1⟩, _, h⟩ := Option.bind_eq_some_iff.mp h
  simp only at h
  split at h
  · cases h
    exact TakesOnly.refl _
  · exact growAndRetry_takesOnly h

end Vibra.Heap
