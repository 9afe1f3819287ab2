import Vibra.Memory.PageTree

/-! # The mapping that `map_user_pages` makes

After a successful call the walk of the address ends at the page.
-/

namespace Vibra.Vmm

open Vibra.Lib Vibra.Paging

/-- The page tables are a tree apart from the free frames. With five levels there is a PML4
for the lower half. -/
structure WellFormed (cpu : Cpu) (s : Space) : Prop where
  owned : Owned s (levels cpu) (currentRootPhys cpu)
  lower : cpu.la57 = true → Has (s.tables (currentRootPhys cpu) 0) entryPresent

/-- The walk of `virt` reaches `phys` as a 4 KiB page that user code may use, and may write
exactly where that was asked for. -/
def Established (cpu : Cpu) (tables : Tables) (virt phys : Word) (writable : Bool) : Prop :=
  ∃ entries mapping, walk cpu tables virt = some entries ∧
    translate cpu tables virt = some mapping ∧ mapping.pageSize = .size4KiB ∧
    mapping.physicalAddress = phys ||| (virt &&& page4kMask) ∧
    Grants entryUser entries ∧ (Grants entryWritable entries ↔ writable = true)

/-- Where a successful call establishes its mapping. The page's address fits in an entry, no PD
entry in place withholds user access, and for a writable page no entry on the way withholds
write access. With five levels the PML5 entry must grant both, and an address outside its
first slot is not touched. -/
def Ready (cpu : Cpu) (s : Space) (virt phys : Word) (writable : Bool) : Prop :=
  if cpu.la57 = true ∧ index virt 48 ≠ 0 then Established cpu s.tables virt phys writable
  else
    IsFrame phys ∧
    (cpu.la57 = true → Has (s.tables (currentRootPhys cpu) 0) entryUser ∧
      (writable = true → Has (s.tables (currentRootPhys cpu) 0) entryWritable)) ∧
    userBelowPml4 s.tables (pml4Table cpu s.tables) virt ∧
    (writable = true → writableBelowPml4 s.tables (pml4Table cpu s.tables) virt)

section Entry

variable (cpu : Cpu) (phys : Word) (writable executable : Bool)

theorem userEntry_present : Has (userEntry cpu phys writable executable) entryPresent := by
  have h : Has entryPresent entryPresent := by decide
  simp [userEntry, has_or, h]

theorem userEntry_user : Has (userEntry cpu phys writable executable) entryUser := by
  have h : Has entryUser entryUser := by decide
  simp [userEntry, has_or, h]

theorem nxFlags_not {f : Word} (h0 : ¬ Has 0 f) (h : ¬ Has entryNx f) :
    ¬ Has (nxFlags cpu executable) f := by
  unfold nxFlags
  split
  · exact h0
  · exact h

variable {phys}

theorem aligned_not_has (hphys : phys &&& page4kMask = 0) {flag : Word}
    (hflag : page4kMask &&& flag = flag) : ¬ Has phys flag := by
  unfold Has
  rw [← hflag, ← BitVec.and_assoc, hphys]
  simp

theorem userEntry_writable (hphys : phys &&& page4kMask = 0) :
    Has (userEntry cpu phys writable executable) entryWritable ↔ writable = true := by
  have h1 : ¬ Has phys entryWritable := aligned_not_has hphys (by decide)
  have h2 : ¬ Has entryPresent entryWritable := by decide
  have h3 : ¬ Has entryUser entryWritable := by decide
  have h4 := nxFlags_not (f := entryWritable) cpu executable (by decide) (by decide)
  have h6 : Has entryWritable entryWritable := by decide
  cases writable <;> simp [userEntry, has_or, h1, h2, h3, h4, h6]

theorem userEntry_address :
    userEntry cpu phys writable executable &&& addressMask = phys &&& addressMask := by
  have h : (entryPresent ||| entryUser ||| (if writable then entryWritable else 0) |||
      nxFlags cpu executable) &&& addressMask = 0 := by
    have hnx : nxFlags cpu executable = 0 ∨ nxFlags cpu executable = entryNx := by
      unfold nxFlags
      split
      · exact Or.inl rfl
      · exact Or.inr rfl
    rcases hnx with hnx | hnx <;> rw [hnx] <;> cases writable <;> decide
  rw [userEntry, address_or, h]
  simp

theorem address_iff (hphys : phys &&& page4kMask = 0) (virt : Word) :
    (phys &&& addressMask) ||| (virt &&& page4kMask) = phys ||| (virt &&& page4kMask) ↔
      IsFrame phys := by
  constructor
  · intro h
    have hoff : (virt &&& page4kMask) &&& ~~~page4kMask = 0 := by
      rw [BitVec.and_assoc]
      have hz : page4kMask &&& ~~~page4kMask = 0 := by decide
      rw [hz]
      simp
    have hcut := congrArg (· &&& ~~~page4kMask) h
    simp only [BitVec.and_or_distrib_right, hoff] at hcut
    have hkeep : phys &&& ~~~page4kMask = phys := by
      have hsplit : phys &&& (page4kMask ||| ~~~page4kMask) = phys := by
        have hall : page4kMask ||| ~~~page4kMask = BitVec.allOnes 64 := by decide
        rw [hall, BitVec.and_allOnes]
      rw [BitVec.and_or_distrib_left, hphys] at hsplit
      simpa using hsplit
    have hmask : addressMask &&& ~~~page4kMask = addressMask := by decide
    rw [BitVec.and_assoc, hmask, hkeep] at hcut
    simpa [IsFrame] using hcut
  · intro h
    rw [show phys &&& addressMask = phys from h]

end Entry

/-! ## Below the root -/

section Root

variable {cpu : Cpu} {s : Space} {virt e : Word}

theorem page_levels4 (virt : Word) : ∀ l ∈ levels4, index virt l.shift = index virt l.shift :=
  fun _ _ => rfl

theorem walk_four (h : cpu.la57 = false) (tables : Tables) (address : Word) :
    walk cpu tables address = Radix.walk shape tables levels4 (currentRootPhys cpu) address := by
  simp [Paging.walk, levels, h]

theorem opened_lower (hwf : WellFormed cpu s) (h : cpu.la57 = true) :
    Opened s s .pml5 levels4 (currentRootPhys cpu) 0 (pml4Table cpu s.tables) ∧
      Owned s (.pml5 :: levels4) (currentRootPhys cpu) := by
  have hp := hwf.lower h
  have hO : Owned s (.pml5 :: levels4) (currentRootPhys cpu) := by
    have hown := hwf.owned
    rwa [levels, if_pos h] at hown
  have hpml4 : pml4Table cpu s.tables =
      s.tables (currentRootPhys cpu) 0 &&& addressMask := by
    simp [pml4Table, h, readEntry, hp]
  have hnext := next_table (l := .pml5) hp rfl
  have hop := (opened_kept hO hnext hnext).1
  rw [set_same] at hop
  rw [hpml4]
  exact ⟨hop, hO⟩

theorem owned_pml4 (hwf : WellFormed cpu s) : Owned s levels4 (pml4Table cpu s.tables) := by
  cases h : cpu.la57 with
  | false =>
    have hown := hwf.owned
    simp only [levels, h, Bool.false_eq_true, if_false] at hown
    simpa [pml4Table, h] using hown
  | true => exact (opened_lower hwf h).1.owned

theorem walk_five {r : Bool × Space} (hwf : WellFormed cpu s) (h : cpu.la57 = true)
    (hI : Inside s r.2 levels4 (pml4Table cpu s.tables)) (address : Word) :
    walk cpu r.2.tables address =
      if index address 48 = 0 then
        (Radix.walk shape r.2.tables levels4 (pml4Table cpu s.tables) address).map
          ((.pml5, s.tables (currentRootPhys cpu) 0) :: ·)
      else walk cpu s.tables address := by
  obtain ⟨hop, hO⟩ := opened_lower hwf h
  have hw : ∀ tables, walk cpu tables address =
      Radix.walk shape tables (.pml5 :: levels4) (currentRootPhys cpu) address := by
    intro tables
    rw [Paging.walk, levels, if_pos h]
  rw [hw, hw]
  split
  · rename_i hk
    exact hop.walk_below hO hI hk
  · rename_i hk
    exact hop.walk_beside hO hI hk

end Root

theorem grants_append {flag : Word} {xs ys : List (Level × Word)} :
    Grants flag (xs ++ ys) ↔ Grants flag xs ∧ Grants flag ys := by
  simp [Grants, or_imp, forall_and]

theorem grants_singleton {flag : Word} {x : Level × Word} : Grants flag [x] ↔ Has x.2 flag := by
  simp [Grants]

theorem established_iff {cpu : Cpu} {tables : Tables} {virt phys : Word}
    {writable executable : Bool} {path : List (Level × Word)}
    (hphys : phys &&& page4kMask = 0)
    (hwalk : walk cpu tables virt =
      some (path ++ [(.pt, userEntry cpu phys writable executable)])) :
    Established cpu tables virt phys writable ↔
      IsFrame phys ∧ Grants entryUser path ∧ (writable = true → Grants entryWritable path) := by
  have htr : translate cpu tables virt = some
      ⟨(userEntry cpu phys writable executable &&& addressMask) ||| (virt &&& page4kMask),
        .size4KiB, userEntry cpu phys writable executable⟩ := by
    rw [translate_eq_walk, hwalk]
    simp [mappingOf]
  unfold Established
  rw [hwalk, htr]
  simp only [Option.some.injEq, exists_and_left, exists_eq_left', userEntry_address,
    address_iff hphys, true_and, grants_append, grants_singleton, userEntry_user,
    userEntry_writable cpu writable executable hphys, and_true]
  cases writable <;> simp

def plainCpu : Cpu := ⟨false, true, 0x1000#64⟩

/-- Eight frames from 1 MiB on are free. -/
def fewFrames : Pmm.State where
  bitmap b := if b.val = 32 then 0 else 0xFF#8
  freeFrames := 8
  totalFrames := 8
  nextHint := 256

theorem not_free_fewFrames {x : Word} (f : Pmm.Frame)
    (hx : x = BitVec.ofNat 64 (f * Pmm.frameSize))
    (h : Pmm.isFrameFree fewFrames.bitmap f = false) : x ∉ free fewFrames := by
  rintro ⟨g, hg, rfl⟩
  rw [ofNat_frame_inj hx, h] at hg
  cases hg

def emptySpace : Space := ⟨fun _ _ => 0, fewFrames⟩

theorem emptySpace_wellFormed : WellFormed plainCpu emptySpace := by
  have h0 : ¬ Has 0 entryPresent := by decide
  have hflat := Radix.tree_flat (S := shape) (m := emptySpace.tables) (l := .pml4)
    (t := currentRootPhys plainCpu) [.pdpt, .pd, .pt] fun j d => by
      rw [show shape.next .pml4 (emptySpace.tables (currentRootPhys plainCpu) j) = .absent from
        next_absent h0]
      nofun
  refine ⟨⟨hflat.1, ?_⟩, nofun⟩
  rw [show levels plainCpu = [.pml4, .pdpt, .pd, .pt] from rfl, hflat.2]
  exact Set.disjoint_singleton_left.mpr
    (not_free_fewFrames ⟨1, by decide⟩ (by decide) (by decide))

end Vibra.Vmm
