import Vibra.Memory.MappingFrame

/-! # What `sys_write` shows

The call compares the start of the range with one constant and then reads the bytes as the kernel,
so it reads every page that is mapped.
-/

namespace Vibra.Syscall

open Vibra.Paging

abbrev Byte := BitVec 8

/-- The addresses a processor accepts: the bits above the walk repeat the highest of it. -/
def Canonical (cpu : Cpu) (address : Word) : Prop :=
  address.sshiftRight (if cpu.la57 then 56 else 47) = 0 ∨
    address.sshiftRight (if cpu.la57 then 56 else 47) = BitVec.allOnes 64

instance (cpu : Cpu) (address : Word) : Decidable (Canonical cpu address) :=
  inferInstanceAs (Decidable (_ ∨ _))

/-- Where the kernel reads the byte of an address, unless the access faults. -/
def physical (cpu : Cpu) (tables : Tables) (address : Word) : Option Word :=
  if Canonical cpu address then (translate cpu tables address).map (·.physicalAddress) else none

/-- What is read one after the other from the pointer on; the flag is false after a fault. -/
def readRange {α : Type} (read : Word → Option α) : Nat → Word → List α × Bool
  | 0, _ => ([], true)
  | n + 1, ptr =>
    match read ptr with
    | none => ([], false)
    | some b =>
      let rest := readRange read n (ptr + 1)
      (b :: rest.1, rest.2)

/-- The bytes given to `write_byte`, and the value returned unless a page fault ends the call. -/
structure Outcome where
  output : List Byte
  result : Option Word
  deriving DecidableEq

def kernelStart : Word := 0xFFFF800000000000#64

def sysWrite (cpu : Cpu) (tables : Tables) (memory : Word → Byte) (_fd ptr len : Word) : Outcome :=
  if ptr ≥ kernelStart ∨ len > 4096#64 then ⟨[], some (BitVec.allOnes 64)⟩
  else
    let slice := readRange (fun address => (physical cpu tables address).map memory) len.toNat ptr
    ⟨slice.1, if slice.2 then some len else none⟩

def userBytes (cpu : Cpu) (tables : Tables) : Set Word :=
  {p | ∃ address, UserAccessible cpu tables address ∧ physical cpu tables address = some p}

/-- Memories that differ only outside the user pages give the same outcome. -/
def ShowsOwn (cpu : Cpu) (tables : Tables) (fd ptr len : Word) : Prop :=
  ∀ memory memory' : Word → Byte, (∀ p ∈ userBytes cpu tables, memory p = memory' p) →
    sysWrite cpu tables memory fd ptr len = sysWrite cpu tables memory' fd ptr len

/-- Each byte of the range that comes before the first fault is the byte of a user page. -/
def RangeOwn (cpu : Cpu) (tables : Tables) (ptr len : Word) : Prop :=
  ∀ i < len.toNat, (∀ j < i, (physical cpu tables (ptr + BitVec.ofNat 64 j)).isSome) →
    ∀ p, physical cpu tables (ptr + BitVec.ofNat 64 i) = some p → p ∈ userBytes cpu tables

section Range

variable {α β : Type} {read : Word → Option α}

theorem readRange_map (f : α → β) (n : Nat) (ptr : Word) :
    readRange (fun address => (read address).map f) n ptr =
      ((readRange read n ptr).1.map f, (readRange read n ptr).2) := by
  induction n generalizing ptr with
  | zero => rfl
  | succ n ih =>
    simp only [readRange]
    cases read ptr with
    | none => rfl
    | some b => simp [ih]

theorem mem_readRange {n : Nat} {ptr : Word} {b : α} :
    b ∈ (readRange read n ptr).1 ↔ ∃ i < n,
      (∀ j < i, (read (ptr + BitVec.ofNat 64 j)).isSome) ∧
        read (ptr + BitVec.ofNat 64 i) = some b := by
  have hstep : ∀ (ptr : Word) (i : Nat),
      ptr + 1 + BitVec.ofNat 64 i = ptr + BitVec.ofNat 64 (i + 1) := by
    intro ptr i
    rw [Nat.add_comm i 1, BitVec.ofNat_add, BitVec.add_assoc]
    rfl
  have hstart : ∀ ptr : Word, ptr + BitVec.ofNat 64 0 = ptr := fun ptr => by simp
  induction n generalizing ptr with
  | zero => simp [readRange]
  | succ n ih =>
    simp only [readRange]
    cases hr : read ptr with
    | none =>
      constructor
      · simp
      · rintro ⟨i, _, hbefore, hi⟩
        cases i with
        | zero => rw [hstart, hr] at hi; cases hi
        | succ i =>
          have h0 := hbefore 0 (Nat.succ_pos i)
          rw [hstart, hr] at h0
          cases h0
    | some c =>
      constructor
      · intro h
        rcases List.mem_cons.mp h with rfl | h
        · exact ⟨0, Nat.succ_pos n, nofun, by rw [hstart, hr]⟩
        · obtain ⟨i, hi, hbefore, hb⟩ := ih.mp h
          refine ⟨i + 1, Nat.succ_lt_succ hi, fun j hj => ?_, by rw [← hstep, hb]⟩
          cases j with
          | zero => rw [hstart, hr]; rfl
          | succ j => rw [← hstep]; exact hbefore j (Nat.lt_of_succ_lt_succ hj)
      · rintro ⟨i, hi, hbefore, hb⟩
        cases i with
        | zero =>
          rw [hstart, hr] at hb
          rw [Option.some.inj hb]
          exact List.mem_cons_self
        | succ i =>
          refine List.mem_cons_of_mem _ (ih.mpr
            ⟨i, Nat.lt_of_succ_lt_succ hi, fun j hj => ?_, by rw [hstep, hb]⟩)
          rw [hstep]
          exact hbefore (j + 1) (Nat.succ_lt_succ hj)

theorem map_agree_iff {l : List α} {A : Set α} :
    (∀ m m' : α → Byte, (∀ p ∈ A, m p = m' p) → l.map m = l.map m') ↔ ∀ p ∈ l, p ∈ A := by
  classical
  constructor
  · intro h p hp
    by_contra hA
    have hagree : ∀ q ∈ A, (fun _ => 0#8 : α → Byte) q = if q = p then 1#8 else 0#8 := by
      intro q hq
      rw [if_neg]
      rintro rfl
      exact hA hq
    have hat := List.map_inj_left.mp (h (fun _ => 0#8) (fun q => if q = p then 1#8 else 0#8) hagree)
      p hp
    simp at hat
  · intro h m m' hagree
    exact List.map_inj_left.mpr fun p hp => hagree p (h p hp)

end Range

/-- The call shows only the memory of user pages exactly where it refuses the range, or the
range is of user pages up to its first fault. -/
theorem sysWrite_showsOwn_iff (cpu : Cpu) (tables : Tables) (fd ptr len : Word) :
    ShowsOwn cpu tables fd ptr len ↔
      (ptr ≥ kernelStart ∨ len > 4096#64) ∨ RangeOwn cpu tables ptr len := by
  by_cases hrefused : ptr ≥ kernelStart ∨ len > 4096#64
  · have hown : ShowsOwn cpu tables fd ptr len := by
      intro memory memory' _
      simp only [sysWrite, if_pos hrefused]
    exact ⟨fun _ => Or.inl hrefused, fun _ => hown⟩
  · have hown : ShowsOwn cpu tables fd ptr len ↔
        ∀ p ∈ (readRange (physical cpu tables) len.toNat ptr).1, p ∈ userBytes cpu tables := by
      rw [← map_agree_iff]
      simp only [ShowsOwn, sysWrite, if_neg hrefused, readRange_map, Outcome.mk.injEq, and_true]
    rw [hown, or_iff_right hrefused]
    constructor
    · intro h i hi hbefore p hp
      exact h p (mem_readRange.mpr ⟨i, hi, hbefore, hp⟩)
    · intro h p hp
      obtain ⟨i, hi, hbefore, hp⟩ := mem_readRange.mp hp
      exact h i hi hbefore p hp

theorem kernelSpace_userBytes : userBytes Vmm.plainCpu Vmm.kernelSpace.tables = ∅ := by
  apply Set.eq_empty_iff_forall_notMem.mpr
  rintro p ⟨address, ⟨es, hes, hg⟩, _⟩
  have hentry : ∀ i, ¬ Has (Vmm.kernelSpace.tables 0x1000#64 i) entryUser := by
    intro i
    by_cases hi : i = 0
    · subst hi
      decide
    · have h0 : Vmm.kernelSpace.tables 0x1000#64 i = 0 := by simp [Vmm.kernelSpace, hi]
      rw [h0]
      decide
  rw [Option.mem_def, Vmm.walk_four rfl] at hes
  unfold levels4 at hes
  rw [walk_level] at hes
  obtain ⟨e, he, hes⟩ := Option.bind_eq_some_iff.mp hes
  rw [if_neg (by simp [Level.ends]), Option.map_eq_some_iff] at hes
  obtain ⟨rest, _, rfl⟩ := hes
  have huser : Has e entryUser := hg _ List.mem_cons_self
  unfold readEntry at he
  split at he
  · cases he
    exact hentry _ huser
  · cases he

/-- A byte of a kernel page at 1 GiB goes out. -/
theorem sysWrite_shows_kernel : ¬ ∀ (cpu : Cpu) (tables : Tables) (fd ptr len : Word),
    ShowsOwn cpu tables fd ptr len := by
  intro h
  have hrun := h Vmm.plainCpu Vmm.kernelSpace.tables 1 0x40000000 1 (fun _ => 0x41)
    (fun _ => 0x42) (by simp [kernelSpace_userBytes])
  have houts : sysWrite Vmm.plainCpu Vmm.kernelSpace.tables (fun _ => 0x41) 1 0x40000000 1 ≠
      sysWrite Vmm.plainCpu Vmm.kernelSpace.tables (fun _ => 0x42) 1 0x40000000 1 := by
    decide
  exact houts hrun

end Vibra.Syscall
