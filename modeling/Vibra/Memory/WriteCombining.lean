import Vibra.Lib.Checked
import Vibra.Memory.MappingFrame

/-! # Pages of write-combining memory

`paging::set_write_combining` goes over a range of addresses and makes the leaf of each page select
the fourth entry of the PAT.
-/

namespace Vibra.Paging

open Vibra.Lib
open Vibra.Vmm (Attributes attributes patOf setEntry has_or not_has_and setEntry_same
  setEntry_beside setEntry_away next_ends)
open Vibra.Lib.Outcome (add mul)

def PageSize.bytes : PageSize → Nat
  | .size4KiB => 4 * 1024
  | .size2MiB => 2 * 1024 * 1024
  | .size1GiB => 1024 * 1024 * 1024

structure WcReport where
  changed : Nat
  already : Nat
  unmapped : Nat
  leafFlags : Word

/-- `find_entry_for`: the table, the index and the PAT bit of the entry. -/
def findEntryFor (cpu : Cpu) (tables : Tables) (rootPhys address : Word) :
    Option (Word × Fin 512 × Word) := do
  let rootPhys ←
    if cpu.la57 then (readEntry tables rootPhys (index address 48)).map (· &&& addressMask)
    else some rootPhys
  let pml4e ← readEntry tables rootPhys (index address 39)
  let pdpte ← readEntry tables (pml4e &&& addressMask) (index address 30)
  if Has pdpte entryHugePage then return (pml4e &&& addressMask, index address 30, hugePat)
  let pde ← readEntry tables (pdpte &&& addressMask) (index address 21)
  if Has pde entryHugePage then return (pdpte &&& addressMask, index address 21, hugePat)
  return (pde &&& addressMask, index address 12, ptePat)

/-- The loop of `set_write_combining`. -/
def wcLoop (cpu : Cpu) (finish : Nat) :
    Nat → Tables → WcReport → Nat → Outcome Empty (Tables × WcReport)
  | 0, _, _, _ => .diverge
  | fuel + 1, tables, report, address =>
    if finish ≤ address then .ok (tables, report)
    else
      let word := BitVec.ofNat 64 address
      match translate cpu tables word with
      | none => do
          let next ← add 64 address 4096
          wcLoop cpu finish fuel tables { report with unmapped := report.unmapped + 1 } next
      | some mapping =>
        let pageSize := mapping.pageSize.bytes
        match findEntryFor cpu tables (currentRootPhys cpu) word with
        | none => do
            let next ← add 64 address pageSize
            wcLoop cpu finish fuel tables report next
        | some (table, entryIndex, patBit) =>
          let existing := tables table entryIndex
          let leafFlags := if report.leafFlags = 0 then existing else report.leafFlags
          if Has existing patBit then do
            let next ← mul 64 (address / pageSize + 1) pageSize
            wcLoop cpu finish fuel tables
              { report with already := report.already + 1, leafFlags } next
          else do
            let entry := (existing ||| patBit) &&& ~~~entryPwt &&& ~~~ptePcd
            let next ← mul 64 (address / pageSize + 1) pageSize
            wcLoop cpu finish fuel (setEntry tables table entryIndex entry)
              { report with changed := report.changed + 1, leafFlags } next

/-- `set_write_combining`, with the offset of the direct map, which is 0 before `init`. -/
def setWriteCombining (cpu : Cpu) (hhdmOffset : Nat) (tables : Tables) (virt len : Nat) :
    Outcome Empty (Tables × WcReport) :=
  let report : WcReport := ⟨0, 0, 0, 0⟩
  if len = 0 then .ok (tables, report)
  else if hhdmOffset = 0 then .ok (tables, report)
  else do
    let start := virt / 4096 * 4096
    let sum ← add 64 virt len
    let sum ← add 64 sum 0xfff
    let finish := sum / 4096 * 4096
    wcLoop cpu finish (finish / 4096 + 1) tables report start

def InRange (virt len : Nat) (a : Word) : Prop := virt ≤ a.toNat ∧ a.toNat < virt + len

def slotAt (cpu : Cpu) (tables : Tables) (a : Word) : Option (Level × Word × Fin 512) :=
  Radix.locate shape tables (levels cpu) (currentRootPhys cpu) a

def SelectsWc (x : Attributes) : Prop := x.pat = true ∧ x.pcd = false ∧ x.pwt = false

/-- The pages of the range are marked, all addresses are translated as before, and no entry but
the leaves of these pages has changed. -/
structure Marked (cpu : Cpu) (before after : Tables) (virt len : Nat) : Prop where
  marks : ∀ a, InRange virt len a → ∀ mapping, translate cpu after a = some mapping →
    SelectsWc (attributes mapping)
  translates : ∀ a, (translate cpu after a).map (fun x => (x.physicalAddress, x.pageSize)) =
    (translate cpu before a).map fun x => (x.physicalAddress, x.pageSize)
  others : ∀ table i, after table i ≠ before table i →
    ∃ a l, InRange virt len a ∧ slotAt cpu before a = some (l, table, i)

/-- Where the page of an address can be marked: if it has the PAT bit, the cache bits are clear;
otherwise the direct map is there; and the address behind the page is one of 64 bits. -/
def Markable (cpu : Cpu) (hhdmOffset : Nat) (tables : Tables) (a : Word) : Prop :=
  ∀ mapping, translate cpu tables a = some mapping →
    (Has mapping.flags (patOf mapping.pageSize) →
      ¬ Has mapping.flags ptePcd ∧ ¬ Has mapping.flags entryPwt) ∧
    (¬ Has mapping.flags (patOf mapping.pageSize) → hhdmOffset ≠ 0) ∧
    (hhdmOffset ≠ 0 →
      (a.toNat / mapping.pageSize.bytes + 1) * mapping.pageSize.bytes < 2 ^ 64)

def Level.size : Level → PageSize
  | .pdpt => .size1GiB
  | .pd => .size2MiB
  | _ => .size4KiB

def Level.patBit (l : Level) : Word := patOf l.size

def mark (l : Level) (e : Word) : Word := (e ||| l.patBit) &&& ~~~entryPwt &&& ~~~ptePcd

theorem Level.bytes_size {l : Level} (h : l = .pdpt ∨ l = .pd ∨ l = .pt) :
    l.size.bytes = 2 ^ l.shift := by
  rcases h with rfl | rfl | rfl <;> rfl

section Leaf

variable {cpu : Cpu} {tables : Tables} {a b t : Word} {l : Level} {i : Fin 512} {e : Word}

theorem leaf_spec (h : next l e = .leaf) :
    Has e entryPresent ∧ l.ends e = true ∧ (l = .pdpt ∨ l = .pd ∨ l = .pt) := by
  unfold next at h
  split at h
  · rename_i hp
    split at h
    · rename_i hends
      refine ⟨hp, hends, ?_⟩
      cases l with
      | pml5 => cases hends
      | pml4 => cases hends
      | pdpt => exact Or.inl rfl
      | pd => exact Or.inr (Or.inl rfl)
      | pt => exact Or.inr (Or.inr rfl)
    · cases h
  · cases h

theorem mappingOf_spec (h : l = .pdpt ∨ l = .pd ∨ l = .pt) (a e : Word) :
    (mappingOf a (l, e)).pageSize = l.size ∧ (mappingOf a (l, e)).flags = e := by
  rcases h with rfl | rfl | rfl <;> exact ⟨rfl, rfl⟩

theorem translate_slot (cpu : Cpu) (tables : Tables) (a : Word) :
    translate cpu tables a =
      (slotAt cpu tables a).map fun p => mappingOf a (p.1, tables p.2.1 p.2.2) := by
  have hlast := Radix.walk_getLast (S := shape) tables (levels cpu) (currentRootPhys cpu) a
  have hwalk : (Paging.walk cpu tables a).bind List.getLast? =
      (slotAt cpu tables a).map fun p => (p.1, tables p.2.1 p.2.2) := hlast
  have hmap : translate cpu tables a =
      ((Paging.walk cpu tables a).bind List.getLast?).map (mappingOf a) := by
    rw [translate_eq_walk, Option.map_bind]
    rfl
  rw [hmap, hwalk, Option.map_map]
  rfl

theorem slot_leaf (h : slotAt cpu tables a = some (l, t, i)) : next l (tables t i) = .leaf :=
  (Radix.locate_spec h).1

theorem slot_level (h : slotAt cpu tables a = some (l, t, i)) :
    l = .pdpt ∨ l = .pd ∨ l = .pt :=
  (leaf_spec (slot_leaf h)).2.2

theorem index_eq {a b : Word} {k shift : Nat} (hk : k ≤ shift)
    (h : a.toNat / 2 ^ k = b.toNat / 2 ^ k) : index a shift = index b shift := by
  have hpow : 2 ^ shift = 2 ^ k * 2 ^ (shift - k) := by
    rw [← Nat.pow_add, Nat.add_sub_cancel' hk]
  apply Fin.ext
  simp only [index, BitVec.toNat_ushiftRight, Nat.shiftRight_eq_div_pow]
  rw [hpow, ← Nat.div_div_eq_div_mul, ← Nat.div_div_eq_div_mul, h]

theorem levels_pairwise (cpu : Cpu) : (levels cpu).Pairwise fun x y => y.shift < x.shift := by
  unfold levels
  cases cpu.la57 <;> decide

theorem twelve_le_shift (l : Level) : 12 ≤ l.shift := by cases l <;> decide

theorem slot_agree (h : slotAt cpu tables a = some (l, t, i))
    (hab : b.toNat / 2 ^ l.shift = a.toNat / 2 ^ l.shift) :
    slotAt cpu tables b = some (l, t, i) := by
  apply Radix.locate_agree (levels_pairwise cpu) h
  intro l' _ hl'
  apply index_eq _ hab
  rcases hl' with rfl | hlt
  · exact Nat.le_refl _
  · exact Nat.le_of_lt hlt

theorem slot_congr (h : b.toNat / 4096 = a.toNat / 4096) :
    slotAt cpu tables b = slotAt cpu tables a := by
  apply Radix.locate_congr
  intro l _
  have h' : b.toNat / 2 ^ 12 = a.toNat / 2 ^ 12 := h
  exact index_eq (twelve_le_shift l) h'

end Leaf

section Mark

variable {l : Level} {e flag : Word}

theorem mark_and (hflag : ~~~entryPwt &&& (~~~ptePcd &&& flag) = flag) :
    mark l e &&& flag = (e ||| l.patBit) &&& flag := by
  unfold mark
  rw [BitVec.and_assoc, BitVec.and_assoc, hflag]

theorem has_mark (hflag : ~~~entryPwt &&& (~~~ptePcd &&& flag) = flag)
    (h : Has (e ||| l.patBit) flag) : Has (mark l e) flag := by
  unfold Has at h ⊢
  rwa [mark_and hflag]

theorem mark_mask (hflag : ~~~entryPwt &&& (~~~ptePcd &&& flag) = flag)
    (hpat : l.patBit &&& flag = 0) : mark l e &&& flag = e &&& flag := by
  rw [mark_and hflag, BitVec.and_or_distrib_right, hpat]
  exact BitVec.or_zero

theorem patBit_kept (l : Level) : ~~~entryPwt &&& (~~~ptePcd &&& l.patBit) = l.patBit := by
  cases l <;> decide

theorem patBit_ne (l : Level) : l.patBit ≠ 0 := by cases l <;> decide

theorem mark_pat (l : Level) (e : Word) : Has (mark l e) l.patBit :=
  has_mark (patBit_kept l) (Vmm.has_self e (patBit_ne l))

theorem mark_keeps (l' : Level) (h : Has e l.patBit) : Has (mark l' e) l.patBit :=
  has_mark (patBit_kept l) (has_or.mpr (Or.inl h))

theorem mark_clear (l : Level) (e : Word) :
    ¬ Has (mark l e) ptePcd ∧ ¬ Has (mark l e) entryPwt := by
  have hboth : ~~~entryPwt &&& ~~~ptePcd &&& entryPwt = 0 := by decide
  constructor
  · exact not_has_and (by decide)
  · unfold mark
    rw [BitVec.and_assoc]
    exact not_has_and hboth

theorem next_mark (h : next l e = .leaf) : next l (mark l e) = .leaf := by
  have hleaf := leaf_spec h
  have hpresent : Has (mark l e) entryPresent :=
    has_mark (by decide) (has_or.mpr (Or.inl hleaf.1))
  have hhuge : Has e entryHugePage → Has (mark l e) entryHugePage := fun hh =>
    has_mark (by decide) (has_or.mpr (Or.inl hh))
  apply next_ends hpresent
  rcases hleaf.2.2 with rfl | rfl | rfl
  · exact decide_eq_true (hhuge (of_decide_eq_true hleaf.2.1))
  · exact decide_eq_true (hhuge (of_decide_eq_true hleaf.2.1))
  · rfl

theorem mappingOf_mark (h : l = .pdpt ∨ l = .pd ∨ l = .pt) (a e : Word) :
    (mappingOf a (l, mark l e)).physicalAddress = (mappingOf a (l, e)).physicalAddress := by
  rcases h with rfl | rfl | rfl
  · exact congrArg (· ||| _) (mark_mask (by decide) (by decide))
  · exact congrArg (· ||| _) (mark_mask (by decide) (by decide))
  · exact congrArg (· ||| _) (mark_mask (by decide) (by decide))

end Mark

section Find

variable {cpu : Cpu} {tables : Tables} {a root t : Word} {l : Level} {i : Fin 512}

theorem locate_cons (tables : Tables) (l : Level) (ls : List Level) (table a : Word) :
    Radix.locate shape tables (l :: ls) table a =
      (readEntry tables table (index a l.shift)).bind fun entry =>
        if l.ends entry then some (l, table, index a l.shift)
        else Radix.locate shape tables ls (entry &&& addressMask) a := by
  simp only [Radix.locate, shape, next, readEntry]
  by_cases hp : Has (tables table (index a l.shift)) entryPresent
  · by_cases he : l.ends (tables table (index a l.shift)) <;> simp [hp, he]
  · simp [hp]

theorem findEntryFor_levels4 (hla : cpu.la57 = false)
    (h : Radix.locate shape tables levels4 root a = some (l, t, i)) :
    findEntryFor cpu tables root a = some (t, i, l.patBit) := by
  simp only [levels4, locate_cons, Level.ends, Level.shift, Bool.false_eq_true, if_false,
    decide_eq_true_eq] at h
  simp only [findEntryFor, hla, Bool.false_eq_true, if_false, Option.bind_eq_bind,
    Option.bind_some]
  cases h4 : readEntry tables root (index a 39) with
  | none =>
    rw [h4] at h
    cases h
  | some e4 =>
  simp only [h4, Option.bind_some] at h ⊢
  cases h3 : readEntry tables (e4 &&& addressMask) (index a 30) with
  | none =>
    rw [h3] at h
    cases h
  | some e3 =>
  simp only [h3, Option.bind_some] at h ⊢
  by_cases hhuge3 : Has e3 entryHugePage
  · rw [if_pos hhuge3] at h ⊢
    cases h
    rfl
  rw [if_neg hhuge3] at h ⊢
  cases h2 : readEntry tables (e3 &&& addressMask) (index a 21) with
  | none =>
    rw [h2] at h
    cases h
  | some e2 =>
  simp only [h2, Option.bind_some] at h ⊢
  by_cases hhuge2 : Has e2 entryHugePage
  · rw [if_pos hhuge2] at h ⊢
    cases h
    rfl
  rw [if_neg hhuge2] at h ⊢
  cases h1 : readEntry tables (e2 &&& addressMask) (index a 12) with
  | none =>
    rw [h1] at h
    cases h
  | some e1 =>
    rw [h1] at h
    cases h
    rfl

theorem findEntryFor_slot (h : slotAt cpu tables a = some (l, t, i)) :
    findEntryFor cpu tables (currentRootPhys cpu) a = some (t, i, l.patBit) := by
  cases hla : cpu.la57 with
  | false =>
    have h' : Radix.locate shape tables levels4 (currentRootPhys cpu) a = some (l, t, i) := by
      simpa only [slotAt, levels, hla, Bool.false_eq_true, if_false] using h
    exact findEntryFor_levels4 hla h'
  | true =>
    have h' : Radix.locate shape tables (.pml5 :: levels4) (currentRootPhys cpu) a =
        some (l, t, i) := by
      simpa only [slotAt, levels, hla, if_true] using h
    rw [locate_cons] at h'
    cases h5 : readEntry tables (currentRootPhys cpu) (index a 48) with
    | none =>
      simp only [Level.shift, h5] at h'
      cases h'
    | some e5 =>
      simp only [Level.shift, h5, Option.bind_some, Level.ends, Bool.false_eq_true,
        if_false] at h'
      have hlower := findEntryFor_levels4
        (show Cpu.la57 { cpu with la57 := false } = false from rfl) h'
      simpa only [findEntryFor, hla, h5, Option.map_some, if_true, Bool.false_eq_true,
        if_false, Option.bind_eq_bind, Option.bind_some] using hlower

end Find

/-! ## What the loop changes -/

/-- An entry is as before, or it is the leaf of a page of the range, which had no PAT bit and
has been marked. -/
def OnlyMarks (cpu : Cpu) (before after : Tables) (virt len : Nat) : Prop :=
  ∀ t i, after t i = before t i ∨ ∃ a l, InRange virt len a ∧
    slotAt cpu before a = some (l, t, i) ∧ ¬ Has (before t i) l.patBit ∧
      after t i = mark l (before t i)

/-- The address behind the page of `a`, if the page is one of the level. -/
def pageEnd (l : Level) (a : Nat) : Nat := (a / l.size.bytes + 1) * l.size.bytes

section Loop

variable {cpu : Cpu} {before tables : Tables} {virt len finish : Nat} {a t : Word} {l : Level}
  {i : Fin 512}

theorem OnlyMarks.refl (cpu : Cpu) (before : Tables) (virt len : Nat) :
    OnlyMarks cpu before before virt len :=
  fun _ _ => Or.inl rfl

theorem OnlyMarks.slot (h : OnlyMarks cpu before tables virt len)
    (hT : Radix.Tree shape before (levels cpu) (currentRootPhys cpu)) (a : Word) :
    slotAt cpu tables a = slotAt cpu before a := by
  apply Radix.locate_of_leaves hT
  intro x _ i
  rcases h x i with hsame | ⟨b, l, -, hslot, -, hmark⟩
  · exact Or.inl hsame
  · refine Or.inr ⟨b, l, hslot, ?_⟩
    rw [hmark]
    exact next_mark (slot_leaf hslot)

theorem OnlyMarks.leaf (h : OnlyMarks cpu before tables virt len)
    (hT : Radix.Tree shape before (levels cpu) (currentRootPhys cpu))
    (hslot : slotAt cpu before a = some (l, t, i)) :
    tables t i = before t i ∨
      ¬ Has (before t i) l.patBit ∧ tables t i = mark l (before t i) := by
  rcases h t i with hsame | ⟨b, l', -, hb, hpat, hmark⟩
  · exact Or.inl hsame
  · have hl : l' = l := Radix.locate_level hT hslot hb
    rw [hl] at hpat hmark
    exact Or.inr ⟨hpat, hmark⟩

theorem OnlyMarks.set (h : OnlyMarks cpu before tables virt len)
    (hT : Radix.Tree shape before (levels cpu) (currentRootPhys cpu)) (ha : InRange virt len a)
    (hslot : slotAt cpu before a = some (l, t, i)) (hpat : ¬ Has (tables t i) l.patBit) :
    OnlyMarks cpu before (Vmm.setEntry tables t i (mark l (tables t i))) virt len := by
  have hsame : tables t i = before t i := by
    rcases h.leaf hT hslot with hsame | ⟨_, hmark⟩
    · exact hsame
    · rw [hmark] at hpat
      exact absurd (mark_pat l _) hpat
  intro x j
  by_cases hx : x = t
  · subst hx
    by_cases hj : j = i
    · subst hj
      rw [setEntry_same, hsame]
      rw [hsame] at hpat
      exact Or.inr ⟨a, l, ha, hslot, hpat, rfl⟩
    · rw [setEntry_beside _ _ _ hj]
      exact h x j
  · rw [setEntry_away _ _ _ hx]
    exact h x j

/-- What the loop has done when it goes on at `address` with `tables` and ends with `after`. -/
structure Done (cpu : Cpu) (before tables : Tables) (virt len address : Nat) (after : Tables) :
    Prop where
  only : OnlyMarks cpu before after virt len
  keeps : ∀ t i l, Has (tables t i) (Level.patBit l) → Has (after t i) l.patBit
  marked : ∀ a l t i, InRange virt len a → address ≤ a.toNat →
    slotAt cpu before a = some (l, t, i) →
      Has (after t i) l.patBit ∧ pageEnd l a.toNat < 2 ^ 64

def AtTop (cpu : Cpu) (before : Tables) (virt len : Nat) : Prop :=
  ∃ a l t i, InRange virt len a ∧ slotAt cpu before a = some (l, t, i) ∧
    2 ^ 64 ≤ pageEnd l a.toNat

theorem add_ok {w a b : Nat} (h : a + b < 2 ^ w) : (add w a b : Outcome Empty Nat) = .ok (a + b) :=
  if_pos h

theorem wcLoop_hole {address : Nat} (fuel : Nat) (report : WcReport) (hlt : address < finish)
    (hslot : slotAt cpu tables (BitVec.ofNat 64 address) = none)
    (hnext : address + 4096 < 2 ^ 64) : ∃ report',
      wcLoop cpu finish (fuel + 1) tables report address =
        wcLoop cpu finish fuel tables report' (address + 4096) := by
  have hnone : translate cpu tables (BitVec.ofNat 64 address) = none := by
    rw [translate_slot, hslot]
    rfl
  refine ⟨{ report with unmapped := report.unmapped + 1 }, ?_⟩
  rw [wcLoop, if_neg (Nat.not_le.mpr hlt)]
  simp only [hnone, add_ok hnext, Outcome.ok_bind]

def markAt (tables : Tables) (l : Level) (t : Word) (i : Fin 512) : Tables :=
  if Has (tables t i) l.patBit then tables
  else Vmm.setEntry tables t i (mark l (tables t i))

theorem wcLoop_page {address : Nat} (fuel : Nat) (report : WcReport) (hlt : address < finish)
    (hslot : slotAt cpu tables (BitVec.ofNat 64 address) = some (l, t, i)) : ∃ report',
      wcLoop cpu finish (fuel + 1) tables report address =
        (mul 64 (address / l.size.bytes + 1) l.size.bytes >>= fun next =>
          wcLoop cpu finish fuel (markAt tables l t i) report' next) := by
  have hsome : translate cpu tables (BitVec.ofNat 64 address) =
      some (mappingOf (BitVec.ofNat 64 address) (l, tables t i)) := by
    rw [translate_slot, hslot]
    rfl
  have hsize := (mappingOf_spec (slot_level hslot) (BitVec.ofNat 64 address) (tables t i)).1
  rw [wcLoop, if_neg (Nat.not_le.mpr hlt)]
  simp only [hsome, findEntryFor_slot hslot, hsize]
  by_cases hpat : Has (tables t i) l.patBit
  · simp only [if_pos hpat, markAt]
    exact ⟨_, rfl⟩
  · simp only [if_neg hpat, markAt]
    exact ⟨_, rfl⟩

theorem markAt_keeps {x : Word} {j : Fin 512} {l' : Level} (h : Has (tables x j) l'.patBit) :
    Has (markAt tables l t i x j) l'.patBit := by
  unfold markAt
  split
  · exact h
  · by_cases hx : x = t
    · subst hx
      by_cases hj : j = i
      · subst hj
        rw [setEntry_same]
        exact mark_keeps l h
      · rwa [setEntry_beside _ _ _ hj]
    · rwa [setEntry_away _ _ _ hx]

theorem markAt_pat : Has (markAt tables l t i t i) l.patBit := by
  unfold markAt
  split
  · assumption
  · rw [setEntry_same]
    exact mark_pat l _

theorem OnlyMarks.turn (h : OnlyMarks cpu before tables virt len)
    (hT : Radix.Tree shape before (levels cpu) (currentRootPhys cpu)) (ha : InRange virt len a)
    (hslot : slotAt cpu before a = some (l, t, i)) :
    OnlyMarks cpu before (markAt tables l t i) virt len := by
  unfold markAt
  split
  · exact h
  · rename_i hpat
    exact h.set hT ha hslot hpat

theorem inRange_turn {address : Nat} (hlen : 0 < len) (hsum : virt + len + 0xfff < 2 ^ 64)
    (hdvd : 4096 ∣ address) (hstart : virt / 4096 * 4096 ≤ address)
    (hlt : address < (virt + len + 0xfff) / 4096 * 4096) :
    ∃ a : Word, InRange virt len a ∧ a.toNat / 4096 = address / 4096 := by
  obtain ⟨k, rfl⟩ := hdvd
  have hmax : max virt (4096 * k) < 2 ^ 64 := by omega
  refine ⟨BitVec.ofNat 64 (max virt (4096 * k)), ?_⟩
  unfold InRange
  rw [BitVec.toNat_ofNat, Nat.mod_eq_of_lt hmax]
  omega

theorem bytes_spec (h : l = .pdpt ∨ l = .pd ∨ l = .pt) :
    4096 ∣ l.size.bytes ∧ 0 < l.size.bytes := by
  rcases h with rfl | rfl | rfl <;> decide

theorem pageEnd_congr (h : l = .pdpt ∨ l = .pd ∨ l = .pt) {x y : Nat}
    (hxy : x / 4096 = y / 4096) : pageEnd l x = pageEnd l y := by
  obtain ⟨c, hc⟩ := (bytes_spec h).1
  unfold pageEnd
  rw [hc, ← Nat.div_div_eq_div_mul, ← Nat.div_div_eq_div_mul, hxy]

theorem pageEnd_spec (h : l = .pdpt ∨ l = .pd ∨ l = .pt) {address : Nat}
    (hdvd : 4096 ∣ address) : 4096 ∣ pageEnd l address ∧ address + 4096 ≤ pageEnd l address := by
  have hbytes := bytes_spec h
  have hend : 4096 ∣ pageEnd l address := Dvd.dvd.mul_left hbytes.1 _
  have hlt : address < pageEnd l address := by
    unfold pageEnd
    rw [Nat.succ_mul]
    exact Nat.lt_div_mul_add hbytes.2
  refine ⟨hend, ?_⟩
  omega

theorem div_of_lt_pageEnd {x y : Nat} (hxy : x ≤ y) (hy : y < pageEnd l x) :
    y / l.size.bytes = x / l.size.bytes := by
  have hle : x / l.size.bytes ≤ y / l.size.bytes := Nat.div_le_div_right hxy
  have hlt : y / l.size.bytes < x / l.size.bytes + 1 := Nat.div_lt_of_lt_mul (by
    rwa [Nat.mul_comm])
  omega

theorem wcLoop_end {address : Nat} (fuel : Nat) (report : WcReport)
    (hfinish : finish = (virt + len + 0xfff) / 4096 * 4096)
    (honly : OnlyMarks cpu before tables virt len) (hend : finish ≤ address) :
    ∃ after report', wcLoop cpu finish (fuel + 1) tables report address = .ok (after, report') ∧
      Done cpu before tables virt len address after := by
  refine ⟨tables, report, ?_, honly, fun _ _ _ h => h, ?_⟩
  · rw [wcLoop, if_pos hend]
  · intro a l t i ha hle
    unfold InRange at ha
    omega

theorem wcLoop_run (hT : Radix.Tree shape before (levels cpu) (currentRootPhys cpu))
    (hlen : 0 < len) (hsum : virt + len + 0xfff < 2 ^ 64)
    (hfinish : finish = (virt + len + 0xfff) / 4096 * 4096) (fuel : Nat) (report : WcReport)
    (address : Nat) (honly : OnlyMarks cpu before tables virt len) (hdvd : 4096 ∣ address)
    (hstart : virt / 4096 * 4096 ≤ address) (hfuel : finish ≤ address + 4096 * fuel) :
    (∃ after report', wcLoop cpu finish (fuel + 1) tables report address = .ok (after, report') ∧
      Done cpu before tables virt len address after) ∨
    wcLoop cpu finish (fuel + 1) tables report address = .panic ∧
      AtTop cpu before virt len := by
  induction fuel generalizing tables report address with
  | zero =>
    exact Or.inl (wcLoop_end 0 report hfinish honly (by omega))
  | succ fuel ih =>
    by_cases hlt : address < finish
    · have hword : (BitVec.ofNat 64 address).toNat = address := by
        rw [BitVec.toNat_ofNat, Nat.mod_eq_of_lt (by omega)]
      have hslots := honly.slot hT (BitVec.ofNat 64 address)
      cases hslot : slotAt cpu before (BitVec.ofNat 64 address) with
      | none =>
        have hnext : address + 4096 < 2 ^ 64 := by omega
        obtain ⟨report', heq⟩ := wcLoop_hole (fuel + 1) report hlt (hslots.trans hslot) hnext
        rw [heq]
        have hrest := ih report' (address + 4096) honly (by omega) (by omega) (by omega)
        apply hrest.imp_left
        rintro ⟨after, r, hok, hdone⟩
        refine ⟨after, r, hok, hdone.only, hdone.keeps, ?_⟩
        intro a l t i ha hle hat
        by_cases hbeyond : address + 4096 ≤ a.toNat
        · exact hdone.marked a l t i ha hbeyond hat
        · -- the address lies in the hole
          have hsame : a.toNat / 4096 = (BitVec.ofNat 64 address).toNat / 4096 := by
            rw [hword]
            omega
          rw [slot_congr hsame, hslot] at hat
          cases hat
      | some p =>
        rcases p with ⟨l, t, i⟩
        have hl := slot_level hslot
        obtain ⟨report', heq⟩ := wcLoop_page (fuel + 1) report hlt (hslots.trans hslot)
        obtain ⟨b, hb, hbpage⟩ := inRange_turn hlen hsum hdvd hstart (hfinish ▸ hlt)
        have hbslot : slotAt cpu before b = some (l, t, i) := by
          rw [slot_congr (hbpage.trans (by rw [hword])), hslot]
        have hspec := pageEnd_spec hl hdvd
        rw [heq]
        by_cases htop : pageEnd l address < 2 ^ 64
        · have hmul : (mul 64 (address / l.size.bytes + 1) l.size.bytes :
              Outcome Empty Nat) = .ok (pageEnd l address) := if_pos htop
          rw [hmul, Outcome.ok_bind]
          have hrest := ih report' _ (honly.turn hT hb hbslot) hspec.1 (by omega) (by omega)
          apply hrest.imp_left
          rintro ⟨after, r, hok, hdone⟩
          refine ⟨after, r, hok, hdone.only, ?_, ?_⟩
          · intro x j l' h
            exact hdone.keeps x j l' (markAt_keeps h)
          · intro a l' t' i' ha hle hat
            by_cases hbeyond : pageEnd l address ≤ a.toNat
            · exact hdone.marked a l' t' i' ha hbeyond hat
            · -- the address lies in the page of this turn
              have hdiv := div_of_lt_pageEnd hle (Nat.lt_of_not_le hbeyond)
              have hshift : a.toNat / 2 ^ l.shift =
                  (BitVec.ofNat 64 address).toNat / 2 ^ l.shift := by
                rwa [hword, ← Level.bytes_size hl]
              rw [slot_agree hslot hshift] at hat
              cases hat
              refine ⟨hdone.keeps t i l markAt_pat, ?_⟩
              unfold pageEnd
              rwa [hdiv]
        · have hmul : (mul 64 (address / l.size.bytes + 1) l.size.bytes :
              Outcome Empty Nat) = .panic := if_neg htop
          rw [hmul, Outcome.panic_bind]
          refine Or.inr ⟨rfl, b, l, t, i, hb, hbslot, ?_⟩
          rw [pageEnd_congr hl hbpage]
          exact Nat.le_of_not_lt htop
    · exact Or.inl (wcLoop_end (fuel + 1) report hfinish honly (Nat.le_of_not_lt hlt))

end Loop

/-! ## The whole call -/

section Call

variable {cpu : Cpu} {hhdmOffset : Nat} {before after : Tables} {virt len : Nat} {a : Word}

theorem translate_forall {P : Mapping → Prop} {tables : Tables} :
    (∀ mapping, translate cpu tables a = some mapping → P mapping) ↔
      ∀ l t i, slotAt cpu tables a = some (l, t, i) → P (mappingOf a (l, tables t i)) := by
  rw [translate_slot]
  constructor
  · intro h l t i hslot
    apply h
    rw [hslot]
    rfl
  · intro h mapping hmap
    rw [Option.map_eq_some_iff] at hmap
    obtain ⟨⟨l, t, i⟩, hslot, rfl⟩ := hmap
    exact h l t i hslot

theorem markable_iff : Markable cpu hhdmOffset before a ↔
    ∀ l t i, slotAt cpu before a = some (l, t, i) →
      (Has (before t i) l.patBit → ¬ Has (before t i) ptePcd ∧ ¬ Has (before t i) entryPwt) ∧
      (¬ Has (before t i) l.patBit → hhdmOffset ≠ 0) ∧
      (hhdmOffset ≠ 0 → pageEnd l a.toNat < 2 ^ 64) := by
  unfold Markable
  rw [translate_forall]
  constructor
  · intro h l t i hslot
    have hm := mappingOf_spec (slot_level hslot) a (before t i)
    have hat := h l t i hslot
    rwa [hm.1, hm.2] at hat
  · intro h l t i hslot
    have hm := mappingOf_spec (slot_level hslot) a (before t i)
    rw [hm.1, hm.2]
    exact h l t i hslot

theorem selects_iff :
    (∀ mapping, translate cpu after a = some mapping → SelectsWc (attributes mapping)) ↔
      ∀ l t i, slotAt cpu after a = some (l, t, i) → Has (after t i) l.patBit ∧
        ¬ Has (after t i) ptePcd ∧ ¬ Has (after t i) entryPwt := by
  rw [translate_forall]
  constructor
  · intro h l t i hslot
    have hm := mappingOf_spec (slot_level hslot) a (after t i)
    have hat := h l t i hslot
    simp only [SelectsWc, attributes, hm.1, hm.2, decide_eq_true_eq, decide_eq_false_iff_not]
      at hat
    exact hat
  · intro h l t i hslot
    have hm := mappingOf_spec (slot_level hslot) a (after t i)
    simp only [SelectsWc, attributes, hm.1, hm.2, decide_eq_true_eq, decide_eq_false_iff_not]
    exact h l t i hslot

theorem OnlyMarks.translates (h : OnlyMarks cpu before after virt len)
    (hT : Radix.Tree shape before (levels cpu) (currentRootPhys cpu)) (a : Word) :
    (translate cpu after a).map (fun x => (x.physicalAddress, x.pageSize)) =
      (translate cpu before a).map fun x => (x.physicalAddress, x.pageSize) := by
  rw [translate_slot, translate_slot, h.slot hT]
  cases hslot : slotAt cpu before a with
  | none => rfl
  | some p =>
    rcases p with ⟨l, t, i⟩
    have hl := slot_level hslot
    have haddress : (mappingOf a (l, after t i)).physicalAddress =
        (mappingOf a (l, before t i)).physicalAddress := by
      rcases h.leaf hT hslot with hsame | ⟨-, hmark⟩
      · rw [hsame]
      · rw [hmark, mappingOf_mark hl]
    have hafter := (mappingOf_spec hl a (after t i)).1
    have hbefore := (mappingOf_spec hl a (before t i)).1
    simp only [Option.map_some, haddress, hafter, hbefore]

theorem OnlyMarks.marked_iff (h : OnlyMarks cpu before after virt len)
    (hT : Radix.Tree shape before (levels cpu) (currentRootPhys cpu)) :
    Marked cpu before after virt len ↔
      ∀ a l t i, InRange virt len a → slotAt cpu before a = some (l, t, i) →
        Has (after t i) l.patBit ∧ (Has (before t i) l.patBit →
          ¬ Has (before t i) ptePcd ∧ ¬ Has (before t i) entryPwt) := by
  constructor
  · intro hM a l t i ha hslot
    have hafter : slotAt cpu after a = some (l, t, i) := (h.slot hT a).trans hslot
    have hselects := selects_iff.mp (hM.marks a ha) l t i hafter
    refine ⟨hselects.1, fun hpat => ?_⟩
    rcases h.leaf hT hslot with hsame | ⟨hno, -⟩
    · rw [← hsame]
      exact hselects.2
    · exact absurd hpat hno
  · intro hall
    refine ⟨fun a ha => ?_, h.translates hT, fun t i hne => ?_⟩
    · rw [selects_iff]
      intro l t i hslot
      have hbefore : slotAt cpu before a = some (l, t, i) := (h.slot hT a).symm.trans hslot
      have hat := hall a l t i ha hbefore
      refine ⟨hat.1, ?_⟩
      rcases h.leaf hT hbefore with hsame | ⟨-, hmark⟩
      · rw [hsame] at hat ⊢
        exact hat.2 hat.1
      · rw [hmark]
        exact mark_clear l _
    · rcases h t i with hsame | ⟨a, l, ha, hslot, -⟩
      · exact absurd hsame hne
      · exact ⟨a, l, ha, hslot⟩

theorem marked_unchanged (hT : Radix.Tree shape before (levels cpu) (currentRootPhys cpu))
    (hnone : len = 0 ∨ hhdmOffset = 0) : Marked cpu before before virt len ↔
      ∀ a, InRange virt len a → Markable cpu hhdmOffset before a := by
  rw [(OnlyMarks.refl cpu before virt len).marked_iff hT]
  rcases hnone with rfl | rfl
  · have hempty : ∀ a, ¬ InRange virt 0 a := by
      intro a ha
      unfold InRange at ha
      omega
    exact ⟨fun _ a ha => absurd ha (hempty a), fun _ a _ _ _ ha => absurd ha (hempty a)⟩
  · constructor
    · intro h a ha
      rw [markable_iff]
      intro l t i hslot
      have hat := h a l t i ha hslot
      exact ⟨hat.2, fun hno => absurd hat.1 hno, fun hne => absurd rfl hne⟩
    · intro h a l t i ha hslot
      have hat := markable_iff.mp (h a ha) l t i hslot
      refine ⟨?_, hat.1⟩
      by_contra hno
      exact hat.2.1 hno rfl

/-- The call marks the range exactly where every page of it can be marked. -/
theorem setWriteCombining_iff (cpu : Cpu) (hhdmOffset : Nat) (before : Tables) (virt len : Nat)
    (hT : Radix.Tree shape before (levels cpu) (currentRootPhys cpu))
    (hsum : virt + len + 0xfff < 2 ^ 64) :
    (∃ after report, setWriteCombining cpu hhdmOffset before virt len = .ok (after, report) ∧
      Marked cpu before after virt len) ↔
        ∀ a, InRange virt len a → Markable cpu hhdmOffset before a := by
  by_cases hnone : len = 0 ∨ hhdmOffset = 0
  · have hcall : setWriteCombining cpu hhdmOffset before virt len = .ok (before, ⟨0, 0, 0, 0⟩) := by
      rcases hnone with h | h
      · simp only [setWriteCombining, if_pos h]
      · simp only [setWriteCombining, if_pos h, ite_self]
    rw [← marked_unchanged hT hnone, hcall]
    constructor
    · rintro ⟨after, report, hok, hM⟩
      cases hok
      exact hM
    · intro hM
      exact ⟨before, _, rfl, hM⟩
  · rw [not_or] at hnone
    have hlen : 0 < len := Nat.pos_of_ne_zero hnone.1
    have hcall : setWriteCombining cpu hhdmOffset before virt len =
        wcLoop cpu ((virt + len + 0xfff) / 4096 * 4096)
          ((virt + len + 0xfff) / 4096 * 4096 / 4096 + 1) before ⟨0, 0, 0, 0⟩
          (virt / 4096 * 4096) := by
      unfold setWriteCombining
      simp only [if_neg hnone.1, if_neg hnone.2]
      rw [add_ok (by omega), Outcome.ok_bind, add_ok hsum, Outcome.ok_bind]
    have hrun := wcLoop_run hT hlen hsum rfl
      ((virt + len + 0xfff) / 4096 * 4096 / 4096) ⟨0, 0, 0, 0⟩ (virt / 4096 * 4096)
      (OnlyMarks.refl cpu before virt len) (Nat.dvd_mul_left _ _) (Nat.le_refl _) (by omega)
    rw [hcall]
    rcases hrun with ⟨after, report, hok, hdone⟩ | ⟨hpanic, b, l, t, i, hb, hslot, htop⟩
    · have hmarked : ∀ a l t i, InRange virt len a → slotAt cpu before a = some (l, t, i) →
          Has (after t i) l.patBit ∧ pageEnd l a.toNat < 2 ^ 64 := by
        intro a l t i ha hslot
        have hle : virt / 4096 * 4096 ≤ a.toNat :=
          (Nat.div_mul_le_self virt 4096).trans ha.1
        exact hdone.marked a l t i ha hle hslot
      have hiff := hdone.only.marked_iff hT
      constructor
      · rintro ⟨after', report', hok', hM⟩ a ha
        rw [hok] at hok'
        cases hok'
        rw [markable_iff]
        intro l t i hslot
        exact ⟨(hiff.mp hM a l t i ha hslot).2, fun _ => hnone.2,
          fun _ => (hmarked a l t i ha hslot).2⟩
      · intro h
        refine ⟨after, report, hok, hiff.mpr fun a l t i ha hslot => ?_⟩
        exact ⟨(hmarked a l t i ha hslot).1, (markable_iff.mp (h a ha) l t i hslot).1⟩
    · constructor
      · rintro ⟨after, report, hok, -⟩
        rw [hpanic] at hok
        cases hok
      · intro h
        have hbelow := (markable_iff.mp (h b hb) l t i hslot).2.2 hnone.2
        omega

end Call

/-- The root leads to a table at 0x2000 with the leaf for the second GiB. -/
def onePage (leaf : Word) : Tables := fun t i =>
  if t = 0x1000#64 ∧ i = 0 then 0x2000#64 ||| entryPresent ||| entryWritable
  else if t = 0x2000#64 ∧ i = 1 then leaf
  else 0

def plainLeaf : Word := 0x40000000#64 ||| entryPresent ||| entryWritable ||| entryHugePage

theorem onePage_tree {leaf : Word} (hleaf : ∀ c, next .pdpt leaf ≠ .child c) :
    Radix.Tree shape (onePage leaf) (levels Vmm.plainCpu) (currentRootPhys Vmm.plainCpu) := by
  have hbelow : ∀ i c, next .pdpt (onePage leaf 0x2000#64 i) ≠ .child c := by
    intro i c
    by_cases hi : i = 1
    · subst hi
      exact hleaf c
    · have h0 : onePage leaf 0x2000#64 i = 0 := by simp [onePage, hi]
      rw [h0, Vmm.next_absent (by decide)]
      nofun
  have hroot : ∀ i c, next .pml4 (onePage leaf 0x1000#64 i) = .child c →
      i = 0 ∧ c = 0x2000#64 := by
    intro i c h
    by_cases hi : i = 0
    · have hentry : onePage leaf 0x1000#64 i = 0x2000#64 ||| entryPresent ||| entryWritable := by
        simp [onePage, hi]
      rw [hentry, Vmm.next_table (by decide) rfl] at h
      cases h
      exact ⟨hi, by decide⟩
    · have h0 : onePage leaf 0x1000#64 i = 0 := by simp [onePage, hi]
      rw [h0, Vmm.next_absent (by decide)] at h
      cases h
  have hflat := Radix.tree_flat (S := shape) (m := onePage leaf) (l := .pdpt)
    (t := 0x2000#64) [.pd, .pt] hbelow
  constructor
  · intro i c hc
    obtain ⟨-, rfl⟩ := hroot i c hc
    refine ⟨?_, hflat.1⟩
    rw [hflat.2]
    decide
  · intro i j c d hij hc hd
    exact absurd ((hroot i c hc).1.trans (hroot j d hd).1.symm) hij

theorem setWriteCombining_iff_plain :
    (∃ after report, setWriteCombining Vmm.plainCpu 1 (onePage plainLeaf) 0x40000000 0x3000 =
      .ok (after, report) ∧
        Marked Vmm.plainCpu (onePage plainLeaf) after 0x40000000 0x3000) ↔
    ∀ a, InRange 0x40000000 0x3000 a → Markable Vmm.plainCpu 1 (onePage plainLeaf) a :=
  setWriteCombining_iff Vmm.plainCpu 1 (onePage plainLeaf) 0x40000000 0x3000
    (onePage_tree fun c => by rw [next_ends (by decide) (by decide)]; nofun) (by decide)

/-- A page that has the PAT bit and PWT is left as it is, with entry 5 of the PAT. -/
theorem writeThrough_left : ¬ ∀ (cpu : Cpu) (hhdmOffset : Nat) (before : Tables) (virt len : Nat),
    hhdmOffset ≠ 0 → Radix.Tree shape before (levels cpu) (currentRootPhys cpu) →
      virt + len + 0xfff < 2 ^ 64 →
        ∃ after report, setWriteCombining cpu hhdmOffset before virt len = .ok (after, report) ∧
          Marked cpu before after virt len := by
  intro h
  have hleaf : ∀ c, next .pdpt (plainLeaf ||| hugePat ||| entryPwt) ≠ .child c := fun c => by
    rw [next_ends (by decide) (by decide)]
    nofun
  obtain ⟨after, report, hok, hM⟩ := h Vmm.plainCpu 1 (onePage (plainLeaf ||| hugePat ||| entryPwt))
    0x40000000 0x3000 (by decide) (onePage_tree hleaf) (by decide)
  have hresult : (setWriteCombining Vmm.plainCpu 1 (onePage (plainLeaf ||| hugePat ||| entryPwt))
      0x40000000 0x3000).toOption.map (fun r => (translate Vmm.plainCpu r.1 0x40000000#64).map
        fun x => (attributes x).pwt) = some (some true) := by decide
  rw [hok] at hresult
  have hpwt : (translate Vmm.plainCpu after 0x40000000#64).map (fun x => (attributes x).pwt) =
      some true := Option.some.inj hresult
  rw [Option.map_eq_some_iff] at hpwt
  obtain ⟨mapping, hmapping, hset⟩ := hpwt
  have hin : InRange 0x40000000 0x3000 0x40000000#64 := by
    unfold InRange
    decide
  have hclear := (hM.marks _ hin mapping hmapping).2.2
  rw [hset] at hclear
  cases hclear

end Vibra.Paging
