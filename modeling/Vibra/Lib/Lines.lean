import Mathlib.Data.List.Count
import Mathlib.Data.List.DropRight

/-! # Lines in a flat text

A separator ends a line. The lines are the pieces between separators; a list of offsets says
where each of them starts.
-/

namespace Vibra.Lib

variable {α : Type} [DecidableEq α] {sep : α}

def breaks (sep : α) (text : List α) : List Nat :=
  (text.zipIdx.filter fun entry => decide (entry.1 = sep)).map fun entry => entry.2 + 1

@[simp] theorem breaks_nil : breaks sep [] = [] := rfl

theorem breaks_append (sep : α) (a b : List α) :
    breaks sep (a ++ b) = breaks sep a ++ (breaks sep b).map (· + a.length) := by
  have hshift : (b.zipIdx a.length).filter (fun entry => decide (entry.1 = sep)) =
      (b.zipIdx.filter fun entry => decide (entry.1 = sep)).map
        fun entry => (entry.1, a.length + entry.2) := by
    rw [List.zipIdx_eq_map_add, List.filter_map]
    rfl
  rw [breaks, breaks, breaks, List.zipIdx_append, List.filter_append, List.map_append,
    Nat.zero_add, hshift, List.map_map, List.map_map]
  congr 1
  apply List.map_congr_left
  intro entry _
  show a.length + entry.2 + 1 = entry.2 + 1 + a.length
  omega

theorem breaks_cons_self (rest : List α) :
    breaks sep (sep :: rest) = 1 :: (breaks sep rest).map (· + 1) := by
  have hone : breaks sep [sep] = [1] := by simp [breaks]
  have hsplit := breaks_append sep [sep] rest
  rw [hone] at hsplit
  exact hsplit

theorem breaks_of_notMem {text : List α} (h : sep ∉ text) : breaks sep text = [] := by
  rw [breaks, List.map_eq_nil_iff, List.filter_eq_nil_iff]
  intro entry hentry
  have hmem : entry.1 ∈ text := List.fst_mem_of_mem_zipIdx hentry
  simp only [decide_eq_true_eq]
  intro heq
  exact h (heq ▸ hmem)

theorem breaks_le {text : List α} {i : Nat} (h : i ∈ breaks sep text) :
    1 ≤ i ∧ i ≤ text.length := by
  rw [breaks, List.mem_map] at h
  obtain ⟨⟨b, k⟩, hentry, rfl⟩ := h
  have hlt := List.snd_lt_of_mem_zipIdx (List.mem_filter.mp hentry).1
  simp only at hlt ⊢
  omega

theorem length_breaks (text : List α) : (breaks sep text).length = text.count sep := by
  induction text with
  | nil => rfl
  | cons b rest ih =>
    have hsplit := breaks_append sep [b] rest
    rw [show b :: rest = [b] ++ rest from rfl, hsplit, List.length_append, List.length_map, ih,
      List.count_append]
    congr 1
    by_cases heq : b = sep
    · rw [heq]
      simp [breaks]
    · rw [breaks_of_notMem (by simpa [eq_comm] using heq), List.count_singleton]
      simp [heq]

theorem split_before (sep : α) (before : List α) :
    sep ∉ before ∨ ∃ above start, before = above ++ sep :: start ∧ sep ∉ start := by
  by_cases hmem : sep ∈ before
  · obtain ⟨start, above, hsplit, hstart⟩ :=
      List.eq_append_cons_of_mem (List.mem_reverse.mpr hmem)
    refine .inr ⟨above.reverse, start.reverse, ?_, by rwa [List.mem_reverse]⟩
    have hreverse := congrArg List.reverse hsplit
    rw [List.reverse_reverse] at hreverse
    simpa using hreverse
  · exact .inl hmem

theorem split_after (sep : α) (after : List α) :
    sep ∉ after ∨ ∃ rest below, after = rest ++ sep :: below ∧ sep ∉ rest := by
  by_cases hmem : sep ∈ after
  · exact .inr (List.eq_append_cons_of_mem hmem)
  · exact .inl hmem

theorem length_splitOn (text : List α) : (text.splitOn sep).length = text.count sep + 1 := by
  induction text with
  | nil => rfl
  | cons b rest ih =>
    rw [List.splitOn_cons_eq_if_modifyHead]
    split
    · next heq =>
        rw [eq_of_beq heq, List.length_cons, ih, List.count_cons_self]
    · next hne =>
        rw [List.length_modifyHead, ih, List.count_cons_of_ne (by simpa using hne)]

end Vibra.Lib

/-! ## A line with a cursor

The items before the cursor and those behind it. An array can hold such a line with its items in
a row; it is then edited by loops that copy cells.
-/

namespace Vibra.Lib

/-- The items on the two sides of the cursor. -/
structure CursorLine (α : Type) where
  before : List α
  after : List α

namespace CursorLine

variable {α : Type}

def empty : CursorLine α := ⟨[], []⟩

def atEnd (items : List α) : CursorLine α := ⟨items, []⟩

def items (l : CursorLine α) : List α := l.before ++ l.after

def insert (l : CursorLine α) (a : α) : CursorLine α := ⟨l.before ++ [a], l.after⟩

def backspace (l : CursorLine α) : CursorLine α := ⟨l.before.dropLast, l.after⟩

def delete (l : CursorLine α) : CursorLine α := ⟨l.before, l.after.drop 1⟩

def left (l : CursorLine α) : CursorLine α :=
  ⟨l.before.dropLast, l.before.getLast?.toList ++ l.after⟩

def right (l : CursorLine α) : CursorLine α := ⟨l.before ++ l.after.take 1, l.after.drop 1⟩

def home (l : CursorLine α) : CursorLine α := ⟨[], l.items⟩

def toEnd (l : CursorLine α) : CursorLine α := ⟨l.items, []⟩

def killAfter (l : CursorLine α) : CursorLine α := ⟨l.before, []⟩

def killBefore (l : CursorLine α) : CursorLine α := ⟨[], l.after⟩

def backOver (kind : α → Bool) (l : CursorLine α) : CursorLine α :=
  ⟨l.before.rdropWhile kind, l.before.rtakeWhile kind ++ l.after⟩

def forwardOver (kind : α → Bool) (l : CursorLine α) : CursorLine α :=
  ⟨l.before ++ l.after.takeWhile kind, l.after.dropWhile kind⟩

theorem items_left (l : CursorLine α) : l.left.items = l.items := by
  rw [items, left, ← List.append_assoc]
  congr 1
  rcases List.eq_nil_or_concat l.before with hnil | ⟨init, a, hconcat⟩
  · rw [hnil]
    rfl
  · simp [hconcat]

theorem items_right (l : CursorLine α) : l.right.items = l.items := by
  rw [items, right, List.append_assoc, List.take_append_drop]
  rfl

theorem items_home (l : CursorLine α) : l.home.items = l.items := rfl

theorem items_toEnd (l : CursorLine α) : l.toEnd.items = l.items := List.append_nil _

theorem items_backOver (kind : α → Bool) (l : CursorLine α) :
    (l.backOver kind).items = l.items := by
  rw [items, backOver, ← List.append_assoc, List.rdropWhile_append_rtakeWhile]
  rfl

theorem items_forwardOver (kind : α → Bool) (l : CursorLine α) :
    (l.forwardOver kind).items = l.items := by
  rw [items, forwardOver, List.append_assoc, List.takeWhile_append_dropWhile]
  rfl

end CursorLine

section Cells

variable {α : Type}

/-- `cells[dst] = cells[src]` -/
def copyCell (cells : List α) (src dst : Nat) : List α :=
  match cells[src]? with
  | some a => cells.set dst a
  | none => cells

/-- `for i in start..start + count: cells[i - k] = cells[i]` -/
def shiftDown (k : Nat) : (count start : Nat) → List α → List α
  | 0, _, cells => cells
  | count + 1, start, cells => shiftDown k count (start + 1) (copyCell cells start (start - k))

/-- `for i in (start..start + count).rev(): cells[i + 1] = cells[i]` -/
def shiftUp (start : Nat) : (count : Nat) → List α → List α
  | 0, cells => cells
  | count + 1, cells => shiftUp start count (copyCell cells (start + count) (start + count + 1))

/-- The loop down from `start` as long as the cell before is of the kind. -/
def backWhile (kind : α → Bool) (cells : List α) : Nat → Nat
  | 0 => 0
  | n + 1 => if cells[n]?.any kind then backWhile kind cells n else n + 1

/-- The loop up from `start` as long as the cell is of the kind. -/
def forwardWhile (kind : α → Bool) (cells : List α) : (room start : Nat) → Nat
  | 0, start => start
  | room + 1, start =>
    if cells[start]?.any kind then forwardWhile kind cells room (start + 1) else start

theorem copyCell_eq (pre mid post : List α) (x y : α) :
    copyCell (pre ++ y :: mid ++ x :: post) (pre.length + (mid.length + 1)) pre.length =
      pre ++ x :: mid ++ x :: post := by
  have hsrc : (pre ++ y :: mid ++ x :: post)[pre.length + (mid.length + 1)]? = some x := by
    rw [List.append_assoc, List.getElem?_append_right (by omega), Nat.add_sub_cancel_left,
      List.getElem?_append_right (by simp)]
    simp
  rw [copyCell, hsrc]
  simp

theorem shiftDown_eq (pre mid post : List α) {gap : List α} (hgap : gap ≠ []) :
    ∃ gap', gap'.length = gap.length ∧
      shiftDown gap.length mid.length (pre.length + gap.length) (pre ++ gap ++ mid ++ post) =
        pre ++ mid ++ gap' ++ post := by
  induction mid generalizing pre gap with
  | nil => exact ⟨gap, rfl, by simp [shiftDown]⟩
  | cons x mid ih =>
    obtain ⟨y, gap, rfl⟩ := List.exists_cons_of_ne_nil hgap
    obtain ⟨gap', hlength, hshift⟩ := ih (pre ++ [x]) (List.append_ne_nil_of_right_ne_nil gap (List.cons_ne_nil x []))
    refine ⟨gap', by simpa using hlength, ?_⟩
    have hcell := copyCell_eq pre gap (mid ++ post) x y
    have hstart : pre.length + (y :: gap).length + 1 =
        (pre ++ [x]).length + (gap ++ [x]).length := by
      simp only [List.length_append, List.length_cons, List.length_nil]
      omega
    rw [List.length_cons, List.length_cons, shiftDown, Nat.add_sub_cancel]
    simp only [List.append_assoc, List.cons_append, List.nil_append, List.length_append,
      List.length_cons, List.length_nil] at hcell hshift hstart ⊢
    rw [hcell, ← hshift]
    congr 1

theorem shiftUp_eq (pre mid post : List α) (y : α) :
    ∃ z, shiftUp pre.length mid.length (pre ++ mid ++ y :: post) = pre ++ z :: mid ++ post := by
  induction mid using List.reverseRecOn generalizing y post with
  | nil => exact ⟨y, by simp [shiftUp]⟩
  | append_singleton mid x ih =>
    obtain ⟨z, hshift⟩ := ih (x :: post) x
    refine ⟨z, ?_⟩
    have hsrc : (pre ++ (mid ++ [x]) ++ y :: post)[pre.length + mid.length]? = some x := by
      simp
    have hset : (pre ++ (mid ++ [x]) ++ y :: post).set (pre.length + mid.length + 1) x =
        pre ++ mid ++ x :: x :: post := by
      have hsplit : pre ++ (mid ++ [x]) ++ y :: post = (pre ++ mid ++ [x]) ++ y :: post := by simp
      have hplace : pre.length + mid.length + 1 = (pre ++ mid ++ [x]).length := by simp; omega
      rw [hsplit, hplace, List.set_append_right _ _ (Nat.le_refl _), Nat.sub_self]
      simp
    rw [List.length_append, List.length_singleton, shiftUp, copyCell, hsrc]
    show shiftUp pre.length mid.length ((pre ++ (mid ++ [x]) ++ y :: post).set _ x) = _
    rw [hset, hshift]
    simp

theorem shiftDown_rotate {cells : List α} {n : Nat} (h : cells.length = n + 1) (a : α) :
    (shiftDown 1 n 1 cells).set n a = cells.tail ++ [a] := by
  obtain ⟨c, mid, rfl⟩ := List.exists_cons_of_length_eq_add_one h
  obtain ⟨gap, hgap, hshift⟩ := shiftDown_eq [] mid [] (List.cons_ne_nil c [])
  obtain ⟨g, rfl⟩ := List.length_eq_one_iff.mp hgap
  have hn : mid.length = n := Nat.succ.inj h
  rw [List.append_nil, List.append_nil, List.nil_append, List.nil_append, hn] at hshift
  have hcells : shiftDown 1 n 1 (c :: mid) = mid ++ [g] := hshift
  rw [hcells, List.set_append_right _ _ hn.le, hn, Nat.sub_self]
  rfl

theorem length_copyCell (cells : List α) (src dst : Nat) :
    (copyCell cells src dst).length = cells.length := by
  unfold copyCell
  split <;> simp

theorem length_shiftDown (k count start : Nat) (cells : List α) :
    (shiftDown k count start cells).length = cells.length := by
  induction count generalizing start cells with
  | zero => rfl
  | succ count ih => rw [shiftDown, ih, length_copyCell]

theorem length_shiftUp (start count : Nat) (cells : List α) :
    (shiftUp start count cells).length = cells.length := by
  induction count generalizing cells with
  | zero => rfl
  | succ count ih => rw [shiftUp, ih, length_copyCell]

/-! ## The line in the cells

The cells hold images of the items.
-/

namespace CursorLine

variable {β : Type} {f : β → α} {l : CursorLine β} {cells : List α} {kind : α → Bool}
  {kind' : β → Bool}

theorem backspace_cells (h : l.items.map f <+: cells) (hbefore : l.before ≠ []) :
    l.backspace.items.map f <+: shiftDown 1 l.after.length l.before.length cells := by
  obtain ⟨post, rfl⟩ := h
  obtain ⟨init, b, hconcat⟩ := (List.eq_nil_or_concat l.before).resolve_left hbefore
  obtain ⟨gap, -, hshift⟩ := shiftDown_eq (init.map f) (l.after.map f) post
    (List.cons_ne_nil (f b) [])
  refine ⟨gap ++ post, ?_⟩
  rw [List.concat_eq_append] at hconcat
  have hcells : init.map f ++ [f b] ++ l.after.map f ++ post = l.items.map f ++ post := by
    simp [items, hconcat]
  have hlength : l.before.length = (init.map f).length + [f b].length := by simp [hconcat]
  have hitems : l.backspace.items.map f = init.map f ++ l.after.map f := by
    simp [items, backspace, hconcat]
  have hmoved : (l.after.map f).length = l.after.length := List.length_map f
  rw [hcells, hmoved, ← hlength] at hshift
  rw [hitems]
  exact (List.append_assoc ..).symm.trans hshift.symm

theorem delete_cells (h : l.items.map f <+: cells) (hafter : l.after ≠ []) :
    l.delete.items.map f <+: shiftDown 1 (l.after.length - 1) (l.before.length + 1) cells := by
  obtain ⟨post, rfl⟩ := h
  obtain ⟨b, tail, hcons⟩ := List.exists_cons_of_ne_nil hafter
  obtain ⟨gap, -, hshift⟩ := shiftDown_eq (l.before.map f) (tail.map f) post
    (List.cons_ne_nil (f b) [])
  refine ⟨gap ++ post, ?_⟩
  have hcells : l.before.map f ++ [f b] ++ tail.map f ++ post = l.items.map f ++ post := by
    simp [items, hcons]
  have hitems : l.delete.items.map f = l.before.map f ++ tail.map f := by
    simp [items, delete, hcons]
  rw [hcells, List.length_map, List.length_map] at hshift
  rw [hitems, hcons]
  exact (List.append_assoc ..).symm.trans hshift.symm

theorem killBefore_cells (h : l.items.map f <+: cells) (hbefore : l.before ≠ []) :
    l.killBefore.items.map f <+:
      shiftDown l.before.length l.after.length l.before.length cells := by
  obtain ⟨post, rfl⟩ := h
  have hgap : l.before.map f ≠ [] := by simpa using hbefore
  obtain ⟨gap, -, hshift⟩ := shiftDown_eq [] (l.after.map f) post hgap
  refine ⟨gap ++ post, ?_⟩
  rw [List.length_nil, Nat.zero_add, List.nil_append, List.nil_append, List.length_map,
    List.length_map, ← List.map_append] at hshift
  exact (List.append_assoc ..).symm.trans hshift.symm

theorem insert_cells (h : l.items.map f <+: cells) (hroom : l.items.length < cells.length)
    (b : β) : (l.insert b).items.map f <+:
      (shiftUp l.before.length l.after.length cells).set l.before.length (f b) := by
  obtain ⟨post, rfl⟩ := h
  have hpost : post ≠ [] := by
    rintro rfl
    simp at hroom
  obtain ⟨y, tail, rfl⟩ := List.exists_cons_of_ne_nil hpost
  obtain ⟨z, hshift⟩ := shiftUp_eq (l.before.map f) (l.after.map f) tail y
  rw [List.length_map, List.length_map, ← List.map_append] at hshift
  refine ⟨tail, ?_⟩
  rw [items, items, hshift, insert]
  simp

theorem killAfter_cells (h : l.items.map f <+: cells) : l.killAfter.items.map f <+: cells := by
  refine List.IsPrefix.trans ?_ h
  rw [items, items, killAfter, List.append_nil, List.map_append]
  exact List.prefix_append _ _

theorem backWhile_cells (h : l.items.map f <+: cells)
    (hkind : ∀ b ∈ l.items, kind (f b) = kind' b) :
    backWhile kind cells l.before.length = (l.backOver kind').before.length := by
  have hbefore : l.before.map f <+: cells :=
    (List.map_append (f := f) ▸ List.prefix_append _ (l.after.map f)).trans h
  have hkind' : ∀ b ∈ l.before, kind (f b) = kind' b :=
    fun b hb => hkind b (List.mem_append_left _ hb)
  show _ = (l.before.rdropWhile kind').length
  generalize l.before = before at hbefore hkind'
  induction before using List.reverseRecOn with
  | nil => rfl
  | append_singleton init b ih =>
    rw [List.map_append] at hbefore
    have hcell : cells[init.length]? = some (f b) := by
      obtain ⟨post, rfl⟩ := hbefore
      simp
    rw [List.length_append, List.length_singleton, backWhile, hcell, Option.any_some,
      List.rdropWhile_concat, hkind' b (by simp)]
    by_cases hb : kind' b = true
    · rw [if_pos hb, if_pos hb]
      exact ih ((List.prefix_append _ _).trans hbefore) fun b hb =>
        hkind' b (List.mem_append_left _ hb)
    · rw [if_neg hb, if_neg hb, List.length_append]
      rfl

theorem forwardWhile_cells (h : l.items.map f <+: cells)
    (hkind : ∀ b ∈ l.items, kind (f b) = kind' b) :
    forwardWhile kind cells l.after.length l.before.length =
      (l.forwardOver kind').before.length := by
  have hkind' : ∀ b ∈ l.after, kind (f b) = kind' b :=
    fun b hb => hkind b (List.mem_append_right _ hb)
  show _ = (l.before ++ l.after.takeWhile kind').length
  rw [items] at h
  generalize l.before = before at h ⊢
  generalize l.after = after at h hkind' ⊢
  induction after generalizing before with
  | nil => rw [List.takeWhile_nil, List.append_nil]; rfl
  | cons b after ih =>
    have hcell : cells[before.length]? = some (f b) := by
      obtain ⟨post, rfl⟩ := h
      simp
    rw [List.length_cons, forwardWhile, hcell, Option.any_some, List.takeWhile_cons,
      hkind' b (List.mem_cons_self ..)]
    by_cases hb : kind' b = true
    · have hnext := ih (before ++ [b]) (by simpa using h) fun b hb =>
        hkind' b (List.mem_cons_of_mem _ hb)
      rw [List.length_append, List.length_singleton, List.append_assoc] at hnext
      rw [if_pos hb, if_pos hb, hnext]
      rfl
    · rw [if_neg hb, if_neg hb, List.append_nil]

end CursorLine

end Cells

end Vibra.Lib
