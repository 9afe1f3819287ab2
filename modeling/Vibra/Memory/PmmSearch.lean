import Vibra.Memory.PmmOwnership

/-! # The search for contiguous frames

The loop of `alloc_contiguous` goes round the bitmap, and every turn skips one stretch of free
frames that is too short.
-/

namespace Vibra.Pmm

/-- `count` free frames in a row, from `start` on and inside the bitmap. -/
def Run (bitmap : Bitmap) (start count : Nat) : Prop :=
  start + count ≤ maxFrames ∧ ∀ f ∈ frames start count, isFrameFree bitmap f = true

theorem Run.free {bitmap : Bitmap} {start count : Nat} (h : Run bitmap start count) {f : Frame}
    (hlo : start ≤ f.val) (hhi : f.val < start + count) : isFrameFree bitmap f = true :=
  h.2 f (mem_frames.mpr ⟨hlo, hhi⟩)

theorem firstFree_least {bitmap : Bitmap} {start remaining first : Nat}
    (h : firstFree bitmap start remaining = some first) :
    start ≤ first ∧ ∀ f : Frame, start ≤ f.val → f.val < first → isFrameFree bitmap f = false := by
  induction remaining generalizing start with
  | zero => simp [firstFree] at h
  | succ remaining ih =>
    simp only [firstFree] at h
    split at h
    next hs =>
      split at h
      next =>
        cases h
        exact ⟨Nat.le_refl _, fun f hlo hhi => by omega⟩
      next hused =>
        rcases ih h with ⟨hle, hbefore⟩
        refine ⟨by omega, ?_⟩
        intro f hlo hhi
        by_cases he : start = f.val
        · have hf : (⟨start, hs⟩ : Frame) = f := Fin.ext he
          rw [← hf]
          exact Bool.eq_false_iff.mpr hused
        · exact hbefore f (by omega) hhi
    next => cases h

theorem runLength_pos {bitmap : Bitmap} {start count : Nat} (hs : start < maxFrames)
    (hfree : isFrameFree bitmap ⟨start, hs⟩ = true) (hc : 0 < count) :
    0 < runLength bitmap start count := by
  cases count with
  | zero => omega
  | succ count => simp [runLength, hs, hfree]

theorem runLength_stop {bitmap : Bitmap} {start count : Nat}
    (h : runLength bitmap start count < count) {f : Frame}
    (hf : f.val = start + runLength bitmap start count) : isFrameFree bitmap f = false := by
  induction count generalizing start with
  | zero => omega
  | succ count ih =>
    by_cases hs : start < maxFrames
    · by_cases hfree : isFrameFree bitmap ⟨start, hs⟩ = true
      · have hstep : runLength bitmap start (count + 1) = runLength bitmap (start + 1) count + 1 := by
          simp [runLength, hs, hfree]
        rw [hstep] at h hf
        exact @ih (start + 1) (by omega) (by omega)
      · have hzero : runLength bitmap start (count + 1) = 0 := by
          simp [runLength, hfree]
        have he : f = ⟨start, hs⟩ := Fin.ext (by simp only; omega)
        rw [he]
        exact Bool.eq_false_iff.mpr hfree
    · have hlt := f.isLt
      omega

theorem Run.behind {bitmap : Bitmap} {count start remaining first r : Nat}
    (hr : Run bitmap r count) (hfirst : firstFree bitmap start remaining = some first)
    (hshort : runLength bitmap first count < count) (hle : start ≤ r) :
    first + runLength bitmap first count < r := by
  by_contra hnot
  have hbound := hr.1
  have hskip : ∀ f : Frame, r ≤ f.val → f.val < r + count → isFrameFree bitmap f ≠ false := by
    intro f hlo hhi
    simp [hr.free hlo hhi]
  by_cases hbefore : r < first
  · have hused := (firstFree_least hfirst).2 ⟨r, by omega⟩ hle hbefore
    exact hskip _ (Nat.le_refl _) (by simp only; omega) hused
  · have hstop := @runLength_stop bitmap first count hshort
      ⟨first + runLength bitmap first count, by omega⟩ rfl
    exact hskip _ (by simp only; omega) (by simp only; omega) hstop

theorem findRun_wrap {bitmap : Bitmap} {start : Nat}
    (hnone : firstFree bitmap start (maxFrames - start) = none) (count checks : Nat) :
    findRun bitmap count checks start = findRun bitmap count checks 0 := by
  cases checks with
  | zero => rfl
  | succ checks =>
    have hzero : (firstFree bitmap 0 (maxFrames - 0) <|> firstFree bitmap 0 maxFrames) =
        firstFree bitmap 0 maxFrames := by
      rw [Nat.sub_zero]
      cases firstFree bitmap 0 maxFrames <;> rfl
    simp only [findRun, hnone, hzero]
    rfl

theorem findRun_turn {bitmap : Bitmap} {start first : Nat}
    (hfirst : firstFree bitmap start (maxFrames - start) = some first) (count checks : Nat) :
    findRun bitmap count (checks + 1) start =
      if count ≤ runLength bitmap first count then some (some first)
      else findRun bitmap count checks
        (if maxFrames ≤ first + runLength bitmap first count then 0
          else first + runLength bitmap first count) := by
  simp only [findRun, hfirst]
  rfl

theorem turn_progress {bitmap : Bitmap} {count start remaining first : Nat} (hc : 0 < count)
    (hfirst : firstFree bitmap start remaining = some first) :
    start < first + runLength bitmap first count ∧ start < maxFrames := by
  rcases firstFree_spec hfirst with ⟨hlt, hfree⟩
  have hle := (firstFree_least hfirst).1
  have hpos := runLength_pos hlt hfree hc
  omega

theorem findRun_ahead {bitmap : Bitmap} {count r : Nat} (hr : Run bitmap r count) (hc : 0 < count)
    {checks start : Nat} (hle : start ≤ r) (hchecks : maxFrames ≤ start + checks) :
    ∃ first, findRun bitmap count checks start = some (some first) := by
  have hbound := hr.1
  induction checks generalizing start with
  | zero => omega
  | succ checks ih =>
    have hfree : isFrameFree bitmap ⟨r, by omega⟩ = true :=
      hr.free (Nat.le_refl _) (by simp only; omega)
    have hsome := firstFree_complete hfree hle
      (show r < start + (maxFrames - start) by omega)
    rcases Option.ne_none_iff_exists'.mp hsome with ⟨first, hfirst⟩
    rw [findRun_turn hfirst]
    by_cases hlen : count ≤ runLength bitmap first count
    · exact ⟨first, if_pos hlen⟩
    · have hbehind := hr.behind hfirst (by omega) hle
      have hprogress := turn_progress hc hfirst
      rw [if_neg hlen, if_neg (by omega)]
      exact ih (by omega) (by omega)

theorem findRun_complete {bitmap : Bitmap} {count r : Nat} (hr : Run bitmap r count)
    (hc : 0 < count) {checks start : Nat} (hstart : start ≤ maxFrames)
    (hchecks : maxFrames * 2 ≤ start + checks) :
    ∃ first, findRun bitmap count checks start = some (some first) := by
  induction checks generalizing start with
  | zero =>
    have hpos := maxFrames_pos
    omega
  | succ checks ih =>
    cases hfirst : firstFree bitmap start (maxFrames - start) with
    | none =>
      rw [findRun_wrap hfirst]
      exact findRun_ahead hr hc (Nat.zero_le r) (by omega)
    | some first =>
      have hprogress := turn_progress hc hfirst
      rw [findRun_turn hfirst]
      by_cases hlen : count ≤ runLength bitmap first count
      · exact ⟨first, if_pos hlen⟩
      · rw [if_neg hlen]
        by_cases hend : maxFrames ≤ first + runLength bitmap first count
        · rw [if_pos hend]
          exact findRun_ahead hr hc (Nat.zero_le r) (by omega)
        · rw [if_neg hend]
          exact ih (by omega) (by omega)

theorem findRun_absent {bitmap : Bitmap} {count : Nat} (hc : 0 < count)
    (hno : ¬∃ start, Run bitmap start count) {f : Frame} (hf : isFrameFree bitmap f = true)
    (checks start : Nat) : findRun bitmap count checks start = some none := by
  cases hfind : findRun bitmap count checks start with
  | none => exact absurd hfind (findRun_returns hf count checks start)
  | some found =>
    cases found with
    | none => rfl
    | some first => exact absurd ⟨first, findRun_spec hc hfind⟩ hno

theorem Run.count_le {bitmap : Bitmap} {start count : Nat} (h : Run bitmap start count) :
    count ≤ clearBits bitmap := by
  have hsub : (frames start count).toFinset ⊆ clearFrames bitmap := by
    intro f hf
    exact (mem_clearFrames bitmap f).mpr (h.2 f (List.mem_toFinset.mp hf))
  have hcard := Finset.card_le_card hsub
  rwa [frames_card h.1] at hcard

theorem Run.clearBits_used {bitmap : Bitmap} {start count : Nat} (h : Run bitmap start count) :
    clearBits ((frames start count).foldl setFrameUsed bitmap) = clearBits bitmap - count := by
  have hsub : (frames start count).toFinset ⊆ clearFrames bitmap := by
    intro f hf
    exact (mem_clearFrames bitmap f).mpr (h.2 f (List.mem_toFinset.mp hf))
  unfold clearBits
  rw [clearFrames_foldl_used, Finset.card_sdiff_of_subset hsub, frames_card h.1]

/-- `pmm'` is `pmm` with the run marked as used, and nothing else. -/
structure Takes (pmm : State) (start count : Nat) (pmm' : State) : Prop where
  run : Run pmm.bitmap start count
  bits : ∀ f : Frame, isFrameFree pmm'.bitmap f =
    (isFrameFree pmm.bitmap f && !decide (start ≤ f.val ∧ f.val < start + count))
  freeFrames : pmm'.freeFrames = clearBits pmm'.bitmap
  totalFrames : pmm'.totalFrames = pmm.totalFrames
  nextHint : pmm'.nextHint = start + count

/-- The call returns. It takes a run of `count` clear frames when there is one
anywhere in the bitmap, and refuses without a change when there is none. -/
theorem allocContiguous_complete (pmm : State) (count : Nat) (hcount : 0 < count)
    (hhint : pmm.nextHint ≤ maxFrames) (hfree : pmm.freeFrames = clearBits pmm.bitmap) :
    ((∃ start, Run pmm.bitmap start count) →
      ∃ start pmm', allocContiguous pmm count = some (some (start * frameSize), pmm') ∧
        Takes pmm start count pmm') ∧
    ((¬∃ start, Run pmm.bitmap start count) → allocContiguous pmm count = some (none, pmm)) := by
  constructor
  · rintro ⟨r, hr⟩
    have henough : ¬pmm.freeFrames < count := by
      have hle := hr.count_le
      omega
    rcases findRun_complete hr hcount hhint (Nat.le_add_left _ _) with ⟨start, hfind⟩
    have hrun : Run pmm.bitmap start count := findRun_spec hcount hfind
    have hcall : allocContiguous pmm count = some (some (start * frameSize),
        { pmm with
          bitmap := (frames start count).foldl setFrameUsed pmm.bitmap
          freeFrames := pmm.freeFrames - count
          nextHint := start + count }) := by
      simp only [allocContiguous, if_neg (Nat.ne_of_gt hcount), if_neg henough, hfind]
    refine ⟨start, _, hcall, hrun, ?_, ?_, rfl, rfl⟩
    · intro f
      simp only [isFrameFree_foldl_used, mem_frames, decide_not]
    · rw [hrun.clearBits_used, hfree]
  · intro hno
    unfold allocContiguous
    rw [if_neg (Nat.ne_of_gt hcount)]
    by_cases henough : pmm.freeFrames < count
    · exact if_pos henough
    · -- as many clear bits as asked for, but nowhere enough of them in a row
      have hpos : 0 < (clearFrames pmm.bitmap).card := by
        have hcard : pmm.freeFrames = (clearFrames pmm.bitmap).card := hfree
        omega
      rcases Finset.card_pos.mp hpos with ⟨f, hf⟩
      rw [if_neg henough, findRun_absent hcount hno ((mem_clearFrames _ f).mp hf)]

/-- The bitmap with every frame free, and the hint at the last one: a run of two
frames is only found after going back to frame 0. -/
theorem allocContiguous_complete_wraps :
    ∃ start pmm', allocContiguous ⟨fun _ => 0#8, maxFrames, maxFrames, maxFrames - 1⟩ 2 =
        some (some (start * frameSize), pmm') ∧
      Takes ⟨fun _ => 0#8, maxFrames, maxFrames, maxFrames - 1⟩ start 2 pmm' := by
  have hall : ∀ f : Frame, isFrameFree (fun _ => 0#8) f = true := by
    intro f
    simp [isFrameFree]
  have hclear : maxFrames = clearBits (fun _ => 0#8) := by
    unfold clearBits clearFrames
    rw [Finset.filter_true_of_mem (fun f _ => hall f), Finset.card_univ, Fintype.card_fin]
  exact (allocContiguous_complete ⟨fun _ => 0#8, maxFrames, maxFrames, maxFrames - 1⟩ 2 (by decide)
    (Nat.sub_le _ _) hclear).1 ⟨0, by decide, fun f _ => hall f⟩

end Vibra.Pmm
