import Vibra.Lib.Pool
import Vibra.Memory.Pmm

/-! # Frame ownership

The callers of the frame allocators are tracked next to the manager's state: who holds which frame.
-/

namespace Vibra.Pmm

open Lib (Pool)

def clearFrames (bitmap : Bitmap) : Finset Frame :=
  Finset.univ.filter fun f => isFrameFree bitmap f = true

def clearBits (bitmap : Bitmap) : Nat := (clearFrames bitmap).card

@[simp] theorem mem_clearFrames (bitmap : Bitmap) (f : Frame) :
    f ∈ clearFrames bitmap ↔ isFrameFree bitmap f = true := by
  simp [clearFrames]

theorem mem_frames {start count : Nat} {f : Frame} :
    f ∈ frames start count ↔ start ≤ f.val ∧ f.val < start + count := by
  simp only [frames, List.mem_filterMap, List.mem_range'_1]
  constructor
  · rintro ⟨i, hi, hf⟩
    split at hf
    · cases hf
      exact hi
    · cases hf
  · intro h
    exact ⟨f.val, h, by simp⟩

theorem frames_card {start count : Nat} (h : start + count ≤ maxFrames) :
    (frames start count).toFinset.card = count := by
  have hmap : (frames start count).toFinset =
      (Finset.range count).attach.image
        fun i => (⟨start + i.1, by have := Finset.mem_range.mp i.2; omega⟩ : Frame) := by
    ext f
    simp only [List.mem_toFinset, mem_frames, Finset.mem_image, Finset.mem_attach, true_and,
      Subtype.exists, Finset.mem_range]
    constructor
    · intro hf
      exact ⟨f.val - start, by omega, Fin.ext (by simp only; omega)⟩
    · rintro ⟨i, hi, rfl⟩
      simp only
      omega
  rw [hmap, Finset.card_image_of_injective, Finset.card_attach, Finset.card_range]
  intro i j hij
  have hv : start + i.1 = start + j.1 := congrArg Fin.val hij
  exact Subtype.ext (by omega)

theorem isFrameFree_foldl_used (fs : List Frame) (bitmap : Bitmap) (f : Frame) :
    isFrameFree (fs.foldl setFrameUsed bitmap) f = (isFrameFree bitmap f && decide (f ∉ fs)) := by
  induction fs generalizing bitmap with
  | nil => simp
  | cons g fs ih =>
    rw [List.foldl_cons, ih, isFrameFree_setFrameUsed]
    by_cases h : f = g <;> simp [h]

theorem isFrameFree_foldl_free (fs : List Frame) (bitmap : Bitmap) (f : Frame) :
    isFrameFree (fs.foldl setFrameFree bitmap) f = (isFrameFree bitmap f || decide (f ∈ fs)) := by
  induction fs generalizing bitmap with
  | nil => simp
  | cons g fs ih =>
    rw [List.foldl_cons, ih, isFrameFree_setFrameFree]
    by_cases h : f = g <;> simp [h]

theorem clearFrames_foldl_used (fs : List Frame) (bitmap : Bitmap) :
    clearFrames (fs.foldl setFrameUsed bitmap) = clearFrames bitmap \ fs.toFinset := by
  ext f
  simp [isFrameFree_foldl_used]

theorem clearFrames_foldl_free (fs : List Frame) (bitmap : Bitmap) :
    clearFrames (fs.foldl setFrameFree bitmap) = clearFrames bitmap ∪ fs.toFinset := by
  ext f
  simp [isFrameFree_foldl_free]

theorem findFree_spec {bitmap : Bitmap} {start remaining offset : Nat} {f : Frame}
    (h : findFree bitmap start remaining offset = some f) : isFrameFree bitmap f = true := by
  induction remaining generalizing offset with
  | zero => simp [findFree] at h
  | succ remaining ih =>
    simp only [findFree] at h
    split at h
    next hfree =>
      cases h
      exact hfree
    next => exact ih h

theorem firstFree_spec {bitmap : Bitmap} {start remaining first : Nat}
    (h : firstFree bitmap start remaining = some first) :
    ∃ hf : first < maxFrames, isFrameFree bitmap ⟨first, hf⟩ = true := by
  induction remaining generalizing start with
  | zero => simp [firstFree] at h
  | succ remaining ih =>
    simp only [firstFree] at h
    split at h
    next hs =>
      split at h
      next hfree =>
        cases h
        exact ⟨hs, hfree⟩
      next => exact ih h
    next => cases h

theorem firstFree_complete {bitmap : Bitmap} {f : Frame} (hf : isFrameFree bitmap f = true)
    {start remaining : Nat} (hs : start ≤ f.val) (hr : f.val < start + remaining) :
    firstFree bitmap start remaining ≠ none := by
  induction remaining generalizing start with
  | zero => omega
  | succ remaining ih =>
    have hlt : start < maxFrames := Nat.lt_of_le_of_lt hs f.isLt
    simp only [firstFree, hlt, dif_pos]
    by_cases hfree : isFrameFree bitmap ⟨start, hlt⟩ = true
    · simp [hfree]
    · have hne : start ≠ f.val := by
        intro he
        exact hfree (by simpa [he] using hf)
      simp only [hfree]
      exact ih (by omega) (by omega)

theorem runLength_spec {bitmap : Bitmap} {start count : Nat} (h : count ≤ runLength bitmap start count) :
    start + count ≤ maxFrames ∨ count = 0 := by
  induction count generalizing start with
  | zero => exact Or.inr rfl
  | succ count ih =>
    simp only [runLength] at h
    split at h
    next hs =>
      split at h
      next =>
        rcases @ih (start + 1) (by omega) with hle | hzero
        · exact Or.inl (by omega)
        · exact Or.inl (by omega)
      next => omega
    next => omega

theorem runLength_free {bitmap : Bitmap} {start count : Nat}
    (h : count ≤ runLength bitmap start count) {f : Frame} (hs : start ≤ f.val)
    (hlt : f.val < start + count) : isFrameFree bitmap f = true := by
  induction count generalizing start with
  | zero => omega
  | succ count ih =>
    simp only [runLength] at h
    split at h
    next =>
      split at h
      next hfree =>
        by_cases he : start = f.val
        · simpa [he] using hfree
        · exact @ih (start + 1) (by omega) (by omega) (by omega)
      next => omega
    next => omega

theorem findRun_spec {bitmap : Bitmap} {count checks start first : Nat} (hc : 0 < count)
    (h : findRun bitmap count checks start = some (some first)) :
    first + count ≤ maxFrames ∧ ∀ f ∈ frames first count, isFrameFree bitmap f = true := by
  induction checks generalizing start with
  | zero => simp [findRun] at h
  | succ checks ih =>
    simp only [findRun] at h
    split at h
    next => cases h
    next candidate _ =>
      split at h
      next hlen =>
        cases h
        refine ⟨(runLength_spec hlen).resolve_right (by omega), ?_⟩
        intro f hf
        obtain ⟨hlo, hhi⟩ := mem_frames.mp hf
        exact runLength_free hlen hlo hhi
      next => exact ih h

theorem findRun_returns {bitmap : Bitmap} {f : Frame} (hf : isFrameFree bitmap f = true)
    (count checks start : Nat) : findRun bitmap count checks start ≠ none := by
  induction checks generalizing start with
  | zero => simp [findRun]
  | succ checks ih =>
    simp only [findRun]
    split
    next hnone =>
      have hzero := firstFree_complete hf (Nat.zero_le f.val)
        (show f.val < 0 + maxFrames by have := f.isLt; omega)
      cases hfirst : firstFree bitmap start (maxFrames - start) <;> simp_all
    next =>
      split
      · simp
      · exact ih _

/-! ## The memory map -/

/-- Every `USABLE` entry starts and ends on a frame boundary, and no two of them
overlap. -/
def MapOk (memoryMap : List Entry) : Prop :=
  (∀ e ∈ memoryMap, e.type_ = memmapUsable → e.base % frameSize = 0 ∧ e.length % frameSize = 0) ∧
  memoryMap.Pairwise fun a b => a.type_ = memmapUsable → b.type_ = memmapUsable →
    a.base + a.length ≤ b.base ∨ b.base + b.length ≤ a.base

instance (memoryMap : List Entry) : Decidable (MapOk memoryMap) := by
  unfold MapOk
  infer_instance

/-- A frame of the entry: at or above 1 MiB, and with all its bytes in the entry. -/
def Entry.Covers (e : Entry) (f : Frame) : Prop :=
  e.type_ = memmapUsable ∧ reservedLowMem ≤ f.val * frameSize ∧ e.base ≤ f.val * frameSize ∧
    (f.val + 1) * frameSize ≤ min (e.base + e.length) u64Max

instance (e : Entry) (f : Frame) : Decidable (e.Covers f) := by
  unfold Entry.Covers
  infer_instance

def managedFrames (memoryMap : List Entry) : Finset Frame :=
  Finset.univ.filter fun f => ∃ e ∈ memoryMap, e.Covers f

@[simp] theorem mem_managedFrames (memoryMap : List Entry) (f : Frame) :
    f ∈ managedFrames memoryMap ↔ ∃ e ∈ memoryMap, e.Covers f := by
  simp [managedFrames]

/-- The three numbers agree with the bitmap, and exactly `fs` is clear. -/
def Counted (pmm : State) (fs : Finset Frame) : Prop :=
  clearFrames pmm.bitmap = fs ∧ pmm.freeFrames = fs.card ∧ pmm.totalFrames = fs.card

theorem markFrames_counted {pmm : State} {fs : Finset Frame} (h : Counted pmm fs)
    {start : Nat} (count : Nat) (hd : ∀ f ∈ frames start count, f ∉ fs) :
    Counted (markFrames pmm start count) (fs ∪ (frames start count).toFinset) := by
  induction count with
  | zero =>
    have hz : frames start 0 = [] := rfl
    simpa [markFrames, hz] using h
  | succ count ih =>
    have hsub : ∀ f ∈ frames start count, f ∉ fs := by
      intro f hf
      have hb := mem_frames.mp hf
      exact hd f (mem_frames.mpr ⟨hb.1, by omega⟩)
    obtain ⟨hclear, hfree, htotal⟩ := ih hsub
    simp only [markFrames, markFrame]
    by_cases hlt : start + count < maxFrames
    · have hset : fs ∪ (frames start (count + 1)).toFinset =
          insert ⟨start + count, hlt⟩ (fs ∪ (frames start count).toFinset) := by
        ext f
        have hsplit : start ≤ f.val ∧ f.val < start + (count + 1) ↔
            f.val = start + count ∨ start ≤ f.val ∧ f.val < start + count := by omega
        simp only [Finset.mem_union, List.mem_toFinset, mem_frames, Finset.mem_insert, Fin.ext_iff,
          hsplit]
        exact or_left_comm
      have hnew : (⟨start + count, hlt⟩ : Frame) ∉ fs ∪ (frames start count).toFinset := by
        simp only [Finset.mem_union, List.mem_toFinset, mem_frames, not_or]
        exact ⟨hd _ (mem_frames.mpr ⟨by simp, by simp⟩), by omega⟩
      rw [dif_pos hlt, hset]
      refine ⟨?_, ?_, ?_⟩
      · ext f
        have hf : f ∈ clearFrames (markFrames pmm start count).bitmap ↔
            f ∈ fs ∪ (frames start count).toFinset := by rw [hclear]
        rw [mem_clearFrames] at hf
        rw [mem_clearFrames, isFrameFree_setFrameFree, Bool.or_eq_true, decide_eq_true_eq, hf,
          Finset.mem_insert]
        exact or_comm
      · rw [Finset.card_insert_of_notMem hnew, ← hfree]
      · rw [Finset.card_insert_of_notMem hnew, ← htotal]
    · have hset : frames start (count + 1) = frames start count := by
        simp only [frames, List.range'_concat, List.filterMap_append]
        simp [hlt]
      rw [dif_neg hlt, hset]
      exact ⟨hclear, hfree, htotal⟩

theorem mem_entry_frames {e : Entry} (hbase : e.base % frameSize = 0)
    (husable : e.type_ = memmapUsable) (f : Frame) :
    f ∈ frames (max e.base reservedLowMem / frameSize)
        ((min (e.base + e.length) u64Max - max e.base reservedLowMem) / frameSize) ↔
      e.Covers f := by
  have hlow : reservedLowMem % frameSize = 0 := by decide
  have hmax : max e.base reservedLowMem % frameSize = 0 := by
    rcases max_choice e.base reservedLowMem with h | h <;> rw [h] <;> assumption
  rw [mem_frames]
  unfold Entry.Covers
  simp only [husable, true_and]
  generalize min (e.base + e.length) u64Max = stop
  have hb : max e.base reservedLowMem ≤ f.val * frameSize ↔
      reservedLowMem ≤ f.val * frameSize ∧ e.base ≤ f.val * frameSize := by
    rw [max_le_iff]
    exact and_comm
  generalize max e.base reservedLowMem = base at hmax hb ⊢
  rw [← and_assoc, ← hb]
  simp only [frameSize] at hmax ⊢
  omega

theorem markEntry_counted {pmm : State} {fs : Finset Frame} (h : Counted pmm fs) {e : Entry}
    (halign : e.type_ = memmapUsable → e.base % frameSize = 0)
    (hd : ∀ f, e.Covers f → f ∉ fs) :
    Counted (markEntry pmm e) (fs ∪ Finset.univ.filter fun f => e.Covers f) := by
  unfold markEntry
  by_cases husable : e.type_ = memmapUsable
  · have hbase := halign husable
    have hmem := mem_entry_frames hbase husable
    simp only [husable, ne_eq, not_true_eq_false, if_false]
    split
    next hle =>
      have hempty : (Finset.univ.filter fun f => e.Covers f) = ∅ := by
        ext f
        simp only [Finset.mem_filter, Finset.mem_univ, true_and, Finset.notMem_empty, iff_false]
        intro hc
        have hf := mem_frames.mp ((hmem f).mpr hc)
        rw [Nat.sub_eq_zero_of_le hle, Nat.zero_div] at hf
        omega
      simpa [hempty] using h
    next =>
      have hset : (Finset.univ.filter fun f => e.Covers f) =
          (frames (max e.base reservedLowMem / frameSize)
            ((min (e.base + e.length) u64Max - max e.base reservedLowMem) / frameSize)).toFinset := by
        ext f
        simp [← hmem f]
      rw [hset]
      exact markFrames_counted h _ fun f hf => hd f ((hmem f).mp hf)
  · have hempty : (Finset.univ.filter fun f => e.Covers f) = ∅ := by
      ext f
      simp [Entry.Covers, husable]
    simpa [husable, hempty] using h

theorem covers_disjoint {a b : Entry}
    (hd : a.base + a.length ≤ b.base ∨ b.base + b.length ≤ a.base) {f : Frame}
    (ha : a.Covers f) : ¬ b.Covers f := by
  rintro ⟨-, -, hb, hbe⟩
  obtain ⟨-, -, hab, hae⟩ := ha
  have hsize : 0 < frameSize := by decide
  rw [Nat.add_mul, Nat.one_mul] at hae hbe
  omega

theorem markEntries_counted {pmm : State} {fs : Finset Frame} (h : Counted pmm fs)
    (memoryMap : List Entry) (hmap : MapOk memoryMap)
    (hd : ∀ e ∈ memoryMap, ∀ f, e.Covers f → f ∉ fs) :
    Counted (memoryMap.foldl markEntry pmm) (fs ∪ managedFrames memoryMap) := by
  induction memoryMap generalizing pmm fs with
  | nil =>
    have hnil : managedFrames [] = ∅ := by simp [managedFrames]
    simpa [hnil] using h
  | cons e rest ih =>
    obtain ⟨halign, hpair⟩ := hmap
    obtain ⟨hhead, htail⟩ := List.pairwise_cons.mp hpair
    have hstep := markEntry_counted h (fun hu => (halign e (by simp) hu).1) (hd e (by simp))
    have hrest := ih hstep ⟨fun e' he' => halign e' (by simp [he']), htail⟩ (by
      intro e' he' f hf
      simp only [Finset.mem_union, Finset.mem_filter, Finset.mem_univ, true_and, not_or]
      exact ⟨hd e' (by simp [he']) f hf,
        fun hc => covers_disjoint (hhead e' he' hc.1 hf.1) hc hf⟩)
    have hset : fs ∪ managedFrames (e :: rest) =
        (fs ∪ Finset.univ.filter fun f => e.Covers f) ∪ managedFrames rest := by
      ext f
      simp
    rw [List.foldl_cons, hset]
    exact hrest

theorem init_counted {memoryMap : List Entry} (hmap : MapOk memoryMap) :
    Counted (init memoryMap) (managedFrames memoryMap) := by
  have hstart : Counted ⟨fun _ => 0xFF#8, 0, 0, 0⟩ ∅ := by
    refine ⟨?_, rfl, rfl⟩
    ext f
    have hbit : (0xFF#8).getLsbD (f.val % 8) = true := by
      have h8 : f.val % 8 < 8 := Nat.mod_lt _ (by decide)
      generalize f.val % 8 = k at h8
      interval_cases k <;> rfl
    simp [isFrameFree_eq, hbit]
  have h := markEntries_counted hstart memoryMap hmap (by simp)
  simpa [init, Counted] using h

abbrev Caller := Nat

inductive Call where
  | allocFrame
  | allocContiguous (count : Nat)
  | freeFrame (addr : Nat)
  | freeContiguous (addr count : Nat)

inductive Outcome where
  | address (addr : Option Nat)
  | done
  | flag (freed : Bool)

/-- `none` when the call does not return. -/
def Call.exec (pmm : State) : Call → Option (Outcome × State)
  | allocFrame => some (.address (Pmm.allocFrame pmm).1, (Pmm.allocFrame pmm).2)
  | allocContiguous count => (Pmm.allocContiguous pmm count).map fun r => (.address r.1, r.2)
  | freeFrame addr => some (.done, Pmm.freeFrame pmm addr)
  | freeContiguous addr count =>
    some (.flag (Pmm.freeContiguous pmm addr count).1, (Pmm.freeContiguous pmm addr count).2)

/-- The frames a call hands to its caller. -/
def Call.granted : Call → Outcome → List Frame
  | allocFrame, .address (some addr) => frames (addr / frameSize) 1
  | allocContiguous count, .address (some addr) => frames (addr / frameSize) count
  | _, _ => []

/-- The frames a call gives back. -/
def Call.released : Call → Outcome → List Frame
  | freeFrame addr, .done => if addr % frameSize = 0 then frames (addr / frameSize) 1 else []
  | freeContiguous addr count, .flag true => frames (addr / frameSize) count
  | _, _ => []

/-- The manager and who holds which frame. -/
structure System where
  pmm : State
  holder : Frame → Option Caller

def System.after (s : System) (k : Caller) (call : Call) (out : Outcome) (pmm : State) : System where
  pmm := pmm
  holder f :=
    if f ∈ call.granted out then some k
    else if f ∈ call.released out then none
    else s.holder f

/-- The calls a caller may make: it frees frames it holds, or it frees by mistake
an address that is misaligned, out of range, or of a managed frame that is not
handed out at the moment (a double free). -/
def Allowed (memoryMap : List Entry) (s : System) (k : Caller) : Call → Prop
  | .allocFrame | .allocContiguous _ => True
  | .freeFrame addr =>
    addr % frameSize ≠ 0 ∨ ∀ f ∈ frames (addr / frameSize) 1,
      s.holder f = some k ∨ f ∈ managedFrames memoryMap ∧ s.holder f = none
  | .freeContiguous addr count =>
    count = 0 ∨ addr % frameSize ≠ 0 ∨ maxFrames < addr / frameSize + count ∨
      (∀ f ∈ frames (addr / frameSize) count, s.holder f = some k) ∨
      ∃ f ∈ frames (addr / frameSize) count,
        f ∈ managedFrames memoryMap ∧ s.holder f = none

/-- The states reached from `init` by any interleaving of the callers' calls. -/
inductive Reach (memoryMap : List Entry) : System → Prop
  | init : Reach memoryMap ⟨Pmm.init memoryMap, fun _ => none⟩
  | step {s : System} {k : Caller} {call : Call} {out : Outcome} {pmm : State}
      (hs : Reach memoryMap s) (ha : Allowed memoryMap s k call)
      (he : call.exec s.pmm = some (out, pmm)) : Reach memoryMap (s.after k call out pmm)

/-! ## The manager refines a pool of frames -/

/-- The bitmap, the counters and the callers' holdings are those of the pool. -/
structure Refines (s : System) (p : Pool Frame Caller) : Prop where
  clear : clearFrames s.pmm.bitmap = p.free
  freeFrames : s.pmm.freeFrames = p.free.card
  totalFrames : s.pmm.totalFrames = p.managed.card
  holder : s.holder = p.holder

variable {s : System} {p : Pool Frame Caller}

theorem Refines.isFrameFree_iff (h : Refines s p) (f : Frame) :
    isFrameFree s.pmm.bitmap f = true ↔ f ∈ p.free := by
  rw [← mem_clearFrames, h.clear]

theorem Refines.idle (h : Refines s p) (k : Caller) {call : Call} {out : Outcome}
    (hg : call.granted out = []) (hr : call.released out = []) :
    Refines (s.after k call out s.pmm) p := by
  have hsame : s.after k call out s.pmm = s := by simp [System.after, hg, hr]
  rw [hsame]
  exact h

theorem Refines.grant (h : Refines s p) (k : Caller) {call : Call} {out : Outcome}
    {fs : List Frame} (hg : call.granted out = fs) (hr : call.released out = [])
    (hsub : fs.toFinset ⊆ p.free) (hint : Nat) :
    Refines (s.after k call out
        { s.pmm with
          bitmap := fs.foldl setFrameUsed s.pmm.bitmap
          freeFrames := s.pmm.freeFrames - fs.toFinset.card
          nextHint := hint })
      (p.grant fs.toFinset k hsub) := by
  refine ⟨?_, ?_, h.totalFrames, ?_⟩
  · simp only [System.after, clearFrames_foldl_used, h.clear, Pool.grant]
  · rw [Pool.card_grant]
    simp only [System.after, h.freeFrames]
  · funext f
    simp [System.after, Pool.grant, h.holder, hg, hr]

theorem Refines.release (h : Refines s p) (k : Caller) {call : Call} {out : Outcome}
    {fs : List Frame} (hg : call.granted out = []) (hr : call.released out = fs)
    (hsub : fs.toFinset ⊆ p.managed) (hd : Disjoint p.free fs.toFinset) (hint : Nat) :
    Refines (s.after k call out
        { s.pmm with
          bitmap := fs.foldl setFrameFree s.pmm.bitmap
          freeFrames := s.pmm.freeFrames + fs.toFinset.card
          nextHint := hint })
      (p.release fs.toFinset hsub) := by
  refine ⟨?_, ?_, h.totalFrames, ?_⟩
  · simp only [System.after, clearFrames_foldl_free, h.clear, Pool.release]
  · rw [Pool.card_release _ _ _ hd]
    simp only [System.after, h.freeFrames]
  · funext f
    simp [System.after, Pool.release, h.holder, hg, hr]

theorem frames_one (f : Frame) : frames f.val 1 = [f] := by
  simp [frames, List.range']

theorem frame_div (n : Nat) : n * frameSize / frameSize = n :=
  Nat.mul_div_cancel n (by decide)

theorem frame_mod (n : Nat) : n * frameSize % frameSize = 0 := Nat.mul_mod_left n frameSize

/-- What a call that returns owes to its caller, over the pool `p` of before. -/
structure Honest (s : System) (p : Pool Frame Caller) (k : Caller) (call : Call) (out : Outcome)
    (pmm : State) : Prop where
  refines : ∃ p' : Pool Frame Caller, p'.managed = p.managed ∧ Refines (s.after k call out pmm) p'
  free : ∀ f ∈ call.granted out, f ∈ p.free
  address : ∀ addr, out = .address (some addr) →
    addr % frameSize = 0 ∧ ∃ f ∈ call.granted out, f.val * frameSize = addr
  unchanged : out = .flag false → pmm = s.pmm

theorem Honest.idle (h : Refines s p) (k : Caller) {call : Call} {out : Outcome}
    (hg : call.granted out = []) (hr : call.released out = [])
    (hout : ∀ addr, out ≠ .address (some addr)) : Honest s p k call out s.pmm where
  refines := ⟨p, rfl, h.idle k hg hr⟩
  free := by simp [hg]
  address addr he := absurd he (hout addr)
  unchanged _ := rfl

theorem allocFrame_honest (h : Refines s p) (k : Caller) :
    Honest s p k .allocFrame (.address (allocFrame s.pmm).1) (allocFrame s.pmm).2 := by
  unfold allocFrame
  split
  next => exact Honest.idle h k rfl rfl (by simp)
  next =>
    split
    next f hfind =>
      have hfree : f ∈ p.free := (h.isFrameFree_iff f).mp (findFree_spec hfind)
      have hgrant : Call.granted .allocFrame (.address (some (f.val * frameSize))) = [f] := by
        simp only [Call.granted, frame_div, frames_one]
      have hsub : [f].toFinset ⊆ p.free := by simpa using hfree
      refine ⟨⟨p.grant _ k hsub, rfl, ?_⟩, ?_, ?_, by simp⟩
      · exact h.grant k hgrant rfl hsub (f.val + 1)
      · simpa [hgrant] using hfree
      · intro addr he
        cases he
        exact ⟨frame_mod _, f, by simp [hgrant], rfl⟩
    next => exact Honest.idle h k rfl rfl (by simp)

theorem allocContiguous_honest (h : Refines s p) (k : Caller) (count : Nat) :
    ∃ r, allocContiguous s.pmm count = some r ∧
      Honest s p k (.allocContiguous count) (.address r.1) r.2 := by
  unfold allocContiguous
  split
  next => exact ⟨_, rfl, Honest.idle h k rfl rfl (by simp)⟩
  next hcount =>
    split
    next => exact ⟨_, rfl, Honest.idle h k rfl rfl (by simp)⟩
    next henough =>
      split
      next hnone =>
        -- the counter promises a free frame, so the search cannot run for ever
        have hpos : 0 < p.free.card := by rw [← h.freeFrames]; omega
        obtain ⟨f, hf⟩ := Finset.card_pos.mp hpos
        exact absurd hnone (findRun_returns ((h.isFrameFree_iff f).mpr hf) _ _ _)
      next => exact ⟨_, rfl, Honest.idle h k rfl rfl (by simp)⟩
      next start hfind =>
        obtain ⟨hle, hfree⟩ := findRun_spec (by omega) hfind
        have hgrant : Call.granted (.allocContiguous count)
            (.address (some (start * frameSize))) = frames start count := by
          simp only [Call.granted, frame_div]
        have hall : ∀ f ∈ frames start count, f ∈ p.free :=
          fun f hf => (h.isFrameFree_iff f).mp (hfree f hf)
        have hsub : (frames start count).toFinset ⊆ p.free :=
          fun f hf => hall f (List.mem_toFinset.mp hf)
        refine ⟨_, rfl, ⟨⟨p.grant _ k hsub, rfl, ?_⟩, ?_, ?_, by simp⟩⟩
        · simpa only [frames_card hle] using h.grant k hgrant rfl hsub (start + count)
        · rwa [hgrant]
        · intro addr he
          cases he
          refine ⟨frame_mod _, ⟨start, by omega⟩, ?_, rfl⟩
          rw [hgrant]
          exact mem_frames.mpr ⟨Nat.le_refl _, by simp only; omega⟩

theorem freeFrame_honest {memoryMap : List Entry} (h : Refines s p)
    (hm : p.managed = managedFrames memoryMap) {k : Caller} {addr : Nat}
    (ha : Allowed memoryMap s k (.freeFrame addr)) :
    Honest s p k (.freeFrame addr) .done (freeFrame s.pmm addr) := by
  unfold freeFrame
  split
  next hmis => exact Honest.idle h k rfl (by simp [Call.released, hmis]) (by simp)
  next halign =>
    have halign' : addr % frameSize = 0 := not_not.mp halign
    split
    next hlt =>
      have hrel : Call.released (.freeFrame addr) .done = [⟨addr / frameSize, hlt⟩] := by
        simp only [Call.released, halign', if_true]
        exact frames_one ⟨addr / frameSize, hlt⟩
      have hown := (ha.resolve_left halign) ⟨addr / frameSize, hlt⟩
        (by rw [mem_frames]; simp)
      split
      next hfree =>
        -- a double free: the frame was held by nobody, and stays so
        have hmem := (h.isFrameFree_iff _).mp hfree
        have hsame : s.after k (.freeFrame addr) .done s.pmm = s := by
          have hnone := p.exclusive _ hmem
          unfold System.after
          congr 1
          funext f
          by_cases hf : f = ⟨addr / frameSize, hlt⟩
          · simp [Call.granted, hrel, hf, h.holder, hnone]
          · simp [Call.granted, hrel, hf]
        exact ⟨⟨p, rfl, by rw [hsame]; exact h⟩, by simp [Call.granted], by simp, by simp⟩
      next hused =>
        have hnot : (⟨addr / frameSize, hlt⟩ : Frame) ∉ p.free :=
          fun hf => hused ((h.isFrameFree_iff _).mpr hf)
        have hmanaged : (⟨addr / frameSize, hlt⟩ : Frame) ∈ p.managed := by
          rcases hown with hheld | ⟨hman, -⟩
          · exact Pool.mem_managed_of_holder (h.holder ▸ hheld)
          · rwa [hm]
        have hsub : [(⟨addr / frameSize, hlt⟩ : Frame)].toFinset ⊆ p.managed := by
          simpa using hmanaged
        have hd : Disjoint p.free [(⟨addr / frameSize, hlt⟩ : Frame)].toFinset := by
          simpa using hnot
        refine ⟨⟨p.release _ hsub, rfl, ?_⟩, by simp [Call.granted], by simp, by simp⟩
        exact h.release k rfl hrel hsub hd s.pmm.nextHint
    next hge =>
      have hrel : Call.released (.freeFrame addr) .done = [] := by
        simp [Call.released, frames, List.range', hge]
      exact Honest.idle h k rfl hrel (by simp)

theorem freeContiguous_honest {memoryMap : List Entry} (h : Refines s p)
    (hm : p.managed = managedFrames memoryMap) {k : Caller} {addr count : Nat}
    (ha : Allowed memoryMap s k (.freeContiguous addr count)) :
    Honest s p k (.freeContiguous addr count) (.flag (freeContiguous s.pmm addr count).1)
      (freeContiguous s.pmm addr count).2 := by
  unfold freeContiguous
  split
  next => exact Honest.idle h k rfl rfl (by simp)
  next hargs =>
    simp only
    split
    next => exact Honest.idle h k rfl rfl (by simp)
    next hrange =>
      split
      next => exact Honest.idle h k rfl rfl (by simp)
      next hall =>
        have hused : ∀ f ∈ frames (addr / frameSize) count, f ∉ p.free := by
          intro f hf hfree
          exact hall (List.any_eq_true.mpr ⟨f, hf, (h.isFrameFree_iff f).mpr hfree⟩)
        have hheld : ∀ f ∈ frames (addr / frameSize) count, s.holder f = some k := by
          rcases ha with h0 | h0 | h0 | hheld | ⟨f, hf, hman, hnone⟩
          · exact absurd (Or.inl h0) hargs
          · exact absurd (Or.inr h0) hargs
          · exact absurd h0 hrange
          · exact hheld
          · exact absurd (Pool.mem_free_of_unheld (by rwa [hm]) (h.holder ▸ hnone)) (hused f hf)
        have hrel : Call.released (.freeContiguous addr count) (.flag true) =
            frames (addr / frameSize) count := rfl
        have hsub : (frames (addr / frameSize) count).toFinset ⊆ p.managed := by
          intro f hf
          exact Pool.mem_managed_of_holder (h.holder ▸ hheld f (List.mem_toFinset.mp hf))
        have hd : Disjoint p.free (frames (addr / frameSize) count).toFinset := by
          rw [Finset.disjoint_right]
          intro f hf
          exact hused f (List.mem_toFinset.mp hf)
        refine ⟨⟨p.release _ hsub, rfl, ?_⟩, by simp [Call.granted], by simp, by simp⟩
        simpa only [frames_card (Nat.le_of_not_lt hrange)] using
          h.release k rfl hrel hsub hd (min s.pmm.nextHint (addr / frameSize))

theorem exec_honest {memoryMap : List Entry} (h : Refines s p)
    (hm : p.managed = managedFrames memoryMap) {k : Caller} {call : Call}
    (ha : Allowed memoryMap s k call) :
    ∃ out pmm, call.exec s.pmm = some (out, pmm) ∧ Honest s p k call out pmm := by
  cases call with
  | allocFrame => exact ⟨_, _, rfl, allocFrame_honest h k⟩
  | allocContiguous count =>
    obtain ⟨r, hr, hh⟩ := allocContiguous_honest h k count
    exact ⟨_, _, by simp [Call.exec, hr], hh⟩
  | freeFrame addr => exact ⟨_, _, rfl, freeFrame_honest h hm ha⟩
  | freeContiguous addr count => exact ⟨_, _, rfl, freeContiguous_honest h hm ha⟩

theorem init_refines {memoryMap : List Entry} (hmap : MapOk memoryMap) :
    Refines ⟨init memoryMap, fun _ => none⟩ (Pool.full Caller (managedFrames memoryMap)) := by
  obtain ⟨hclear, hfree, htotal⟩ := init_counted hmap
  exact ⟨hclear, hfree, htotal, rfl⟩

theorem reach_refines {memoryMap : List Entry} (hmap : MapOk memoryMap) {s : System}
    (hs : Reach memoryMap s) :
    ∃ p : Pool Frame Caller, p.managed = managedFrames memoryMap ∧ Refines s p := by
  induction hs with
  | init => exact ⟨_, rfl, init_refines hmap⟩
  | step hs ha he ih =>
    obtain ⟨p, hm, h⟩ := ih
    obtain ⟨out, pmm, he', hh⟩ := exec_honest h hm ha
    rw [he, Option.some.injEq, Prod.mk.injEq] at he'
    obtain ⟨rfl, rfl⟩ := he'
    obtain ⟨p', hm', h'⟩ := hh.refines
    exact ⟨p', hm'.trans hm, h'⟩

/-- An address inside a `USABLE` entry, at or above the reserved low memory. -/
def InUsable (memoryMap : List Entry) (addr : Nat) : Prop :=
  addr % frameSize = 0 ∧ reservedLowMem ≤ addr ∧
    ∃ e ∈ memoryMap, e.type_ = memmapUsable ∧ e.base ≤ addr ∧ addr + frameSize ≤ e.base + e.length

theorem inUsable_of_managed {memoryMap : List Entry} {f : Frame}
    (hf : f ∈ managedFrames memoryMap) : InUsable memoryMap (f.val * frameSize) := by
  obtain ⟨e, he, husable, hlow, hbase, hend⟩ := (mem_managedFrames memoryMap f).mp hf
  refine ⟨frame_mod _, hlow, e, he, husable, hbase, ?_⟩
  rw [Nat.add_mul, Nat.one_mul] at hend
  exact Nat.le_trans hend (Nat.min_le_left _ _)

/-- In every state reached from `init`, whatever the callers did, the counter is
the number of clear bits and at most the total; and every further call returns,
hands out only frames of `USABLE` entries that nobody holds, and changes nothing
when it refuses to free a range. -/
theorem pmm_ownership (memoryMap : List Entry) (hmap : MapOk memoryMap) (s : System)
    (hs : Reach memoryMap s) :
    s.pmm.freeFrames = clearBits s.pmm.bitmap ∧ s.pmm.freeFrames ≤ s.pmm.totalFrames ∧
    ∀ (k : Caller) (call : Call), Allowed memoryMap s k call →
      ∃ out pmm, call.exec s.pmm = some (out, pmm) ∧
        (∀ addr, out = .address (some addr) → InUsable memoryMap addr ∧
          ∃ f ∈ call.granted out, f.val * frameSize = addr) ∧
        (∀ f ∈ call.granted out, s.holder f = none ∧ InUsable memoryMap (f.val * frameSize)) ∧
        (out = .flag false → pmm = s.pmm) := by
  obtain ⟨p, hm, h⟩ := reach_refines hmap hs
  refine ⟨?_, ?_, ?_⟩
  · rw [h.freeFrames, clearBits, h.clear]
  · rw [h.freeFrames, h.totalFrames]
    exact p.free_card_le
  · intro k call ha
    obtain ⟨out, pmm, he, hh⟩ := exec_honest h hm ha
    have hmanaged : ∀ f ∈ call.granted out, f ∈ managedFrames memoryMap := by
      intro f hf
      rw [← hm]
      exact p.free_subset (hh.free f hf)
    refine ⟨out, pmm, he, ?_, ?_, hh.unchanged⟩
    · intro addr hout
      obtain ⟨-, f, hf, rfl⟩ := hh.address addr hout
      exact ⟨inUsable_of_managed (hmanaged f hf), f, hf, rfl⟩
    · intro f hf
      refine ⟨?_, inUsable_of_managed (hmanaged f hf)⟩
      rw [h.holder]
      exact p.exclusive f (hh.free f hf)

/-- A map with one megabyte of usable memory above a reserved hole. -/
theorem pmm_ownership_one_mebibyte :
    MapOk [⟨0, 0x9F000, 0⟩, ⟨0x9F000, 0x61000, 1⟩, ⟨0x100000, 0x100000, 0⟩] ∧
    (init [⟨0, 0x9F000, 0⟩, ⟨0x9F000, 0x61000, 1⟩, ⟨0x100000, 0x100000, 0⟩]).freeFrames =
      clearBits (init [⟨0, 0x9F000, 0⟩, ⟨0x9F000, 0x61000, 1⟩, ⟨0x100000, 0x100000, 0⟩]).bitmap :=
  ⟨by decide, (pmm_ownership _ (by decide) _ .init).1⟩

end Vibra.Pmm
