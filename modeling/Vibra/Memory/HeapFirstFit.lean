import Vibra.Memory.HeapExclusivity

/-! # First fit

What `allocate` answers on an intact list, whatever the layout.
-/

namespace Vibra.Heap

open Lib Span

/-- A range of `size` bytes from `ptr` on is aligned and inside the block. -/
def Holds (size align : Nat) (b : Span Nat) (ptr : Nat) : Prop :=
  b.start ≤ ptr ∧ align ∣ ptr ∧ ptr + size ≤ b.stop

/-- `ptr` is null when no block holds an aligned range, and otherwise the lowest
aligned range of the lowest block that holds one. -/
def FirstFit (size align : Nat) (bs : List (Span Nat)) (ptr : Nat) : Prop :=
  (ptr = 0 ∧ ∀ b ∈ bs, ∀ p, ¬Holds size align b p) ∨
    (ptr ≠ 0 ∧ ∃ b ∈ bs, Holds size align b ptr ∧ (∀ p, Holds size align b p → ptr ≤ p) ∧
      ∀ c ∈ bs, ∀ p, Holds size align c p → b.start ≤ c.start)

theorem FirstFit.null {size align : Nat} {bs : List (Span Nat)}
    (h : ∀ b ∈ bs, ∀ p, ¬Holds size align b p) : FirstFit size align bs 0 :=
  Or.inl ⟨rfl, h⟩

theorem FirstFit.cons {size align ptr : Nat} {b : Span Nat} {bs : List (Span Nat)}
    (h : FirstFit size align bs ptr) (hb : ∀ p, ¬Holds size align b p) :
    FirstFit size align (b :: bs) ptr := by
  have hall : ∀ {P : Span Nat → Nat → Prop}, (∀ c ∈ bs, ∀ p, Holds size align c p → P c p) →
      ∀ c ∈ b :: bs, ∀ p, Holds size align c p → P c p := by
    intro P hrest c hc p hp
    rcases List.mem_cons.mp hc with rfl | hc
    · exact absurd hp (hb p)
    · exact hrest c hc p hp
  rcases h with ⟨hptr, hnone⟩ | ⟨hptr, c, hc, hold, hleast, hlow⟩
  · exact Or.inl ⟨hptr, fun c hc p hp => @hall (fun _ _ => False) hnone c hc p hp⟩
  · exact Or.inr ⟨hptr, c, List.mem_cons_of_mem b hc, hold, hleast, hall hlow⟩

theorem Holds.granule {layout : Layout} {size p : Nat} {b : Span Nat} (hb : 16 ∣ b.start)
    (h : Holds size layout.align b p) : ∃ q, q ≤ p ∧ Holds size layout.granule b q := by
  rcases h with ⟨hlo, hdvd, hhi⟩
  unfold Layout.granule alignGranule
  rcases Nat.le_total layout.align 16 with hle | hle
  · rw [Nat.max_eq_right hle]
    exact ⟨b.start, hlo, Nat.le_refl _, hb, by omega⟩
  · rw [Nat.max_eq_left hle]
    exact ⟨p, Nat.le_refl _, hlo, hdvd, hhi⟩

theorem Holds.of_granule {layout : Layout} {size p : Nat} {b : Span Nat}
    (h : Holds size layout.granule b p) : Holds size layout.align b p := by
  rcases layout.granule_spec with ⟨-, -, -, -, hdvd⟩
  exact ⟨h.1, Nat.dvd_trans hdvd h.2.1, h.2.2⟩

theorem FirstFit.of_granule {layout : Layout} {size ptr : Nat} {bs : List (Span Nat)}
    (hbs : ∀ b ∈ bs, 16 ∣ b.start) (h : FirstFit size layout.granule bs ptr) :
    FirstFit size layout.align bs ptr := by
  rcases h with ⟨hptr, hnone⟩ | ⟨hptr, b, hb, hold, hleast, hlow⟩
  · refine Or.inl ⟨hptr, ?_⟩
    intro b hb p hp
    rcases hp.granule (hbs b hb) with ⟨q, -, hq⟩
    exact hnone b hb q hq
  · refine Or.inr ⟨hptr, b, hb, hold.of_granule, ?_, ?_⟩
    · intro p hp
      rcases hp.granule (hbs b hb) with ⟨q, hqp, hq⟩
      exact Nat.le_trans (hleast q hq) hqp
    · intro c hc p hp
      rcases hp.granule (hbs c hc) with ⟨q, -, hq⟩
      exact hlow c hc q hq

theorem alignUp_wraps {addr align k : Nat} (hk : align = 2 ^ k) (hk64 : k ≤ 64)
    (haddr : addr < usizeLimit) (hwrap : usizeLimit ≤ addr + (align - 1)) :
    alignUp addr align = 0 := by
  have hpow : 2 ^ k ≤ 2 ^ 64 := Nat.pow_le_pow_right (by decide) hk64
  have hpos := Nat.two_pow_pos k
  have hmod : wrapAdd addr (align - 1) = addr + (align - 1) - usizeLimit := by
    unfold wrapAdd
    rw [Nat.mod_eq_sub_mod hwrap, Nat.mod_eq_of_lt (by simp only [usizeLimit] at haddr ⊢; omega)]
  have hlt : wrapAdd addr (align - 1) < 2 ^ k := by omega
  unfold alignUp
  rw [show bitNot (align - 1) = bitNot (2 ^ k - 1) by rw [hk],
    and_bitNot hk64 (by simp only [usizeLimit] at *; omega), Nat.div_eq_of_lt hlt, Nat.zero_mul]

theorem no_multiple {addr align k p : Nat} (hk : align = 2 ^ k) (hk64 : k ≤ 64)
    (hwrap : usizeLimit ≤ addr + (align - 1)) (hle : addr ≤ p) (hp : p < usizeLimit) :
    ¬align ∣ p := by
  intro hdvd
  have hlimit : align ∣ usizeLimit := hk ▸ Nat.pow_dvd_pow 2 hk64
  have hgap : align ∣ usizeLimit - p := Nat.dvd_sub hlimit hdvd
  have hbig := Nat.le_of_dvd (by omega) hgap
  have hpos : 0 < align := hk ▸ Nat.two_pow_pos k
  omega

variable {fl : FreeList} {bs : List (Span Nat)}

theorem length_add_le {bound : Nat} (hbs : Coalesced bs) (hlow : ∀ b ∈ bs, bound ≤ b.start)
    (hlim : ∀ b ∈ bs, b.stop < usizeLimit) (hbound : bound ≤ usizeLimit) :
    bound + bs.length ≤ usizeLimit := by
  induction bs generalizing bound with
  | nil => simpa using hbound
  | cons b bs ih =>
    rcases coalesced_cons.mp hbs with ⟨hlt, hgap, hrest⟩
    have hb := hlow b List.mem_cons_self
    have hstop := hlim b List.mem_cons_self
    have hnext := @ih (b.stop + 1) hrest (fun c hc => hgap c hc)
      (fun c hc => hlim c (List.mem_cons_of_mem b hc)) hstop
    rw [List.length_cons]
    omega

theorem Valid.length_lt_maxSteps (h : Valid fl bs) : bs.length < FreeList.maxSteps := by
  have hlen := @length_add_le bs 1 h.coalesced (fun b hb => (h.blocks b hb).pos)
    (fun b hb => (h.blocks b hb).limit) (by decide)
  simp only [FreeList.maxSteps]
  omega

theorem Valid.start_le (h : Valid fl bs) {pre post : List (Span Nat)} {b c : Span Nat}
    (hbs : bs = pre ++ b :: post) (hc : c ∈ b :: post) : b.start ≤ c.start := by
  rcases List.mem_cons.mp hc with rfl | hc
  · exact Nat.le_refl _
  · have hco := (coalesced_append.mp (hbs ▸ h.coalesced)).2.1
    have hgap := (coalesced_cons.mp hco).2.1 c hc
    have hlt := (coalesced_cons.mp hco).1
    omega

theorem Valid.allocateFrom_firstFit (h : Valid fl bs) {size align k : Nat} (hk : align = 2 ^ k)
    (hk64 : k ≤ 64) {pre post : List (Span Nat)} {steps : Nat} {prev cur : Option Nat}
    (hbs : bs = pre ++ post) (hseg : Seg fl.words cur post none) (hsteps : post.length < steps) :
    ∃ ptr fl', fl.allocateFrom size align steps prev cur = some (ptr, fl') ∧
      FirstFit size align post ptr := by
  induction post generalizing pre steps prev cur with
  | nil =>
    rcases Nat.exists_eq_add_of_lt hsteps with ⟨n, rfl⟩
    have hcur : cur = none := hseg
    exact ⟨0, fl, by simp [FreeList.allocateFrom, hcur], .null (by simp)⟩
  | cons b post ih =>
    rcases steps with - | steps
    · simp at hsteps
    rcases hseg with ⟨hcur, hw, hrest⟩
    have hb := h.blocks b (by simp [hbs])
    have hok := h.nodeOk (by simp [hbs]) hw
    have hlt := hb.lt
    have hlim := hb.limit
    have hend : b.start + FreeNode.size fl.words b.start = b.stop := by
      rw [FreeNode.size_eq hb.small hw, Span.size]
      omega
    -- the rest of the loop, once this block is known to hold nothing
    have hskip : (∀ p, ¬Holds size align b p) →
        ∃ ptr fl', fl.allocateFrom size align steps (some b.start)
            (FreeNode.next fl.words b.start) = some (ptr, fl') ∧
          FirstFit size align (b :: post) ptr := by
      intro hnone
      rcases @ih (pre ++ [b]) steps (some b.start) _ (by simp [hbs]) hrest
        (by simpa using hsteps) with ⟨ptr, fl', hrun, hfit⟩
      exact ⟨ptr, fl', hrun, hfit.cons hnone⟩
    simp only [FreeList.allocateFrom, hcur, hok, Bool.not_true, Bool.false_eq_true, if_false, hend]
    by_cases hfit : b.start + (align - 1) < usizeLimit
    · rcases alignUp_spec hk hk64 hfit with ⟨hle, -, hdvd⟩
      have hleast : ∀ c ∈ b :: post, ∀ p, Holds size align c p → alignUp b.start align ≤ p :=
        fun c hc p hp =>
          alignUp_le hk hk64 hfit (Nat.le_trans (h.start_le hbs hc) hp.1) hp.2.1
      by_cases hover : usizeLimit ≤ alignUp b.start align + size
      · refine ⟨0, fl, if_pos hover, .null ?_⟩
        intro c hc p hp
        have hclim := (h.blocks c (by rw [hbs]; exact List.mem_append_right pre hc)).limit
        have hp' := hleast c hc p hp
        have hhi := hp.2.2
        omega
      · rw [if_neg hover]
        by_cases hroom : alignUp b.start align + size ≤ b.stop
        · have hpos := hb.pos
          rw [if_pos hroom]
          have hanswer : FirstFit size align (b :: post) (alignUp b.start align) :=
            Or.inr ⟨by omega, b, List.mem_cons_self, ⟨hle, hdvd, hroom⟩,
              hleast b List.mem_cons_self, fun c hc _ _ => h.start_le hbs hc⟩
          split
          · exact ⟨_, _, rfl, hanswer⟩
          · cases prev <;> exact ⟨_, _, rfl, hanswer⟩
        · rw [if_neg hroom]
          apply hskip
          intro p hp
          have hp' := hleast b List.mem_cons_self p hp
          have hhi := hp.2.2
          omega
    · -- the block ends above the last multiple of the alignment, like all that follow
      have hnone : ∀ c ∈ b :: post, ∀ p, ¬Holds size align c p := by
        intro c hc p hp
        have hclim := (h.blocks c (by rw [hbs]; exact List.mem_append_right pre hc)).limit
        have hstart := h.start_le hbs hc
        have hhi := hp.2.2
        exact no_multiple hk hk64 (by omega) (Nat.le_trans hstart hp.1) (by omega) hp.2.1
      rw [alignUp_wraps hk hk64 (by omega) (by omega), Nat.zero_add]
      by_cases hover : usizeLimit ≤ size
      · exact ⟨0, fl, if_pos hover, .null hnone⟩
      · rw [if_neg hover]
        by_cases hroom : size ≤ b.stop
        · rw [if_pos hroom]
          split
          · exact ⟨_, _, rfl, .null hnone⟩
          · cases prev <;> exact ⟨_, _, rfl, .null hnone⟩
        · rw [if_neg hroom]
          exact hskip (hnone b List.mem_cons_self)

end Vibra.Heap
