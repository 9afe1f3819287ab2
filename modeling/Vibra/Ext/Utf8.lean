import Vibra.Ext.Driver

/-! # Text and its bytes

The decoder of names takes back every text from the bytes that encode it: a character in its
shortest form is read by the branch of its length.
-/

namespace Vibra.Ext

open Fat32 (Name utf8)

variable {a b c d : UInt8} (tail : List UInt8)

theorem fromUtf8_one (ha : a.toNat ≤ 0x7F) :
    fromUtf8 (a :: tail) = (Char.ofNat a.toNat :: ·) <$> fromUtf8 tail := by
  have h : a < 0x80 := UInt8.lt_iff_toNat_lt.mpr (Nat.lt_succ_of_le ha)
  conv_lhs => unfold fromUtf8
  rw [if_pos h]

theorem fromUtf8_two (ha : 0xC2 ≤ a.toNat ∧ a.toNat ≤ 0xDF) (hb : isCont b = true) :
    fromUtf8 (a :: b :: tail) =
      (Char.ofNat (a.toNat % 32 * 64 + low6 b) :: ·) <$> fromUtf8 tail := by
  have hlead : ¬ a < 0x80 := fun h => absurd (UInt8.lt_iff_toNat_lt.mp h) (by simp; omega)
  have htwo : 0xC2 ≤ a ∧ a ≤ 0xDF := ha
  conv_lhs => unfold fromUtf8
  simp only [if_neg hlead, if_pos htwo, if_pos hb]

theorem fromUtf8_three (ha : 0xE0 ≤ a.toNat ∧ a.toNat ≤ 0xEF) (hb : secondOk a b = true)
    (hc : isCont c = true) : fromUtf8 (a :: b :: c :: tail) =
      (Char.ofNat (a.toNat % 16 * 4096 + low6 b * 64 + low6 c) :: ·) <$> fromUtf8 tail := by
  have hlead : ¬ a < 0x80 := fun h => absurd (UInt8.lt_iff_toNat_lt.mp h) (by simp; omega)
  have htwo : ¬ (0xC2 ≤ a ∧ a ≤ 0xDF) :=
    fun h => absurd (UInt8.le_iff_toNat_le.mp h.2) (by simp; omega)
  have hthree : 0xE0 ≤ a ∧ a ≤ 0xEF := ha
  conv_lhs => unfold fromUtf8
  simp only [if_neg hlead, if_neg htwo, if_pos hthree, if_pos (And.intro hb hc)]

theorem fromUtf8_four (ha : 0xF0 ≤ a.toNat ∧ a.toNat ≤ 0xF4) (hb : secondOk a b = true)
    (hc : isCont c = true) (hd : isCont d = true) : fromUtf8 (a :: b :: c :: d :: tail) =
      (Char.ofNat (a.toNat % 8 * 262144 + low6 b * 4096 + low6 c * 64 + low6 d) :: ·) <$>
        fromUtf8 tail := by
  have hlead : ¬ a < 0x80 := fun h => absurd (UInt8.lt_iff_toNat_lt.mp h) (by simp; omega)
  have htwo : ¬ (0xC2 ≤ a ∧ a ≤ 0xDF) :=
    fun h => absurd (UInt8.le_iff_toNat_le.mp h.2) (by simp; omega)
  have hthree : ¬ (0xE0 ≤ a ∧ a ≤ 0xEF) :=
    fun h => absurd (UInt8.le_iff_toNat_le.mp h.2) (by simp; omega)
  have hfour : 0xF0 ≤ a ∧ a ≤ 0xF4 ∧ secondOk a b ∧ isCont c ∧ isCont d := ⟨ha.1, ha.2, hb, hc, hd⟩
  conv_lhs => unfold fromUtf8
  simp only [if_neg hlead, if_neg htwo, if_neg hthree, if_pos hfour]

theorem toNat_ofNat {k : Nat} (h : k < 256) : (UInt8.ofNat k).toNat = k :=
  UInt8.toNat_ofNat_of_lt' h

theorem isCont_ofNat {k : Nat} (h : k < 64) : isCont (UInt8.ofNat (k + 128)) = true := by
  have hk : (UInt8.ofNat (k + 128)).toNat = k + 128 := toNat_ofNat (by omega)
  simp only [isCont, Bool.and_eq_true, decide_eq_true_eq, UInt8.le_iff_toNat_le, hk]
  exact ⟨by simp, by simp; omega⟩

theorem low6_ofNat {k : Nat} (h : k < 64) : low6 (UInt8.ofNat (k + 128)) = k := by
  rw [low6, toNat_ofNat (by omega)]
  omega

theorem secondOk_ofNat {lead k : Nat} (hlead : lead < 256) (hk : k < 64)
    (h3 : lead = 0xE0 → 32 ≤ k) (hs : lead = 0xED → k < 32) (h4 : lead = 0xF0 → 16 ≤ k)
    (hm : lead = 0xF4 → k < 16) : secondOk (UInt8.ofNat lead) (UInt8.ofNat (k + 128)) = true := by
  have hb : (UInt8.ofNat (k + 128)).toNat = k + 128 := toNat_ofNat (by omega)
  have heq (n : UInt8) : UInt8.ofNat lead = n ↔ lead = n.toNat := by
    rw [← UInt8.toNat_inj, toNat_ofNat hlead]
  have hcont := isCont_ofNat hk
  unfold secondOk
  simp only [heq, UInt8.le_iff_toNat_le, hb, Bool.and_eq_true, decide_eq_true_eq]
  split
  next h =>
    have := h3 h
    simp
    omega
  split
  next h =>
    have := hs h
    simp
    omega
  split
  next h =>
    have := h4 h
    simp
    omega
  split
  next h =>
    have := hm h
    simp
    omega
  exact hcont

theorem base64_digits (v : Nat) : v / 4096 * 4096 + v / 64 % 64 * 64 + v % 64 = v := by
  rw [show v / 4096 = v / 64 / 64 from (Nat.div_div_eq_div_mul v 64 64).symm]
  omega

theorem fromUtf8_cons (c : Char) (tail : List UInt8) :
    fromUtf8 (String.utf8EncodeChar c ++ tail) = (c :: ·) <$> fromUtf8 tail := by
  have hvalid : c.toNat < 0xD800 ∨ 0xDFFF < c.toNat ∧ c.toNat < 0x110000 := c.valid
  have hc : Char.ofNat c.toNat = c := Char.ofNat_toNat c
  have hval : c.val.toNat = c.toNat := rfl
  simp only [String.utf8EncodeChar, hval]
  generalize hv : c.toNat = v at *
  have hlow (k : Nat) : k % 64 < 64 := Nat.mod_lt k (by decide)
  split
  · rw [List.singleton_append, fromUtf8_one tail (by rw [toNat_ofNat (by omega)]; omega),
      toNat_ofNat (by omega), hc]
  split
  · have ha : (UInt8.ofNat (v / 64 % 32 + 192)).toNat = v / 64 % 32 + 192 := toNat_ofNat (by omega)
    simp only [List.cons_append, List.nil_append]
    rw [fromUtf8_two tail (by omega) (isCont_ofNat (hlow v)), ha, low6_ofNat (hlow v)]
    have hsum : (v / 64 % 32 + 192) % 32 * 64 + v % 64 = v := by omega
    rw [hsum, hc]
  split
  · have ha : (UInt8.ofNat (v / 4096 % 16 + 224)).toNat = v / 4096 % 16 + 224 :=
      toNat_ofNat (by omega)
    simp only [List.cons_append, List.nil_append]
    rw [fromUtf8_three tail (by omega) (secondOk_ofNat (by omega) (hlow _) (by omega) (by omega)
      (by omega) (by omega)) (isCont_ofNat (hlow v)), ha, low6_ofNat (hlow _), low6_ofNat (hlow _)]
    have htop : (v / 4096 % 16 + 224) % 16 = v / 4096 := by omega
    rw [htop, base64_digits, hc]
  · have ha : (UInt8.ofNat (v / 262144 % 8 + 240)).toNat = v / 262144 % 8 + 240 :=
      toNat_ofNat (by omega)
    simp only [List.cons_append, List.nil_append]
    rw [fromUtf8_four tail (by omega) (secondOk_ofNat (by omega) (hlow _) (by omega) (by omega)
      (by omega) (by omega)) (isCont_ofNat (hlow _)) (isCont_ofNat (hlow v)), ha,
      low6_ofNat (hlow _), low6_ofNat (hlow _), low6_ofNat (hlow _)]
    have htop : (v / 262144 % 8 + 240) % 8 * 262144 + v / 4096 % 64 * 4096 = v / 4096 * 4096 := by
      rw [show v / 262144 = v / 4096 / 64 from (Nat.div_div_eq_div_mul v 4096 64).symm]
      omega
    rw [htop, base64_digits, hc]

theorem fromUtf8_utf8 (name : Name) : fromUtf8 (utf8 name) = some name := by
  induction name with
  | nil => rfl
  | cons c name ih =>
    rw [utf8, List.flatMap_cons, fromUtf8_cons, ← utf8, ih]
    rfl
end Vibra.Ext
