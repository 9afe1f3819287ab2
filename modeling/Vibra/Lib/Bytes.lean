import Mathlib.Data.List.GetD
import Mathlib.Data.UInt

/-! # Byte memories

A memory maps addresses to bytes. `put` lays a run of bytes over it, `slice`
reads one back, and `le16`, `le32` read little-endian numbers.
-/

namespace Vibra.Lib

abbrev Memory := Nat → UInt8

namespace Memory

/-- The memory with the bytes of `data` at `addr` on. -/
def put (m : Memory) (addr : Nat) (data : List UInt8) : Memory := fun a =>
  if addr ≤ a then data.getD (a - addr) (m a) else m a

/-- The `len` bytes at `addr`. -/
def slice (m : Memory) (addr len : Nat) : List UInt8 := (List.range len).map fun i => m (addr + i)

def le16 (m : Memory) (addr : Nat) : Nat := (m addr).toNat + 256 * (m (addr + 1)).toNat

def le32 (m : Memory) (addr : Nat) : Nat := le16 m addr + 65536 * le16 m (addr + 2)

def toLe16 (n : Nat) : List UInt8 := [UInt8.ofNat n, UInt8.ofNat (n / 256)]

def toLe32 (n : Nat) : List UInt8 := toLe16 n ++ toLe16 (n / 65536)

variable {m m' : Memory} {addr addr' : Nat} {data : List UInt8}

@[simp] theorem put_nil (m : Memory) (addr : Nat) : m.put addr [] = m := by
  funext a
  simp [put]

theorem put_of_lt {a : Nat} (h : a < addr) : m.put addr data a = m a := by
  rw [put, if_neg (by omega)]

theorem put_of_ge {a : Nat} (h : addr + data.length ≤ a) : m.put addr data a = m a := by
  rw [put]
  split
  · exact List.getD_eq_default _ _ (by omega)
  · rfl

theorem put_of_outside {a : Nat} (h : a < addr ∨ addr + data.length ≤ a) :
    m.put addr data a = m a :=
  h.elim put_of_lt put_of_ge

theorem put_of_inside {a : Nat} (hlo : addr ≤ a) (hhi : a < addr + data.length) :
    m.put addr data a = data.getD (a - addr) 0 := by
  rw [put, if_pos hlo, List.getD_eq_getElem _ _ (by omega), List.getD_eq_getElem _ _ (by omega)]

theorem put_add {i : Nat} (h : i < data.length) : m.put addr data (addr + i) = data.getD i 0 := by
  rw [put_of_inside (by omega) (by omega), Nat.add_sub_cancel_left]

theorem put_append (m : Memory) (addr : Nat) (data data' : List UInt8) :
    m.put addr (data ++ data') = (m.put addr data).put (addr + data.length) data' := by
  funext a
  by_cases h1 : a < addr
  · rw [put_of_lt h1, put_of_lt (by omega), put_of_lt h1]
  · by_cases h2 : a < addr + data.length
    · rw [put_of_lt h2, put_of_inside (by omega) (by simp; omega), put_of_inside (by omega) h2,
        List.getD_append _ _ _ _ (by omega)]
    · by_cases h3 : a < addr + data.length + data'.length
      · rw [put_of_inside (by omega) (by simp; omega), put_of_inside (by omega) h3,
          List.getD_append_right _ _ _ _ (by omega)]
        congr 1
        omega
      · rw [put_of_ge (by simp; omega), put_of_ge (by omega), put_of_ge (by omega)]

@[simp] theorem length_slice (m : Memory) (addr len : Nat) : (m.slice addr len).length = len := by
  simp [slice]

theorem getD_slice {len i : Nat} (h : i < len) : (m.slice addr len).getD i 0 = m (addr + i) := by
  simp [slice, List.getD_eq_getElem?_getD, h]

theorem slice_congr {len : Nat} (h : ∀ i < len, m (addr + i) = m' (addr' + i)) :
    m.slice addr len = m'.slice addr' len :=
  List.map_congr_left fun i hi => h i (List.mem_range.mp hi)

theorem slice_put_self : (m.put addr data).slice addr data.length = data := by
  refine List.ext_getElem (length_slice _ _ _) fun i h h' => ?_
  simp only [slice, List.getElem_map, List.getElem_range]
  rw [put_add h', List.getD_eq_getElem _ _ h']

theorem slice_put_of_outside {n : Nat} (h : addr' + n ≤ addr ∨ addr + data.length ≤ addr') :
    (m.put addr data).slice addr' n = m.slice addr' n :=
  slice_congr fun i hi => put_of_outside (by omega)

theorem slice_add (m : Memory) (addr n k : Nat) :
    m.slice addr (n + k) = m.slice addr n ++ m.slice (addr + n) k := by
  simp only [slice, List.range_add, List.map_append, List.map_map]
  congr 1
  exact List.map_congr_left fun i _ => by simp [Nat.add_assoc]

theorem drop_slice {n k : Nat} (h : k ≤ n) :
    (m.slice addr n).drop k = m.slice (addr + k) (n - k) := by
  obtain ⟨l, rfl⟩ := Nat.exists_eq_add_of_le h
  rw [slice_add, List.drop_left' (length_slice _ _ _), Nat.add_sub_cancel_left]

theorem take_slice {n k : Nat} (h : k ≤ n) : (m.slice addr n).take k = m.slice addr k := by
  obtain ⟨l, rfl⟩ := Nat.exists_eq_add_of_le h
  rw [slice_add, List.take_left' (length_slice _ _ _)]

theorem put_slice (m : Memory) (addr n : Nat) : m.put addr (m.slice addr n) = m := by
  funext a
  by_cases h : addr ≤ a ∧ a < addr + n
  · rw [put_of_inside h.1 (by simpa using h.2), getD_slice (by omega), Nat.add_sub_cancel' h.1]
  · rw [put_of_outside]
    rw [length_slice]
    omega

theorem put_patch {n k : Nat} (h : k + data.length ≤ n) :
    m.put addr ((m.slice addr n).take k ++ data ++ (m.slice addr n).drop (k + data.length)) =
      m.put (addr + k) data := by
  rw [take_slice (by omega), drop_slice h, put_append, put_append, put_slice, length_slice,
    List.length_append, length_slice]
  funext a
  by_cases hin : addr + (k + data.length) ≤ a ∧ a < addr + n
  · rw [put_of_inside hin.1 (by rw [length_slice]; omega), getD_slice (by omega),
      put_of_outside (by omega)]
    congr 1
    omega
  · rw [put_of_outside]
    rw [length_slice]
    omega

theorem le16_congr (h : ∀ i < 2, m (addr + i) = m' (addr' + i)) : le16 m addr = le16 m' addr' := by
  have h0 := h 0 (by decide)
  have h1 := h 1 (by decide)
  simp only [Nat.add_zero] at h0
  rw [le16, le16, h0, h1]

theorem le32_congr (h : ∀ i < 4, m (addr + i) = m' (addr' + i)) : le32 m addr = le32 m' addr' := by
  have hlo : le16 m addr = le16 m' addr' := le16_congr fun i hi => h i (by omega)
  have hhi : le16 m (addr + 2) = le16 m' (addr' + 2) := le16_congr fun i hi => by
    rw [Nat.add_assoc, Nat.add_assoc]
    exact h (2 + i) (by omega)
  rw [le32, le32, hlo, hhi]

theorem le16_lt (m : Memory) (addr : Nat) : le16 m addr < 2 ^ 16 := by
  have h0 := (m addr).toNat_lt
  have h1 := (m (addr + 1)).toNat_lt
  unfold le16
  omega

theorem le32_lt (m : Memory) (addr : Nat) : le32 m addr < 2 ^ 32 := by
  have h0 := le16_lt m addr
  have h1 := le16_lt m (addr + 2)
  unfold le32
  omega

@[simp] theorem length_toLe16 (n : Nat) : (toLe16 n).length = 2 := rfl

@[simp] theorem length_toLe32 (n : Nat) : (toLe32 n).length = 4 := rfl

theorem le16_of_bytes {n : Nat} (h : ∀ i < 2, m (addr + i) = (toLe16 n).getD i 0) :
    le16 m addr = n % 2 ^ 16 := by
  have h0 := h 0 (by decide)
  have h1 := h 1 (by decide)
  simp only [Nat.add_zero, toLe16, List.getD_cons_zero, List.getD_cons_succ] at h0 h1
  rw [le16, h0, h1, UInt8.toNat_ofNat', UInt8.toNat_ofNat']
  omega

theorem le32_of_bytes {n : Nat} (h : ∀ i < 4, m (addr + i) = (toLe32 n).getD i 0) :
    le32 m addr = n % 2 ^ 32 := by
  have hlo : le16 m addr = n % 2 ^ 16 := le16_of_bytes fun i hi => by
    rw [h i (by omega), toLe32, List.getD_append _ _ _ _ (by simpa using hi)]
  have hhi : le16 m (addr + 2) = n / 65536 % 2 ^ 16 := le16_of_bytes fun i hi => by
    rw [Nat.add_assoc, h (2 + i) (by omega), toLe32, List.getD_append_right _ _ _ _ (by simp)]
    simp
  rw [le32, hlo, hhi]
  omega

theorem le32_put {n : Nat} : le32 (m.put addr (toLe32 n)) addr = n % 2 ^ 32 :=
  le32_of_bytes fun _ hi => put_add (by simpa using hi)

theorem le32_put_of_outside (h : addr' + 4 ≤ addr ∨ addr + data.length ≤ addr') :
    le32 (m.put addr data) addr' = le32 m addr' :=
  le32_congr fun i hi => put_of_outside (by omega)

end Memory

end Vibra.Lib

/-! ## Memory of words

Memory as the 8-byte words at byte addresses. A list of words is stored from an address
upwards; what is stored can be read back, and nothing outside changes.
-/

namespace Vibra.Lib

abbrev Words := Nat → Nat

namespace Words

/-- The words stored from `base` upwards. -/
def store (mem : Words) (base : Nat) (ws : List Nat) : Words := fun a =>
  if base ≤ a ∧ (a - base) % 8 = 0 then ws.getD ((a - base) / 8) (mem a) else mem a

/-- The memories agree outside `[lo, hi)`. -/
def AgreeOff (lo hi : Nat) (mem mem' : Words) : Prop :=
  ∀ a, a < lo ∨ hi ≤ a → mem' a = mem a

variable {mem mem' : Words} {base lo hi : Nat} {ws : List Nat}

theorem store_at (mem : Words) (base : Nat) (ws : List Nat) {k : Nat} (h : k < ws.length) :
    mem.store base ws (base + 8 * k) = ws[k] := by
  have h1 : base ≤ base + 8 * k ∧ (base + 8 * k - base) % 8 = 0 := by omega
  have h2 : (base + 8 * k - base) / 8 = k := by omega
  rw [store, if_pos h1, h2, List.getD_eq_getElem _ _ h]

theorem store_outside (mem : Words) (base : Nat) (ws : List Nat) {a : Nat}
    (h : a < base ∨ base + 8 * ws.length ≤ a) : mem.store base ws a = mem a := by
  unfold store
  split
  · exact List.getD_eq_default _ _ (by omega)
  · rfl

theorem AgreeOff.refl (lo hi : Nat) (mem : Words) : AgreeOff lo hi mem mem := fun _ _ => rfl

theorem store_agreeOff (mem : Words) (ws : List Nat) (h1 : lo ≤ base)
    (h2 : base + 8 * ws.length ≤ hi) : AgreeOff lo hi mem (mem.store base ws) :=
  fun _ ha => store_outside mem base ws (by omega)

end Words

end Vibra.Lib
