import Vibra.Lib.Bytes

/-! # Raw disks

The content of a disk as whoever reads it finds it: a read is answered with as many bytes as were
asked for, or not at all.
-/

namespace Vibra.Lib

abbrev Bytes := List UInt8

def u16At (buf : Bytes) (off : Nat) : Nat :=
  if off + 2 ≤ buf.length then (buf.getD off 0).toNat + 256 * (buf.getD (off + 1) 0).toNat else 0

def u32At (buf : Bytes) (off : Nat) : Nat :=
  if off + 4 ≤ buf.length then u16At buf off + 65536 * u16At buf (off + 2) else 0

def u64At (buf : Bytes) (off : Nat) : Nat :=
  if off + 8 ≤ buf.length then u32At buf off + 4294967296 * u32At buf (off + 4) else 0

theorem u16At_lt (buf : Bytes) (off : Nat) : u16At buf off < 2 ^ 16 := by
  have h0 := (buf.getD off 0).toNat_lt
  have h1 := (buf.getD (off + 1) 0).toNat_lt
  unfold u16At
  split <;> omega

theorem u32At_lt (buf : Bytes) (off : Nat) : u32At buf off < 2 ^ 32 := by
  have h0 := u16At_lt buf off
  have h1 := u16At_lt buf (off + 2)
  unfold u32At
  split <;> omega

theorem u64At_lt (buf : Bytes) (off : Nat) : u64At buf off < 2 ^ 64 := by
  have h0 := u32At_lt buf off
  have h1 := u32At_lt buf (off + 4)
  unfold u64At
  split <;> omega

/-- What a disk holds: the answer to a read of `len` bytes from a sector on. -/
structure RawDisk where
  read : Nat → Nat → Option Bytes
  length_read : ∀ sector len buf, read sector len = some buf → buf.length = len

/-- The disk with the sectors of a memory. -/
def RawDisk.ofMemory (sectors : Nat) (m : Memory) : RawDisk where
  read sector len := if 512 * sector + len ≤ 512 * sectors then some (m.slice (512 * sector) len)
    else none
  length_read sector len buf h := by
    split at h
    · cases h
      exact Memory.length_slice _ _ _
    · contradiction

theorem RawDisk.read_ofMemory {sectors sector len : Nat} (m : Memory)
    (h : 512 * sector + len ≤ 512 * sectors) :
    (RawDisk.ofMemory sectors m).read sector len = some (m.slice (512 * sector) len) :=
  if_pos h

theorem u16At_slice {addr len off : Nat} (m : Memory) (h : off + 2 ≤ len) :
    u16At (m.slice addr len) off = m.le16 (addr + off) := by
  rw [u16At, if_pos (by simpa using h), Memory.getD_slice (by omega), Memory.getD_slice (by omega)]
  rfl

theorem u32At_slice {addr len off : Nat} (m : Memory) (h : off + 4 ≤ len) :
    u32At (m.slice addr len) off = m.le32 (addr + off) := by
  rw [u32At, if_pos (by simpa using h), u16At_slice m (by omega), u16At_slice m (by omega)]
  rfl

theorem getD_append_add (pre rest : Bytes) (k : Nat) :
    (pre ++ rest).getD (pre.length + k) 0 = rest.getD k 0 := by
  rw [List.getD_append_right _ _ _ _ (Nat.le_add_right _ _), Nat.add_sub_cancel_left]

theorem u32At_append (pre post : Bytes) {n : Nat} (hn : n < 2 ^ 32) :
    u32At (pre ++ (Memory.toLe32 n ++ post)) pre.length = n := by
  have h0 := getD_append_add pre (Memory.toLe32 n ++ post) 0
  have h1 := getD_append_add pre (Memory.toLe32 n ++ post) 1
  have h2 := getD_append_add pre (Memory.toLe32 n ++ post) 2
  have h3 := getD_append_add pre (Memory.toLe32 n ++ post) 3
  simp only [Memory.toLe32, Memory.toLe16, List.cons_append, List.nil_append, Nat.add_zero,
    List.getD_cons_zero, List.getD_cons_succ] at h0 h1 h2 h3
  unfold u32At u16At
  simp only [Memory.toLe32, Memory.toLe16, List.cons_append, List.nil_append, List.length_append,
    List.length_cons, Nat.add_assoc, Nat.reduceAdd, h0, h1, h2, h3, UInt8.toNat_ofNat']
  rw [if_pos (by omega), if_pos (by omega), if_pos (by omega)]
  omega

def Faithful (m : Memory) (disk : RawDisk) : Prop :=
  ∀ sector len buf, disk.read sector len = some buf → buf = m.slice (512 * sector) len

theorem RawDisk.faithful_ofMemory (sectors : Nat) (m : Memory) :
    Faithful m (RawDisk.ofMemory sectors m) := by
  intro sector len buf h
  simp only [RawDisk.ofMemory] at h
  split at h
  · exact (Option.some.inj h).symm
  · contradiction

section Blocks

variable {α β : Type} {f : α → List β} {w : Nat} {xs : List α} {a : α} {i : Nat}

theorem drop_blocks (hw : ∀ x ∈ xs, (f x).length = w) (hi : xs[i]? = some a) :
    (xs.flatMap f).drop (i * w) = f a ++ (xs.drop (i + 1)).flatMap f := by
  induction xs generalizing i with
  | nil => contradiction
  | cons x xs ih =>
    cases i with
    | zero =>
      cases hi
      simp
    | succ i =>
      have hx : (f x).length = w := hw x (List.mem_cons_self ..)
      have hsum : (i + 1) * w = (f x).length + i * w := by
        rw [hx, Nat.succ_mul]
        omega
      rw [List.flatMap_cons, hsum, List.drop_append, List.drop_eq_nil_of_le (by omega),
        List.nil_append, Nat.add_sub_cancel_left]
      exact ih (fun y hy => hw y (List.mem_cons_of_mem _ hy)) hi

theorem window_blocks (hw : ∀ x ∈ xs, (f x).length = w) (hi : xs[i]? = some a) {off n : Nat}
    (h : off + n ≤ w) :
    ((xs.flatMap f).drop (i * w + off)).take n = ((f a).drop off).take n := by
  have ha : (f a).length = w := hw a (List.mem_of_getElem? hi)
  rw [← List.drop_drop, drop_blocks hw hi, List.drop_append_of_le_length (by omega),
    List.take_append_of_le_length (by rw [List.length_drop]; omega)]

theorem length_blocks (hw : ∀ x ∈ xs, (f x).length = w) : (xs.flatMap f).length = xs.length * w := by
  rw [List.length_flatMap, List.map_congr_left hw, List.map_const', List.sum_replicate_nat]

end Blocks

end Vibra.Lib
