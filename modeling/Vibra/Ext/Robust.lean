import Vibra.Ext.Driver

/-! # Damaged ext volumes

What an accepted superblock promises carries every operation but one: the block of an inode
is the block of its table, read from a group descriptor, plus an offset, and with 64-bit
descriptors the sum can leave 64 bits.
-/

namespace Vibra.Ext

open Lib (Outcome Bytes RawDisk u16At u32At u16At_lt u32At_lt)
open Lib.Outcome
open Fat32 (FsError Name)

/-- A superblock that `new` goes on with. -/
structure ExtSuperblock.Sane (sb : ExtSuperblock) : Prop where
  supported : sb.checkSupported = .ok ()
  logBlockSize : sb.logBlockSize ≤ 6
  blocksPerGroup : sb.blocksPerGroup ≠ 0
  inodesPerGroup : sb.inodesPerGroup ≠ 0
  descSize : 32 ≤ sb.descSize ∧ sb.descSize ≤ 1024 * 2 ^ sb.logBlockSize

/-- The volume `new` makes of a superblock. -/
def fsOf (disk : RawDisk) (sb : ExtSuperblock) : Ext2Fs :=
  ⟨disk, sb, 1024 * 2 ^ sb.logBlockSize, sb.descSize,
    max (1024 * 2 ^ sb.logBlockSize / sb.inodeSizeBytes) 1⟩

structure Ext2Fs.Valid (fs : Ext2Fs) : Prop where
  blockSize : 1024 ≤ fs.blockSize ∧ fs.blockSize ≤ 65536
  descSize : 32 ≤ fs.descSize ∧ fs.descSize ≤ fs.blockSize
  inodeSize : 128 ≤ fs.superblock.inodeSizeBytes ∧ fs.superblock.inodeSizeBytes < 65536
  inodesPerBlock :
    fs.inodesPerBlock = max (fs.blockSize / fs.superblock.inodeSizeBytes) 1
  firstDataBlock : fs.superblock.firstDataBlock < 2 ^ 32
  inodesCount : fs.superblock.inodesCount < 2 ^ 32

theorem parse_bounds {data : Bytes} {sb : ExtSuperblock} (h : ExtSuperblock.parse data = .ok sb) :
    sb.inodeSizeBytes < 65536 ∧ sb.firstDataBlock < 2 ^ 32 ∧ sb.inodesCount < 2 ^ 32 := by
  have h16 := u16At_lt data 88
  unfold ExtSuperblock.parse at h
  split at h
  · contradiction
  split at h
  · contradiction
  · cases h
    refine ⟨?_, u32At_lt data 20, u32At_lt data 0⟩
    unfold ExtSuperblock.inodeSizeBytes
    simp only []
    split <;> split <;> omega

theorem inodeSizeBytes_ge (sb : ExtSuperblock) : 128 ≤ sb.inodeSizeBytes := by
  unfold ExtSuperblock.inodeSizeBytes
  split <;> omega

theorem two_pow_le_64 {k : Nat} (h : k ≤ 6) : 1 ≤ 2 ^ k ∧ 2 ^ k ≤ 64 :=
  ⟨Nat.one_le_two_pow, Nat.pow_le_pow_right (by omega) h⟩

theorem fsOf_valid {disk : RawDisk} {data : Bytes} {sb : ExtSuperblock}
    (h : ExtSuperblock.parse data = .ok sb) (hs : sb.Sane) : (fsOf disk sb).Valid := by
  obtain ⟨h1, h2, h3⟩ := parse_bounds h
  obtain ⟨hlo, hhi⟩ := two_pow_le_64 hs.logBlockSize
  refine ⟨⟨?_, ?_⟩, hs.descSize, ⟨inodeSizeBytes_ge sb, h1⟩, rfl, h2, h3⟩
  · show 1024 ≤ 1024 * 2 ^ sb.logBlockSize
    omega
  · show 1024 * 2 ^ sb.logBlockSize ≤ 65536
    omega

/-! ## Blocks and inodes -/

namespace Ext2Fs

variable {fs : Ext2Fs} (hv : fs.Valid)

include hv

theorem readBlock_ensures (block : Nat) :
    (fs.readBlock block).Ensures fun buf => buf.length = fs.blockSize := by
  have hbs := hv.blockSize
  unfold readBlock
  simp only [ensures_bind, ensures_div]
  refine ⟨by omega, ?_⟩
  rw [ensures_ite]
  refine ⟨fun _ => trivial, fun hle => ?_⟩
  simp only [ensures_bind, ensures_mul, ensures_ofOption]
  refine ⟨?_, fun buf hbuf => fs.disk.length_read _ _ _ hbuf⟩
  calc block * (fs.blockSize / 512)
      ≤ block * fs.blockSize := Nat.mul_le_mul_left _ (Nat.div_le_self _ _)
    _ ≤ (2 ^ 64 - 1) / fs.blockSize * fs.blockSize := Nat.mul_le_mul_right _ (by omega)
    _ ≤ 2 ^ 64 - 1 := Nat.div_mul_le_self _ _
    _ < 2 ^ 64 := by decide

theorem inodeTableBlock_safe {group : Nat} (hg : group < 2 ^ 32) :
    (fs.inodeTableBlock group).Safe := by
  have hbs := hv.blockSize
  have hd := hv.descSize
  have hfd := hv.firstDataBlock
  have hper : 1 ≤ max (fs.blockSize / fs.descSize) 1 := le_max_right _ _
  have hgroup : group / max (fs.blockSize / fs.descSize) 1 ≤ group := Nat.div_le_self _ _
  have hindex : group % max (fs.blockSize / fs.descSize) 1 * fs.descSize ≤ 65536 * 65536 := by
    have hmod : group % max (fs.blockSize / fs.descSize) 1 < max (fs.blockSize / fs.descSize) 1 :=
      Nat.mod_lt _ (by omega)
    have hdiv : fs.blockSize / fs.descSize ≤ fs.blockSize := Nat.div_le_self _ _
    exact Nat.mul_le_mul (by omega) (by omega)
  unfold inodeTableBlock Safe
  simp only [ensures_bind, ensures_add, ensures_div, ensures_rem, ensures_mul, pure_eq]
  refine ⟨by omega, by omega, by omega, by omega, by omega, by omega, ?_⟩
  refine (readBlock_ensures hv _).mono fun buf _ => ?_
  simp only [readU32, ensures_bind, ensures_add, pure_eq, ensures_ok]
  refine ⟨by omega, by omega, ?_⟩
  rw [ensures_ite]
  have hend : ∀ hi, (if u32At buf (group % max (fs.blockSize / fs.descSize) 1 * fs.descSize + 8) |||
      hi <<< 32 = 0 then (.err .ioError : Res Nat) else .ok (u32At buf (group %
      max (fs.blockSize / fs.descSize) 1 * fs.descSize + 8) ||| hi <<< 32)).Ensures
      fun _ => True := by
    intro hi
    rw [ensures_ite]
    exact ⟨fun _ => trivial, fun _ => trivial⟩
  constructor
  · intro _
    simp only [ensures_bind, ensures_add, ensures_ok]
    exact ⟨by omega, by omega, hend _⟩
  · intro _
    exact hend 0

omit hv in
/-- The block of the inode, by its table, has a number of 64 bits. -/
def TableFits (fs : Ext2Fs) (inodeNum : Nat) : Prop :=
  inodeNum ≠ 0 → inodeNum ≤ fs.superblock.inodesCount →
    ∀ table, fs.inodeTableBlock ((inodeNum - 1) / max fs.superblock.inodesPerGroup 1) =
      .ok table →
      table + (inodeNum - 1) % max fs.superblock.inodesPerGroup 1 / max fs.inodesPerBlock 1 <
        2 ^ 64

theorem offset_le (index : Nat) :
    index % max fs.inodesPerBlock 1 * fs.superblock.inodeSizeBytes ≤ 65536 * 65536 := by
  have hbs := hv.blockSize
  have hsize := hv.inodeSize
  have hper := hv.inodesPerBlock
  have hdiv : fs.blockSize / fs.superblock.inodeSizeBytes ≤ fs.blockSize := Nat.div_le_self _ _
  have hmod : index % max fs.inodesPerBlock 1 < max fs.inodesPerBlock 1 :=
    Nat.mod_lt _ (by omega)
  exact Nat.mul_le_mul (by omega) (by omega)

omit hv in
theorem inodeAt_fits {table index : Nat} {Q : Bytes → Prop}
    (h : (fs.inodeAt table index).Ensures Q) :
    table + index / max fs.inodesPerBlock 1 < 2 ^ 64 := by
  simp only [inodeAt, ensures_bind, ensures_add, ensures_div, ensures_rem, ensures_mul] at h
  exact h.2.1

theorem inodeAt_ensures {table index : Nat}
    (hfits : table + index / max fs.inodesPerBlock 1 < 2 ^ 64) :
    (fs.inodeAt table index).Ensures fun inode =>
      inode.length = fs.superblock.inodeSizeBytes := by
  have hsize := hv.inodeSize
  have hoff := offset_le hv index
  have hper : max fs.inodesPerBlock 1 ≠ 0 := by omega
  simp only [inodeAt, ensures_bind, ensures_add, ensures_div, ensures_rem, ensures_mul]
  refine ⟨hper, hfits, hper, by omega, ?_⟩
  refine (readBlock_ensures hv _).mono fun buf _ => ⟨by omega, ?_⟩
  rw [ensures_ite]
  refine ⟨fun _ => trivial, fun hle => ?_⟩
  rw [ensures_slice]
  have hbounds : index % max fs.inodesPerBlock 1 * fs.superblock.inodeSizeBytes ≤
      index % max fs.inodesPerBlock 1 * fs.superblock.inodeSizeBytes +
        fs.superblock.inodeSizeBytes ∧ index % max fs.inodesPerBlock 1 *
        fs.superblock.inodeSizeBytes + fs.superblock.inodeSizeBytes ≤ buf.length := by
    omega
  exact ⟨hbounds, by rw [length_slice hbounds]; omega⟩

omit hv in
theorem readInodeData_fits {inodeNum : Nat} {Q : Bytes → Prop}
    (h : (fs.readInodeData inodeNum).Ensures Q) : fs.TableFits inodeNum := by
  intro h0 hcount table ht
  unfold readInodeData at h
  rw [if_neg (by omega)] at h
  simp only [ensures_bind, ensures_sub, ensures_div, ensures_rem] at h
  obtain ⟨_, _, _, h⟩ := h
  exact inodeAt_fits (h.of_ok ht)

theorem readInodeData_ensures {inodeNum : Nat} (h : fs.TableFits inodeNum) :
    (fs.readInodeData inodeNum).Ensures fun inode =>
      inode.length = fs.superblock.inodeSizeBytes := by
  have hcount := hv.inodesCount
  unfold readInodeData
  by_cases h0 : inodeNum = 0 ∨ inodeNum > fs.superblock.inodesCount
  · rw [if_pos h0]
    trivial
  · rw [if_neg h0]
    have hper : max fs.superblock.inodesPerGroup 1 ≠ 0 := by omega
    have hgroup : (inodeNum - 1) / max fs.superblock.inodesPerGroup 1 < 2 ^ 32 :=
      lt_of_le_of_lt (Nat.div_le_self _ _) (by omega)
    simp only [ensures_bind, ensures_sub, ensures_div, ensures_rem]
    refine ⟨by omega, hper, hper, (inodeTableBlock_safe hv hgroup).ensures fun table ht => ?_⟩
    exact inodeAt_ensures hv (h (by omega) (by omega) table ht)

theorem readInodeData_safe_iff (inodeNum : Nat) :
    (fs.readInodeData inodeNum).Safe ↔ fs.TableFits inodeNum :=
  ⟨readInodeData_fits, fun h => (readInodeData_ensures hv h).mono fun _ _ => trivial⟩

end Ext2Fs

theorem pointers_ensures {buf : Bytes} {count : Nat} (h : count ≤ 65536) :
    (pointers buf count).Ensures fun items => items.length = count := by
  simp only [pointers, ensures_bind, ensures_mul, pure_eq, ensures_ok]
  exact ⟨by omega, by simp⟩

namespace Ext2Fs

variable {fs : Ext2Fs} (hv : fs.Valid)

include hv

theorem pointersOf_ensures {block count : Nat} (h : count ≤ 65536) :
    (fs.pointersOf block count).Ensures fun items => items.length = count := by
  unfold pointersOf
  rw [ensures_ite]
  refine ⟨fun _ => by simp, fun _ => ?_⟩
  rw [ensures_bind]
  exact (readBlock_ensures hv block).mono fun _ _ => pointers_ensures h

theorem doubleLoop_safe {needed perBlock : Nat} (h : perBlock ≤ 65536) (ptrs out : List Nat) :
    (fs.doubleLoop needed perBlock ptrs out).Safe := by
  induction ptrs generalizing out with
  | nil => trivial
  | cons second rest ih =>
    unfold doubleLoop Safe
    rw [ensures_ite]
    refine ⟨fun _ => trivial, fun _ => ?_⟩
    rw [ensures_bind]
    exact (pointersOf_ensures hv h).mono fun items _ => ih _

theorem tripleInner_safe {needed perBlock : Nat} (h : perBlock ≤ 65536) (ptrs out : List Nat) :
    (fs.tripleInner needed perBlock ptrs out).Safe := by
  induction ptrs generalizing out with
  | nil => trivial
  | cons third rest ih =>
    unfold tripleInner Safe
    rw [ensures_bind]
    refine (pointersOf_ensures hv h).mono fun items _ => ?_
    rw [ensures_ite]
    exact ⟨fun _ => trivial, fun _ => ih _⟩

theorem tripleLoop_safe {needed perBlock : Nat} (h : perBlock ≤ 65536) (ptrs out : List Nat) :
    (fs.tripleLoop needed perBlock ptrs out).Safe := by
  have hsq : perBlock * perBlock < 2 ^ 64 :=
    lt_of_le_of_lt (Nat.mul_le_mul h h) (by decide)
  induction ptrs generalizing out with
  | nil => trivial
  | cons second rest ih =>
    unfold tripleLoop Safe
    rw [ensures_ite]
    constructor
    · intro _
      simp only [ensures_bind, ensures_mul, ensures_ite]
      exact ⟨hsq, fun _ => trivial, fun _ => ih _⟩
    · intro _
      simp only [ensures_bind]
      refine (readBlock_ensures hv second).mono fun l2 _ => ?_
      refine (pointers_ensures h).mono fun thirds _ => ?_
      refine Ensures.mono (tripleInner_safe hv h thirds out) fun r _ => ?_
      rw [ensures_ite]
      exact ⟨fun _ => trivial, fun _ => ih _⟩

omit hv in
theorem perBlock_le (hbs : fs.blockSize ≤ 65536) : max (fs.blockSize / 4) 1 ≤ 16384 := by omega

omit hv in
theorem square_le {n : Nat} (h : n ≤ 16384) :
    n * n ≤ 16384 * 16384 ∧ n * n * n ≤ 16384 * 16384 * 16384 :=
  ⟨Nat.mul_le_mul h h, Nat.mul_le_mul (Nat.mul_le_mul h h) h⟩

theorem singleIndirect_safe {perBlock : Nat} (h : perBlock ≤ 16384) (pointer needed : Nat)
    (out : List Nat) : (fs.singleIndirect pointer needed perBlock out).Safe := by
  have hle : perBlock ≤ 65536 := by omega
  unfold singleIndirect Safe
  simp only [ensures_ite, ensures_bind, ensures_add, pure_eq, ensures_ok]
  refine ⟨fun _ => ⟨fun _ => ⟨by omega, trivial⟩, fun _ => ?_⟩, fun _ => trivial⟩
  exact (pointersOf_ensures hv hle).mono fun _ _ => trivial

theorem doubleIndirect_safe {perBlock : Nat} (h : perBlock ≤ 16384) (pointer needed : Nat)
    (out : List Nat) : (fs.doubleIndirect pointer needed perBlock out).Safe := by
  have hle : perBlock ≤ 65536 := by omega
  obtain ⟨hsq, _⟩ := square_le h
  unfold doubleIndirect Safe
  simp only [ensures_ite, ensures_bind, ensures_add, ensures_mul, pure_eq, ensures_ok]
  refine ⟨fun _ => ⟨fun _ => ⟨by omega, by omega, by omega, trivial⟩, fun _ => ?_⟩,
    fun _ => trivial⟩
  refine (readBlock_ensures hv pointer).mono fun l1 _ => ?_
  exact (pointers_ensures hle).mono fun ptrs _ => doubleLoop_safe hv hle ptrs out

theorem tripleIndirect_safe {perBlock : Nat} (h : perBlock ≤ 16384) (pointer needed : Nat)
    (out : List Nat) : (fs.tripleIndirect pointer needed perBlock out).Safe := by
  have hle : perBlock ≤ 65536 := by omega
  obtain ⟨hsq, hcube⟩ := square_le h
  unfold tripleIndirect Safe
  simp only [ensures_ite, ensures_bind, ensures_add, ensures_mul, pure_eq, ensures_ok]
  refine ⟨fun _ => ⟨fun _ => ⟨by omega, by omega, by omega, by omega, by omega, trivial⟩,
    fun _ => ?_⟩, fun _ => trivial⟩
  refine (readBlock_ensures hv pointer).mono fun l1 _ => ?_
  exact (pointers_ensures hle).mono fun ptrs _ => tripleLoop_safe hv hle ptrs out

theorem indirectBlocks_safe (inode : Bytes) (needed : Nat) :
    (fs.indirectBlocks inode needed).Safe := by
  have hper := perBlock_le hv.blockSize.2
  unfold indirectBlocks Safe
  simp only [ensures_bind]
  refine Ensures.mono (singleIndirect_safe hv hper _ needed _) fun single _ => ?_
  refine Ensures.mono (doubleIndirect_safe hv hper _ needed single) fun double _ => ?_
  exact tripleIndirect_safe hv hper _ needed double

omit hv in
theorem extentAt_ensures {node : Bytes} {off : Nat} (h : off + 16 < 2 ^ 64) :
    (extentAt node off).Ensures fun exts =>
      ∀ ext ∈ exts, ext.logical < 2 ^ 32 ∧ ext.len < 2 ^ 16 := by
  have hlog := u32At_lt node off
  have hlen := u16At_lt node (off + 4)
  unfold extentAt
  simp only [readU32, readU16, ensures_bind, ensures_add, pure_eq, ensures_ok, ensures_ite]
  refine ⟨by omega, by omega, by omega, by omega, by omega, by omega, by omega, ?_, ?_⟩
  · intro hgt
    rw [ensures_sub]
    refine ⟨by simp at hgt; omega, by simp, fun _ ext hext => ?_⟩
    rw [List.mem_singleton.mp hext]
    exact ⟨hlog, by show u16At node (off + 4) - extentInitMaxLen < 2 ^ 16; omega⟩
  · intro _
    refine ⟨by simp, fun _ ext hext => ?_⟩
    rw [List.mem_singleton.mp hext]
    exact ⟨hlog, hlen⟩

omit hv in
theorem placeBlocks_ensures {needed : Nat} {ext : Extent} (hlog : ext.logical < 2 ^ 32)
    {is : List Nat} (his : ∀ i ∈ is, i < 2 ^ 16) {out : List Nat} (hout : out.length = needed) :
    (placeBlocks needed ext is out).Ensures fun out => out.length = needed := by
  induction is generalizing out with
  | nil => exact hout
  | cons i rest ih =>
    have hi := his i (by simp)
    unfold placeBlocks
    simp only [ensures_bind, ensures_add, ensures_ite, ensures_err]
    refine ⟨by omega, fun _ => hout, fun hlt => ⟨fun _ => trivial, fun _ => ?_⟩⟩
    rw [ensures_get]
    refine ⟨out[ext.logical + i], List.getElem?_eq_getElem (by omega), ?_⟩
    exact ih (fun j hj => his j (by simp [hj])) (by simpa using hout)

omit hv in
theorem placeExtents_safe {needed : Nat} {exts : List Extent}
    (h : ∀ ext ∈ exts, ext.logical < 2 ^ 32 ∧ ext.len < 2 ^ 16) {out : List Nat}
    (hout : out.length = needed) : (placeExtents needed exts out).Safe := by
  induction exts generalizing out with
  | nil => trivial
  | cons ext rest ih =>
    obtain ⟨hlog, hlen⟩ := h ext (by simp)
    have hrest : ∀ e ∈ rest, e.logical < 2 ^ 32 ∧ e.len < 2 ^ 16 :=
      fun e he => h e (by simp [he])
    unfold placeExtents Safe
    rw [ensures_ite]
    refine ⟨fun _ => ih hrest hout, fun _ => ?_⟩
    rw [ensures_bind]
    have his : ∀ i ∈ List.range ext.len, i < 2 ^ 16 := by
      intro i hi
      have := List.mem_range.mp hi
      omega
    exact (placeBlocks_ensures hlog his hout).mono fun out hout => ih hrest hout

theorem walkExtentNode_ensures (fuel : Nat) (node : Bytes) (depth : Nat)
    (hfuel : maxExtentDepth + 2 ≤ fuel + depth) (hdepth : depth ≤ maxExtentDepth + 1) :
    (fs.walkExtentNode fuel node depth).Ensures fun exts =>
      ∀ ext ∈ exts, ext.logical < 2 ^ 32 ∧ ext.len < 2 ^ 16 := by
  induction fuel generalizing node depth with
  | zero => omega
  | succ fuel ih =>
    have hent := u16At_lt node 2
    unfold walkExtentNode
    simp only [ensures_ite, ensures_err, implies_true, true_and, ensures_bind, ensures_mul,
      ensures_add]
    intro hshallow _ _ _
    refine ⟨by unfold extentEntryLen; omega, by unfold extentHeaderLen extentEntryLen; omega,
      fun _ => ?_⟩
    refine collect_ensures (P := fun i => i < 2 ^ 16) (fun i hi => ?_) fun i hi => ?_
    · simp only [ensures_bind, ensures_mul, ensures_add, ensures_ite, readU32, readU16, pure_eq,
        ensures_ok]
      unfold extentEntryLen extentHeaderLen
      refine ⟨by omega, by omega, fun _ => extentAt_ensures (by omega), fun _ => ?_⟩
      refine ⟨by omega, by omega, by omega, by omega, ?_⟩
      exact (readBlock_ensures hv _).mono fun buf _ =>
        ih buf (depth + 1) (by omega) (by omega)
    · have := List.mem_range.mp hi
      omega

theorem extentBlocks_safe {inode : Bytes} (h : 128 ≤ inode.length) (needed : Nat) :
    (fs.extentBlocks inode needed).Safe := by
  unfold extentBlocks Safe
  simp only [ensures_bind, ensures_slice]
  refine ⟨by omega, ?_⟩
  refine (walkExtentNode_ensures hv _ _ 0 le_rfl (by omega)).mono fun exts hexts => ?_
  exact placeExtents_safe hexts (by simp)

theorem inodeBlocks_safe {inode : Bytes} (h : 128 ≤ inode.length) {size : Nat}
    (hsize : size ≤ maxFileBytes) : (fs.inodeBlocks inode size).Safe := by
  have hbs := hv.blockSize
  unfold maxFileBytes at hsize
  have hmost : maxFileBytes / fs.blockSize ≤ maxFileBytes := Nat.div_le_self _ _
  unfold maxFileBytes at hmost
  unfold inodeBlocks Safe
  simp only [ensures_bind, ensures_add, ensures_sub, ensures_div, ensures_ite, ensures_ok,
    ensures_err, implies_true, true_and]
  refine ⟨by omega, by omega, by omega, fun _ => ⟨by omega, ?_, fun _ _ => ?_⟩⟩
  · unfold maxFileBytes
    omega
  · exact ⟨fun _ => extentBlocks_safe hv h _, fun _ => indirectBlocks_safe hv _ _⟩

theorem copyBlocks_ensures {size : Nat} (hsize : size ≤ maxFileBytes) (blocks : List Nat)
    {i : Nat} (hi : i ≤ size + 1) {data : Bytes} (hdata : data.length = size) :
    (fs.copyBlocks size blocks i data).Ensures fun data => data.length = size := by
  have hbs := hv.blockSize
  unfold maxFileBytes at hsize
  induction blocks generalizing i data with
  | nil => exact hdata
  | cons block rest ih =>
    have hmul : i * fs.blockSize ≤ (size + 1) * 65536 := Nat.mul_le_mul hi hbs.2
    -- the loop is left before `i` passes the size
    have hstep : i * fs.blockSize < size → i + 1 ≤ size + 1 := by
      intro hlt
      have : i * 1 ≤ i * fs.blockSize := Nat.mul_le_mul_left i (by omega)
      omega
    unfold copyBlocks
    simp only [ensures_bind, ensures_mul, ensures_ite]
    refine ⟨by omega, fun _ => hdata, fun hlt => ⟨fun _ => ih (hstep (by omega)) hdata,
      fun _ => ?_⟩⟩
    refine (readBlock_ensures hv block).mono fun buf hbuf => ?_
    simp only [ensures_slice, ensures_copyAt]
    have hpart : 0 ≤ min (size - i * fs.blockSize) fs.blockSize ∧
        min (size - i * fs.blockSize) fs.blockSize ≤ buf.length := by omega
    have hcopy : i * fs.blockSize + ((buf.drop 0).take
        (min (size - i * fs.blockSize) fs.blockSize - 0)).length ≤ data.length := by
      rw [Lib.Outcome.length_slice hpart]
      omega
    refine ⟨hpart, hcopy, ih (hstep (by omega)) ?_⟩
    rw [length_copyAt hcopy, hdata]

theorem readInodeContent_ensures {inodeNum : Nat} (h : fs.TableFits inodeNum) :
    (fs.readInodeContent inodeNum).Ensures fun data => data.length ≤ maxFileBytes := by
  have hsize := hv.inodeSize
  unfold readInodeContent
  rw [ensures_bind]
  refine (readInodeData_ensures hv h).mono fun inode hlen => ?_
  simp only [ensures_ite, ensures_ok, ensures_err, implies_true, true_and, ensures_bind,
    ensures_add, ensures_slice]
  refine ⟨fun _ => by simp, fun _ hle => ⟨fun hlink => ?_, fun _ => ?_⟩⟩
  · refine ⟨by omega, by omega, ?_⟩
    rw [length_slice (by omega)]
    unfold maxFileBytes
    omega
  · refine Ensures.mono (inodeBlocks_safe hv (by omega) (by omega)) fun blocks _ => ?_
    refine (copyBlocks_ensures hv (by omega) blocks (by omega) (by simp)).mono fun data hdata => ?_
    omega

end Ext2Fs

theorem direntAt_safe {data : Bytes} {pos inode recLen nameLen fileType : Nat}
    (hpos : pos + nameLen + 16 < 2 ^ 64) :
    (direntAt data pos inode recLen nameLen fileType).Safe := by
  unfold direntAt Safe
  simp only [ensures_bind, ensures_add, ensures_ite, ensures_slice, ensures_ok]
  exact ⟨by omega, by omega, fun h => ⟨⟨by omega, h.2.2.2.2⟩, fun _ => trivial, fun _ => trivial⟩,
    fun _ => trivial⟩

theorem dirWalk_safe {data : Bytes} (hdata : data.length ≤ maxFileBytes) (fuel : Nat) {pos : Nat}
    (hpos : pos ≤ data.length) (hfuel : data.length < fuel + pos) :
    (dirWalk data fuel pos).Safe := by
  unfold maxFileBytes at hdata
  induction fuel generalizing pos with
  | zero => omega
  | succ fuel ih =>
    unfold dirWalk Safe
    simp only [readU32, readU16, ensures_bind, ensures_add, ensures_ite, ensures_get, pure_eq,
      ensures_ok]
    refine ⟨by omega, fun hhead => ⟨by omega, by omega, by omega, by omega, data[pos + 6],
      List.getElem?_eq_getElem (by omega), by omega, data[pos + 7],
      List.getElem?_eq_getElem (by omega), fun _ => trivial, fun hrec => ?_⟩, fun _ => trivial⟩
    have hrl := u16At_lt data (pos + 4)
    have hname := (data[pos + 6]).toNat_lt
    refine ⟨by omega, fun _ => trivial, fun hnext => ?_⟩
    refine Ensures.mono (direntAt_safe (by omega)) fun here _ => ?_
    exact Ensures.mono (ih (by omega) (by omega)) fun rest _ => trivial

namespace Ext2Fs

variable {fs : Ext2Fs} (hv : fs.Valid)

include hv

theorem readDirEntries_safe {inodeNum : Nat} (h : fs.TableFits inodeNum) :
    (fs.readDirEntries inodeNum).Safe := by
  unfold readDirEntries Safe
  rw [ensures_bind]
  exact (readInodeContent_ensures hv h).mono fun data hdata =>
    dirWalk_safe hdata _ (by omega) (by omega)

theorem findInDir_ensures {d : Nat} (h : fs.TableFits d) {name : Name} (hname : ValidPart name)
    (hd : fs.Walked d) : (fs.findInDir d name).Ensures fs.Walked := by
  unfold findInDir
  rw [ensures_bind]
  refine (readDirEntries_safe hv h).ensures fun entries hread => ?_
  cases hlook : lookup entries name with
  | none => trivial
  | some e => exact .step hd hread hname hlook

end Ext2Fs

namespace Ext2Fs

variable {fs : Ext2Fs}

theorem lineOf_ne_err (fs : Ext2Fs) (e : DirRaw) (err : FsError) : fs.lineOf e ≠ .err err := by
  unfold lineOf entryMeta
  split
  · simp
  · cases fs.readInodeData e.inode <;> simp [attempt]

/-- An entry of a listing that is not `.` or `..`. -/
def Listed (fs : Ext2Fs) (d : Nat) (e : DirRaw) : Prop :=
  ∃ inode entries, fs.readInodeData d = .ok inode ∧ inodeIsDir inode = true ∧
    fs.readDirEntries d = .ok entries ∧ e ∈ entries ∧ e.name ≠ ['.'] ∧ e.name ≠ ['.', '.']

/-- The inodes the driver comes to all fit: those that paths lead to, and those of the entries
of a directory that is listed. -/
def InodesFit (fs : Ext2Fs) : Prop :=
  (∀ n, fs.Walked n → fs.TableFits n) ∧
    ∀ d e, fs.Walked d → fs.Listed d e → fs.TableFits e.inode

def OperationsSafe (fs : Ext2Fs) : Prop :=
  ∀ path, (fs.readdir path).Safe ∧ (fs.open path).Safe ∧ (fs.exists path).Safe ∧
    (fs.stat path).Safe

section Fit

variable (hv : fs.Valid) (hfit : fs.InodesFit)

include hv hfit

theorem walkPath_ensures {ps : List Name} (hps : ∀ p ∈ ps, ValidPart p) {d : Nat}
    (hd : fs.Walked d) : (fs.walkPath ps d).Ensures fs.Walked := by
  induction ps generalizing d with
  | nil => exact hd
  | cons p ps ih =>
    simp only [walkPath, ensures_bind]
    exact (findInDir_ensures hv (hfit.1 d hd) (hps p (by simp)) hd).mono fun next hnext =>
      ih (fun q hq => hps q (by simp [hq])) hnext

theorem findPath_ensures (path : Name) : (fs.findPath path).Ensures fs.Walked :=
  walkPath_ensures hv hfit (fun _ hp => validPart_of_mem hp) .root

theorem stat_safe (path : Name) : (fs.stat path).Safe := by
  simp only [stat, Safe, ensures_bind]
  refine (findPath_ensures hv hfit path).mono fun n hn => ?_
  exact (readInodeData_ensures hv (hfit.1 n hn)).mono fun _ _ => trivial

theorem exists_safe (path : Name) : (fs.exists path).Safe := by
  simp only [Ext2Fs.exists, Safe, ensures_bind, ensures_attempt]
  exact ⟨(findPath_ensures hv hfit path).mono fun _ _ => trivial, fun _ _ => trivial,
    fun _ _ => trivial⟩

theorem open_safe (path : Name) : (fs.open path).Safe := by
  simp only [Ext2Fs.open, Safe, ensures_bind]
  refine (findPath_ensures hv hfit path).mono fun n hn => ?_
  refine (readInodeData_ensures hv (hfit.1 n hn)).mono fun inode _ => ?_
  rw [ensures_ite]
  refine ⟨fun _ => trivial, fun _ => ?_⟩
  rw [ensures_bind]
  exact (readInodeContent_ensures hv (hfit.1 n hn)).mono fun _ _ => trivial

theorem readdir_safe (path : Name) : (fs.readdir path).Safe := by
  simp only [readdir, Safe, ensures_bind]
  refine (findPath_ensures hv hfit path).mono fun n hn => ?_
  have hdata : (fs.readInodeData n).Safe := (readInodeData_safe_iff hv n).mpr (hfit.1 n hn)
  refine hdata.ensures fun inode hinode => ?_
  rw [ensures_ite]
  refine ⟨fun hdir => ?_, fun _ => trivial⟩
  rw [ensures_bind]
  refine (readDirEntries_safe hv (hfit.1 n hn)).ensures fun raw hraw => collect_safe fun e he => ?_
  unfold lineOf Safe
  rw [ensures_ite]
  refine ⟨fun _ => trivial, fun hdots => ?_⟩
  obtain ⟨h1, h2⟩ := not_or.mp hdots
  have hmeta : (fs.readInodeData e.inode).Safe := (readInodeData_safe_iff hv e.inode).mpr
    (hfit.2 n e hn ⟨inode, raw, hinode, hdir, hraw, he, h1, h2⟩)
  simp only [entryMeta, ensures_bind, ensures_attempt]
  exact ⟨hmeta, fun _ _ => trivial, fun _ _ => trivial⟩

end Fit

theorem fits_of_stat {path : Name} {n : Nat} (h : (fs.stat path).Safe)
    (hpath : fs.findPath path = .ok n) : fs.TableFits n := by
  simp only [stat, Safe, hpath, ok_bind, ensures_bind] at h
  exact readInodeData_fits h

theorem fits_of_readdir {path : Name} {d : Nat} (h : (fs.readdir path).Safe)
    (hpath : fs.findPath path = .ok d) {e : DirRaw} (he : fs.Listed d e) :
    fs.TableFits e.inode := by
  obtain ⟨inode, entries, hinode, hdir, hread, hmem, h1, h2⟩ := he
  simp only [readdir, Safe, hpath, hinode, ok_bind, if_pos hdir, hread] at h
  have hline := collect_turn (fun x _ => lineOf_ne_err fs x) h hmem
  unfold lineOf Safe at hline
  rw [if_neg (by simp [h1, h2])] at hline
  simp only [entryMeta, ensures_bind, ensures_attempt] at hline
  exact readInodeData_fits hline.1

theorem operationsSafe_iff (hv : fs.Valid) : fs.OperationsSafe ↔ fs.InodesFit := by
  constructor
  · intro h
    refine ⟨fun n hn => ?_, fun d e hd he => ?_⟩
    · obtain ⟨path, hpath⟩ := walked_iff.mp hn
      exact fits_of_stat (h path).2.2.2 hpath
    · obtain ⟨path, hpath⟩ := walked_iff.mp hd
      exact fits_of_readdir (h path).1 hpath he
  · exact fun hfit path => ⟨readdir_safe hv hfit path, open_safe hv hfit path,
      exists_safe hv hfit path, stat_safe hv hfit path⟩

end Ext2Fs

/-- What `new` reads of the disk, as far as it takes the superblock. -/
def Superblock (disk : RawDisk) (sb : ExtSuperblock) : Prop :=
  ∃ buf, disk.read 2 1024 = some buf ∧ ExtSuperblock.parse buf = .ok sb ∧ sb.Sane

theorem Superblock.valid {disk : RawDisk} {sb : ExtSuperblock} (h : Superblock disk sb) :
    (fsOf disk sb).Valid := by
  obtain ⟨buf, _, hparse, hsane⟩ := h
  exact fsOf_valid hparse hsane

def newRoot (fs : Ext2Fs) : Res Ext2Fs := do
  let root ← fs.readInodeData 2
  if u16At root 0 &&& sIfmt ≠ sIfdir then .err .invalidPath else .ok fs

theorem new_of_superblock {disk : RawDisk} {sb : ExtSuperblock} (h : Superblock disk sb) :
    Ext2Fs.new disk = newRoot (fsOf disk sb) := by
  obtain ⟨buf, hbuf, hparse, hs⟩ := h
  obtain ⟨hlo, hhi⟩ := two_pow_le_64 hs.logBlockSize
  have hlog : sb.logBlockSize < 32 := by have := hs.logBlockSize; omega
  have hbs : 1024 * 2 ^ sb.logBlockSize % 2 ^ 32 = 1024 * 2 ^ sb.logBlockSize :=
    Nat.mod_eq_of_lt (by omega)
  have hsize : sb.inodeSizeBytes ≠ 0 := by have := inodeSizeBytes_ge sb; omega
  simp only [Ext2Fs.new, hbuf, ofOption, ok_bind, hparse, hs.supported, shl, if_pos hlog, hbs,
    Lib.Outcome.div, if_neg hsize]
  rw [if_neg (by have := hs.logBlockSize; omega),
    if_neg (by have := hs.blocksPerGroup; have := hs.inodesPerGroup; omega),
    if_neg (by have := hs.descSize; omega)]
  rfl

theorem new_of_not_superblock {disk : RawDisk} (h : ∀ sb, ¬ Superblock disk sb) :
    ∃ e, Ext2Fs.new disk = .err e := by
  unfold Ext2Fs.new
  cases hbuf : disk.read 2 1024 with
  | none => exact ⟨_, rfl⟩
  | some buf =>
    simp only [ofOption, ok_bind]
    cases hparse : ExtSuperblock.parse buf with
    | error e => exact ⟨e, rfl⟩
    | ok sb =>
      simp only []
      cases hsup : sb.checkSupported with
      | error e => exact ⟨e, rfl⟩
      | ok u =>
        simp only []
        by_cases hlog : sb.logBlockSize > 6
        · exact ⟨_, by rw [if_pos hlog]⟩
        rw [if_neg hlog]
        by_cases hgroups : sb.blocksPerGroup = 0 ∨ sb.inodesPerGroup = 0
        · exact ⟨_, by rw [if_pos hgroups]⟩
        rw [if_neg hgroups]
        obtain ⟨_, hhi⟩ := two_pow_le_64 (not_lt.mp hlog)
        have hbs : 1024 * 2 ^ sb.logBlockSize % 2 ^ 32 = 1024 * 2 ^ sb.logBlockSize :=
          Nat.mod_eq_of_lt (by omega)
        simp only [shl, if_pos (show sb.logBlockSize < 32 by omega), hbs, ok_bind]
        by_cases hdesc : sb.descSize < 32 ∨ sb.descSize > 1024 * 2 ^ sb.logBlockSize
        · exact ⟨_, by rw [if_pos hdesc]⟩
        · exact absurd ⟨buf, hbuf, hparse, hsup, by omega, fun h0 => hgroups (Or.inl h0),
            fun h0 => hgroups (Or.inr h0), by omega⟩ (h sb)

theorem new_eq_ok {disk : RawDisk} {fs : Ext2Fs} (h : Ext2Fs.new disk = .ok fs) :
    ∃ sb, Superblock disk sb ∧ fs = fsOf disk sb := by
  by_cases hsb : ∃ sb, Superblock disk sb
  · obtain ⟨sb, hsb⟩ := hsb
    refine ⟨sb, hsb, ?_⟩
    rw [new_of_superblock hsb, newRoot] at h
    cases hroot : (fsOf disk sb).readInodeData 2 with
    | ok root =>
      rw [hroot, ok_bind] at h
      split at h
      · contradiction
      · cases h
        rfl
    | err e => simp [hroot] at h
    | panic => simp [hroot] at h
    | diverge => simp [hroot] at h
  · obtain ⟨e, he⟩ := new_of_not_superblock (not_exists.mp hsb)
    simp [he] at h

theorem new_safe_iff (disk : RawDisk) :
    (Ext2Fs.new disk).Safe ↔ ∀ sb, Superblock disk sb → (fsOf disk sb).TableFits 2 := by
  constructor
  · intro h sb hsb
    rw [new_of_superblock hsb, newRoot, Safe, ensures_bind] at h
    exact Ext2Fs.readInodeData_fits h
  · intro h
    by_cases hsb : ∃ sb, Superblock disk sb
    · obtain ⟨sb, hsb⟩ := hsb
      rw [new_of_superblock hsb, newRoot, Safe, ensures_bind]
      refine (Ext2Fs.readInodeData_ensures hsb.valid (h sb hsb)).mono fun root _ => ?_
      rw [ensures_ite]
      exact ⟨fun _ => trivial, fun _ => trivial⟩
    · obtain ⟨e, he⟩ := new_of_not_superblock (not_exists.mp hsb)
      rw [he]
      trivial

/-- A volume with one group, whose 64-bit descriptor is all ones, and inodes of a block. -/
def fullDescriptor : RawDisk :=
  RawDisk.ofMemory 64 fun a =>
    if 2048 ≤ a ∧ a < 2112 then 0xFF
    else
      (([(1024, 8), (1044, 1), (1056, 8), (1064, 8), (1080, 0x53), (1081, 0xEF), (1100, 1),
        (1113, 4), (1120, 0x80), (1278, 64)] : List (Nat × UInt8)).lookup a).getD 0

end Vibra.Ext
