import Vibra.Ext.Volume

/-! # The block map of a classic inode

The fifteen pointers of an inode are the roots of twelve paths of length 0 and of three trees, of
depth 1, 2 and 3.
-/

namespace Vibra.Ext

open Lib (Outcome Bytes u32At)
open Lib.Outcome

theorem flatMap_range {α : Type} (m n : Nat) (f : Nat → Nat → α) :
    ((List.range n).flatMap fun i => (List.range m).map (f i)) =
      (List.range (n * m)).map fun k => f (k / m) (k % m) := by
  rcases Nat.eq_zero_or_pos m with rfl | hm
  · simp
  induction n with
  | zero => simp
  | succ n ih =>
    have hrow : (List.range m).map (f n) =
        (List.range m).map fun k => f ((n * m + k) / m) ((n * m + k) % m) := by
      apply List.map_congr_left
      intro k hk
      have hlt := List.mem_range.mp hk
      rw [Nat.mul_comm n m, Nat.mul_add_div hm, Nat.mul_add_mod, Nat.div_eq_of_lt hlt,
        Nat.mod_eq_of_lt hlt, Nat.add_zero]
    rw [List.range_succ, List.flatMap_append, ih, List.flatMap_singleton, hrow, Nat.succ_mul,
      List.range_add, List.map_append, List.map_map]
    rfl

section PushUpTo

variable {needed : Nat} {out items more : List Nat}

theorem pushUpTo_nil : pushUpTo needed [] items = items.take needed := rfl

theorem pushUpTo_append :
    pushUpTo needed out (items ++ more) = pushUpTo needed (pushUpTo needed out items) more := by
  simp only [pushUpTo, List.take_append, List.length_append, List.length_take, List.append_assoc]
  congr 2
  rw [show needed - out.length - items.length =
    needed - (out.length + min (needed - out.length) items.length) by omega]

theorem pushUpTo_full (h : needed ≤ out.length) : pushUpTo needed out items = out := by
  rw [pushUpTo, Nat.sub_eq_zero_of_le h, List.take_zero, List.append_nil]

theorem length_pushUpTo (items : List Nat) (h : out.length ≤ needed) :
    (pushUpTo needed out items).length = min needed (out.length + items.length) := by
  simp only [pushUpTo, List.length_append, List.length_take]
  omega

theorem length_of_limit {limit : Nat} (items : List Nat) (h : out.length = min needed limit) :
    (pushUpTo needed out items).length = min needed (limit + items.length) := by
  rw [length_pushUpTo _ (h ▸ Nat.min_le_left ..), h]
  omega

theorem length_eq_limit {limit : Nat} (h : out.length = min needed limit)
    (hmore : out.length < needed) : out.length = limit := by
  omega

theorem pushHoles_eq (limit : Nat) :
    Ext2Fs.pushHoles needed limit out =
      pushUpTo needed out (List.replicate (limit - out.length) 0) := by
  rw [Ext2Fs.pushHoles, pushUpTo, List.take_replicate, Nat.sub_min_sub_right, Nat.min_comm]

end PushUpTo

namespace Ext2Fs

variable (fs : Ext2Fs)

/-- Where a pointer leads through a path of indices. A pointer that is 0 is a hole, and what lies
below a hole is a hole. -/
def follow : Nat → List Nat → Nat
  | pointer, [] => pointer
  | pointer, i :: path =>
    if pointer = 0 then 0
    else match fs.readBlock pointer with
      | .ok buf => follow (u32At buf (i * 4)) path
      | _ => 0

/-- A pointer of the inode and the indices from there on, by the logical block. -/
def blockPath (perBlock block : Nat) : Nat × List Nat :=
  if block < 12 then (block, [])
  else if block < 12 + perBlock then (12, [block - 12])
  else if block < 12 + perBlock + perBlock ^ 2 then
    let k := block - (12 + perBlock)
    (13, [k / perBlock, k % perBlock])
  else
    let k := block - (12 + perBlock + perBlock ^ 2)
    (14, [k / perBlock / perBlock, k / perBlock % perBlock, k % perBlock])

/-- The pointer `i_block[i]` of an inode. -/
def inodePointer (inode : Bytes) (i : Nat) : Nat := u32At inode (40 + i * 4)

def blockPointer (inode : Bytes) (block : Nat) : Nat :=
  let (root, path) := blockPath (fs.blockSize / 4) block
  fs.follow (inodePointer inode root) path

/-- An indirect block of an inode: reached from `i_block[12 + level]` by at most `level`
indices. -/
def IndirectBlock (inode : Bytes) (block : Nat) : Prop :=
  block ≠ 0 ∧ ∃ level path, level < 3 ∧ path.length ≤ level ∧
    (∀ i ∈ path, i < fs.blockSize / 4) ∧
    block = fs.follow (inodePointer inode (12 + level)) path

def entry (block i : Nat) : Nat := fs.follow block [i]

def Readable (block : Nat) : Prop := block = 0 ∨ ∃ buf, fs.readBlock block = .ok buf

variable {fs} {perBlock needed : Nat}

theorem entry_zero (i : Nat) : fs.entry 0 i = 0 := rfl

theorem entry_eq {block : Nat} {buf : Bytes} (h : block ≠ 0) (hr : fs.readBlock block = .ok buf)
    (i : Nat) : fs.entry block i = u32At buf (i * 4) := by
  simp [entry, follow, h, hr]

theorem follow_zero (path : List Nat) : fs.follow 0 path = 0 := by
  cases path with
  | nil => rfl
  | cons i path => rfl

theorem follow_cons (block i : Nat) (path : List Nat) :
    fs.follow block (i :: path) = fs.follow (fs.entry block i) path := by
  by_cases h : block = 0
  · subst h
    rw [follow_zero, entry_zero, follow_zero]
  · simp only [entry, follow, h, if_false]
    cases fs.readBlock block with
    | ok buf => rfl
    | err e => exact (follow_zero path).symm
    | panic => exact (follow_zero path).symm
    | diverge => exact (follow_zero path).symm

theorem follow_append {block : Nat} {path : List Nat} (h : fs.follow block path = 0)
    (more : List Nat) : fs.follow block (path ++ more) = 0 := by
  induction path generalizing block with
  | nil =>
    rw [show block = 0 from h, follow_zero]
  | cons i path ih =>
    rw [List.cons_append, follow_cons]
    rw [follow_cons] at h
    exact ih h

theorem follow_lt {block : Nat} (h : block < 2 ^ 32) (path : List Nat) :
    fs.follow block path < 2 ^ 32 := by
  induction path generalizing block with
  | nil => exact h
  | cons i path ih =>
    simp only [follow]
    split
    · omega
    · cases fs.readBlock block with
      | ok buf => exact ih (Lib.u32At_lt buf (i * 4))
      | err e => simp
      | panic => simp
      | diverge => simp

theorem IndirectBlock.lt {inode : Bytes} {block : Nat} (h : fs.IndirectBlock inode block) :
    block < 2 ^ 32 := by
  rcases h with ⟨_, level, path, _, _, _, rfl⟩
  exact follow_lt (Lib.u32At_lt _ _) path

variable (fs) in
def entries (perBlock block : Nat) : List Nat := (List.range perBlock).map (fs.entry block)

theorem length_entries (block : Nat) : (fs.entries perBlock block).length = perBlock := by
  simp [entries]

theorem entries_zero : fs.entries perBlock 0 = List.replicate perBlock 0 := by
  apply List.eq_replicate_iff.mpr
  constructor
  · exact length_entries 0
  · intro x hx
    rcases List.mem_map.mp hx with ⟨i, _, rfl⟩
    exact entry_zero i

theorem flatMap_entries_zero : (fs.entries perBlock 0).flatMap (fs.entries perBlock) =
    List.replicate (perBlock * perBlock) 0 := by
  rw [entries_zero, List.flatMap_replicate, entries_zero, List.flatten_replicate_replicate]

theorem pointers_eq {block : Nat} {buf : Bytes} (hp : perBlock ≤ 65536) (h : block ≠ 0)
    (hr : fs.readBlock block = .ok buf) : pointers buf perBlock = .ok (fs.entries perBlock block) := by
  have hmul : (Lib.Outcome.mul 64 perBlock 4 : Res Nat) = .ok (perBlock * 4) :=
    if_pos (by omega)
  simp only [pointers, hmul, ok_bind, pure_eq, entries]
  exact congrArg Outcome.ok (List.map_congr_left fun i _ => (entry_eq h hr i).symm)

theorem pointersOf_eq {block : Nat} (hp : perBlock ≤ 65536) (h : fs.Readable block) :
    fs.pointersOf block perBlock = .ok (fs.entries perBlock block) := by
  unfold pointersOf
  rcases Decidable.em (block = 0) with rfl | hne
  · rw [if_pos rfl, entries_zero]
  · rcases h with h | ⟨buf, hr⟩
    · exact absurd h hne
    · rw [if_neg hne, hr, ok_bind, pointers_eq hp hne hr]

theorem doubleLoop_eq (hp : perBlock ≤ 65536) (ptrs out : List Nat)
    (h : ∀ block ∈ ptrs, fs.Readable block) :
    fs.doubleLoop needed perBlock ptrs out =
      .ok (pushUpTo needed out (ptrs.flatMap (fs.entries perBlock))) := by
  induction ptrs generalizing out with
  | nil => simp [doubleLoop, pushUpTo]
  | cons second rest ih =>
    unfold doubleLoop
    by_cases hfull : out.length ≥ needed
    · rw [if_pos hfull, pushUpTo_full hfull]
    · rw [if_neg hfull, pointersOf_eq hp (h second List.mem_cons_self), ok_bind,
        ih _ fun block hb => h block (List.mem_cons_of_mem second hb), List.flatMap_cons,
        pushUpTo_append]

theorem tripleInner_eq (hp : perBlock ≤ 65536) (ptrs out : List Nat)
    (hout : out.length ≤ needed) (h : ∀ block ∈ ptrs, fs.Readable block) :
    ∃ stop, fs.tripleInner needed perBlock ptrs out =
        .ok (pushUpTo needed out (ptrs.flatMap (fs.entries perBlock)), stop) ∧
      (stop = true →
        needed ≤ (pushUpTo needed out (ptrs.flatMap (fs.entries perBlock))).length) := by
  induction ptrs generalizing out with
  | nil =>
    refine ⟨false, ?_, by simp⟩
    simp [tripleInner, pushUpTo]
  | cons third rest ih =>
    have hrest : ∀ block ∈ rest, fs.Readable block :=
      fun block hb => h block (List.mem_cons_of_mem third hb)
    have hpushed := length_pushUpTo (fs.entries perBlock third) hout
    unfold tripleInner
    rw [pointersOf_eq hp (h third List.mem_cons_self), ok_bind, List.flatMap_cons,
      pushUpTo_append]
    by_cases hstop : needed - out.length < (fs.entries perBlock third).length
    · have hfull : needed ≤ (pushUpTo needed out (fs.entries perBlock third)).length := by
        omega
      rw [if_pos hstop, pushUpTo_full hfull]
      exact ⟨true, rfl, fun _ => hfull⟩
    · rw [if_neg hstop]
      exact ih _ (by omega) hrest

theorem tripleLoop_eq (hp : perBlock ≤ 65536) (hsq : perBlock * perBlock < 2 ^ 64)
    (ptrs out : List Nat) (hout : out.length ≤ needed) (h : ∀ block ∈ ptrs, fs.Readable block)
    (hbelow : ∀ block ∈ ptrs, ∀ third ∈ fs.entries perBlock block, fs.Readable third) :
    fs.tripleLoop needed perBlock ptrs out =
      .ok (pushUpTo needed out (ptrs.flatMap fun second =>
        (fs.entries perBlock second).flatMap (fs.entries perBlock))) := by
  induction ptrs generalizing out with
  | nil => simp [tripleLoop, pushUpTo]
  | cons second rest ih =>
    have hmul : (Lib.Outcome.mul 64 perBlock perBlock : Res Nat) = .ok (perBlock * perBlock) :=
      if_pos hsq
    have hnext : ∀ out : List Nat, out.length ≤ needed →
        fs.tripleLoop needed perBlock rest out = .ok (pushUpTo needed out
          (rest.flatMap fun second =>
            (fs.entries perBlock second).flatMap (fs.entries perBlock))) := by
      intro out hout
      apply ih out hout
      · exact fun block hb => h block (List.mem_cons_of_mem second hb)
      · exact fun block hb => hbelow block (List.mem_cons_of_mem second hb)
    rw [List.flatMap_cons, pushUpTo_append]
    unfold tripleLoop
    by_cases hhole : second = 0
    · subst hhole
      have hpushed := length_pushUpTo (List.replicate (perBlock * perBlock) 0) hout
      rw [List.length_replicate] at hpushed
      rw [if_pos rfl, hmul, ok_bind, flatMap_entries_zero]
      by_cases hstop : needed - out.length < perBlock * perBlock
      · have hfull : needed ≤
            (pushUpTo needed out (List.replicate (perBlock * perBlock) 0)).length := by omega
        rw [if_pos hstop, pushUpTo_full hfull]
      · rw [if_neg hstop]
        exact hnext _ (by omega)
    · rcases h second List.mem_cons_self with hz | ⟨buf, hr⟩
      · exact absurd hz hhole
      · rw [if_neg hhole, hr, ok_bind, pointers_eq hp hhole hr, ok_bind]
        rcases tripleInner_eq hp (fs.entries perBlock second) out hout
          (hbelow second List.mem_cons_self) with ⟨stop, hinner, hfull⟩
        rw [hinner, ok_bind]
        have hpushed := length_pushUpTo
          ((fs.entries perBlock second).flatMap (fs.entries perBlock)) hout
        cases stop with
        | true => exact congrArg Outcome.ok (pushUpTo_full (hfull rfl)).symm
        | false => exact hnext _ (by omega)

/-! ## The three trees -/

variable {pointer : Nat} {out : List Nat}

/-- The block numbers at which the single and the double indirect blocks end. -/
theorem limits (hp : perBlock ≤ 65536) :
    (Lib.Outcome.add 64 12 perBlock : Res Nat) = .ok (12 + perBlock) ∧
      (Lib.Outcome.mul 64 perBlock perBlock : Res Nat) = .ok (perBlock * perBlock) ∧
      (Lib.Outcome.add 64 (12 + perBlock) (perBlock * perBlock) : Res Nat) =
        .ok (12 + perBlock + perBlock * perBlock) := by
  have hsq : perBlock * perBlock ≤ 65536 * 65536 := Nat.mul_le_mul hp hp
  exact ⟨if_pos (by omega), if_pos (by omega), if_pos (by omega)⟩

theorem singleIndirect_eq (hp : perBlock ≤ 65536) (hlen : out.length < needed → out.length = 12)
    (hroot : fs.Readable pointer) :
    fs.singleIndirect pointer needed perBlock out =
      .ok (pushUpTo needed out (fs.entries perBlock pointer)) := by
  unfold singleIndirect
  by_cases hmore : out.length < needed
  · rw [if_pos hmore]
    by_cases hhole : pointer = 0
    · subst hhole
      rw [if_pos rfl, (limits hp).1, ok_bind, pure_eq, pushHoles_eq, entries_zero,
        hlen hmore, Nat.add_sub_cancel_left]
    · rw [if_neg hhole, pointersOf_eq hp hroot, ok_bind, pure_eq]
  · rw [if_neg hmore, pushUpTo_full (Nat.le_of_not_lt hmore)]

theorem doubleIndirect_eq (hp : perBlock ≤ 65536)
    (hlen : out.length < needed → out.length = 12 + perBlock) (hroot : fs.Readable pointer)
    (hbelow : ∀ second ∈ fs.entries perBlock pointer, fs.Readable second) :
    fs.doubleIndirect pointer needed perBlock out =
      .ok (pushUpTo needed out
        ((fs.entries perBlock pointer).flatMap (fs.entries perBlock))) := by
  unfold doubleIndirect
  by_cases hmore : out.length < needed
  · rw [if_pos hmore]
    by_cases hhole : pointer = 0
    · subst hhole
      obtain ⟨h1, h2, h3⟩ := limits hp
      rw [if_pos rfl, h1, ok_bind, h2, ok_bind, h3, ok_bind, pure_eq, pushHoles_eq,
        hlen hmore, Nat.add_sub_cancel_left, flatMap_entries_zero]
    · rcases hroot with hz | ⟨buf, hr⟩
      · exact absurd hz hhole
      · rw [if_neg hhole, hr, ok_bind, pointers_eq hp hhole hr, ok_bind,
          doubleLoop_eq hp _ _ hbelow]
  · rw [if_neg hmore, pushUpTo_full (Nat.le_of_not_lt hmore)]

theorem tripleIndirect_eq (hp : perBlock ≤ 65536) (hcube : perBlock * perBlock * perBlock < 2 ^ 48)
    (hout : out.length ≤ needed)
    (hlen : out.length < needed → out.length = 12 + perBlock + perBlock * perBlock)
    (hroot : fs.Readable pointer)
    (hbelow : ∀ second ∈ fs.entries perBlock pointer, fs.Readable second)
    (hleaf : ∀ second ∈ fs.entries perBlock pointer, ∀ third ∈ fs.entries perBlock second,
      fs.Readable third) :
    fs.tripleIndirect pointer needed perBlock out =
      .ok (pushUpTo needed out ((fs.entries perBlock pointer).flatMap fun second =>
        (fs.entries perBlock second).flatMap (fs.entries perBlock))) := by
  have hsq : perBlock * perBlock ≤ 65536 * 65536 := Nat.mul_le_mul hp hp
  unfold tripleIndirect
  by_cases hmore : out.length < needed
  · rw [if_pos hmore]
    by_cases hhole : pointer = 0
    · subst hhole
      obtain ⟨h2, h1, h3⟩ := limits hp
      have h4 : (Lib.Outcome.mul 64 (perBlock * perBlock) perBlock : Res Nat) =
          .ok (perBlock * perBlock * perBlock) := if_pos (by omega)
      have h5 : (Lib.Outcome.add 64 (12 + perBlock + perBlock * perBlock)
            (perBlock * perBlock * perBlock) : Res Nat) =
          .ok (12 + perBlock + perBlock * perBlock + perBlock * perBlock * perBlock) :=
        if_pos (by omega)
      have hholes : (fs.entries perBlock 0).flatMap (fun second =>
            (fs.entries perBlock second).flatMap (fs.entries perBlock)) =
          List.replicate (perBlock * perBlock * perBlock) 0 := by
        rw [entries_zero, List.flatMap_replicate, flatMap_entries_zero,
          List.flatten_replicate_replicate, Nat.mul_comm]
      rw [if_pos rfl, h1, ok_bind, h2, ok_bind, h3, ok_bind, h4, ok_bind, h5, ok_bind, pure_eq,
        pushHoles_eq, hlen hmore, Nat.add_sub_cancel_left, hholes]
    · rcases hroot with hz | ⟨buf, hr⟩
      · exact absurd hz hhole
      · rw [if_neg hhole, hr, ok_bind, pointers_eq hp hhole hr, ok_bind]
        exact tripleLoop_eq hp (by omega) _ _ hout hbelow hleaf
  · rw [if_neg hmore, pushUpTo_full (Nat.le_of_not_lt hmore)]

theorem double_eq (pointer : Nat) :
    (fs.entries perBlock pointer).flatMap (fs.entries perBlock) =
      (List.range (perBlock * perBlock)).map fun k =>
        fs.follow pointer [k / perBlock, k % perBlock] := by
  rw [entries, List.flatMap_map]
  simp only [follow_cons pointer]
  exact flatMap_range perBlock perBlock fun i => fs.entry (fs.entry pointer i)

theorem triple_eq (pointer : Nat) :
    ((fs.entries perBlock pointer).flatMap fun second =>
        (fs.entries perBlock second).flatMap (fs.entries perBlock)) =
      (List.range (perBlock * (perBlock * perBlock))).map fun k =>
        fs.follow pointer [k / perBlock / perBlock, k / perBlock % perBlock, k % perBlock] := by
  rw [entries, List.flatMap_map]
  simp only [double_eq]
  rw [flatMap_range (perBlock * perBlock) perBlock fun i k =>
    fs.follow (fs.entry pointer i) [k / perBlock, k % perBlock]]
  apply List.map_congr_left
  intro k _
  rw [← follow_cons, Nat.div_div_eq_div_mul, Nat.mod_mul_right_div_self, Nat.mod_mul_left_mod]

section BlockPointer

variable (inode : Bytes) (hp : fs.blockSize / 4 = perBlock)

theorem blockPointer_direct {k : Nat} (hk : k < 12) :
    fs.blockPointer inode k = inodePointer inode k := by
  simp [blockPointer, blockPath, hk, follow]

include hp

theorem blockPointer_single {k : Nat} (hk : k < perBlock) :
    fs.blockPointer inode (12 + k) = fs.entry (inodePointer inode 12) k := by
  rw [blockPointer, blockPath, hp, if_neg (by omega), if_pos (by omega), Nat.add_sub_cancel_left]
  rfl

theorem blockPointer_double {k : Nat} (hk : k < perBlock ^ 2) :
    fs.blockPointer inode (12 + perBlock + k) =
      fs.follow (inodePointer inode 13) [k / perBlock, k % perBlock] := by
  rw [blockPointer, blockPath, hp, if_neg (by omega), if_neg (by omega), if_pos (by omega),
    Nat.add_sub_cancel_left]

theorem blockPointer_triple (k : Nat) :
    fs.blockPointer inode (12 + perBlock + perBlock ^ 2 + k) =
      fs.follow (inodePointer inode 14)
        [k / perBlock / perBlock, k / perBlock % perBlock, k % perBlock] := by
  rw [blockPointer, blockPath, hp, if_neg (by omega), if_neg (by omega), if_neg (by omega),
    Nat.add_sub_cancel_left]

theorem blockPointer_range :
    (List.range (12 + perBlock + perBlock ^ 2 + perBlock ^ 3)).map (fs.blockPointer inode) =
      (List.range 12).map (inodePointer inode) ++
      fs.entries perBlock (inodePointer inode 12) ++
      (fs.entries perBlock (inodePointer inode 13)).flatMap (fs.entries perBlock) ++
      ((fs.entries perBlock (inodePointer inode 14)).flatMap fun second =>
        (fs.entries perBlock second).flatMap (fs.entries perBlock)) := by
  have hdirect : (List.range 12).map (fs.blockPointer inode) =
      (List.range 12).map (inodePointer inode) :=
    List.map_congr_left fun k hk => blockPointer_direct inode (List.mem_range.mp hk)
  have hsingle : (List.range perBlock).map (fs.blockPointer inode ∘ (12 + ·)) =
      fs.entries perBlock (inodePointer inode 12) :=
    List.map_congr_left fun k hk => blockPointer_single inode hp (List.mem_range.mp hk)
  have hdouble : (List.range (perBlock ^ 2)).map (fs.blockPointer inode ∘ (12 + perBlock + ·)) =
      (fs.entries perBlock (inodePointer inode 13)).flatMap (fs.entries perBlock) := by
    rw [double_eq, ← pow_two]
    exact List.map_congr_left fun k hk => blockPointer_double inode hp (List.mem_range.mp hk)
  have htriple : (List.range (perBlock ^ 3)).map
        (fs.blockPointer inode ∘ (12 + perBlock + perBlock ^ 2 + ·)) =
      (fs.entries perBlock (inodePointer inode 14)).flatMap fun second =>
        (fs.entries perBlock second).flatMap (fs.entries perBlock) := by
    rw [triple_eq, ← pow_two, ← pow_succ']
    exact List.map_congr_left fun k _ => blockPointer_triple inode hp k
  rw [List.range_add, List.range_add, List.range_add]
  simp only [List.map_append, List.map_map]
  rw [hdirect, hsingle, hdouble, htriple]

end BlockPointer

/-! ## The whole list -/

variable {inode : Bytes}

theorem readable_follow
    (h : ∀ block, fs.IndirectBlock inode block → ∃ buf, fs.readBlock block = .ok buf)
    (level : Nat) (path : List Nat) (hlevel : level < 3) (hlen : path.length ≤ level)
    (hpath : ∀ i ∈ path, i < fs.blockSize / 4) :
    fs.Readable (fs.follow (inodePointer inode (12 + level)) path) := by
  by_cases hz : fs.follow (inodePointer inode (12 + level)) path = 0
  · exact Or.inl hz
  · exact Or.inr (h _ ⟨hz, level, path, hlevel, hlen, hpath, rfl⟩)

theorem indirectBlocks_eq (needed : Nat) (hsmall : 1024 ≤ fs.blockSize)
    (hlarge : fs.blockSize ≤ 65536)
    (h : ∀ block, fs.IndirectBlock inode block → ∃ buf, fs.readBlock block = .ok buf) :
    fs.indirectBlocks inode needed =
      .ok ((List.range (min needed (12 + fs.blockSize / 4 + (fs.blockSize / 4) ^ 2 +
        (fs.blockSize / 4) ^ 3))).map (fs.blockPointer inode)) := by
  generalize hper : fs.blockSize / 4 = perBlock
  have hp : perBlock ≤ 16384 := by omega
  have hmax : max perBlock 1 = perBlock := by omega
  have hcube : perBlock * perBlock * perBlock ≤ 16384 * 16384 * 16384 :=
    Nat.mul_le_mul (Nat.mul_le_mul hp hp) hp
  have hroot : ∀ level < 3, fs.Readable (inodePointer inode (12 + level)) :=
    fun level hl => readable_follow h level [] hl (Nat.zero_le _) (by simp)
  have hsecond : ∀ level < 3, 1 ≤ level →
      ∀ second ∈ fs.entries perBlock (inodePointer inode (12 + level)), fs.Readable second := by
    intro level hl hone second hmem
    rcases List.mem_map.mp hmem with ⟨i, hi, rfl⟩
    apply readable_follow h level [i] hl hone
    simpa [hper] using List.mem_range.mp hi
  have hthird : ∀ second ∈ fs.entries perBlock (inodePointer inode 14),
      ∀ third ∈ fs.entries perBlock second, fs.Readable third := by
    intro second hmem third hmem'
    rcases List.mem_map.mp hmem with ⟨i, hi, rfl⟩
    rcases List.mem_map.mp hmem' with ⟨j, hj, rfl⟩
    have hpath := readable_follow h 2 [i, j] (by omega) (Nat.le_refl 2)
      (by simpa [hper] using ⟨List.mem_range.mp hi, List.mem_range.mp hj⟩)
    rwa [follow_cons] at hpath
  have hprogram : fs.indirectBlocks inode needed = (do
      let single ← fs.singleIndirect (inodePointer inode 12) needed (max (fs.blockSize / 4) 1)
        (pushUpTo needed [] ((List.range 12).map (inodePointer inode)))
      let double ← fs.doubleIndirect (inodePointer inode 13) needed (max (fs.blockSize / 4) 1)
        single
      fs.tripleIndirect (inodePointer inode 14) needed (max (fs.blockSize / 4) 1) double) := rfl
  rw [hprogram, hper, hmax]
  -- What has been pushed after each level, with its length.
  generalize hdirect : pushUpTo needed [] ((List.range 12).map (inodePointer inode)) = direct
  generalize hsingle : pushUpTo needed direct (fs.entries perBlock (inodePointer inode 12)) = single
  generalize hdouble : pushUpTo needed single ((fs.entries perBlock
    (inodePointer inode 13)).flatMap (fs.entries perBlock)) = double
  have h1 : direct.length = min needed 12 := by
    rw [← hdirect, length_pushUpTo _ (Nat.zero_le _)]
    simp
  have h2 : single.length = min needed (12 + perBlock) := by
    rw [← hsingle, length_of_limit _ h1, length_entries]
  have h3 : double.length = min needed (12 + perBlock + perBlock * perBlock) := by
    rw [← hdouble, length_of_limit _ h2, double_eq, List.length_map, List.length_range]
  have hlimit : perBlock ≤ 65536 := Nat.le_trans hp (by decide)
  have hs : fs.singleIndirect (inodePointer inode 12) needed perBlock direct = .ok single := by
    rw [singleIndirect_eq hlimit (length_eq_limit h1) (hroot 0 (by decide)), hsingle]
  have hd : fs.doubleIndirect (inodePointer inode 13) needed perBlock single = .ok double := by
    rw [doubleIndirect_eq hlimit (length_eq_limit h2) (hroot 1 (by decide))
      (hsecond 1 (by decide) (by decide)), hdouble]
  have ht : fs.tripleIndirect (inodePointer inode 14) needed perBlock double =
      .ok (pushUpTo needed double ((fs.entries perBlock (inodePointer inode 14)).flatMap
        fun second => (fs.entries perBlock second).flatMap (fs.entries perBlock))) :=
    tripleIndirect_eq hlimit (by omega) (by omega) (length_eq_limit h3) (hroot 2 (by decide))
      (hsecond 2 (by decide) (by decide)) hthird
  rw [hs, ok_bind, hd, ok_bind, ht, ← hdouble, ← hsingle, ← hdirect, ← pushUpTo_append,
    ← pushUpTo_append, ← pushUpTo_append, pushUpTo_nil, ← List.append_assoc, ← List.append_assoc,
    ← blockPointer_range inode hper, ← List.map_take, List.take_range]

/-- The block map of an inode. The list has as many entries as are needed and the inode can have,
each the pointer at the end of its path, and a pointer of 0 on the path makes it 0. -/
theorem indirectBlocks_blockMap (needed : Nat) (hsmall : 1024 ≤ fs.blockSize)
    (hlarge : fs.blockSize ≤ 65536)
    (h : ∀ block, fs.IndirectBlock inode block → ∃ buf, fs.readBlock block = .ok buf) :
    fs.indirectBlocks inode needed =
        .ok ((List.range (min needed (12 + fs.blockSize / 4 + (fs.blockSize / 4) ^ 2 +
          (fs.blockSize / 4) ^ 3))).map (fs.blockPointer inode)) ∧
      ∀ block path more, (blockPath (fs.blockSize / 4) block).2 = path ++ more →
        fs.follow (inodePointer inode (blockPath (fs.blockSize / 4) block).1) path = 0 →
        fs.blockPointer inode block = 0 := by
  constructor
  · exact indirectBlocks_eq needed hsmall hlarge h
  · intro block path more hpath hzero
    have hpointer : fs.blockPointer inode block =
        fs.follow (inodePointer inode (blockPath (fs.blockSize / 4) block).1)
          (blockPath (fs.blockSize / 4) block).2 := rfl
    rw [hpointer, hpath]
    exact follow_append hzero more

/-- A volume whose blocks all hold the pointer 7 in front and holes behind it. -/
def sevens : Ext2Fs where
  disk :=
    { read := fun _ len => some ((7 :: List.replicate len (0 : UInt8)).take len)
      length_read := by
        intro _ len buf h
        cases h
        simp }
  superblock := ⟨128, 1, 0, 8192, 128, 1, 128, 0, 0, 32⟩
  blockSize := 1024
  descSize := 32
  inodesPerBlock := 8

theorem readBlock_sevens {block : Nat} (h : block < 2 ^ 32) :
    ∃ buf, sevens.readBlock block = .ok buf := by
  have hdiv : (Lib.Outcome.div (2 ^ 64 - 1) 1024 : Res Nat) = .ok ((2 ^ 64 - 1) / 1024) :=
    if_neg (by omega)
  have hmul : (Lib.Outcome.mul 64 block 2 : Res Nat) = .ok (block * 2) := if_pos (by omega)
  have hlast : ¬ block > (2 ^ 64 - 1) / 1024 := by omega
  exact ⟨(7 :: List.replicate 1024 0).take 1024, by
    simp only [readBlock, sevens, hdiv, ok_bind, if_neg hlast, Nat.reduceDiv, hmul, ofOption]⟩

/-- An inode with one direct block, a single indirect block, a hole of the double indirect
pointer and a tree of three levels. -/
def sparseInode : Bytes :=
  List.replicate 40 0 ++ [3, 0, 0, 0] ++ List.replicate 44 0 ++ [9, 0, 0, 0] ++
    List.replicate 4 0 ++ [5, 0, 0, 0] ++ List.replicate 28 0

theorem indirectBlocks_sparse :
    sevens.indirectBlocks sparseInode 14 =
      .ok [3, 0, 0, 0, 0, 0, 0, 0, 0, 0, 0, 0, 7, 0] :=
  (indirectBlocks_blockMap 14 (by decide) (by decide)
    fun _ h => readBlock_sevens h.lt).1.trans (by decide +kernel)

end Ext2Fs

end Vibra.Ext
