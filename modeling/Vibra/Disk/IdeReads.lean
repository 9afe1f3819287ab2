import Mathlib.Tactic.IntervalCases
import Vibra.Fat32.Volume
import Vibra.Lib.RawDisk
import Vibra.Lib.Runs

/-! # Reads from an IDE disk

The drive has a task file of registers, four of which are two deep: the value before the last one
written counts for a command with 48 bits.
-/

namespace Vibra.Disk.Ide

open Fat32 (FsError)
open Lib (Bytes Along)

inductive Register where
  | count
  | lba0
  | lba1
  | lba2
  | drive

/-- Of the registers that are two deep, what was written last and what before it. -/
structure TaskFile where
  count : Nat × Nat
  lba0 : Nat × Nat
  lba1 : Nat × Nat
  lba2 : Nat × Nat
  device : Nat

namespace TaskFile

def outb (t : TaskFile) : Register × Nat → TaskFile
  | (.count, value) => { t with count := (value % 256, t.count.1) }
  | (.lba0, value) => { t with lba0 := (value % 256, t.lba0.1) }
  | (.lba1, value) => { t with lba1 := (value % 256, t.lba1.1) }
  | (.lba2, value) => { t with lba2 := (value % 256, t.lba2.1) }
  | (.drive, value) => { t with device := value % 256 }

/-- The number of a sector, for a command with 48 bits or one with 28. -/
def lba (t : TaskFile) (ext : Bool) : Nat :=
  let low := t.lba0.1 + 2 ^ 8 * t.lba1.1 + 2 ^ 16 * t.lba2.1
  if ext then low + 2 ^ 24 * t.lba0.2 + 2 ^ 32 * t.lba1.2 + 2 ^ 40 * t.lba2.2
  else low + 2 ^ 24 * (t.device % 16)

/-- How many sectors; 0 stands for all that the register can count, and one more. -/
def sectors (t : TaskFile) (ext : Bool) : Nat :=
  let n := if ext then t.count.1 + 256 * t.count.2 else t.count.1
  if n = 0 then (if ext then 65536 else 256) else n

end TaskFile

/-- A drive by its geometry and its sectors, some of which may be unreadable. -/
structure Drive where
  heads : Nat
  sectorsPerTrack : Nat
  capacity : Nat
  content : Nat → Bytes
  readable : Nat → Bool
  length_content : ∀ n, (content n).length = 512

namespace Drive

variable (drive : Drive)

def chs (cylinder head sector : Nat) : Option Nat :=
  if sector = 0 ∨ drive.sectorsPerTrack < sector ∨ drive.heads ≤ head then none
  else some ((cylinder * drive.heads + head) * drive.sectorsPerTrack + sector - 1)

def address (t : TaskFile) (ext : Bool) : Option Nat :=
  if t.device.testBit 6 then some (t.lba ext)
  else drive.chs (t.lba1.1 + 256 * t.lba2.1) (t.device % 16) t.lba0.1

def Delivers (n : Nat) : Prop := n < drive.capacity ∧ drive.readable n = true

instance (n : Nat) : Decidable (drive.Delivers n) := inferInstanceAs (Decidable (_ ∧ _))

/-- READ SECTORS, or READ SECTORS EXT: the blocks of data, up to an error. -/
def execute (t : TaskFile) (ext : Bool) (i : Nat) : Option Bytes :=
  match drive.address t ext with
  | none => none
  | some n =>
    if i < t.sectors ext ∧ drive.Delivers (n + i) then some (drive.content (n + i)) else none

end Drive

def driveMaster : Nat := 0xA0
def driveSlave : Nat := 0xB0

/-- What of an `IdeDiskInfo` a read looks at. -/
structure IdeDiskInfo where
  slave : Bool
  lba48 : Bool

def IdeDiskInfo.drive (info : IdeDiskInfo) : Nat := if info.slave then driveSlave else driveMaster

structure IdeDisk where
  present : Bool
  taskFile : TaskFile

def extWrites (lba count : Nat) : List (Register × Nat) :=
  [(.count, count >>> 8), (.lba0, lba >>> 24), (.lba1, lba >>> 32), (.lba2, lba >>> 40),
    (.count, count), (.lba0, lba), (.lba1, lba >>> 8), (.lba2, lba >>> 16)]

def plainWrites (drive lba count : Nat) : List (Register × Nat) :=
  [(.count, count), (.lba0, lba), (.lba1, lba >>> 8), (.lba2, lba >>> 16),
    (.drive, drive ||| (lba >>> 24 &&& 0x0F))]

/-- Block `i` and those after it. -/
def receive (block : Nat → Option Bytes) : Nat → Nat → Option Bytes
  | _, 0 => some []
  | i, n + 1 =>
    match block i with
    | none => none
    | some bytes => (receive block (i + 1) n).map (bytes ++ ·)

namespace IdeDisk

variable (info : IdeDiskInfo) (drive : Drive)

/-- `read_pio` for a buffer of `len` bytes. -/
def readPio (s : IdeDisk) (lba count len : Nat) : IdeDisk × Except FsError Bytes :=
  if s.present = false then (s, .error .ioError)
  else if count = 0 ∨ len < count * 512 then (s, .error .invalidPath)
  else
    let selected := s.taskFile.outb (.drive, info.drive)
    if ¬info.lba48 ∧ 0x0FFFFFFF < lba then ({ s with taskFile := selected }, .error .notSupported)
    else
      let writes := if info.lba48 then extWrites lba count else plainWrites info.drive lba count
      let taskFile := writes.foldl TaskFile.outb selected
      match receive (drive.execute taskFile info.lba48) 0 count with
      | none => (⟨false, taskFile⟩, .error .ioError)
      | some bytes => (⟨true, taskFile⟩, .ok bytes)

/-- The loop of `read`, with `left` sectors left. -/
def readFrom (s : IdeDisk) (sector done left : Nat) : IdeDisk × Except FsError Bytes :=
  if _ : left = 0 then (s, .ok [])
  else
    let count := min left 32
    match readPio info drive s ((sector + done) % 2 ^ 64) count (count * 512) with
    | (s, .error e) => (s, .error e)
    | (s, .ok bytes) =>
      match readFrom s sector (done + count) (left - count) with
      | (s, .error e) => (s, .error e)
      | (s, .ok rest) => (s, .ok (bytes ++ rest))
termination_by left

/-- `read` for a buffer of `len` bytes. -/
def read (s : IdeDisk) (sector len : Nat) : IdeDisk × Except FsError Bytes :=
  if len = 0 ∨ len % 512 ≠ 0 then (s, .error .invalidPath)
  else readFrom info drive s sector 0 (len / 512)

end IdeDisk

/-- A read of whole sectors. -/
structure Request where
  sector : Nat
  blocks : Nat
  sector_lt : sector < 2 ^ 64
  pos : 0 < blocks

def Request.Apart (r r' : Request) : Prop :=
  r.sector + r.blocks ≤ r'.sector ∨ r'.sector + r'.blocks ≤ r.sector

/-- The disk after some reads, with those that have failed. -/
structure Session where
  disk : IdeDisk
  failed : List Request

section Asked

variable (info : IdeDiskInfo) (drive : Drive)

def IdeDisk.answer (disk : IdeDisk) (r : Request) : IdeDisk × Except FsError Bytes :=
  disk.read info drive r.sector (r.blocks * 512)

def Session.step (s : Session) (r : Request) : Session :=
  let after := s.disk.answer info drive r
  { disk := after.1
    failed :=
      match after.2 with
      | .ok _ => s.failed
      | .error _ => s.failed ++ [r] }

/-- `open`, with whatever is in the registers. -/
def Session.start (taskFile : TaskFile) : Session := ⟨⟨true, taskFile⟩, []⟩

def Expressible (r : Request) : Prop := r.sector + r.blocks ≤ if info.lba48 then 2 ^ 48 else 2 ^ 28

def Drive.wanted (r : Request) : Bytes :=
  (List.range r.blocks).flatMap fun i => drive.content (r.sector + i)

/-- A read that succeeds returns its sectors, and one for other sectors than have failed before
goes as it would on a disk that has just been opened. -/
structure Good (s : Session) (r : Request) : Prop where
  filled : ∀ bytes, (s.disk.answer info drive r).2 = .ok bytes →
    Expressible info r ∧ bytes = drive.wanted r
  independent : (∀ f ∈ s.failed, f.Apart r) →
    (s.disk.answer info drive r).2 = (IdeDisk.answer info drive ⟨true, s.disk.taskFile⟩ r).2

def chsOf (lba : Nat) : Option Nat :=
  drive.chs (lba / 2 ^ 8 % 2 ^ 16) (if info.lba48 then 0 else lba / 2 ^ 24 % 16) (lba % 2 ^ 8)

/-- The number at which the command for sector `i` of a read begins. -/
def chunkLba (sector i : Nat) : Nat := (sector + i / 32 * 32) % 2 ^ 64

/-- What the drive takes for sector `i` of a read. -/
def served (sector i : Nat) : Option Nat :=
  (chsOf info drive (chunkLba sector i)).map (· + i % 32)

/-- Why there is no sector `i`: it is beyond 28 bits, or the drive refuses it. -/
def refusal (sector i : Nat) : Option FsError :=
  if ¬info.lba48 ∧ 0x0FFFFFFF < chunkLba sector i then some .notSupported
  else
    match served info drive sector i with
    | none => some .ioError
    | some n => if drive.Delivers n then none else some .ioError

/-- The disk has had no error: a sector is refused, or the drive's sectors hold what those that are
asked for hold. It has had one: the sectors of a read that failed are asked for again, or the drive
would refuse anyway. -/
def Spared (s : Session) (r : Request) : Prop :=
  if s.disk.present then
    (∃ i < r.blocks, refusal info drive r.sector i ≠ none) ∨
      Expressible info r ∧ ∀ i < r.blocks, ∀ n ∈ served info drive r.sector i,
        drive.content n = drive.content (r.sector + i)
  else
    (∃ f ∈ s.failed, ¬f.Apart r) ∨
      ∃ i < r.blocks, refusal info drive r.sector i = some .ioError ∧
        ∀ j < i, refusal info drive r.sector j = none

end Asked

def collect (block : Nat → Except FsError Bytes) : Nat → Nat → Except FsError Bytes
  | _, 0 => .ok []
  | i, n + 1 =>
    match block i with
    | .error e => .error e
    | .ok bytes =>
      match collect block (i + 1) n with
      | .error e => .error e
      | .ok rest => .ok (bytes ++ rest)

section Blocks

variable {block : Nat → Except FsError Bytes} {i m n : Nat} {e : FsError}

theorem collect_add (block : Nat → Except FsError Bytes) (i m n : Nat) :
    collect block i (m + n) =
      match collect block i m with
      | .error e => .error e
      | .ok bytes =>
        match collect block (i + m) n with
        | .error e => .error e
        | .ok rest => .ok (bytes ++ rest) := by
  induction m generalizing i with
  | zero =>
    rw [Nat.zero_add, Nat.add_zero, collect]
    cases collect block i n with
    | error e => rfl
    | ok rest => rfl
  | succ m ih =>
    rw [Nat.succ_add, collect, collect, ih]
    have hi : i + 1 + m = i + (m + 1) := by omega
    rw [hi]
    cases block i with
    | error e => rfl
    | ok bytes =>
      cases collect block (i + 1) m with
      | error e => rfl
      | ok rest =>
        cases collect block (i + (m + 1)) n with
        | error e => rfl
        | ok last => exact congrArg Except.ok (List.append_assoc bytes rest last).symm

theorem collect_of_ok {content : Nat → Bytes} (h : ∀ j < n, block (i + j) = .ok (content (i + j))) :
    collect block i n = .ok ((List.range n).flatMap fun j => content (i + j)) := by
  induction n generalizing i with
  | zero => rfl
  | succ n ih =>
    have hhead := h 0 (Nat.succ_pos n)
    have htail := ih (i := i + 1) fun j hj => by
      have hnext := h (j + 1) (Nat.succ_lt_succ hj)
      rwa [show i + (j + 1) = i + 1 + j by omega] at hnext
    rw [Nat.add_zero] at hhead
    rw [collect, hhead, htail, List.range_succ_eq_map, List.flatMap_cons, List.flatMap_map]
    simp only [Nat.add_zero, Nat.succ_eq_add_one, Nat.add_assoc, Nat.add_comm 1]

def blockOf (refusal : Nat → Option FsError) (content : Nat → Bytes) (i : Nat) :
    Except FsError Bytes :=
  match refusal i with
  | some e => .error e
  | none => .ok (content i)

variable {refusal : Nat → Option FsError} {content : Nat → Bytes}

theorem collect_of_none (h : ∀ j < n, refusal (i + j) = none) :
    collect (blockOf refusal content) i n =
      .ok ((List.range n).flatMap fun j => content (i + j)) := by
  apply collect_of_ok
  intro j hj
  rw [blockOf, h j hj]

theorem collect_of_refusal {j : Nat} (hj : j < n) (hrefused : refusal (i + j) = some e)
    (hbefore : ∀ k < j, refusal (i + k) = none) :
    collect (blockOf refusal content) i n = .error e := by
  have hn : n = j + (n - j - 1 + 1) := by omega
  rw [hn, collect_add, collect_of_none hbefore, collect, blockOf, hrefused]

theorem first_refusal (h : ∃ j < n, refusal (i + j) ≠ none) :
    ∃ j < n, ∃ e, refusal (i + j) = some e ∧ ∀ k < j, refusal (i + k) = none := by
  rcases Nat.find_spec h with ⟨hj, hrefused⟩
  rcases Option.ne_none_iff_exists'.1 hrefused with ⟨e, he⟩
  refine ⟨Nat.find h, hj, e, he, ?_⟩
  intro k hk
  by_contra hne
  exact Nat.find_min h hk ⟨Nat.lt_trans hk hj, hne⟩

theorem collect_error_iff : collect (blockOf refusal content) i n = .error e ↔
    ∃ j < n, refusal (i + j) = some e ∧ ∀ k < j, refusal (i + k) = none := by
  constructor
  · intro h
    by_cases hsome : ∃ j < n, refusal (i + j) ≠ none
    · rcases first_refusal hsome with ⟨j, hj, e', he', hbefore⟩
      rw [collect_of_refusal hj he' hbefore] at h
      cases h
      exact ⟨j, hj, he', hbefore⟩
    · have hnone : ∀ j < n, refusal (i + j) = none := by
        intro j hj
        by_contra hne
        exact hsome ⟨j, hj, hne⟩
      rw [collect_of_none hnone] at h
      cases h
  · rintro ⟨j, hj, hrefused, hbefore⟩
    exact collect_of_refusal hj hrefused hbefore

theorem collect_eq_receive (block : Nat → Except FsError Bytes) (f : Nat → Option Bytes) {k : Nat}
    (h : ∀ j < n, block (i + j) =
      match f (k + j) with
      | none => .error .ioError
      | some bytes => .ok bytes) :
    collect block i n =
      match receive f k n with
      | none => .error .ioError
      | some bytes => .ok bytes := by
  induction n generalizing i k with
  | zero => rfl
  | succ n ih =>
    have hhead := h 0 (Nat.succ_pos n)
    have htail := ih (i := i + 1) (k := k + 1) fun j hj => by
      have hnext := h (j + 1) (Nat.succ_lt_succ hj)
      rwa [show i + (j + 1) = i + 1 + j by omega, show k + (j + 1) = k + 1 + j by omega] at hnext
    rw [Nat.add_zero, Nat.add_zero] at hhead
    rw [collect, receive, hhead, htail]
    cases f k with
    | none => rfl
    | some bytes =>
      cases receive f (k + 1) n with
      | none => rfl
      | some rest => rfl

end Blocks

section Command

variable {info : IdeDiskInfo} {drive : Drive} {lba count : Nat} {t : TaskFile}

theorem drive_mod (info : IdeDiskInfo) : info.drive % 256 % 16 = 0 := by
  unfold IdeDiskInfo.drive
  split <;> decide

theorem drive_bit (info : IdeDiskInfo) (n : Nat) :
    ((info.drive ||| (n &&& 0x0F)) % 256).testBit 6 = false ∧
      (info.drive ||| (n &&& 0x0F)) % 256 % 16 = n % 16 := by
  have hn : n &&& 0x0F = n % 16 := Nat.and_two_pow_sub_one_eq_mod n 4
  have hlt : n % 16 < 16 := Nat.mod_lt _ (by decide)
  rw [hn]
  generalize n % 16 = k at hlt ⊢
  unfold IdeDiskInfo.drive
  cases info.slave <;> interval_cases k <;> decide

theorem cylinder_eq (lba : Nat) :
    (lba >>> 8) % 256 + 256 * ((lba >>> 16) % 256) = lba / 2 ^ 8 % 2 ^ 16 := by
  rw [Nat.shiftRight_eq_div_pow, Nat.shiftRight_eq_div_pow]
  omega

theorem address_ext (h : info.lba48 = true) :
    drive.address ((extWrites lba count).foldl TaskFile.outb (t.outb (.drive, info.drive))) true =
      chsOf info drive lba := by
  have hbit : (info.drive % 256).testBit 6 = false := by
    unfold IdeDiskInfo.drive
    split <;> decide
  show (if (info.drive % 256).testBit 6 then _ else drive.chs ((lba >>> 8) % 256 +
    256 * ((lba >>> 16) % 256)) (info.drive % 256 % 16) (lba % 256)) = _
  rw [hbit, if_neg Bool.false_ne_true, cylinder_eq, drive_mod, chsOf, h, if_pos rfl]
  rfl

theorem address_plain (h : info.lba48 = false) :
    drive.address ((plainWrites info.drive lba count).foldl TaskFile.outb
      (t.outb (.drive, info.drive))) false = chsOf info drive lba := by
  rcases drive_bit info (lba >>> 24) with ⟨hbit, hhead⟩
  show (if ((info.drive ||| (lba >>> 24 &&& 0x0F)) % 256).testBit 6 then _ else drive.chs
    ((lba >>> 8) % 256 + 256 * ((lba >>> 16) % 256))
    ((info.drive ||| (lba >>> 24 &&& 0x0F)) % 256 % 16) (lba % 256)) = _
  rw [hbit, if_neg Bool.false_ne_true, cylinder_eq, hhead, chsOf, h, if_neg Bool.false_ne_true,
    Nat.shiftRight_eq_div_pow]
  rfl

theorem sectors_ext (hcount : 0 < count) (hmax : count ≤ 32) :
    ((extWrites lba count).foldl TaskFile.outb (t.outb (.drive, info.drive))).sectors true =
      count := by
  have hn : count % 256 + 256 * ((count >>> 8) % 256) = count := by
    rw [Nat.shiftRight_eq_div_pow]
    omega
  show (if count % 256 + 256 * ((count >>> 8) % 256) = 0 then _ else
    count % 256 + 256 * ((count >>> 8) % 256)) = count
  rw [hn, if_neg (by omega)]

theorem sectors_plain (hcount : 0 < count) (hmax : count ≤ 32) :
    ((plainWrites info.drive lba count).foldl TaskFile.outb
      (t.outb (.drive, info.drive))).sectors false = count := by
  have hn : count % 256 = count := Nat.mod_eq_of_lt (by omega)
  show (if count % 256 = 0 then _ else count % 256) = count
  rw [hn, if_neg (by omega)]

theorem execute_eq (hcount : 0 < count) (hmax : count ≤ 32) {i : Nat} (hi : i < count) :
    drive.execute ((if info.lba48 then extWrites lba count
        else plainWrites info.drive lba count).foldl TaskFile.outb (t.outb (.drive, info.drive)))
      info.lba48 i =
      match chsOf info drive lba with
      | none => none
      | some n => if drive.Delivers (n + i) then some (drive.content (n + i)) else none := by
  unfold Drive.execute
  cases h : info.lba48 with
  | true =>
    rw [if_pos rfl, address_ext h, sectors_ext hcount hmax]
    simp only [hi, true_and]
  | false =>
    rw [if_neg Bool.false_ne_true, address_plain h, sectors_plain hcount hmax]
    simp only [hi, true_and]

end Command

section Read

variable {info : IdeDiskInfo} {drive : Drive} {sector done count left : Nat} {s : IdeDisk}

/-- The sector that the drive takes for sector `i`, if there is one. -/
def servedContent (info : IdeDiskInfo) (drive : Drive) (sector i : Nat) : Bytes :=
  drive.content ((served info drive sector i).getD 0)

def blocks (info : IdeDiskInfo) (drive : Drive) (sector : Nat) : Nat → Nat → Except FsError Bytes :=
  collect (blockOf (refusal info drive sector) (servedContent info drive sector))

structure Outcome (after : IdeDisk × Except FsError Bytes) (result : Except FsError Bytes) :
    Prop where
  returned : after.2 = result
  present : after.1.present = decide (result ≠ .error .ioError)

theorem chunkLba_eq (sector : Nat) (hdone : done % 32 = 0) {j : Nat} (hj : j < 32) :
    chunkLba sector (done + j) = (sector + done) % 2 ^ 64 ∧ (done + j) % 32 = j := by
  unfold chunkLba
  have hchunk : (done + j) / 32 * 32 = done := by omega
  rw [hchunk]
  exact ⟨rfl, by omega⟩

theorem outcome_readPio (hpresent : s.present = true) (hdone : done % 32 = 0) (hcount : 0 < count)
    (hmax : count ≤ 32) :
    Outcome (s.readPio info drive ((sector + done) % 2 ^ 64) count (count * 512))
      (blocks info drive sector done count) := by
  have hlen : ¬(count = 0 ∨ count * 512 < count * 512) := by omega
  rw [IdeDisk.readPio, if_neg (by rw [hpresent]; decide), if_neg hlen]
  dsimp only
  by_cases hbeyond : ¬info.lba48 = true ∧ 0x0FFFFFFF < (sector + done) % 2 ^ 64
  · have hrefused : refusal info drive sector (done + 0) = some .notSupported := by
      rw [refusal, (chunkLba_eq sector hdone (by decide)).1, if_pos hbeyond]
    rw [if_pos hbeyond, blocks, collect_of_refusal hcount hrefused fun k hk =>
      absurd hk (Nat.not_lt_zero k)]
    exact ⟨rfl, hpresent⟩
  · rw [if_neg hbeyond]
    have hblocks := collect_eq_receive (n := count) (i := done) (k := 0)
      (blockOf (refusal info drive sector) (servedContent info drive sector))
      (drive.execute ((if info.lba48 then extWrites ((sector + done) % 2 ^ 64) count
        else plainWrites info.drive ((sector + done) % 2 ^ 64) count).foldl TaskFile.outb
          (s.taskFile.outb (.drive, info.drive))) info.lba48) ?_
    · rw [blocks, hblocks]
      cases receive (drive.execute _ info.lba48) 0 count with
      | none => exact ⟨rfl, rfl⟩
      | some bytes => exact ⟨rfl, rfl⟩
    · intro j hj
      rcases chunkLba_eq sector hdone (Nat.lt_of_lt_of_le hj hmax) with ⟨hlba, hmod⟩
      rw [Nat.zero_add, execute_eq hcount hmax hj, blockOf, refusal, hlba, if_neg hbeyond,
        servedContent, served, hlba, hmod]
      cases chsOf info drive ((sector + done) % 2 ^ 64) with
      | none => rfl
      | some n =>
        simp only [Option.map_some, Option.getD_some]
        by_cases hdelivers : drive.Delivers (n + j)
        · simp only [if_pos hdelivers]
        · simp only [if_neg hdelivers]

theorem blocks_add (info : IdeDiskInfo) (drive : Drive) (sector i m n : Nat) :
    blocks info drive sector i (m + n) =
      match blocks info drive sector i m with
      | .error e => .error e
      | .ok bytes =>
        match blocks info drive sector (i + m) n with
        | .error e => .error e
        | .ok rest => .ok (bytes ++ rest) := collect_add _ i m n

theorem outcome_readFrom (hpresent : s.present = true) (hdone : left ≠ 0 → done % 32 = 0) :
    Outcome (s.readFrom info drive sector done left) (blocks info drive sector done left) := by
  induction hleft : left using Nat.strongRecOn generalizing s done left with
  | ind n ih =>
  subst hleft
  rw [IdeDisk.readFrom]
  by_cases hzero : left = 0
  · rw [dif_pos hzero, hzero]
    exact ⟨rfl, hpresent⟩
  rw [dif_neg hzero]
  have hpos : 0 < min left 32 := by omega
  have hsplit : min left 32 + (left - min left 32) = left := by omega
  have hone : Outcome (s.readPio info drive ((sector + done) % 2 ^ 64) (min left 32)
      (min left 32 * 512)) (blocks info drive sector done (min left 32)) :=
    outcome_readPio hpresent (hdone hzero) hpos (Nat.min_le_right left 32)
  have hblocks := blocks_add info drive sector done (min left 32) (left - min left 32)
  rw [hsplit] at hblocks
  dsimp only
  generalize s.readPio info drive ((sector + done) % 2 ^ 64) (min left 32) (min left 32 * 512) =
    after at hone ⊢
  rcases after with ⟨s', result⟩
  rcases hone with ⟨hreturned, hpresent'⟩
  dsimp only at hreturned hpresent'
  subst hreturned
  cases hresult : blocks info drive sector done (min left 32) with
  | error e =>
    rw [hresult] at hblocks hpresent'
    rw [hblocks]
    exact ⟨rfl, hpresent'⟩
  | ok bytes =>
    rw [hresult] at hblocks hpresent'
    have hnext : left - min left 32 ≠ 0 → (done + min left 32) % 32 = 0 := by
      have hdone' := hdone hzero
      omega
    have hlater := ih (left - min left 32) (by omega) (s := s') hpresent' hnext rfl
    rw [hblocks]
    dsimp only
    generalize s'.readFrom info drive sector (done + min left 32) (left - min left 32) = after
      at hlater ⊢
    rcases after with ⟨s'', rest⟩
    rcases hlater with ⟨hreturned, hpresent''⟩
    dsimp only at hreturned hpresent''
    subst hreturned
    cases hrest : blocks info drive sector (done + min left 32) (left - min left 32) with
    | error e =>
      rw [hrest] at hpresent''
      exact ⟨rfl, hpresent''⟩
    | ok rest =>
      rw [hrest] at hpresent''
      exact ⟨rfl, hpresent''⟩

theorem outcome_answer (hpresent : s.present = true) (r : Request) :
    Outcome (s.answer info drive r) (blocks info drive r.sector 0 r.blocks) := by
  have hlen : ¬(r.blocks * 512 = 0 ∨ r.blocks * 512 % 512 ≠ 0) := by
    have hpos := r.pos
    omega
  rw [IdeDisk.answer, IdeDisk.read, if_neg hlen, Nat.mul_div_cancel _ (by decide)]
  exact outcome_readFrom hpresent fun _ => rfl

theorem answer_of_absent (hpresent : s.present = false) (r : Request) :
    s.answer info drive r = (s, .error .ioError) := by
  have hpos := r.pos
  have hlen : ¬(r.blocks * 512 = 0 ∨ r.blocks * 512 % 512 ≠ 0) := by omega
  have hleft : ¬r.blocks * 512 / 512 = 0 := by omega
  rw [IdeDisk.answer, IdeDisk.read, if_neg hlen, IdeDisk.readFrom, dif_neg hleft]
  dsimp only
  rw [IdeDisk.readPio, if_pos hpresent]

end Read

/-! ## Runs -/

section Session

variable {info : IdeDiskInfo} {drive : Drive}

theorem flatMap_blocks_iff {f g : Nat → Bytes} (hf : ∀ i, (f i).length = 512)
    (hg : ∀ i, (g i).length = 512) (n : Nat) :
    (List.range n).flatMap f = (List.range n).flatMap g ↔ ∀ i < n, f i = g i := by
  have hlength {h : Nat → Bytes} (hh : ∀ i, (h i).length = 512) (n : Nat) :
      ((List.range n).flatMap h).length = n * 512 := by
    induction n with
    | zero => rw [Nat.zero_mul]; rfl
    | succ n ih =>
      rw [List.range_succ, List.flatMap_append, List.length_append, ih, List.flatMap_singleton,
        hh, Nat.succ_mul]
  induction n with
  | zero => exact iff_of_true rfl fun i hi => absurd hi (Nat.not_lt_zero i)
  | succ n ih =>
    rw [List.range_succ, List.flatMap_append, List.flatMap_append, List.flatMap_singleton,
      List.flatMap_singleton]
    constructor
    · intro h i hi
      rcases List.append_inj h ((hlength hf n).trans (hlength hg n).symm) with ⟨hbefore, hlast⟩
      rcases Nat.lt_succ_iff_lt_or_eq.1 hi with hlt | rfl
      · exact ih.1 hbefore i hlt
      · exact hlast
    · intro h
      rw [ih.2 fun i hi => h i (Nat.lt_succ_of_lt hi), h n (Nat.lt_succ_self n)]

theorem refusal_none {sector i : Nat} (h : refusal info drive sector i = none) :
    ∃ n, served info drive sector i = some n := by
  unfold refusal at h
  split at h
  · cases h
  · split at h
    · cases h
    · next n hn => exact ⟨n, hn⟩

theorem blocks_wanted_iff {r : Request}
    (hnone : ∀ i < r.blocks, refusal info drive r.sector i = none) :
    blocks info drive r.sector 0 r.blocks = .ok (drive.wanted r) ↔
      ∀ i < r.blocks, ∀ n ∈ served info drive r.sector i,
        drive.content n = drive.content (r.sector + i) := by
  have hserved (i : Nat) : (servedContent info drive r.sector (0 + i)).length = 512 :=
    drive.length_content _
  rw [blocks, collect_of_none fun j hj => by rw [Nat.zero_add]; exact hnone j hj, Except.ok.injEq,
    Drive.wanted, flatMap_blocks_iff hserved fun i => drive.length_content _]
  apply forall₂_congr
  intro i hi
  rcases refusal_none (hnone i hi) with ⟨n, hn⟩
  rw [servedContent, Nat.zero_add, hn]
  exact ⟨fun h n' hn' => Option.some.inj hn' ▸ h, fun h => h n rfl⟩

theorem good_iff_of_present {s : Session} (hpresent : s.disk.present = true) (r : Request) :
    Good info drive s r ↔ Spared info drive s r := by
  have hanswer : (s.disk.answer info drive r).2 = blocks info drive r.sector 0 r.blocks :=
    (outcome_answer hpresent r).returned
  have hopened : (IdeDisk.answer info drive ⟨true, s.disk.taskFile⟩ r).2 =
      blocks info drive r.sector 0 r.blocks := (outcome_answer rfl r).returned
  have hindependent := hanswer.trans hopened.symm
  rw [Spared, if_pos hpresent]
  by_cases hrefused : ∃ i < r.blocks, refusal info drive r.sector i ≠ none
  · refine iff_of_true ⟨?_, fun _ => hindependent⟩ (.inl hrefused)
    intro bytes hbytes
    have hfirst : ∃ j < r.blocks, refusal info drive r.sector (0 + j) ≠ none := by
      simpa only [Nat.zero_add] using hrefused
    rcases first_refusal hfirst with ⟨j, hj, e, he, hbefore⟩
    have herror : blocks info drive r.sector 0 r.blocks = .error e :=
      collect_of_refusal hj he hbefore
    cases (hbytes.symm.trans hanswer).trans herror
  · have hnone : ∀ i < r.blocks, refusal info drive r.sector i = none := by
      intro i hi
      by_contra hne
      exact hrefused ⟨i, hi, hne⟩
    have hwanted := blocks_wanted_iff hnone
    constructor
    · rintro ⟨hfilled, -⟩
      have hok : blocks info drive r.sector 0 r.blocks = .ok _ :=
        collect_of_none fun j hj => by rw [Nat.zero_add]; exact hnone j hj
      rcases hfilled _ (hanswer.trans hok) with ⟨hexpressible, hbytes⟩
      exact .inr ⟨hexpressible, hwanted.1 (hok.trans (congrArg Except.ok hbytes))⟩
    · rintro (hsome | ⟨hexpressible, hcontent⟩)
      · exact absurd hsome hrefused
      · refine ⟨?_, fun _ => hindependent⟩
        intro bytes hbytes
        have hok := hwanted.2 hcontent
        exact ⟨hexpressible, Except.ok.inj ((hbytes.symm.trans hanswer).trans hok)⟩

theorem good_iff_of_absent {s : Session} (hpresent : s.disk.present = false) (r : Request) :
    Good info drive s r ↔ Spared info drive s r := by
  have hanswer : (s.disk.answer info drive r).2 = .error .ioError :=
    congrArg Prod.snd (answer_of_absent hpresent r)
  have hopened : (IdeDisk.answer info drive ⟨true, s.disk.taskFile⟩ r).2 =
      blocks info drive r.sector 0 r.blocks := (outcome_answer rfl r).returned
  have hwould : blocks info drive r.sector 0 r.blocks = .error .ioError ↔
      ∃ i < r.blocks, refusal info drive r.sector i = some .ioError ∧
        ∀ j < i, refusal info drive r.sector j = none := by
    rw [blocks, collect_error_iff]
    simp only [Nat.zero_add]
  rw [Spared, if_neg (by rw [hpresent]; exact Bool.false_ne_true), ← hwould]
  constructor
  · rintro ⟨-, hindependent⟩
    by_cases hapart : ∀ f ∈ s.failed, f.Apart r
    · exact .inr (hopened.symm.trans ((hindependent hapart).symm.trans hanswer))
    · simp only [not_forall] at hapart
      rcases hapart with ⟨f, hf, hmeets⟩
      exact .inl ⟨f, hf, hmeets⟩
  · intro h
    constructor
    · intro bytes hbytes
      cases hanswer.symm.trans hbytes
    · intro hapart
      rcases h with ⟨f, hf, hmeets⟩ | hrefused
      · exact absurd (hapart f hf) hmeets
      · exact hanswer.trans (hrefused.symm.trans hopened.symm)

theorem good_iff (s : Session) (r : Request) : Good info drive s r ↔ Spared info drive s r := by
  cases hpresent : s.disk.present with
  | true => exact good_iff_of_present hpresent r
  | false => exact good_iff_of_absent hpresent r

/-- Whatever is read after a disk has been opened, every read is good exactly when every read is
spared. -/
theorem ide_reads_iff (info : IdeDiskInfo) (drive : Drive) (taskFile : TaskFile)
    (requests : List Request) :
    Along (Session.step info drive) (Good info drive) (Session.start taskFile) requests ↔
      Along (Session.step info drive) (Spared info drive) (Session.start taskFile) requests :=
  Lib.along_congr (fun s r _ (_ : True) => good_iff s r) (fun _ _ _ _ _ => trivial) trivial

/-- A drive with the usual geometry whose sectors have their numbers in them. -/
def numbered : Drive where
  heads := 16
  sectorsPerTrack := 63
  capacity := 1008 * 1024
  content := fun n => List.replicate 512 (UInt8.ofNat n)
  readable := fun _ => true
  length_content := fun _ => List.length_replicate

/-- Sector 1 is the first of its track, so that sector 0 is read. -/
theorem sector_one_reads_zero : ¬Along (Session.step ⟨false, true⟩ numbered)
    (Good ⟨false, true⟩ numbered) (Session.start ⟨(0, 0), (0, 0), (0, 0), (0, 0), 0⟩)
    [⟨1, 1, by decide, by decide⟩] := by
  rintro ⟨hgood, -⟩
  have hspared := (good_iff_of_present rfl _).1 hgood
  rw [Spared, if_pos (show (Session.start _).disk.present = true from rfl)] at hspared
  rcases hspared with ⟨i, hi, hrefused⟩ | ⟨-, hcontent⟩
  · have hzero : i = 0 := Nat.lt_one_iff.1 hi
    subst hzero
    exact hrefused (by decide)
  · have hsame := congrArg List.head? (hcontent 0 Nat.one_pos 0 (by decide))
    exact absurd hsame (by decide)

end Session

end Vibra.Disk.Ide
