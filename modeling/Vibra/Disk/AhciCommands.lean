import Mathlib.Data.Nat.Bitwise
import Mathlib.Tactic.IntervalCases
import Vibra.Disk.FlatArray
import Vibra.Lib.Dialog
import Vibra.Lib.RawDisk

/-! # The commands of the AHCI driver

What the driver lays down for the controller: a command header, and a command table with the FIS for
the device and one region of memory.
-/

namespace Vibra.Disk.Ahci

open Fat32 (FsError)
open Lib (Bytes Memory Dialog)
open Lib.Dialog (question After)
open Lib.Memory (toLe16 toLe32)

def ataCmdReadDmaExt : Nat := 0x25
def ataCmdWriteDmaExt : Nat := 0x35
def fisTypeRegH2d : Nat := 0x27

structure CommandHeader where
  cflW : Nat
  flags : Nat
  prdtl : Nat
  prdbc : Nat
  ctba : Nat
  ctbau : Nat

def byte (n : Nat) : UInt8 := UInt8.ofNat n

def CommandHeader.bytes (cmd : CommandHeader) : Bytes :=
  [byte cmd.cflW, byte cmd.flags] ++ toLe16 cmd.prdtl ++ toLe32 cmd.prdbc ++ toLe32 cmd.ctba ++
    toLe32 cmd.ctbau ++ List.replicate 16 0

structure FisRegH2d where
  fisType : Nat := 0
  cPmp : Nat := 0
  command : Nat := 0
  features : Nat := 0
  lbaLow : Nat := 0
  lbaMid : Nat := 0
  lbaHigh : Nat := 0
  device : Nat := 0
  lbaLowExp : Nat := 0
  lbaMidExp : Nat := 0
  lbaHighExp : Nat := 0
  featuresExp : Nat := 0
  sectorCountLo : Nat := 0
  sectorCountHi : Nat := 0
  icc : Nat := 0
  control : Nat := 0

def FisRegH2d.bytes (fis : FisRegH2d) : Bytes :=
  [byte fis.fisType, byte fis.cPmp, byte fis.command, byte fis.features, byte fis.lbaLow,
    byte fis.lbaMid, byte fis.lbaHigh, byte fis.device, byte fis.lbaLowExp, byte fis.lbaMidExp,
    byte fis.lbaHighExp, byte fis.featuresExp, byte fis.sectorCountLo, byte fis.sectorCountHi,
    byte fis.icc, byte fis.control] ++ List.replicate 4 0

structure PrdEntry where
  baseAddr : Nat
  baseAddrHi : Nat
  byteCount : Nat

def PrdEntry.bytes (prd : PrdEntry) : Bytes :=
  toLe32 prd.baseAddr ++ toLe32 prd.baseAddrHi ++ toLe32 0 ++ toLe32 prd.byteCount

def fisCommand (command : Nat) : FisRegH2d :=
  { fisType := fisTypeRegH2d, cPmp := 0x80, command }

def fillCmdHeader (write : Bool) (ctPhys : Nat) : CommandHeader where
  cflW := 5 ||| if write then 0x40 else 0
  flags := 0x04
  prdtl := 1
  prdbc := 0
  ctba := ctPhys
  ctbau := ctPhys >>> 32

/-- What the controller finds when a command is issued. -/
structure Command where
  header : Memory
  tableAt : Nat
  table : Memory

def zeroed : Memory := fun _ => 0

/-- A buffer by its physical address, if the device reaches it, and its length. -/
structure Buffer where
  phys : Option Nat
  len : Nat

/-- What `read_sectors` and `write_sectors` lay down. -/
def command (write : Bool) (lba count ctPhys bufPhys len : Nat) : Command where
  header := zeroed.put 0 (fillCmdHeader write ctPhys).bytes
  tableAt := ctPhys
  table :=
    let fis := { fisCommand (if write then ataCmdWriteDmaExt else ataCmdReadDmaExt) with
      device := 1 <<< 6
      lbaLow := lba
      lbaMid := lba >>> 8
      lbaHigh := lba >>> 16
      lbaLowExp := lba >>> 24
      lbaMidExp := lba >>> 32
      lbaHighExp := lba >>> 40
      sectorCountLo := count
      sectorCountHi := count >>> 8 }
    let prd : PrdEntry := ⟨bufPhys, bufPhys >>> 32, len % 2 ^ 32 ||| 1 <<< 31⟩
    (zeroed.put 0 fis.bytes).put 128 prd.bytes

/-! ## What the controller makes of it -/

/-- A transfer of sectors and the regions of memory that it goes through. -/
structure Transfer where
  write : Bool
  lba : Nat
  count : Nat
  regions : List (Nat × Nat)

def Transfer.sectors (t : Transfer) : List Nat := List.range' t.lba t.count

namespace Command

def field (c : Command) (i : Nat) : Nat := (c.table i).toNat

def lba (c : Command) : Nat :=
  c.field 4 + 2 ^ 8 * c.field 5 + 2 ^ 16 * c.field 6 + 2 ^ 24 * c.field 8 + 2 ^ 32 * c.field 9 +
    2 ^ 40 * c.field 10

def count (c : Command) : Nat :=
  let n := c.field 12 + 2 ^ 8 * c.field 13
  if n = 0 then 2 ^ 16 else n

/-- Entry `i`: the base is a word's, the length less one is in 22 bits. -/
def region (c : Command) (i : Nat) : Nat × Nat :=
  let entry := 128 + 16 * i
  (c.table.le32 entry / 2 * 2 + 2 ^ 32 * c.table.le32 (entry + 4),
    c.table.le32 (entry + 12) % 2 ^ 22 + 1)

/-- The FIS has five words and is one with a command for a device that is addressed by LBA. -/
def decode (c : Command) : Option Transfer :=
  let write := (c.header 0).toNat.testBit 6
  if (c.header 0).toNat % 32 = 5 ∧ c.header.le32 8 + 2 ^ 32 * c.header.le32 12 = c.tableAt ∧
      c.field 0 = fisTypeRegH2d ∧ (c.field 1).testBit 7 ∧ (c.field 7).testBit 6 ∧
      c.field 2 = (if write then ataCmdWriteDmaExt else ataCmdReadDmaExt) then
    some ⟨write, c.lba, c.count, (List.range (c.header.le16 2)).map c.region⟩
  else none

end Command

section Decoding

variable (write : Bool) (lba count ctPhys bufPhys len : Nat)

theorem byteCount_mod : (len % 2 ^ 32 ||| 1 <<< 31) % 2 ^ 32 % 2 ^ 22 = len % 2 ^ 22 := by
  rw [Nat.mod_mod_of_dvd _ (by decide), Nat.or_mod_two_pow, Nat.mod_mod_of_dvd _ (by decide)]
  exact Nat.or_zero _

theorem header_eq : let c := command write lba count ctPhys bufPhys len
    (c.header 0).toNat = (5 ||| if write then 0x40 else 0) ∧ c.header.le16 2 = 1 ∧
      c.header.le32 8 = ctPhys % 2 ^ 32 ∧ c.header.le32 12 = (ctPhys >>> 32) % 2 ^ 32 := by
  have hctba : (command write lba count ctPhys bufPhys len).header.le32 8 = ctPhys % 2 ^ 32 :=
    Memory.le32_of_bytes fun i hi => by interval_cases i <;> rfl
  have hctbau : (command write lba count ctPhys bufPhys len).header.le32 12 =
      (ctPhys >>> 32) % 2 ^ 32 := Memory.le32_of_bytes fun i hi => by interval_cases i <;> rfl
  have hprdtl : (command write lba count ctPhys bufPhys len).header.le16 2 = 1 % 2 ^ 16 :=
    Memory.le16_of_bytes fun i hi => by interval_cases i <;> rfl
  have hcfl : ((command write lba count ctPhys bufPhys len).header 0).toNat =
      (5 ||| if write then 0x40 else 0) := by
    show (UInt8.ofNat (5 ||| if write then 0x40 else 0)).toNat = _
    cases write <;> decide
  exact ⟨hcfl, hprdtl, hctba, hctbau⟩

theorem region_eq : (command write lba count ctPhys bufPhys len).region 0 =
    (bufPhys % 2 ^ 64 / 2 * 2, len % 2 ^ 22 + 1) := by
  have hbase : (command write lba count ctPhys bufPhys len).table.le32 128 = bufPhys % 2 ^ 32 :=
    Memory.le32_of_bytes fun i hi => by interval_cases i <;> rfl
  have hbaseHi : (command write lba count ctPhys bufPhys len).table.le32 132 =
      (bufPhys >>> 32) % 2 ^ 32 := Memory.le32_of_bytes fun i hi => by interval_cases i <;> rfl
  have hcount : (command write lba count ctPhys bufPhys len).table.le32 140 =
      (len % 2 ^ 32 ||| 1 <<< 31) % 2 ^ 32 :=
    Memory.le32_of_bytes fun i hi => by interval_cases i <;> rfl
  rw [Command.region, hbase, hbaseHi, hcount, byteCount_mod, Nat.shiftRight_eq_div_pow]
  congr 1
  omega

theorem lba_eq : (command write lba count ctPhys bufPhys len).lba = lba % 2 ^ 48 := by
  have h (n : Nat) : (UInt8.ofNat n).toNat = n % 2 ^ 8 := UInt8.toNat_ofNat'
  show (UInt8.ofNat lba).toNat + 2 ^ 8 * (UInt8.ofNat (lba >>> 8)).toNat +
    2 ^ 16 * (UInt8.ofNat (lba >>> 16)).toNat + 2 ^ 24 * (UInt8.ofNat (lba >>> 24)).toNat +
    2 ^ 32 * (UInt8.ofNat (lba >>> 32)).toNat + 2 ^ 40 * (UInt8.ofNat (lba >>> 40)).toNat = _
  simp only [h, Nat.shiftRight_eq_div_pow]
  omega

theorem count_eq : (command write lba count ctPhys bufPhys len).count =
    if count % 2 ^ 16 = 0 then 2 ^ 16 else count % 2 ^ 16 := by
  have h (n : Nat) : (UInt8.ofNat n).toNat = n % 2 ^ 8 := UInt8.toNat_ofNat'
  have hn : (command write lba count ctPhys bufPhys len).field 12 +
      2 ^ 8 * (command write lba count ctPhys bufPhys len).field 13 = count % 2 ^ 16 := by
    show (UInt8.ofNat count).toNat + 2 ^ 8 * (UInt8.ofNat (count >>> 8)).toNat = _
    rw [h, h, Nat.shiftRight_eq_div_pow]
    omega
  rw [Command.count, hn]

theorem decode_command (htable : ctPhys < 2 ^ 64) :
    (command write lba count ctPhys bufPhys len).decode =
      some ⟨write, lba % 2 ^ 48, if count % 2 ^ 16 = 0 then 2 ^ 16 else count % 2 ^ 16,
        [(bufPhys % 2 ^ 64 / 2 * 2, len % 2 ^ 22 + 1)]⟩ := by
  rcases header_eq write lba count ctPhys bufPhys len with ⟨hfirst, hprdtl, hctba, hctbau⟩
  have hat : ctPhys % 2 ^ 32 + 2 ^ 32 * ((ctPhys >>> 32) % 2 ^ 32) = ctPhys := by
    rw [Nat.shiftRight_eq_div_pow]
    omega
  have hwrite : (5 ||| if write then 0x40 else 0).testBit 6 = write := by cases write <;> rfl
  have hcfl : (5 ||| if write then 0x40 else 0) % 32 = 5 := by cases write <;> rfl
  have hcommand : (command write lba count ctPhys bufPhys len).field 2 =
      if write then ataCmdWriteDmaExt else ataCmdReadDmaExt := by cases write <;> rfl
  have hregion := region_eq write lba count ctPhys bufPhys len
  rw [Command.decode, hfirst, hctba, hctbau, hwrite, hcommand, hprdtl, lba_eq, count_eq, if_pos]
  · exact congrArg (fun region => some (Transfer.mk write _ _ [region])) hregion
  · have hlba : (UInt8.ofNat (1 <<< 6)).toNat.testBit 6 = true := by decide
    have hisCommand : (UInt8.ofNat 0x80).toNat.testBit 7 = true := by decide
    exact ⟨hcfl, hat, rfl, hisCommand, hlba, rfl⟩

end Decoding

/-- What the driver asks for: whether the port has gone idle, memory for the command table and its
physical address, a buffer of its own, and a command to be carried out. -/
inductive Ask where
  | idle
  | allocate
  | tablePhys
  | scratch (size : Nat)
  | issue (command : Command)

inductive Reply where
  | yes
  | no
  | phys (address : Fin (2 ^ 64))
deriving DecidableEq, Inhabited

def Reply.address : Reply → Option Nat
  | .phys address => some address
  | _ => none

abbrev AhciDialog := Dialog Ask Reply

/-- What `read_sectors` and `write_sectors` share. -/
def transferSectors (write : Bool) (lba count : Nat) (buf : Buffer) : AhciDialog Bool := do
  let idle ← question .idle
  if idle ≠ .yes then pure false
  else do
    let table ← question .allocate
    if table ≠ .yes then pure false
    else do
      let ctPhys ← question .tablePhys
      match ctPhys.address, buf.phys with
      | some ctPhys, some bufPhys => do
          let done ← question (.issue (command write lba count ctPhys bufPhys buf.len))
          pure (done = .yes)
      | _, _ => pure false

def readSectors (lba count : Nat) (buf : Buffer) : AhciDialog Bool :=
  transferSectors false lba count buf

def writeSectors (lba count : Nat) (buf : Buffer) : AhciDialog Bool :=
  transferSectors true lba count buf

def ahciMaxSectors : Nat := 128

/-- The chunks of a buffer that is contiguous, each with the address of its first sector; only the
low 48 bits of that count. -/
def Buffer.chunks (buf : Buffer) (ss lba : Nat) : List (Nat × Buffer) :=
  let maxBytes := ahciMaxSectors * ss
  (List.range ((buf.len + maxBytes - 1) / maxBytes)).map fun i =>
    (lba + i * ahciMaxSectors,
      ⟨buf.phys.map (· + i * maxBytes), min maxBytes (buf.len - i * maxBytes)⟩)

/-- The loop over the chunks. Only the one over the caller's buffer looks at their lengths. -/
def transferChunks (write checked : Bool) (ss : Nat) :
    List (Nat × Buffer) → AhciDialog (Except FsError Unit)
  | [] => pure (.ok ())
  | (lba, chunk) :: chunks =>
    let count := chunk.len / ss % 2 ^ 16
    let command := if write then writeSectors lba count chunk else readSectors lba count chunk
    if checked ∧ (count = 0 ∨ chunk.len % ss ≠ 0) then pure (.error .invalidPath)
    else do
      let moved ← command
      if moved then transferChunks write checked ss chunks else pure (.error .ioError)

namespace AhciDisk

def readBytes (ss off : Nat) (buf : Buffer) : AhciDialog (Except FsError Unit) :=
  if ss = 0 then pure (.error .ioError)
  else if off % ss = 0 ∧ buf.len % ss = 0 then
    transferChunks false true ss (buf.chunks ss (off / ss))
  else do
    let size := touched ss off buf.len * ss
    let tmp ← question (.scratch size)
    transferChunks false false ss (Buffer.chunks ⟨tmp.address, size⟩ ss (off / ss))

/-- A range that does not consist of whole sectors is read, changed and written back. -/
def writeBytes (ss off : Nat) (buf : Buffer) : AhciDialog (Except FsError Unit) :=
  if ss = 0 then pure (.error .ioError)
  else if off % ss = 0 ∧ buf.len % ss = 0 then
    transferChunks true true ss (buf.chunks ss (off / ss))
  else do
    let size := touched ss off buf.len * ss
    let tmp ← question (.scratch size)
    let chunks := Buffer.chunks ⟨tmp.address, size⟩ ss (off / ss)
    match ← transferChunks false false ss chunks with
    | .error e => pure (.error e)
    | .ok () => transferChunks true false ss chunks

def read (ss sector : Nat) (buf : Buffer) : AhciDialog (Except FsError Unit) :=
  readBytes ss (saturating 64 (sector * 512)) buf

def write (ss sector : Nat) (buf : Buffer) : AhciDialog (Except FsError Unit) :=
  writeBytes ss (saturating 64 (sector * 512)) buf

end AhciDisk

def Ask.command : Ask → Option Command
  | .issue command => some command
  | _ => none

def transfers (log : List (Ask × Reply)) : List (Option Transfer) :=
  (log.filterMap fun x => x.1.command).map Command.decode

/-- A call of `read_sectors` or `write_sectors` issues no command but the one for these sectors
and this buffer. -/
def SectorsDescribed (write : Bool) (lba count : Nat) (buf : Buffer) : Prop :=
  After (fun _ log => ∀ t ∈ transfers log, ∃ bufPhys, buf.phys = some bufPhys ∧
    t = some ⟨write, lba, count, [(bufPhys, buf.len)]⟩) (transferSectors write lba count buf) []

def requested (ss off len : Nat) : List Nat :=
  if len = 0 then [] else List.range' (off / ss) (touched ss off len)

/-- The transfers of this kind are for these sectors, one after the other, as far as they go, and
all of them if the call has succeeded. -/
def Covers (write : Bool) (sectors : List Nat) (ts : List Transfer)
    (result : Except FsError Unit) : Prop :=
  let moved := (ts.filter fun t => t.write = write).flatMap Transfer.sectors
  moved <+: sectors ∧ (result = .ok () → moved = sectors)

/-- A call of the block layer, `write` or `read`, issues commands for whole sectors of memory, and
these for the sectors with its bytes; a read does not write. -/
def CallDescribed (write : Bool) (ss sector : Nat) (buf : Buffer) : Prop :=
  After (fun result log => ∃ ts, transfers log = ts.map some ∧
      (∀ t ∈ ts, ∃ base, t.regions = [(base, t.count * ss)]) ∧ (∀ t ∈ ts, t.write → write) ∧
      Covers write (requested ss (sector * 512) buf.len) ts result)
    (if write then AhciDisk.write ss sector buf else AhciDisk.read ss sector buf) []

section Issued

variable {α : Type} {log : List (Ask × Reply)} {write : Bool} {lba count p len ss : Nat}

/-- The transfer that a command for `len` bytes at `p` stands for. -/
def described (write : Bool) (lba count p len : Nat) : Transfer :=
  ⟨write, lba % 2 ^ 48, if count % 2 ^ 16 = 0 then 2 ^ 16 else count % 2 ^ 16,
    [(p % 2 ^ 64 / 2 * 2, len % 2 ^ 22 + 1)]⟩

theorem transfers_append (log log' : List (Ask × Reply)) :
    transfers (log ++ log') = transfers log ++ transfers log' := by
  rw [transfers, List.filterMap_append, List.map_append, transfers, transfers]

theorem transfers_issue (table : Fin (2 ^ 64)) (done : Reply) :
    transfers (log ++ [(.issue (command write lba count table p len), done)]) =
      transfers log ++ [some (described write lba count p len)] := by
  rw [transfers_append]
  exact congrArg (fun t => transfers log ++ [t]) (decode_command write lba count table p len
    table.isLt)

theorem transfers_other (log : List (Ask × Reply)) (ask : Ask) (reply : Reply)
    (h : ask.command = none) :
    transfers (log ++ [(ask, reply)]) = transfers log := by
  rw [transfers_append]
  simp [transfers, h]

theorem exists_issue {P : α → List (Ask × Reply) → Prop} {f : Bool → AhciDialog α}
    (h : After P (transferSectors write lba count ⟨some p, len⟩ >>= f) log) :
    ∃ a log', P a log' ∧ some (described write lba count p len) ∈ transfers log' := by
  have hmemory : Nonempty (Fin (2 ^ 64)) := ⟨0⟩
  rcases hmemory with ⟨table⟩
  have hidle := (Lib.Dialog.after_bind _ _).1 h .yes .yes (.phys table) .yes
  have hissued : After P (f true) (log ++ [(.idle, .yes)] ++ [(.allocate, .yes)] ++
      [(.tablePhys, .phys table)] ++ [(.issue (command write lba count table p len), .yes)]) := hidle
  rcases hissued.exists with ⟨a, log', ha, rest, rfl⟩
  refine ⟨a, _, ha, ?_⟩
  rw [transfers_append, transfers_issue]
  exact List.mem_append_left _ (List.mem_append_right _ (List.mem_singleton.2 rfl))

theorem after_transferSectors (write : Bool) (lba count : Nat) (buf : Buffer)
    (log : List (Ask × Reply)) :
    After (fun moved log' => (moved = false ∧ transfers log' = transfers log) ∨
      ∃ p, buf.phys = some p ∧
        transfers log' = transfers log ++ [some (described write lba count p buf.len)])
      (transferSectors write lba count buf) log := by
  unfold transferSectors
  simp only [Lib.Dialog.after_bind, Lib.Dialog.after_question]
  intro idle
  have hidle := transfers_other log .idle idle rfl
  split
  · exact .inl ⟨rfl, hidle⟩
  simp only [Lib.Dialog.after_bind, Lib.Dialog.after_question]
  intro table
  have htable := (transfers_other _ .allocate table rfl).trans hidle
  split
  · exact .inl ⟨rfl, htable⟩
  simp only [Lib.Dialog.after_bind, Lib.Dialog.after_question]
  intro ctPhys
  have hphys := (transfers_other _ .tablePhys ctPhys rfl).trans htable
  split
  · next ctPhys' bufPhys hct hbuf =>
      simp only [Lib.Dialog.after_bind, Lib.Dialog.after_question]
      intro done
      cases ctPhys with
      | yes => cases hct
      | no => cases hct
      | phys address =>
        cases hct
        refine .inr ⟨bufPhys, hbuf, ?_⟩
        rw [transfers_issue, hphys]
  · exact .inl ⟨rfl, hphys⟩

theorem region_length_ne (len : Nat) : len % 2 ^ 22 + 1 ≠ len := by omega

theorem sectorsDescribed_iff (write : Bool) (lba count : Nat) (buf : Buffer) :
    SectorsDescribed write lba count buf ↔ buf.phys = none := by
  rcases buf with ⟨phys, len⟩
  cases phys with
  | some p =>
    constructor
    · intro h
      rcases exists_issue (Lib.Dialog.after_bind_pure.2 h) with ⟨-, log, hall, hissued⟩
      rcases hall _ hissued with ⟨bufPhys, -, heq⟩
      have hregions := congrArg Transfer.regions (Option.some.inj heq)
      have hlength := congrArg Prod.snd (List.cons.inj hregions).1
      exact absurd hlength (region_length_ne len)
    · nofun
  | none =>
    refine iff_of_true ?_ rfl
    apply (after_transferSectors write lba count ⟨none, len⟩ []).mono
    rintro moved log (⟨-, hlog⟩ | ⟨p, hp, -⟩)
    · rw [hlog]
      exact fun t ht => absurd ht List.not_mem_nil
    · cases hp

end Issued

section Chunks

variable {α : Type} {log : List (Ask × Reply)} {write checked : Bool} {ss lba : Nat}

theorem transferSectors_eq (write : Bool) (lba count : Nat) (chunk : Buffer) :
    (if write then writeSectors lba count chunk else readSectors lba count chunk) =
      transferSectors write lba count chunk := by
  cases write with
  | true => rfl
  | false => rfl

def chunkTransfer (write : Bool) (ss : Nat) (chunk : Nat × Buffer) : Transfer :=
  described write chunk.1 (chunk.2.len / ss % 2 ^ 16) (chunk.2.phys.getD 0) chunk.2.len

/-- The commands are for the chunks, one after the other, as far as they go. -/
structure Moved (write : Bool) (ss : Nat) (chunks : List (Nat × Buffer))
    (before after : List (Option Transfer)) (result : Except FsError Unit) (k : Nat) : Prop where
  transfers : after = before ++ ((chunks.take k).map (chunkTransfer write ss)).map some
  reached : ∀ chunk ∈ chunks.take k, chunk.2.phys ≠ none
  all : result = .ok () → chunks.length ≤ k

theorem after_transferChunks (chunks : List (Nat × Buffer)) (log : List (Ask × Reply)) :
    After (fun result log' => ∃ k, Moved write ss chunks (transfers log) (transfers log') result k)
      (transferChunks write checked ss chunks) log := by
  have hstop {chunks : List (Nat × Buffer)} {after : List (Option Transfer)} {e : FsError}
      {log : List (Ask × Reply)} (h : after = transfers log) :
      ∃ k, Moved write ss chunks (transfers log) after (.error e) k :=
    ⟨0, by simpa using h, fun chunk hchunk => absurd hchunk List.not_mem_nil, nofun⟩
  induction chunks generalizing log with
  | nil =>
    exact ⟨0, by simp, fun chunk hchunk => absurd hchunk List.not_mem_nil, fun _ => Nat.le_refl _⟩
  | cons chunk chunks ih =>
    rcases chunk with ⟨lba, chunk⟩
    rw [transferChunks]
    split
    · exact hstop rfl
    rw [Lib.Dialog.after_bind, transferSectors_eq]
    apply (after_transferSectors write lba _ chunk log).mono
    rintro moved log' (⟨rfl, hlog'⟩ | ⟨p, hp, hlog'⟩)
    · exact hstop hlog'
    · cases moved with
      | false =>
        refine ⟨1, ?_, ?_, nofun⟩
        · rw [hlog']
          simp [chunkTransfer, hp]
        · intro chunk' hchunk'
          rw [List.mem_singleton.1 hchunk', hp]
          exact Option.some_ne_none p
      | true =>
        apply (ih log').mono
        rintro result log'' ⟨k, htransfers, hreached, hall⟩
        refine ⟨k + 1, ?_, ?_, ?_⟩
        · rw [htransfers, hlog']
          simp [chunkTransfer, hp]
        · intro chunk' hchunk'
          rcases List.mem_cons.1 hchunk' with rfl | htail
          · rw [hp]
            exact Option.some_ne_none p
          · exact hreached chunk' htail
        · exact fun hok => Nat.succ_le_succ (hall hok)

theorem chunks_cons (phys : Option Nat) {n : Nat} (hn : 0 < n) (hss : 0 < ss) (lba : Nat) :
    ∃ rest, Buffer.chunks ⟨phys, n * ss⟩ ss lba =
      (lba, ⟨phys, min ahciMaxSectors n * ss⟩) :: rest := by
  have hmax : 0 < ahciMaxSectors * ss := Nat.mul_pos (by decide) hss
  have hpos : 0 < (n * ss + ahciMaxSectors * ss - 1) / (ahciMaxSectors * ss) := by
    have hlen := Nat.mul_pos hn hss
    exact Nat.div_pos (by omega) hmax
  rcases Nat.exists_eq_add_of_lt hpos with ⟨k, hk⟩
  rw [Nat.zero_add] at hk
  have hphys : phys.map (· + 0) = phys := by
    cases phys with
    | none => rfl
    | some p => rfl
  rw [Buffer.chunks]
  dsimp only
  rw [hk, List.range_succ_eq_map, List.map_cons, Nat.zero_mul, Nat.zero_mul, Nat.sub_zero,
    Nat.mul_min_mul_right, hphys]
  exact ⟨_, rfl⟩

theorem exists_issue_chunk {P : α → List (Ask × Reply) → Prop}
    {f : Except FsError Unit → AhciDialog α} {p k : Nat} {rest : List (Nat × Buffer)} (hk : 0 < k)
    (hmax : k ≤ ahciMaxSectors) (hss : 0 < ss)
    (h : After P (transferChunks write checked ss ((lba, ⟨some p, k * ss⟩) :: rest) >>= f) log) :
    ∃ a log', P a log' ∧ some (described write lba k p (k * ss)) ∈ transfers log' := by
  have hcount : k * ss / ss % 2 ^ 16 = k := by
    rw [Nat.mul_div_cancel _ hss]
    unfold ahciMaxSectors at hmax
    omega
  have hchecked : ¬(checked = true ∧ (k = 0 ∨ k * ss % ss ≠ 0)) := by
    rintro ⟨-, hzero | hrest⟩
    · omega
    · exact hrest (Nat.mul_mod_left k ss)
  rw [Lib.Dialog.after_bind, transferChunks] at h
  dsimp only at h
  rw [hcount, if_neg hchecked, transferSectors_eq] at h
  rcases exists_issue h with ⟨result, log', hlater, hissued⟩
  rcases hlater.exists with ⟨a, log'', ha, later, rfl⟩
  refine ⟨a, _, ha, ?_⟩
  rw [transfers_append]
  exact List.mem_append_left _ hissued

end Chunks

/-! ## Calls of the block layer -/

section Calls

variable {write : Bool} {ss sector : Nat} {buf : Buffer}

def Whole (ss sector : Nat) (buf : Buffer) : Prop :=
  saturating 64 (sector * 512) % ss = 0 ∧ buf.len % ss = 0

def call (write : Bool) (ss sector : Nat) (buf : Buffer) : AhciDialog (Except FsError Unit) :=
  if write then AhciDisk.write ss sector buf else AhciDisk.read ss sector buf

theorem call_zero : call write 0 sector buf = pure (.error .ioError) := by
  cases write with
  | true => rfl
  | false => rfl

theorem call_whole (hss : ss ≠ 0) (h : Whole ss sector buf) : call write ss sector buf =
    transferChunks write true ss (buf.chunks ss (saturating 64 (sector * 512) / ss)) := by
  cases write with
  | true =>
    show AhciDisk.writeBytes ss _ buf = _
    rw [AhciDisk.writeBytes, if_neg hss]
    exact if_pos h
  | false =>
    show AhciDisk.readBytes ss _ buf = _
    rw [AhciDisk.readBytes, if_neg hss]
    exact if_pos h

theorem described_not_whole {k lba p : Nat} (hk : 0 < k) (hmax : k ≤ ahciMaxSectors)
    {ts : List Transfer} {log : List (Option Transfer)} (hlog : log = ts.map some)
    (hregions : ∀ t ∈ ts, ∃ base, t.regions = [(base, t.count * ss)]) :
    some (described write lba k p (k * ss)) ∉ log := by
  intro hissued
  rw [hlog] at hissued
  rcases List.mem_map.1 hissued with ⟨t, ht, heq⟩
  cases heq
  rcases hregions _ ht with ⟨base, hregion⟩
  have hcount : (described write lba k p (k * ss)).count = k := by
    have hmod : k % 2 ^ 16 = k := Nat.mod_eq_of_lt (by unfold ahciMaxSectors at hmax; omega)
    show (if k % 2 ^ 16 = 0 then 2 ^ 16 else k % 2 ^ 16) = k
    rw [hmod, if_neg (by omega)]
  rw [hcount] at hregion
  have hlength := congrArg Prod.snd (List.cons.inj hregion).1
  exact region_length_ne _ hlength

theorem first_chunk_described {α : Type} {P : α → List (Ask × Reply) → Prop}
    {f : Except FsError Unit → AhciDialog α} {checked : Bool} {lba p n : Nat} (hn : 0 < n)
    (hss : 0 < ss) {log : List (Ask × Reply)}
    (h : After P
      (transferChunks write checked ss (Buffer.chunks ⟨some p, n * ss⟩ ss lba) >>= f) log)
    (hP : ∀ a log', P a log' → ∃ ts : List Transfer, transfers log' = ts.map some ∧
      ∀ t ∈ ts, ∃ base, t.regions = [(base, t.count * ss)]) : False := by
  rcases chunks_cons (some p) hn hss lba with ⟨rest, hchunks⟩
  rw [hchunks] at h
  have hk : 0 < min ahciMaxSectors n := Nat.lt_min.2 ⟨by decide, hn⟩
  have hmax : min ahciMaxSectors n ≤ ahciMaxSectors := Nat.min_le_left ..
  rcases exists_issue_chunk hk hmax hss h with ⟨a, log', ha, hissued⟩
  rcases hP a log' ha with ⟨ts, hts, hregions⟩
  exact described_not_whole hk hmax hts hregions hissued

theorem touched_pos (hss : 0 < ss) (h : ¬Whole ss sector buf) :
    0 < touched ss (saturating 64 (sector * 512)) buf.len := by
  apply Nat.div_pos _ hss
  by_contra hlt
  apply h
  have hoff : saturating 64 (sector * 512) % ss = 0 := by omega
  have hlen : buf.len = 0 := by omega
  exact ⟨hoff, by rw [hlen, Nat.zero_mod]⟩

theorem exists_chunks_of_part {P : Except FsError Unit → List (Ask × Reply) → Prop} (hss : ss ≠ 0)
    (h : ¬Whole ss sector buf) (hcall : After P (call write ss sector buf) []) :
    ∃ (f : Except FsError Unit → AhciDialog (Except FsError Unit)) (log : List (Ask × Reply)),
      After P (transferChunks false false ss (Buffer.chunks
        ⟨some 0, touched ss (saturating 64 (sector * 512)) buf.len * ss⟩ ss
        (saturating 64 (sector * 512) / ss)) >>= f) log := by
  cases write with
  | true =>
    have hpart : call true ss sector buf = _ := (if_neg hss).trans (if_neg h)
    rw [hpart, Lib.Dialog.after_bind, Lib.Dialog.after_question] at hcall
    exact ⟨_, _, hcall (.phys 0)⟩
  | false =>
    have hpart : call false ss sector buf = _ := (if_neg hss).trans (if_neg h)
    rw [hpart, Lib.Dialog.after_bind, Lib.Dialog.after_question] at hcall
    exact ⟨pure, _, Lib.Dialog.after_bind_pure.2 (hcall (.phys 0))⟩

theorem chunks_phys {chunk : Nat × Buffer} {lba len : Nat}
    (h : chunk ∈ Buffer.chunks ⟨none, len⟩ ss lba) : chunk.2.phys = none := by
  rcases List.mem_map.1 h with ⟨i, -, rfl⟩
  rfl

theorem chunks_zero (phys : Option Nat) (hss : 0 < ss) (lba : Nat) :
    Buffer.chunks ⟨phys, 0⟩ ss lba = [] := by
  have hmax : 0 < ahciMaxSectors * ss := Nat.mul_pos (by decide) hss
  have hnone : (0 + ahciMaxSectors * ss - 1) / (ahciMaxSectors * ss) = 0 :=
    Nat.div_eq_of_lt (by omega)
  rw [Buffer.chunks]
  dsimp only
  rw [hnone]
  rfl

theorem callDescribed_iff (write : Bool) (ss sector : Nat) (buf : Buffer) :
    CallDescribed write ss sector buf ↔
      ss = 0 ∨ Whole ss sector buf ∧ (buf.len = 0 ∨ buf.phys = none) := by
  by_cases hss : ss = 0
  · subst hss
    refine iff_of_true ?_ (.inl rfl)
    show After _ (call write 0 sector buf) []
    rw [call_zero]
    have hnone {P : Transfer → Prop} : ∀ t ∈ ([] : List Transfer), P t :=
      fun t ht => absurd ht List.not_mem_nil
    exact ⟨[], rfl, hnone, hnone, List.nil_prefix, nofun⟩
  have hpos := Nat.pos_of_ne_zero hss
  simp only [hss, false_or]
  constructor
  · intro h
    have hcall : After _ (call write ss sector buf) [] := h
    by_cases hwhole : Whole ss sector buf
    · refine ⟨hwhole, ?_⟩
      by_contra hsome
      rcases not_or.1 hsome with ⟨hlen, hphys⟩
      rcases Option.ne_none_iff_exists'.1 hphys with ⟨p, hp⟩
      rcases buf with ⟨phys, len⟩
      rcases Nat.dvd_of_mod_eq_zero hwhole.2 with ⟨n, hn⟩
      simp only at hp hlen hn
      subst hp hn
      have hnpos : 0 < n := Nat.pos_of_ne_zero fun h0 => hlen (by rw [h0, Nat.mul_zero])
      rw [call_whole hss hwhole, Nat.mul_comm ss n] at hcall
      apply first_chunk_described hnpos hpos (Lib.Dialog.after_bind_pure.2 hcall)
      rintro a log' ⟨ts, hts, hregions, -⟩
      exact ⟨ts, hts, hregions⟩
    · rcases exists_chunks_of_part hss hwhole hcall with ⟨f, log, hpart⟩
      exfalso
      apply first_chunk_described (touched_pos hpos hwhole) hpos hpart
      rintro a log' ⟨ts, hts, hregions, -⟩
      exact ⟨ts, hts, hregions⟩
  · rintro ⟨hwhole, hnothing⟩
    show After _ (call write ss sector buf) []
    rw [call_whole hss hwhole]
    apply (after_transferChunks _ []).mono
    rintro result log ⟨k, hmoved⟩
    rcases buf with ⟨phys, len⟩
    have hnone :
        (Buffer.chunks ⟨phys, len⟩ ss (saturating 64 (sector * 512) / ss)).take k = [] := by
      apply List.eq_nil_iff_forall_not_mem.2
      intro chunk hchunk
      rcases hnothing with hlen | hphys
      · simp only at hlen
        rw [hlen, chunks_zero phys hpos, List.take_nil] at hchunk
        exact List.not_mem_nil hchunk
      · simp only at hphys
        subst hphys
        exact hmoved.reached chunk hchunk (chunks_phys (List.mem_of_mem_take hchunk))
    have hlog : transfers log = [] := by
      rw [hmoved.transfers, hnone]
      rfl
    have hempty {P : Transfer → Prop} : ∀ t ∈ ([] : List Transfer), P t :=
      fun t ht => absurd ht List.not_mem_nil
    refine ⟨[], hlog, hempty, hempty, List.nil_prefix, ?_⟩
    intro hok
    have hlen : len = 0 := by
      rw [List.take_of_length_le (hmoved.all hok)] at hnone
      rcases Nat.dvd_of_mod_eq_zero hwhole.2 with ⟨n, hn⟩
      simp only at hn
      by_contra hlen
      have hnpos : 0 < n := Nat.pos_of_ne_zero fun h0 => hlen (by rw [hn, h0, Nat.mul_zero])
      rcases chunks_cons phys hnpos hpos (saturating 64 (sector * 512) / ss) with ⟨rest, hcons⟩
      rw [hn, Nat.mul_comm, hcons] at hnone
      exact List.cons_ne_nil _ _ hnone
    rw [requested, if_pos hlen]
    rfl

end Calls

/-! ## The sectors of the commands -/

section Sectors

variable {write checked : Bool} {ss sector lba n : Nat} {buf : Buffer}

theorem flatMap_pieces (s m n k : Nat) :
    (List.range k).flatMap (fun i => List.range' (s + i * m) (min m (n - i * m))) =
      List.range' s (min (k * m) n) := by
  induction k with
  | zero => rw [Nat.zero_mul, Nat.zero_min]; rfl
  | succ k ih =>
    rw [List.range_succ, List.flatMap_append, ih, List.flatMap_singleton, Nat.succ_mul]
    rcases Nat.lt_or_ge n (k * m) with hover | hmore
    · rw [Nat.sub_eq_zero_of_le hover.le, Nat.min_zero, Nat.min_eq_right hover.le,
        Nat.min_eq_right (by omega)]
      exact List.append_nil _
    · rw [Nat.min_eq_left hmore, List.range'_append_1]
      congr 1
      omega

theorem sectors_chunkTransfer {i : Nat} (hss : 0 < ss) (hi : i * ahciMaxSectors < n)
    (hfits : lba + n ≤ 2 ^ 48) (phys : Option Nat) :
    (chunkTransfer write ss (lba + i * ahciMaxSectors, ⟨phys, min (ahciMaxSectors * ss)
      (n * ss - i * (ahciMaxSectors * ss))⟩)).sectors =
      List.range' (lba + i * ahciMaxSectors) (min ahciMaxSectors (n - i * ahciMaxSectors)) := by
  have hlen : min (ahciMaxSectors * ss) (n * ss - i * (ahciMaxSectors * ss)) =
      min ahciMaxSectors (n - i * ahciMaxSectors) * ss := by
    rw [← Nat.mul_assoc, ← Nat.sub_mul, Nat.mul_min_mul_right]
  have hcount : min ahciMaxSectors (n - i * ahciMaxSectors) % 2 ^ 16 =
      min ahciMaxSectors (n - i * ahciMaxSectors) := by
    apply Nat.mod_eq_of_lt
    unfold ahciMaxSectors
    omega
  have hpos : min ahciMaxSectors (n - i * ahciMaxSectors) ≠ 0 := by
    unfold ahciMaxSectors at hi ⊢
    omega
  show List.range' ((lba + i * ahciMaxSectors) % 2 ^ 48) _ = _
  simp only [chunkTransfer, described, hlen, Nat.mul_div_cancel _ hss, hcount, if_neg hpos]
  rw [Nat.mod_eq_of_lt (by omega)]

theorem sectors_chunks (write : Bool) (hss : 0 < ss) (hfits : lba + n ≤ 2 ^ 48)
    (phys : Option Nat) (k : Nat) :
    (((Buffer.chunks ⟨phys, n * ss⟩ ss lba).take k).map (chunkTransfer write ss)).flatMap
      Transfer.sectors = List.range' lba (min (k * ahciMaxSectors) n) := by
  have hmax : 0 < ahciMaxSectors * ss := Nat.mul_pos (by decide) hss
  rw [Buffer.chunks]
  dsimp only
  generalize hq : (n * ss + ahciMaxSectors * ss - 1) / (ahciMaxSectors * ss) = q
  have hcover : n ≤ q * ahciMaxSectors := by
    have hlt : n * ss + ahciMaxSectors * ss - 1 < (q + 1) * (ahciMaxSectors * ss) := by
      rw [← Nat.div_lt_iff_lt_mul hmax, hq]
      exact Nat.lt_succ_self q
    rw [Nat.succ_mul, ← Nat.mul_assoc] at hlt
    exact Nat.le_of_mul_le_mul_right (by omega) hss
  have hbefore {i : Nat} (hi : i < q) : i * ahciMaxSectors < n := by
    have hle := (Nat.le_div_iff_mul_le hmax).1 (hq.symm ▸ hi : i + 1 ≤ _)
    rw [Nat.succ_mul, ← Nat.mul_assoc] at hle
    exact Nat.lt_of_mul_lt_mul_right (show i * ahciMaxSectors * ss < n * ss by omega)
  rw [← List.map_take, List.take_range, List.map_map, List.flatMap_map]
  have hsectors : (List.range (min k q)).flatMap (fun i => (chunkTransfer write ss
      (lba + i * ahciMaxSectors, ⟨phys.map (· + i * (ahciMaxSectors * ss)),
        min (ahciMaxSectors * ss) (n * ss - i * (ahciMaxSectors * ss))⟩)).sectors) =
      (List.range (min k q)).flatMap fun i =>
        List.range' (lba + i * ahciMaxSectors) (min ahciMaxSectors (n - i * ahciMaxSectors)) := by
    apply List.flatMap_congr
    intro i hi
    have hq' : i < q := Nat.lt_of_lt_of_le (List.mem_range.1 hi) (Nat.min_le_right k q)
    exact sectors_chunkTransfer hss (hbefore hq') hfits _
  refine hsectors.trans ?_
  rw [flatMap_pieces]
  congr 1
  rcases Nat.le_total k q with hk | hk
  · rw [Nat.min_eq_left hk]
  · have hall := Nat.mul_le_mul_right ahciMaxSectors hk
    rw [Nat.min_eq_right hk]
    omega

theorem Moved.covers {before after : List (Option Transfer)} {result : Except FsError Unit}
    {k : Nat} {phys : Option Nat} (hss : 0 < ss) (hfits : lba + n ≤ 2 ^ 48)
    (h : Moved write ss (Buffer.chunks ⟨phys, n * ss⟩ ss lba) before after result k) :
    Covers write (List.range' lba n)
      (((Buffer.chunks ⟨phys, n * ss⟩ ss lba).take k).map (chunkTransfer write ss)) result := by
  have hwrite : (((Buffer.chunks ⟨phys, n * ss⟩ ss lba).take k).map (chunkTransfer write ss)).filter
      (fun t => t.write = write) =
      ((Buffer.chunks ⟨phys, n * ss⟩ ss lba).take k).map (chunkTransfer write ss) := by
    apply List.filter_eq_self.2
    intro t ht
    rcases List.mem_map.1 ht with ⟨chunk, -, rfl⟩
    exact decide_eq_true rfl
  rw [Covers, hwrite, sectors_chunks write hss hfits phys k]
  constructor
  · refine ⟨List.range' (lba + min (k * ahciMaxSectors) n) (n - min (k * ahciMaxSectors) n), ?_⟩
    rw [List.range'_append_1]
    congr 1
    omega
  · intro hok
    have hlength := h.all hok
    have htake := List.take_of_length_le hlength
    have hmore := List.take_of_length_le (Nat.le_add_right_of_le (k := n) hlength)
    rw [← sectors_chunks write hss hfits phys k, htake, ← hmore,
      sectors_chunks write hss hfits phys]
    congr 1
    unfold ahciMaxSectors
    omega

theorem after_chunks_covers (hss : 0 < ss) (hfits : lba + n ≤ 2 ^ 48) (phys : Option Nat)
    (log : List (Ask × Reply)) :
    After (fun result log' => ∃ ts, transfers log' = transfers log ++ ts.map some ∧
        (∀ t ∈ ts, t.write = write) ∧ Covers write (List.range' lba n) ts result)
      (transferChunks write checked ss (Buffer.chunks ⟨phys, n * ss⟩ ss lba)) log := by
  apply (after_transferChunks _ log).mono
  rintro result log' ⟨k, hmoved⟩
  refine ⟨_, hmoved.transfers, ?_, hmoved.covers hss hfits⟩
  intro t ht
  rcases List.mem_map.1 ht with ⟨chunk, -, rfl⟩
  rfl

theorem Covers.after_reads {sectors : List Nat} {reads ts : List Transfer}
    {result : Except FsError Unit} (hreads : ∀ t ∈ reads, t.write = false)
    (h : Covers true sectors ts result) : Covers true sectors (reads ++ ts) result := by
  have hnone : reads.filter (fun t => t.write = true) = [] := by
    apply List.filter_eq_nil_iff.2
    intro t ht
    rw [hreads t ht]
    decide
  rw [Covers, List.filter_append, hnone, List.nil_append]
  exact h

/-- In the range of the 48 bits the commands of a call are for the sectors with its bytes, in
order and each once, as far as they go. -/
theorem call_covers (hss : 0 < ss) (hwidth : ss < 2 ^ 16) (hlen : 0 < buf.len)
    (hfits : sector * 512 + buf.len ≤ 2 ^ 48 * ss) :
    After (fun result log => ∃ ts, transfers log = ts.map some ∧
        Covers write (requested ss (sector * 512) buf.len) ts result)
      (call write ss sector buf) [] := by
  have hoff : saturating 64 (sector * 512) = sector * 512 := by
    unfold saturating
    omega
  have hreach : sector * 512 / ss + touched ss (sector * 512) buf.len ≤ 2 ^ 48 := by
    rw [div_add_touched hss]
    apply Nat.le_of_lt_succ
    rw [Nat.div_lt_iff_lt_mul hss, Nat.succ_mul]
    omega
  have hrequested : requested ss (sector * 512) buf.len =
      List.range' (sector * 512 / ss) (touched ss (sector * 512) buf.len) :=
    if_neg (Nat.pos_iff_ne_zero.1 hlen)
  rw [hrequested]
  generalize hn : touched ss (sector * 512) buf.len = n at hreach
  generalize hlba : sector * 512 / ss = lba at hreach
  by_cases hwhole : Whole ss sector buf
  · rw [call_whole hss.ne' hwhole, hoff, hlba]
    rw [Whole, hoff] at hwhole
    have hbuf : buf = ⟨buf.phys, n * ss⟩ := by
      rw [← hn, touched_of_aligned hss hwhole]
    rw [hbuf]
    apply (after_chunks_covers hss hreach buf.phys []).mono
    rintro result log ⟨ts, hts, -, hcovers⟩
    exact ⟨ts, hts, hcovers⟩
  · cases write with
    | false =>
      have hpart : call false ss sector buf = _ := (if_neg hss.ne').trans (if_neg hwhole)
      rw [hpart, Lib.Dialog.after_bind, Lib.Dialog.after_question, hoff, hn, hlba]
      intro tmp
      apply (after_chunks_covers hss hreach tmp.address _).mono
      rintro result log ⟨ts, hts, -, hcovers⟩
      exact ⟨ts, hts, hcovers⟩
    | true =>
      have hpart : call true ss sector buf = _ := (if_neg hss.ne').trans (if_neg hwhole)
      rw [hpart, Lib.Dialog.after_bind, Lib.Dialog.after_question, hoff, hn, hlba]
      intro tmp
      rw [Lib.Dialog.after_bind]
      apply (after_chunks_covers hss hreach tmp.address _).mono
      rintro result log ⟨reads, hread, hreads, -⟩
      cases result with
      | error e =>
        have hnothing : Covers true (List.range' lba n) [] (.error e) :=
          ⟨List.nil_prefix, nofun⟩
        have hcovers := hnothing.after_reads hreads
        rw [List.append_nil] at hcovers
        exact ⟨reads, hread, hcovers⟩
      | ok done =>
        apply (after_chunks_covers hss hreach tmp.address _).mono
        rintro result log' ⟨ts, hts, -, hcovers⟩
        refine ⟨reads ++ ts, ?_, hcovers.after_reads hreads⟩
        rw [hts, hread, List.map_append]
        rfl

/-- A write of 512 bytes to a drive with sectors of 4096 bytes. -/
theorem call_covers_part :
    After (fun result log => ∃ ts, transfers log = ts.map some ∧
        Covers true (requested 4096 (1 * 512) 512) ts result)
      (call true 4096 1 ⟨some 0x100000, 512⟩) [] := by
  have hcovers := @call_covers true 4096 1 ⟨some 0x100000, 512⟩
  exact hcovers (by decide) (by decide) (by decide) (by decide)

end Sectors

/-- The commands describe what is asked for exactly where none is issued. -/
theorem commands_described_iff (write : Bool) (lba count ss sector : Nat) (buf : Buffer) :
    (SectorsDescribed write lba count buf ↔ buf.phys = none) ∧
      (CallDescribed write ss sector buf ↔
        ss = 0 ∨ Whole ss sector buf ∧ (buf.len = 0 ∨ buf.phys = none)) :=
  ⟨sectorsDescribed_iff write lba count buf, callDescribed_iff write ss sector buf⟩

/-- One sector is read through a region of 513 bytes. -/
theorem sector_described_too_long : ¬SectorsDescribed false 0 1 ⟨some 0x100000, 512⟩ := by
  intro h
  cases (sectorsDescribed_iff false 0 1 ⟨some 0x100000, 512⟩).1 h

end Vibra.Disk.Ahci
