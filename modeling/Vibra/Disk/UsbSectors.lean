import Vibra.Disk.BulkOnly

/-! # The sectors a USB disk addresses

`UsbDisk::read` and `UsbDisk::write` of `drivers/usb/storage.rs`, above `execute`.
-/

namespace Vibra.Disk

open Fat32 (FsError)
open Lib (Dialog)
open Lib.Dialog (After Transcript question)

namespace UsbDisk

/-- A call of `execute`. No data is the empty buffer. -/
structure Command where
  cdb : List UInt8
  data : List UInt8
  dirIn : Bool

/-- What a call of `execute` comes to: its result and the buffer. -/
structure Answer where
  result : Except FsError Unit
  data : List UInt8

abbrev CommandDialog := Dialog Command Answer

def be16 (n : Nat) : List UInt8 := [UInt8.ofNat (n / 2 ^ 8), UInt8.ofNat n]

def be32 (n : Nat) : List UInt8 := be16 (n / 2 ^ 16) ++ be16 n

def read10Cdb (opcode : UInt8) (lba count : Nat) : List UInt8 :=
  [opcode, 0] ++ be32 lba ++ [0] ++ be16 count ++ [0]

def maxSectorsPerCmd : Nat := 64

def sectorsPerCmd (maxTransfer : Nat) : Nat := max 1 (min (maxTransfer / 512) maxSectorsPerCmd)

theorem sectorsPerCmd_pos (maxTransfer : Nat) : 0 < sectorsPerCmd maxTransfer := by
  unfold sectorsPerCmd
  omega

theorem sectorsPerCmd_le (maxTransfer : Nat) : sectorsPerCmd maxTransfer ≤ 64 := by
  unfold sectorsPerCmd maxSectorsPerCmd
  omega

section Transfers

variable (maxTransfer : Nat)

/-- The loop over the chunks of a buffer with `left` sectors left, the first of them at the byte
`done`. -/
def chunks (opcode : UInt8) (dirIn : Bool) (sector done left : Nat) (buf : List UInt8) :
    CommandDialog (Except FsError Unit × List UInt8) :=
  if _ : left = 0 then pure (.ok (), buf)
  else do
    let sectors := min left (sectorsPerCmd maxTransfer)
    let lba := (sector + done / 512) % 2 ^ 64
    let answer ← question
      ⟨read10Cdb opcode lba sectors, (buf.drop done).take (sectors * 512), dirIn⟩
    let buf := if dirIn then buf.take done ++ answer.data ++ buf.drop (done + sectors * 512) else buf
    match answer.result with
    | .error e => pure (.error e, buf)
    | .ok () => chunks opcode dirIn sector (done + sectors * 512) (left - sectors) buf
termination_by left
decreasing_by
  have := sectorsPerCmd_pos maxTransfer
  omega

/-- `read`, with the buffer it leaves. -/
def read (sector : Nat) (buf : List UInt8) : CommandDialog (Except FsError Unit × List UInt8) :=
  if buf = [] then pure (.ok (), buf)
  else if buf.length % 512 ≠ 0 then pure (.error .invalidPath, buf)
  else chunks maxTransfer 0x28 true sector 0 (buf.length / 512) buf

/-- The end of `write`. What comes of the cache command is not looked at. -/
def synchronizeCache (sector count : Nat) (moved : Except FsError Unit × List UInt8) :
    CommandDialog (Except FsError Unit) :=
  match moved.1 with
  | .error e => pure (.error e)
  | .ok () => do
      let _ ← question ⟨read10Cdb 0x35 sector count, [], true⟩
      pure (.ok ())

def write (sector : Nat) (buf : List UInt8) : CommandDialog (Except FsError Unit) :=
  if buf = [] then pure (.ok ())
  else if buf.length % 512 ≠ 0 then pure (.error .invalidPath)
  else
    chunks maxTransfer 0x2A false sector 0 (buf.length / 512) buf >>=
      synchronizeCache sector (buf.length / 512)

end Transfers

def be16At (bytes : List UInt8) (i : Nat) : Nat :=
  2 ^ 8 * (bytes.getD i 0).toNat + (bytes.getD (i + 1) 0).toNat

def be32At (bytes : List UInt8) (i : Nat) : Nat :=
  2 ^ 16 * be16At bytes i + be16At bytes (i + 2)

/-- The sectors a READ(10) or a WRITE(10) addresses; no other command addresses any. -/
def Command.sectors (command : Command) : List Nat :=
  if command.cdb.getD 0 0 = 0x28 ∨ command.cdb.getD 0 0 = 0x2A then
    List.range' (be32At command.cdb 2) (be16At command.cdb 7)
  else []

def addressed (log : List (Command × Answer)) : List Nat := log.flatMap (·.1.sectors)

/-- The commands address the `n` sectors from `sector` on, in order and each once, as far as the
call gets; or the call is refused before any command. -/
def Addresses (sector n : Nat) (result : Except FsError Unit) (log : List (Command × Answer)) :
    Prop :=
  (log = [] ∧ ∃ e, result = .error e) ∨
    addressed log <+: List.range' sector n ∧
      (result = .ok () → addressed log = List.range' sector n)

theorem addressed_append (log log' : List (Command × Answer)) :
    addressed (log ++ log') = addressed log ++ addressed log' := List.flatMap_append

theorem sectors_read10Cdb {opcode : UInt8} (hop : opcode = 0x28 ∨ opcode = 0x2A) (lba : Nat)
    {count : Nat} (hcount : count ≤ 64) (data : List UInt8) (dirIn : Bool) :
    Command.sectors ⟨read10Cdb opcode lba count, data, dirIn⟩ =
      List.range' (lba % 2 ^ 32) count := by
  have hlba : be32At (read10Cdb opcode lba count) 2 = lba % 2 ^ 32 := by
    simp [be32At, be16At, read10Cdb, be32, be16]
    omega
  have hlen : be16At (read10Cdb opcode lba count) 7 = count := by
    simp [be16At, read10Cdb, be32, be16]
    omega
  have hcode : (read10Cdb opcode lba count).getD 0 0 = opcode := rfl
  rw [Command.sectors, if_pos (by rw [hcode]; exact hop), hlba, hlen]

/-! ## The loop -/

section Loop

variable {maxTransfer sector : Nat} {opcode : UInt8} {dirIn : Bool}

def Expressible (maxTransfer sector n : Nat) : Prop :=
  sector + (n - 1) / sectorsPerCmd maxTransfer * sectorsPerCmd maxTransfer < 2 ^ 32

instance (maxTransfer sector n : Nat) : Decidable (Expressible maxTransfer sector n) :=
  inferInstanceAs (Decidable (_ < _))

theorem expressible_rest {left : Nat} (hmore : sectorsPerCmd maxTransfer < left) :
    Expressible maxTransfer (sector + sectorsPerCmd maxTransfer)
        (left - sectorsPerCmd maxTransfer) ↔ Expressible maxTransfer sector left := by
  have hpos := sectorsPerCmd_pos maxTransfer
  have hdiv : (left - 1) / sectorsPerCmd maxTransfer =
      (left - sectorsPerCmd maxTransfer - 1) / sectorsPerCmd maxTransfer + 1 := by
    rw [← Nat.add_div_right _ hpos]
    congr 1
    omega
  rw [Expressible, Expressible, hdiv, Nat.succ_mul]
  omega

theorem expressible_last {left : Nat} (hleft : 0 < left) (hlast : left ≤ sectorsPerCmd maxTransfer) :
    Expressible maxTransfer sector left ↔ sector < 2 ^ 32 := by
  rw [Expressible, Nat.div_eq_of_lt (by omega), Nat.zero_mul, Nat.add_zero]

theorem Expressible.lt {n : Nat} (h : Expressible maxTransfer sector n) : sector < 2 ^ 32 :=
  Nat.lt_of_le_of_lt (Nat.le_add_right _ _) h

theorem range_split (start m n : Nat) :
    List.range' start m ++ List.range' (start + m) n = List.range' start (m + n) := by
  have hrange := @List.range'_append start m n 1
  rwa [Nat.one_mul] at hrange

theorem range_extends (start : Nat) {m n : Nat} (h : m ≤ n) :
    List.range' start m <+: List.range' start n := by
  rw [← Nat.add_sub_cancel' h, ← range_split]
  exact List.prefix_append _ _

theorem after_chunks (hop : opcode = 0x28 ∨ opcode = 0x2A) (left k : Nat) (buf : List UInt8)
    (log : List (Command × Answer)) (hlog : addressed log = List.range' sector k)
    (hfits : 0 < left → Expressible maxTransfer (sector + k) left) :
    After (fun out log' => addressed log' <+: List.range' sector (k + left) ∧
        (out.1 = .ok () → addressed log' = List.range' sector (k + left)))
      (chunks maxTransfer opcode dirIn sector (512 * k) left buf) log := by
  induction left using Nat.strong_induction_on generalizing k buf log with
  | _ left ih =>
    unfold chunks
    by_cases hleft : left = 0
    · subst hleft
      rw [dif_pos rfl, Nat.add_zero]
      exact ⟨hlog ▸ List.prefix_refl _, fun _ => hlog⟩
    · have hpos : 0 < left := Nat.pos_of_ne_zero hleft
      have hlt : sector + k < 2 ^ 32 := (hfits hpos).lt
      have hper := sectorsPerCmd_pos maxTransfer
      have hle := sectorsPerCmd_le maxTransfer
      have hlba : (sector + 512 * k / 512) % 2 ^ 64 = sector + k := by omega
      rw [dif_neg hleft, Lib.Dialog.after_bind, Lib.Dialog.after_question]
      intro answer
      generalize hcount : min left (sectorsPerCmd maxTransfer) = count
      -- What has been addressed after this command.
      have hnext : addressed (log ++ [(⟨read10Cdb opcode
            ((sector + 512 * k / 512) % 2 ^ 64) count,
            (buf.drop (512 * k)).take (count * 512), dirIn⟩, answer)]) =
          List.range' sector (k + count) := by
        rw [addressed_append, hlog, hlba, ← range_split]
        congr 1
        rw [addressed, List.flatMap_singleton, sectors_read10Cdb hop _ (by omega),
          Nat.mod_eq_of_lt hlt]
      cases hresult : answer.result with
      | error e =>
        simp only [Lib.Dialog.after_pure, hnext]
        exact ⟨range_extends sector (by omega), by simp⟩
      | ok _ =>
        rw [show 512 * k + count * 512 = 512 * (k + count) by omega,
          show k + left = k + count + (left - count) by omega]
        apply ih (left - count) (by omega) (k + count) _ _ hnext
        intro hmore
        have hfull : count = sectorsPerCmd maxTransfer := by omega
        rw [hfull, ← Nat.add_assoc, expressible_rest (by omega)]
        exact hfits hpos

theorem transcript_chunks (hop : opcode = 0x28 ∨ opcode = 0x2A) (left k : Nat) (buf : List UInt8) :
    ∃ log out, (chunks maxTransfer opcode dirIn sector (512 * k) left buf).Transcript log
        (.ok (), out) ∧
      (addressed log = List.range' (sector + k) left → 0 < left →
        Expressible maxTransfer (sector + k) left) ∧
      (0 < left → log ≠ []) := by
  induction left using Nat.strong_induction_on generalizing k buf with
  | _ left ih =>
    unfold chunks
    by_cases hleft : left = 0
    · subst hleft
      rw [dif_pos rfl]
      exact ⟨[], buf, rfl, fun _ h => absurd h (Nat.lt_irrefl 0), fun h => absurd h (Nat.lt_irrefl 0)⟩
    · have hper := sectorsPerCmd_pos maxTransfer
      have hle := sectorsPerCmd_le maxTransfer
      rw [dif_neg hleft]
      generalize hcount : min left (sectorsPerCmd maxTransfer) = count
      generalize hlba : (sector + 512 * k / 512) % 2 ^ 64 = lba
      let answer : Answer := ⟨.ok (), (buf.drop (512 * k)).take (count * 512)⟩
      rcases ih (left - count) (by omega) (k + count)
        (if dirIn then buf.take (512 * k) ++ answer.data ++ buf.drop (512 * k + count * 512)
          else buf) with ⟨log, out, hrun, haddr, _⟩
      refine ⟨(⟨read10Cdb opcode lba count, (buf.drop (512 * k)).take (count * 512), dirIn⟩,
        answer) :: log, out, ?_, ?_, by simp⟩
      · rw [show 512 * (k + count) = 512 * k + count * 512 by omega] at hrun
        exact ⟨rfl, hrun⟩
      · intro h hpos
        have hsplit : List.range' (lba % 2 ^ 32) count ++ addressed log =
            List.range' (sector + k) count ++ List.range' (sector + k + count) (left - count) := by
          rw [range_split, Nat.add_sub_cancel' (by omega), ← h, ← List.singleton_append,
            addressed_append]
          congr 1
          rw [addressed, List.flatMap_singleton, sectors_read10Cdb hop lba (by omega)]
        rcases List.append_inj hsplit (by simp) with ⟨hhead, htail⟩
        have hfirst : lba % 2 ^ 32 = sector + k := by
          have hget := congrArg List.head? hhead
          simpa [List.head?_range', show count ≠ 0 by omega] using hget
        by_cases hmore : sectorsPerCmd maxTransfer < left
        · have hfull : count = sectorsPerCmd maxTransfer := by omega
          have hrest := haddr (by rw [← Nat.add_assoc]; exact htail) (by omega)
          rw [hfull, ← Nat.add_assoc] at hrest
          exact (expressible_rest hmore).mp hrest
        · rw [expressible_last hpos (by omega)]
          omega

end Loop

section Requests

variable {maxTransfer sector : Nat} {buf : List UInt8}

theorem after_request {opcode : UInt8} {dirIn : Bool} (hop : opcode = 0x28 ∨ opcode = 0x2A)
    (h : Expressible maxTransfer sector (buf.length / 512)) :
    After (fun out log => addressed log <+: List.range' sector (buf.length / 512) ∧
        (out.1 = .ok () → addressed log = List.range' sector (buf.length / 512)))
      (chunks maxTransfer opcode dirIn sector 0 (buf.length / 512) buf) [] := by
  have hloop := @after_chunks maxTransfer sector opcode dirIn hop (buf.length / 512) 0 buf [] rfl
    fun _ => h
  rwa [Nat.zero_add] at hloop

theorem sectors_pos (hne : buf ≠ []) (hwhole : buf.length % 512 = 0) : 0 < buf.length / 512 := by
  have := List.length_pos_iff.mpr hne
  omega

theorem Addresses.expressible {log : List (Command × Answer)} (hlog : log ≠ [])
    (h : Addresses sector (buf.length / 512) (.ok ()) log)
    (himp : addressed log = List.range' sector (buf.length / 512) →
      Expressible maxTransfer sector (buf.length / 512)) :
    Expressible maxTransfer sector (buf.length / 512) := by
  rcases h with ⟨hnil, _⟩ | ⟨_, hall⟩
  · exact absurd hnil hlog
  · exact himp (hall rfl)

theorem read_addresses (hne : buf ≠ []) (hwhole : buf.length % 512 = 0) :
    After (fun out log => Addresses sector (buf.length / 512) out.1 log)
        (read maxTransfer sector buf) [] ↔
      Expressible maxTransfer sector (buf.length / 512) := by
  have hpos := sectors_pos hne hwhole
  rw [read, if_neg hne, if_neg (by simpa using hwhole)]
  constructor
  · intro h
    rcases @transcript_chunks maxTransfer sector 0x28 true (Or.inl rfl) (buf.length / 512) 0 buf
      with ⟨log, out, hrun, himp, hlog⟩
    exact (h.of_transcript hrun).expressible (hlog hpos) fun haddr => himp haddr hpos
  · intro h
    exact (after_request (Or.inl rfl) h).mono fun _ _ hout => Or.inr hout

theorem write_addresses (hne : buf ≠ []) (hwhole : buf.length % 512 = 0) :
    After (fun result log => Addresses sector (buf.length / 512) result log)
        (write maxTransfer sector buf) [] ↔
      Expressible maxTransfer sector (buf.length / 512) := by
  have hpos := sectors_pos hne hwhole
  -- The cache command addresses nothing.
  have hsync : ∀ log answer, addressed (log ++
      [(⟨read10Cdb 0x35 sector (buf.length / 512), [], true⟩, answer)]) = addressed log := by
    intro log answer
    rw [addressed_append]
    exact List.append_nil _
  rw [write, if_neg hne, if_neg (by simpa using hwhole)]
  constructor
  · intro h
    rcases @transcript_chunks maxTransfer sector 0x2A false (Or.inr rfl) (buf.length / 512) 0 buf
      with ⟨log, out, hrun, himp, hlog⟩
    have hcache : (synchronizeCache sector (buf.length / 512) (.ok (), out)).Transcript
        [(⟨read10Cdb 0x35 sector (buf.length / 512), [], true⟩, ⟨.ok (), []⟩)] (.ok ()) :=
      ⟨rfl, rfl⟩
    apply (h.of_transcript (hrun.bind hcache)).expressible (by simp)
    rw [List.nil_append, hsync]
    exact fun haddr => himp haddr hpos
  · intro h
    rw [Lib.Dialog.after_bind]
    apply (after_request (Or.inr rfl) h).mono
    intro out log hout
    rcases out with ⟨result, data⟩
    cases result with
    | error e => exact Or.inr hout
    | ok _ =>
      intro answer
      have haddr := hout.2 rfl
      rw [← hsync log answer] at haddr
      exact Or.inr ⟨haddr ▸ List.prefix_refl _, fun _ => haddr⟩

variable {n : Nat}

/-- Reading and writing address the sectors they are asked for exactly when the first sector of
the last command has 32 bits. A request beyond that is not refused. -/
theorem addresses_iff (hne : buf ≠ []) (hwhole : buf.length % 512 = 0) :
    (After (fun out log => Addresses sector (buf.length / 512) out.1 log)
        (read maxTransfer sector buf) [] ↔ Expressible maxTransfer sector (buf.length / 512)) ∧
      (After (fun result log => Addresses sector (buf.length / 512) result log)
        (write maxTransfer sector buf) [] ↔ Expressible maxTransfer sector (buf.length / 512)) :=
  ⟨read_addresses hne hwhole, write_addresses hne hwhole⟩

def oneSector : List UInt8 := List.replicate 512 0

theorem length_oneSector : oneSector.length = 512 := List.length_replicate

theorem oneSector_ne_nil : oneSector ≠ [] := List.ne_nil_of_length_pos (by rw [length_oneSector]; omega)

/-- The last sector that fits. -/
theorem addresses_last_sector :
    (After (fun out log => Addresses (2 ^ 32 - 1) (oneSector.length / 512) out.1 log)
        (read 16384 (2 ^ 32 - 1) oneSector) [] ↔
          Expressible 16384 (2 ^ 32 - 1) (oneSector.length / 512)) ∧
      (After (fun result log => Addresses (2 ^ 32 - 1) (oneSector.length / 512) result log)
        (write 16384 (2 ^ 32 - 1) oneSector) [] ↔
          Expressible 16384 (2 ^ 32 - 1) (oneSector.length / 512)) :=
  addresses_iff oneSector_ne_nil (by rw [length_oneSector])

/-- Sector 2^32 is read from sector 0 and written to it. -/
theorem addresses_fails :
    ¬ After (fun out log => Addresses (2 ^ 32) (oneSector.length / 512) out.1 log)
        (read 16384 (2 ^ 32) oneSector) [] ∧
      ¬ After (fun result log => Addresses (2 ^ 32) (oneSector.length / 512) result log)
        (write 16384 (2 ^ 32) oneSector) [] := by
  have hwhole : oneSector.length % 512 = 0 := by rw [length_oneSector]
  have hbeyond : ¬ Expressible 16384 (2 ^ 32) (oneSector.length / 512) := by
    rw [length_oneSector]
    decide
  exact ⟨(read_addresses oneSector_ne_nil hwhole).not.mpr hbeyond,
    (write_addresses oneSector_ne_nil hwhole).not.mpr hbeyond⟩

end Requests

end UsbDisk

end Vibra.Disk
