import Vibra.Disk.Nvme

/-! # The adapters as one array of bytes

On a device that carries out every command the adapters read and write one array of bytes,
with sector `n` at byte `512 * n`, as long as the addresses fit the commands.
-/

/-! ## Sectors of 512 bytes on a device with other blocks

Both adapters turn a byte range into blocks. A range of whole blocks is moved as it is.
-/

namespace Vibra.Disk

open Fat32 (FsError)
open Lib (Memory)

/-- A device that moves blocks. A command can fail. -/
structure BlockDevice (σ : Type) where
  read : σ → Nat → Nat → σ × Option (List UInt8)
  write : σ → Nat → Nat → List UInt8 → σ × Bool

section Bytes

variable {σ : Type} (ss : Nat)

/-- `read_bytes`. The blocks are read into a buffer of whole blocks, and the flag says
whether it is the caller's. -/
def readBytes (readBlocks : Bool → σ → Nat → List UInt8 → σ × Except FsError (List UInt8)) (s : σ)
    (byteOffset : Nat) (buf : List UInt8) : σ × Except FsError (List UInt8) :=
  if ss = 0 then (s, .error .ioError)
  else
    let lba := byteOffset / ss
    let inSector := byteOffset % ss
    if inSector = 0 ∧ buf.length % ss = 0 then readBlocks true s lba buf
    else
      let need := (inSector + buf.length + ss - 1) / ss
      match readBlocks false s lba (List.replicate (need * ss) 0) with
      | (s, .error e) => (s, .error e)
      | (s, .ok tmp) => (s, .ok ((tmp.drop inSector).take buf.length))

def writeBytes (readBlocks : Bool → σ → Nat → List UInt8 → σ × Except FsError (List UInt8))
    (writeBlocks : Bool → σ → Nat → List UInt8 → σ × Except FsError Unit) (s : σ)
    (byteOffset : Nat) (buf : List UInt8) : σ × Except FsError Unit :=
  if ss = 0 then (s, .error .ioError)
  else
    let lba := byteOffset / ss
    let inSector := byteOffset % ss
    if inSector = 0 ∧ buf.length % ss = 0 then writeBlocks true s lba buf
    else
      let need := (inSector + buf.length + ss - 1) / ss
      match readBlocks false s lba (List.replicate (need * ss) 0) with
      | (s, .error e) => (s, .error e)
      | (s, .ok tmp) =>
        writeBlocks false s lba
          (tmp.take inSector ++ buf ++ tmp.drop (inSector + buf.length))

end Bytes

namespace AhciDisk

def maxSectors : Nat := 128

/-- The six bytes of the address in the command's FIS. -/
def fisLba (lba : Nat) : Nat :=
  lba % 2 ^ 8 + 2 ^ 8 * (lba / 2 ^ 8 % 2 ^ 8) + 2 ^ 16 * (lba / 2 ^ 16 % 2 ^ 8) +
    2 ^ 24 * (lba / 2 ^ 24 % 2 ^ 8) + 2 ^ 32 * (lba / 2 ^ 32 % 2 ^ 8) +
    2 ^ 40 * (lba / 2 ^ 40 % 2 ^ 8)

def fisCount (count : Nat) : Nat := count % 2 ^ 8 + 2 ^ 8 * (count / 2 ^ 8 % 2 ^ 8)

section Chunks

variable {σ : Type} (dev : BlockDevice σ) (ss : Nat)

def readSectors (s : σ) (lba count : Nat) : σ × Option (List UInt8) :=
  dev.read s (fisLba lba) (fisCount count)

def writeSectors (s : σ) (lba count : Nat) (buffer : List UInt8) : σ × Bool :=
  dev.write s (fisLba lba) (fisCount count) buffer

/-- The loop over the chunks of a buffer with `left` bytes left. Only the one over the
caller's buffer checks the chunk. -/
def readChunks (hss : 0 < ss) (aligned : Bool) (s : σ) (lba i left : Nat) :
    σ × Except FsError (List UInt8) :=
  if _ : left = 0 then (s, .ok [])
  else
    let chunk := min left (maxSectors * ss)
    let count := chunk / ss % 2 ^ 16
    if aligned ∧ (count = 0 ∨ chunk % ss ≠ 0) then (s, .error .invalidPath)
    else
      match readSectors dev s (lba + i * maxSectors) count with
      | (s, none) => (s, .error .ioError)
      | (s, some bytes) =>
        match readChunks hss aligned s lba (i + 1) (left - chunk) with
        | (s, .error e) => (s, .error e)
        | (s, .ok rest) => (s, .ok (bytes ++ rest))
termination_by left
decreasing_by
  have : 0 < maxSectors * ss := Nat.mul_pos (by decide) hss
  omega

def writeChunks (hss : 0 < ss) (aligned : Bool) (s : σ) (lba i : Nat) (buf : List UInt8) :
    σ × Except FsError Unit :=
  if _ : buf.length = 0 then (s, .ok ())
  else
    let chunk := buf.take (maxSectors * ss)
    let count := chunk.length / ss % 2 ^ 16
    if aligned ∧ (count = 0 ∨ chunk.length % ss ≠ 0) then (s, .error .invalidPath)
    else
      match writeSectors dev s (lba + i * maxSectors) count chunk with
      | (s, false) => (s, .error .ioError)
      | (s, true) => writeChunks hss aligned s lba (i + 1) (buf.drop (maxSectors * ss))
termination_by buf.length
decreasing_by
  have : 0 < maxSectors * ss := Nat.mul_pos (by decide) hss
  rw [List.length_drop]
  omega

def readBlocks (aligned : Bool) (s : σ) (lba : Nat) (buf : List UInt8) :
    σ × Except FsError (List UInt8) :=
  if hss : 0 < ss then readChunks dev ss hss aligned s lba 0 buf.length
  else (s, .error .ioError)

def writeBlocks (aligned : Bool) (s : σ) (lba : Nat) (buf : List UInt8) :
    σ × Except FsError Unit :=
  if hss : 0 < ss then writeChunks dev ss hss aligned s lba 0 buf else (s, .error .ioError)

def read (s : σ) (sector : Nat) (buf : List UInt8) : σ × Except FsError (List UInt8) :=
  readBytes ss (readBlocks dev ss) s (saturating 64 (sector * 512)) buf

def write (s : σ) (sector : Nat) (buf : List UInt8) : σ × Except FsError Unit :=
  writeBytes ss (readBlocks dev ss) (writeBlocks dev ss) s (saturating 64 (sector * 512)) buf

end Chunks

end AhciDisk

namespace NvmeController

section Commands

variable {σ : Type} (dev : BlockDevice σ) (bs nsid : Nat) (phys : Nat → Nat)

/-- A command as the device reads it; `phys i` is the buffer of the `i`-th. -/
def readIssue (i : Nat) (s : σ) (lba blocks : Nat) : σ × Except FsError (List UInt8) :=
  let cmd := NvmeQueues.ioCommand nvmeIoRead 10 nsid lba blocks (phys i)
  match dev.read s cmd.lba cmd.blocks with
  | (s, some bytes) => (s, .ok bytes)
  | (s, none) => (s, .error .ioError)

def writeIssue (i : Nat) (s : σ) (lba : Nat) (bytes : List UInt8) : σ × Except FsError Unit :=
  let cmd := NvmeQueues.ioCommand nvmeIoWrite 11 nsid lba (bytes.length / bs) (phys i)
  match dev.write s cmd.lba cmd.blocks bytes with
  | (s, true) => (s, .ok ())
  | (s, false) => (s, .error .ioError)

/-- `blocks as u32`, the number of blocks in the buffer. -/
def readBlocks (_ : Bool) (s : σ) (lba : Nat) (buf : List UInt8) :
    σ × Except FsError (List UInt8) :=
  readDev bs (readIssue dev nsid phys) s lba (buf.length / bs % 2 ^ 32) buf

def writeBlocks (_ : Bool) (s : σ) (lba : Nat) (buf : List UInt8) : σ × Except FsError Unit :=
  writeDev bs (writeIssue dev bs nsid phys) s lba (buf.length / bs % 2 ^ 32) buf

def read (s : σ) (sector : Nat) (buf : List UInt8) : σ × Except FsError (List UInt8) :=
  readBytes bs (readBlocks dev bs nsid phys) s (saturating 64 (sector * 512)) buf

def write (s : σ) (sector : Nat) (buf : List UInt8) : σ × Except FsError Unit :=
  writeBytes bs (readBlocks dev bs nsid phys) (writeBlocks dev bs nsid phys) s
    (saturating 64 (sector * 512)) buf

end Commands

end NvmeController

end Vibra.Disk

namespace Vibra.Disk

open Fat32 (FsError)
open Lib (Memory)

/-- A medium with blocks of `bs` bytes, whose commands all succeed. -/
def medium (bs : Nat) : BlockDevice Memory where
  read m lba count := (m, some (m.slice (lba * bs) (count * bs)))
  write m lba count data := (m.put (lba * bs) (data.take (count * bs)), true)

variable {bs : Nat} {m : Memory}

def FlatReads (bs : Nat) (Fits : Nat → Nat → Prop)
    (readBlocks : Bool → Memory → Nat → List UInt8 → Memory × Except FsError (List UInt8)) :
    Prop :=
  ∀ aligned m lba n buf, buf.length = n * bs → Fits lba n →
    readBlocks aligned m lba buf = (m, .ok (m.slice (lba * bs) (n * bs)))

def FlatWrites (bs : Nat) (Fits : Nat → Nat → Prop)
    (writeBlocks : Bool → Memory → Nat → List UInt8 → Memory × Except FsError Unit) : Prop :=
  ∀ aligned m lba n buf, buf.length = n * bs → Fits lba n →
    writeBlocks aligned m lba buf = (m.put (lba * bs) buf, .ok ())

def touched (bs off len : Nat) : Nat := (off % bs + len + bs - 1) / bs

theorem le_touched (hbs : 0 < bs) (off len : Nat) : off % bs + len ≤ touched bs off len * bs := by
  have h := Nat.div_add_mod' (off % bs + len + bs - 1) bs
  have hlt := Nat.mod_lt (off % bs + len + bs - 1) hbs
  unfold touched
  omega

theorem touched_of_aligned {off len : Nat} (hbs : 0 < bs) (h : off % bs = 0 ∧ len % bs = 0) :
    touched bs off len * bs = len := by
  obtain ⟨n, rfl⟩ := Nat.dvd_of_mod_eq_zero h.2
  have hpred : (bs - 1) / bs = 0 := Nat.div_eq_of_lt (Nat.sub_lt hbs Nat.one_pos)
  rw [touched, h.1, Nat.zero_add, Nat.add_sub_assoc hbs, Nat.mul_add_div hbs, hpred, Nat.add_zero,
    Nat.mul_comm]

theorem div_add_touched (hbs : 0 < bs) (off len : Nat) :
    off / bs + touched bs off len = (off + len + bs - 1) / bs := by
  have h := Nat.div_add_mod' off bs
  rw [touched, Nat.add_comm, ← Nat.add_mul_div_right _ _ hbs]
  congr 1
  omega

section Ranges

variable {Fits : Nat → Nat → Prop}
  {readBlocks : Bool → Memory → Nat → List UInt8 → Memory × Except FsError (List UInt8)}
  {writeBlocks : Bool → Memory → Nat → List UInt8 → Memory × Except FsError Unit}
  {off : Nat} {buf : List UInt8}

theorem readBytes_flat (hbs : 0 < bs) (hread : FlatReads bs Fits readBlocks)
    (h : Fits (off / bs) (touched bs off buf.length)) :
    readBytes bs readBlocks m off buf = (m, .ok (m.slice off buf.length)) := by
  have hoff := Nat.div_add_mod' off bs
  have htouched : (off % bs + buf.length + bs - 1) / bs = touched bs off buf.length := rfl
  rw [readBytes, if_neg hbs.ne']
  dsimp only
  rw [htouched]
  by_cases haligned : off % bs = 0 ∧ buf.length % bs = 0
  · have hlen := touched_of_aligned hbs haligned
    rw [if_pos haligned, hread _ _ _ _ _ hlen.symm h, hlen,
      show off / bs * bs = off by omega]
  · have hle := le_touched hbs off buf.length
    rw [if_neg haligned, hread _ _ _ _ _ (List.length_replicate ..) h]
    dsimp only
    rw [Memory.drop_slice (by omega), Memory.take_slice (by omega), hoff]

theorem writeBytes_flat (hbs : 0 < bs) (hread : FlatReads bs Fits readBlocks)
    (hwrite : FlatWrites bs Fits writeBlocks) (h : Fits (off / bs) (touched bs off buf.length)) :
    writeBytes bs readBlocks writeBlocks m off buf = (m.put off buf, .ok ()) := by
  have hoff := Nat.div_add_mod' off bs
  have htouched : (off % bs + buf.length + bs - 1) / bs = touched bs off buf.length := rfl
  rw [writeBytes, if_neg hbs.ne']
  dsimp only
  rw [htouched]
  by_cases haligned : off % bs = 0 ∧ buf.length % bs = 0
  · have hlen := touched_of_aligned hbs haligned
    rw [if_pos haligned, hwrite _ _ _ _ _ hlen.symm h, show off / bs * bs = off by omega]
  · have hle := le_touched hbs off buf.length
    rw [if_neg haligned, hread _ _ _ _ _ (List.length_replicate ..) h]
    dsimp only
    rw [hwrite _ _ _ (touched bs off buf.length) _ ?_ h, Memory.put_patch hle, hoff]
    simp only [List.length_append, List.length_take, List.length_drop, Memory.length_slice]
    omega

end Ranges

namespace AhciDisk

theorem fisLba_eq {lba : Nat} (h : lba < 2 ^ 48) : fisLba lba = lba := by
  unfold fisLba
  omega

theorem fisCount_eq {count : Nat} (h : count < 2 ^ 16) : fisCount count = count := by
  unfold fisCount
  omega

def Reaches (lba n : Nat) : Prop := lba + n ≤ 2 ^ 48

theorem min_chunk (n : Nat) : min (n * bs) (maxSectors * bs) = min n maxSectors * bs :=
  Nat.mul_min_mul_right ..

theorem readSectors_flat {lba count : Nat} (h : Reaches lba count) (hpos : 0 < count)
    (hmax : count ≤ maxSectors) :
    readSectors (medium bs) m lba count = (m, some (m.slice (lba * bs) (count * bs))) := by
  unfold Reaches at h
  unfold maxSectors at hmax
  rw [readSectors, fisLba_eq (by omega), fisCount_eq (by omega), medium]

theorem writeSectors_flat {lba count : Nat} {data : List UInt8} (h : Reaches lba count)
    (hpos : 0 < count) (hmax : count ≤ maxSectors) (hlen : data.length = count * bs) :
    writeSectors (medium bs) m lba count data = (m.put (lba * bs) data, true) := by
  unfold Reaches at h
  unfold maxSectors at hmax
  rw [writeSectors, fisLba_eq (by omega), fisCount_eq (by omega), medium]
  dsimp only
  rw [← hlen, List.take_length]

theorem chunk_checks (hbs : 0 < bs) {c : Nat} (hc : 0 < c) (hmax : c ≤ maxSectors)
    (aligned : Bool) :
    c * bs / bs % 2 ^ 16 = c ∧ ¬ (aligned ∧ (c = 0 ∨ c * bs % bs ≠ 0)) := by
  unfold maxSectors at hmax
  rw [Nat.mul_div_cancel _ hbs, Nat.mod_eq_of_lt (by omega), Nat.mul_mod_left]
  exact ⟨rfl, by simp [hc.ne']⟩

theorem chunk_next (n : Nat) : n - min n maxSectors = 0 ∨ min n maxSectors = maxSectors := by
  rcases le_total n maxSectors with hle | hle
  · exact Or.inl (by rw [min_eq_left hle, Nat.sub_self])
  · exact Or.inr (min_eq_right hle)

theorem reaches_next {lba i n c : Nat} (h : Reaches (lba + i * maxSectors) n) (hle : c ≤ n)
    (hnext : n - c = 0 ∨ c = maxSectors) (hpos : 0 < n - c) :
    Reaches (lba + (i + 1) * maxSectors) (n - c) := by
  unfold Reaches at h ⊢
  rw [Nat.succ_mul]
  omega

theorem readChunks_flat (hbs : 0 < bs) (aligned : Bool) (lba i n : Nat)
    (h : 0 < n → Reaches (lba + i * maxSectors) n) :
    readChunks (medium bs) bs hbs aligned m lba i (n * bs) =
      (m, .ok (m.slice ((lba + i * maxSectors) * bs) (n * bs))) := by
  induction n using Nat.strong_induction_on generalizing i with
  | _ n ih =>
    rcases Nat.eq_zero_or_pos n with rfl | hn
    · rw [readChunks, dif_pos (Nat.zero_mul _), Nat.zero_mul]
      rfl
    have hc : 0 < min n maxSectors := lt_min hn (by decide)
    have hle : min n maxSectors ≤ n := min_le_left _ _
    have hmax : min n maxSectors ≤ maxSectors := min_le_right _ _
    have hnext := chunk_next n
    rw [readChunks, dif_neg (Nat.mul_pos hn hbs).ne', min_chunk]
    dsimp only
    generalize min n maxSectors = c at hc hle hmax hnext
    obtain ⟨hcount, hcheck⟩ := chunk_checks hbs hc hmax aligned
    have hfirst : Reaches (lba + i * maxSectors) c := le_trans (Nat.add_le_add_left hle _) (h hn)
    rw [hcount, if_neg hcheck, readSectors_flat hfirst hc hmax, ← Nat.sub_mul]
    dsimp only
    rw [ih (n - c) (by omega) (i + 1) (reaches_next (h hn) hle hnext)]
    have hsplit : n * bs = c * bs + (n - c) * bs := by rw [← Nat.add_mul, Nat.add_sub_cancel' hle]
    dsimp only
    rw [hsplit, Memory.slice_add]
    rcases hnext with hzero | rfl
    · rw [hzero, Nat.zero_mul]
      rfl
    · rw [Nat.succ_mul, ← Nat.add_assoc, Nat.add_mul (lba + i * maxSectors)]

theorem writeChunks_flat (hbs : 0 < bs) (aligned : Bool) (lba i n : Nat) (buf : List UInt8)
    (hlen : buf.length = n * bs) (h : 0 < n → Reaches (lba + i * maxSectors) n) :
    writeChunks (medium bs) bs hbs aligned m lba i buf =
      (m.put ((lba + i * maxSectors) * bs) buf, .ok ()) := by
  induction n using Nat.strong_induction_on generalizing i m buf with
  | _ n ih =>
    rcases Nat.eq_zero_or_pos n with rfl | hn
    · rw [Nat.zero_mul] at hlen
      rw [writeChunks, dif_pos hlen, List.length_eq_zero_iff.mp hlen, Memory.put_nil]
    have hc : 0 < min n maxSectors := lt_min hn (by decide)
    have hle : min n maxSectors ≤ n := min_le_left _ _
    have hmax : min n maxSectors ≤ maxSectors := min_le_right _ _
    have hnext := chunk_next n
    have hchunk : (buf.take (maxSectors * bs)).length = min n maxSectors * bs := by
      rw [List.length_take, hlen, min_comm, min_chunk]
    have hrest : (buf.drop (maxSectors * bs)).length = (n - min n maxSectors) * bs := by
      have hsub : n - maxSectors = n - min n maxSectors := by omega
      rw [List.length_drop, hlen, ← Nat.sub_mul, hsub]
    have hsplit := List.take_append_drop (maxSectors * bs) buf
    rw [writeChunks, dif_neg (by rw [hlen]; exact (Nat.mul_pos hn hbs).ne')]
    dsimp only
    rw [hchunk]
    generalize min n maxSectors = c at hc hle hmax hnext hchunk hrest
    obtain ⟨hcount, hcheck⟩ := chunk_checks hbs hc hmax aligned
    have hfirst : Reaches (lba + i * maxSectors) c := le_trans (Nat.add_le_add_left hle _) (h hn)
    rw [hcount, if_neg hcheck, writeSectors_flat hfirst hc hmax hchunk]
    dsimp only
    rw [ih (n - c) (by omega) (i + 1) _ hrest (reaches_next (h hn) hle hnext)]
    have hput : m.put ((lba + i * maxSectors) * bs) buf =
        (m.put ((lba + i * maxSectors) * bs) (buf.take (maxSectors * bs))).put
          ((lba + i * maxSectors) * bs + c * bs) (buf.drop (maxSectors * bs)) := by
      rw [← hchunk, ← Memory.put_append, hsplit]
    rw [hput]
    rcases hnext with hzero | rfl
    · rw [hzero, Nat.zero_mul] at hrest
      rw [List.length_eq_zero_iff.mp hrest, Memory.put_nil, Memory.put_nil]
    · rw [Nat.succ_mul, ← Nat.add_assoc, Nat.add_mul (lba + i * maxSectors)]

theorem flatReads (hbs : 0 < bs) : FlatReads bs Reaches (AhciDisk.readBlocks (medium bs) bs) := by
  intro aligned m lba n buf hlen h
  rw [AhciDisk.readBlocks, dif_pos hbs, hlen, readChunks_flat hbs aligned lba 0 n fun _ => ?_]
  · rw [Nat.zero_mul, Nat.add_zero]
  · rwa [Nat.zero_mul, Nat.add_zero]

theorem flatWrites (hbs : 0 < bs) : FlatWrites bs Reaches (AhciDisk.writeBlocks (medium bs) bs) := by
  intro aligned m lba n buf hlen h
  rw [AhciDisk.writeBlocks, dif_pos hbs, writeChunks_flat hbs aligned lba 0 n buf hlen fun _ => ?_]
  · rw [Nat.zero_mul, Nat.add_zero]
  · rwa [Nat.zero_mul, Nat.add_zero]

end AhciDisk

namespace NvmeController

variable {nsid : Nat} {phys : Nat → Nat}

/-- The blocks of a transfer whose addresses fit 64 bits and whose number fits 32. -/
def Reaches (lba n : Nat) : Prop := lba + n ≤ 2 ^ 64 ∧ n < 2 ^ 32

theorem readIssue_flat {i lba n : Nat} (h : lba + n ≤ 2 ^ 64) (hpos : 0 < n) (hn : n ≤ 2 ^ 16) :
    readIssue (medium bs) nsid phys i m lba n = (m, .ok (m.slice (lba * bs) (n * bs))) := by
  rw [readIssue, NvmeQueues.lba_ioCommand, NvmeQueues.blocks_ioCommand _ _ _ _ _ hpos hn,
    Nat.mod_eq_of_lt (by omega), medium]

theorem writeIssue_flat {i lba n : Nat} {bytes : List UInt8} (hbs : 0 < bs)
    (h : lba + n ≤ 2 ^ 64) (hpos : 0 < n) (hn : n ≤ 2 ^ 16) (hlen : bytes.length = n * bs) :
    writeIssue (medium bs) bs nsid phys i m lba bytes = (m.put (lba * bs) bytes, .ok ()) := by
  rw [writeIssue, hlen, Nat.mul_div_cancel _ hbs, NvmeQueues.lba_ioCommand,
    NvmeQueues.blocks_ioCommand _ _ _ _ _ hpos hn, Nat.mod_eq_of_lt (by omega), medium]
  dsimp only
  rw [← hlen, List.take_length]

theorem chunk_le (bs n : Nat) : min n (maxXfer / bs) ≤ 2 ^ 16 :=
  (min_le_right _ _).trans ((Nat.div_le_self _ _).trans (by decide))

theorem readLoop_flat (hbs : 0 < bs) (hpage : bs ≤ maxXfer) (bufSize i done lba n : Nat)
    (buf : List UInt8) (hsize : bufSize = done + n * bs) (hlen : bufSize = buf.length)
    (h : lba + n ≤ 2 ^ 64) :
    readLoop bs bufSize (readIssue (medium bs) nsid phys) m i done lba buf =
      (m, .ok (buf.take done ++ m.slice (lba * bs) (n * bs))) := by
  induction n using Nat.strong_induction_on generalizing i done lba buf with
  | _ n ih =>
    rcases Nat.eq_zero_or_pos n with rfl | hn
    · rw [Nat.zero_mul, Nat.add_zero] at hsize
      rw [readLoop_done hsize.le, ← hsize, hlen, List.take_length, Nat.zero_mul]
      exact congrArg (fun bytes => (m, Except.ok bytes)) (List.append_nil buf).symm
    rw [readLoop_step hbs hn hsize hpage]
    have hc := chunk_pos hn hbs hpage
    have hle : min n (maxXfer / bs) ≤ n := min_le_left _ _
    have hmax := chunk_le bs n
    generalize min n (maxXfer / bs) = c at hc hle hmax
    rw [readIssue_flat (by omega) hc hmax]
    dsimp only
    have hsplit : n * bs = c * bs + (n - c) * bs := by rw [← Nat.add_mul, Nat.add_sub_cancel' hle]
    have hslice : (m.slice (lba * bs) (c * bs)).length = c * bs := Memory.length_slice ..
    rw [ih (n - c) (by omega) _ _ _ _ (by omega) ?_ (by omega), hsplit, Memory.slice_add,
      Nat.add_mul]
    · have htake := take_append_chunk (show done ≤ buf.length by omega)
        (m.slice (lba * bs) (c * bs)) (buf.drop (done + c * bs))
      rw [hslice] at htake
      rw [htake, List.append_assoc]
    · simp only [List.length_append, List.length_take, List.length_drop, hslice]
      omega

theorem writeLoop_flat (hbs : 0 < bs) (hpage : bs ≤ maxXfer) (bufSize i done lba n : Nat)
    (buf : List UInt8) (hsize : bufSize = done + n * bs) (hlen : bufSize = buf.length)
    (h : lba + n ≤ 2 ^ 64) :
    writeLoop bs bufSize (writeIssue (medium bs) bs nsid phys) m i done lba buf =
      (m.put (lba * bs) (buf.drop done), .ok ()) := by
  induction n using Nat.strong_induction_on generalizing i done lba m with
  | _ n ih =>
    rcases Nat.eq_zero_or_pos n with rfl | hn
    · rw [Nat.zero_mul, Nat.add_zero] at hsize
      rw [writeLoop_done hsize.le, ← hsize, hlen, List.drop_length, Memory.put_nil]
    rw [writeLoop_step hbs hn hsize hpage]
    have hc := chunk_pos hn hbs hpage
    have hle : min n (maxXfer / bs) ≤ n := min_le_left _ _
    have hmax := chunk_le bs n
    generalize min n (maxXfer / bs) = c at hc hle hmax
    have hsplit : n * bs = c * bs + (n - c) * bs := by rw [← Nat.add_mul, Nat.add_sub_cancel' hle]
    have hchunk : ((buf.drop done).take (c * bs)).length = c * bs := by
      rw [List.length_take, List.length_drop]
      omega
    rw [writeIssue_flat hbs (by omega) hc hmax hchunk]
    dsimp only
    rw [ih (n - c) (by omega) _ _ _ (by omega) (by omega)]
    have hput : m.put (lba * bs) (buf.drop done) =
        (m.put (lba * bs) ((buf.drop done).take (c * bs))).put ((lba + c) * bs)
          (buf.drop (done + c * bs)) := by
      have happend := Memory.put_append m (lba * bs) ((buf.drop done).take (c * bs))
        ((buf.drop done).drop (c * bs))
      rwa [List.take_append_drop, hchunk, List.drop_drop, ← Nat.add_mul] at happend
    rw [hput]

theorem flatReads (hbs : 0 < bs) (hpage : bs ≤ maxXfer) :
    FlatReads bs Reaches (NvmeController.readBlocks (medium bs) bs nsid phys) := by
  intro aligned m lba n buf hlen h
  rw [NvmeController.readBlocks, readDev, hlen, Nat.mul_div_cancel _ hbs, Nat.mod_eq_of_lt h.2]
  split
  next hzero =>
    rw [hzero, Nat.zero_mul] at hlen ⊢
    rw [List.length_eq_zero_iff.mp hlen]
    rfl
  · rw [if_neg (not_or.mpr ⟨hbs.ne', lt_irrefl _⟩),
      readLoop_flat hbs hpage _ _ _ _ n _ (Nat.zero_add _).symm hlen.symm h.1]
    rfl

theorem flatWrites (hbs : 0 < bs) (hpage : bs ≤ maxXfer) :
    FlatWrites bs Reaches (NvmeController.writeBlocks (medium bs) bs nsid phys) := by
  intro aligned m lba n buf hlen h
  rw [NvmeController.writeBlocks, writeDev, hlen, Nat.mul_div_cancel _ hbs, Nat.mod_eq_of_lt h.2]
  split
  next hzero =>
    rw [hzero, Nat.zero_mul] at hlen
    rw [List.length_eq_zero_iff.mp hlen, Memory.put_nil]
  · rw [if_neg (not_or.mpr ⟨hbs.ne', lt_irrefl _⟩),
      writeLoop_flat hbs hpage _ _ _ _ n _ (Nat.zero_add _).symm hlen.symm h.1]
    rfl

end NvmeController

/-- A call of the block layer, with the buffer that it fills or writes. -/
inductive SectorCall where
  | read (sector : Nat) (buf : List UInt8)
  | write (sector : Nat) (buf : List UInt8)

namespace SectorCall

def sector : SectorCall → Nat
  | .read sector _ | .write sector _ => sector

def buf : SectorCall → List UInt8
  | .read _ buf | .write _ buf => buf

def flat (m : Memory) : SectorCall → Memory × Except FsError (List UInt8)
  | .read sector buf => (m, .ok (m.slice (sector * 512) buf.length))
  | .write sector buf => (m.put (sector * 512) buf, .ok [])

def noBytes : Memory × Except FsError Unit → Memory × Except FsError (List UInt8)
  | (m, .ok ()) => (m, .ok [])
  | (m, .error e) => (m, .error e)

def ahci (bs : Nat) (m : Memory) : SectorCall → Memory × Except FsError (List UInt8)
  | .read sector buf => AhciDisk.read (medium bs) bs m sector buf
  | .write sector buf => noBytes (AhciDisk.write (medium bs) bs m sector buf)

def nvme (bs nsid : Nat) (phys : Nat → Nat) (m : Memory) :
    SectorCall → Memory × Except FsError (List UInt8)
  | .read sector buf => NvmeController.read (medium bs) bs nsid phys m sector buf
  | .write sector buf => noBytes (NvmeController.write (medium bs) bs nsid phys m sector buf)

/-- The medium after the calls, and what each of them returns. -/
def run (step : Memory → SectorCall → Memory × Except FsError (List UInt8)) (m : Memory) :
    List SectorCall → Memory × List (Except FsError (List UInt8))
  | [] => (m, [])
  | c :: calls =>
    let (m, result) := step m c
    let (m, results) := run step m calls
    (m, result :: results)

theorem run_congr {step step' : Memory → SectorCall → Memory × Except FsError (List UInt8)}
    {calls : List SectorCall} (h : ∀ c ∈ calls, ∀ m, step m c = step' m c) (m : Memory) :
    run step m calls = run step' m calls := by
  induction calls generalizing m with
  | nil => rfl
  | cons c calls ih =>
    rw [run, run, h c List.mem_cons_self m]
    dsimp only
    rw [ih fun c' hc' => h c' (List.mem_cons_of_mem _ hc')]

variable {c : SectorCall}

def AhciFits (bs : Nat) (c : SectorCall) : Prop := c.sector * 512 + c.buf.length ≤ 2 ^ 48 * bs

/-- The range of the call lies in the bytes that 64 bits address, and 32 bits count the
blocks that it touches. -/
def NvmeFits (bs : Nat) (c : SectorCall) : Prop :=
  c.sector * 512 + c.buf.length ≤ 2 ^ 64 ∧ touched bs (c.sector * 512) c.buf.length < 2 ^ 32

theorem AhciFits.reaches {bs : Nat} (h : AhciFits bs c) (hbs : 0 < bs) (hwidth : bs < 2 ^ 16) :
    saturating 64 (c.sector * 512) = c.sector * 512 ∧
      AhciDisk.Reaches (c.sector * 512 / bs) (touched bs (c.sector * 512) c.buf.length) := by
  unfold AhciFits at h
  constructor
  · unfold saturating
    omega
  · rw [AhciDisk.Reaches, div_add_touched hbs]
    refine Nat.le_of_lt_succ ((Nat.div_lt_iff_lt_mul hbs).mpr ?_)
    rw [Nat.succ_mul]
    omega

theorem NvmeFits.reaches {bs : Nat} (h : NvmeFits bs c) (hbs : 0 < bs)
    (hne : c.buf ≠ []) :
    saturating 64 (c.sector * 512) = c.sector * 512 ∧
      NvmeController.Reaches (c.sector * 512 / bs)
        (touched bs (c.sector * 512) c.buf.length) := by
  have hpos := List.length_pos_iff.mpr hne
  obtain ⟨htop, hcount⟩ := h
  constructor
  · unfold saturating
    omega
  · refine ⟨?_, hcount⟩
    rw [div_add_touched hbs]
    refine Nat.le_of_lt_succ ((Nat.div_lt_iff_lt_mul hbs).mpr ?_)
    have := Nat.mul_le_mul_left (2 ^ 64) hbs
    rw [Nat.succ_mul]
    omega

theorem ahci_flat {bs : Nat} (hbs : 0 < bs) (hwidth : bs < 2 ^ 16) (h : AhciFits bs c)
    (m : Memory) : ahci bs m c = flat m c := by
  obtain ⟨hoff, hreach⟩ := h.reaches hbs hwidth
  cases c with
  | read sector buf =>
    dsimp only [SectorCall.sector, SectorCall.buf] at hoff hreach
    rw [ahci, AhciDisk.read, hoff, readBytes_flat hbs (AhciDisk.flatReads hbs) hreach, flat]
  | write sector buf =>
    dsimp only [SectorCall.sector, SectorCall.buf] at hoff hreach
    rw [ahci, AhciDisk.write, hoff,
      writeBytes_flat hbs (AhciDisk.flatReads hbs) (AhciDisk.flatWrites hbs) hreach, flat, noBytes]

theorem nvme_flat {bs nsid : Nat} {phys : Nat → Nat} (hbs : 0 < bs) (hpage : bs ≤ maxXfer)
    (hne : c.buf ≠ []) (h : NvmeFits bs c) (m : Memory) : nvme bs nsid phys m c = flat m c := by
  obtain ⟨hoff, hreach⟩ := h.reaches hbs hne
  have hread := @NvmeController.flatReads _ nsid phys hbs hpage
  have hwrite := @NvmeController.flatWrites _ nsid phys hbs hpage
  cases c with
  | read sector buf =>
    dsimp only [SectorCall.sector, SectorCall.buf] at hoff hreach
    rw [nvme, NvmeController.read, hoff, readBytes_flat hbs hread hreach, flat]
  | write sector buf =>
    dsimp only [SectorCall.sector, SectorCall.buf] at hoff hreach
    rw [nvme, NvmeController.write, hoff, writeBytes_flat hbs hread hwrite hreach, flat, noBytes]

/-- In every run of calls that fit, both adapters are one array of bytes. -/
theorem adapters_flat (m : Memory) (calls : List SectorCall) (hne : ∀ c ∈ calls, c.buf ≠ []) :
    (∀ bs, 0 < bs → bs < 2 ^ 16 → (∀ c ∈ calls, AhciFits bs c) →
      run (ahci bs) m calls = run flat m calls) ∧
    (∀ bs nsid phys, 0 < bs → bs ≤ maxXfer → (∀ c ∈ calls, NvmeFits bs c) →
      run (nvme bs nsid phys) m calls = run flat m calls) :=
  ⟨fun _ hbs hwidth h => run_congr (fun c hc => ahci_flat hbs hwidth (h c hc)) m,
    fun _ _ _ hbs hpage h => run_congr (fun c hc => nvme_flat hbs hpage (hne c hc) (h c hc)) m⟩

/-- A sector in the middle of a block of 4096 bytes is written and read back. -/
def midBlock : List SectorCall :=
  [.write 3 (List.replicate 512 1), .read 3 (List.replicate 512 0)]

theorem adapters_flat_midBlock :
    run (ahci 4096) (fun _ => 0) midBlock = run flat (fun _ => 0) midBlock ∧
      run (nvme 4096 1 fun _ => 0) (fun _ => 0) midBlock = run flat (fun _ => 0) midBlock := by
  have h := adapters_flat (fun _ => 0) midBlock (by decide)
  refine ⟨h.1 4096 (by decide) (by decide) ?_, h.2 4096 1 _ (by decide) (by decide) ?_⟩
  · intro c hc
    rcases List.mem_pair.mp hc with rfl | rfl <;>
      simp only [AhciFits, SectorCall.sector, SectorCall.buf, List.length_replicate] <;> decide
  · intro c hc
    rcases List.mem_pair.mp hc with rfl | rfl <;>
      simp only [NvmeFits, touched, SectorCall.sector, SectorCall.buf, List.length_replicate] <;>
      decide

/-- The first sector that 48 bits do not address is written, and sector 0 changes. -/
def aliased : List SectorCall := [.write (2 ^ 48) (List.replicate 512 1)]

theorem adapters_flat_fails :
    (run (ahci 512) (fun _ => 0) aliased).1 0 = 1 ∧ (run flat (fun _ => 0) aliased).1 0 = 0 := by
  decide +kernel

end SectorCall

end Vibra.Disk
