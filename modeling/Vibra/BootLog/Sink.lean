import Vibra.Lib.RawDisk
import Vibra.Lib.Ring

/-! # The log on disk

Bytes of a log go into a ring. A sink keeps a cursor into the log and writes what lies behind it to
its file, a portion each time it is flushed.
-/

namespace Vibra.BootLog

open Lib (Bytes RecentRing)

def logSize : Nat := 256 * 1024

def maxBootBytes : Nat := 4 * 1024 * 1024

def chunkSize : Nat := 4096

def maxWriteFailures : Nat := 3

/-- The byte that `session_char` puts for a character. -/
def sessionByte (ch : Char) : UInt8 :=
  if ch ∈ ['\u2500', '\u2014', '\u2013'] then 0x2D
  else if ch = '\u2502' then 0x7C
  else if ch ∈ ['\u250C', '\u2510', '\u2514', '\u2518'] then 0x2B
  else if ch ∈ ['\u251C', '\u2524', '\u252C', '\u2534', '\u253C'] then 0x2B
  else if ch ∈ ['\u2588', '\u2591', '\u2592', '\u2593', '\u25A0'] then 0x23
  else if ch.toNat < 128 then UInt8.ofNat ch.toNat
  else 0x3F

/-- How a write of the volume ends: a write of data that fails may leave anything from its
offset on. -/
inductive Answer where
  | done
  | failed (tail : Bytes)

/-- The bytes of the file's clusters, the size in its directory entry, and how many times that
has been written. -/
structure LogFile where
  bytes : Bytes
  size : Nat
  updates : Nat
deriving DecidableEq

namespace LogFile

def writeAt (file : LogFile) (offset : Nat) (data : Bytes) : Answer → Bool × LogFile
  | .done =>
    (true, { file with
      bytes := file.bytes.take offset ++ data ++ file.bytes.drop (offset + data.length) })
  | .failed tail => (false, { file with bytes := file.bytes.take offset ++ tail })

def publishSize (file : LogFile) (size : Nat) : Answer → LogFile
  | .done => { file with size := size % 2 ^ 32, updates := file.updates + 1 }
  | .failed _ => file

def published (file : LogFile) : Bytes := file.bytes.take file.size

end LogFile

structure Sink where
  file : LogFile
  capacity : Nat
  written : Nat
  cursor : Nat
  writeFailures : Nat
deriving DecidableEq

def ascii (text : List Char) : Bytes := text.map fun c => UInt8.ofNat c.toNat

def fullMarker : Bytes := ascii "\n[LOG] log file is full; output truncated\n".toList

def droppedMarker (n : Nat) : Bytes :=
  ascii ("\n[LOG] ".toList ++ Nat.toDigits 10 n ++
    " byte(s) dropped: ring buffer overflowed\n".toList)

namespace Sink

/-- `write_at`, and `publish_size` once it has succeeded. -/
def append (sink : Sink) (data : Bytes) (write publish : Answer) : Bool × Sink :=
  match sink.file.writeAt sink.written data write with
  | (true, file) =>
    (true, { sink with
      written := sink.written + data.length
      file := file.publishSize (sink.written + data.length) publish })
  | (false, file) => (false, { sink with file })

/-- A portion that does not fit the file is not written; a marker takes its place if that
fits. -/
def writeBytes (sink : Sink) (data : Bytes) (write publish : Answer) : Bool × Sink :=
  if data = [] then (true, sink)
  else if sink.capacity < sink.written + data.length then
    if sink.written + fullMarker.length ≤ sink.capacity then
      (false, (sink.append fullMarker write publish).2)
    else (false, sink)
  else sink.append data write publish

/-- How the writes of one flush end. -/
structure Answers where
  marker : Answer
  markerSize : Answer
  data : Answer
  dataSize : Answer

/-- The first part of `write_pending`: whether the marker of what has been overwritten could
be written is not looked at. -/
def catchUp (n : Nat) (ring : RecentRing UInt8) (sink : Sink) (answers : Answers) : Sink :=
  if sink.cursor < ring.first n then
    { (sink.writeBytes (droppedMarker (ring.first n - sink.cursor)) answers.marker
        answers.markerSize).2 with cursor := ring.first n }
  else sink

/-- `write_pending`: its loop makes one turn, in a panic or not, as a turn that goes on has
copied something. -/
def writePending (n : Nat) (ring : RecentRing UInt8) (sink : Sink) (answers : Answers) :
    Bool × Sink :=
  let sink := sink.catchUp n ring answers
  let (data, next) := ring.chunk n sink.cursor chunkSize
  if data = [] then (true, sink)
  else
    match sink.writeBytes data answers.data answers.dataSize with
    | (true, sink) => (true, { sink with cursor := next })
    | (false, sink) => (false, sink)

/-- `flush_sink`: after some failures in a row the sink is given up. -/
def flush (n : Nat) (ring : RecentRing UInt8) (sink : Sink) (answers : Answers) : Option Sink :=
  match sink.writePending n ring answers with
  | (true, sink) => some { sink with writeFailures := 0 }
  | (false, sink) =>
    if sink.writeFailures + 1 ≥ maxWriteFailures then none
    else some { sink with writeFailures := sink.writeFailures + 1 }

end Sink

/-- A log and its sink, `none` once that has been given up. -/
structure Log where
  ring : RecentRing UInt8
  sink : Option Sink

/-- `log_byte`, `session_char` and `flush`. -/
inductive Event where
  | byte (b : UInt8)
  | char (ch : Char)
  | flush (answers : Sink.Answers)

/-- What an event adds to the log. -/
def Event.bytes : Event → Bytes
  | .byte b => [b]
  | .char ch => [sessionByte ch]
  | .flush _ => []

namespace Log

def step (n : Nat) (log : Log) : Event → Log
  | .byte b => { log with ring := log.ring.put n b }
  | .char ch => { log with ring := log.ring.put n (sessionByte ch) }
  | .flush answers =>
    { log with sink := log.sink.bind fun sink => sink.flush n log.ring answers }

def run (n : Nat) (log : Log) (events : List Event) : Log := events.foldl (step n) log

end Log

end Vibra.BootLog

/-! ## Reading the log back

A reader of the ring goes on from its cursor until it is given nothing.
-/

namespace Vibra.BootLog

open Lib (Bytes RecentRing)

variable {n total cursor fuel : Nat} {ring : RecentRing UInt8} {stream : Bytes}

/-- `LOG_BUF` and `LOG_TOTAL` before the first byte. -/
def emptyRing : RecentRing UInt8 := ⟨fun _ => 0, 0⟩

def logByte (ring : RecentRing UInt8) (b : UInt8) : RecentRing UInt8 := ring.put logSize b

/-- The ring after these calls of `log_byte`. -/
def ringOf (bytes : Bytes) : RecentRing UInt8 := bytes.foldl logByte emptyRing

def readChunk (ring : RecentRing UInt8) (cursor room : Nat) : Bytes × Nat :=
  ring.chunk logSize cursor room

/-- `read_chunk` until it copies nothing, with buffers of the given sizes. -/
def readAll (ring : RecentRing UInt8) : Nat → (Nat → Nat) → Nat → Option (Bytes × Nat)
  | 0, _, _ => none
  | fuel + 1, sizes, cursor =>
    let (data, next) := readChunk ring cursor (sizes 0)
    if data = [] then some ([], next)
    else (readAll ring fuel (fun k => sizes (k + 1)) next).map fun rest =>
      (data ++ rest.1, rest.2)

/-- The loop of `copy_log`. -/
def copyLoop (ring : RecentRing UInt8) : Nat → Nat → Bytes → Option Bytes
  | 0, _, _ => none
  | fuel + 1, cursor, out =>
    if ring.total ≤ cursor then some out
    else
      let index := cursor % logSize
      let count := min (logSize - index) (ring.total - cursor)
      copyLoop ring fuel (cursor + count)
        (out ++ (List.range count).map fun k => ring.cells (index + k))

def copyLog (ring : RecentRing UInt8) (fuel : Nat) (out : Bytes) : Option Bytes :=
  copyLoop ring fuel (ring.first logSize) out

def getLogBytes (ring : RecentRing UInt8) (fuel : Nat) : Option Bytes := copyLog ring fuel []

theorem holds_emptyRing : emptyRing.Holds n [] where
  total := rfl
  cells _ _ _ h := by simp at h

theorem holds_foldl (h : ring.Holds logSize stream) (bytes : Bytes) :
    (bytes.foldl logByte ring).Holds logSize (stream ++ bytes) := by
  induction bytes generalizing ring stream with
  | nil => simpa using h
  | cons b bytes ih =>
    have hput : (logByte ring b).Holds logSize (stream ++ [b]) := h.put b
    simpa using ih hput

theorem holds_logged (bytes : Bytes) : (ringOf bytes).Holds logSize bytes :=
  holds_foldl holds_emptyRing bytes

theorem logSize_pos : 0 < logSize := by decide

theorem readChunk_max (ring : RecentRing UInt8) (cursor room : Nat) :
    readChunk ring (max cursor (ring.first logSize)) room = readChunk ring cursor room := by
  rw [readChunk, readChunk, RecentRing.chunk, RecentRing.chunk, max_assoc, Nat.max_self]

theorem readChunk_behind {room : Nat} (h : ring.total ≤ cursor) :
    readChunk ring cursor room = ([], ring.total) := by
  rw [readChunk, RecentRing.chunk]
  exact if_pos (.inl (h.trans (Nat.le_max_left _ _)))

theorem first_le_total (ring : RecentRing UInt8) : ring.first logSize ≤ ring.total :=
  Nat.sub_le _ _

theorem readChunk_spec {room : Nat} (h : ring.Holds logSize stream)
    (hfirst : ring.first logSize ≤ cursor) (hle : cursor ≤ ring.total) (hroom : 0 < room) :
    (readChunk ring cursor room).2 = cursor + (readChunk ring cursor room).1.length ∧
      (readChunk ring cursor room).2 ≤ ring.total ∧
      ((readChunk ring cursor room).1 = [] ↔ cursor = ring.total) ∧
      stream.drop cursor =
        (readChunk ring cursor room).1 ++ stream.drop (readChunk ring cursor room).2 := by
  obtain ⟨hnext, htotal, hnil, before, after, hsplit, hbefore⟩ :=
    h.chunk logSize_pos hfirst hle hroom
  refine ⟨hnext, htotal, hnil, ?_⟩
  have hdrop : stream.drop cursor = (readChunk ring cursor room).1 ++ after := by
    rw [hsplit, ← hbefore, List.append_assoc, List.drop_left]
    rfl
  have hafter : stream.drop (readChunk ring cursor room).2 = after := by
    rw [show (readChunk ring cursor room).2 = _ from hnext, ← List.drop_drop, hdrop,
      show (ring.chunk logSize cursor room).1 = (readChunk ring cursor room).1 from rfl,
      List.drop_left]
  rw [hafter, hdrop]

theorem readAll_of_first {sizes : Nat → Nat} (h : ring.Holds logSize stream)
    (hsizes : ∀ k, 0 < sizes k) (hfirst : ring.first logSize ≤ cursor)
    (hle : cursor ≤ ring.total) (hfuel : ring.total - cursor < fuel) :
    readAll ring fuel sizes cursor = some (stream.drop cursor, ring.total) := by
  induction fuel generalizing sizes cursor with
  | zero => omega
  | succ fuel ih =>
    obtain ⟨hnext, htotal, hnil, hdrop⟩ := readChunk_spec h hfirst hle (hsizes 0)
    rw [readAll]
    dsimp only
    by_cases hend : (readChunk ring cursor (sizes 0)).1 = []
    · have hcursor : cursor = ring.total := hnil.mp hend
      have hempty : stream.drop cursor = [] := by
        rw [hcursor, ← h.total, List.drop_length]
      rw [if_pos hend, hempty, hnext, hend, hcursor]
      rfl
    · have hpos : 0 < (readChunk ring cursor (sizes 0)).1.length :=
        List.length_pos_iff.mpr hend
      have hrooms : ∀ k, 0 < (fun k => sizes (k + 1)) k := fun k => hsizes (k + 1)
      have hrest := ih hrooms
        (show ring.first logSize ≤ (readChunk ring cursor (sizes 0)).2 by omega) htotal (by omega)
      rw [if_neg hend, hrest, hdrop]
      rfl

theorem readAll_max (ring : RecentRing UInt8) (sizes : Nat → Nat) (cursor fuel : Nat) :
    readAll ring fuel sizes (max cursor (ring.first logSize)) =
      readAll ring fuel sizes cursor := by
  cases fuel with
  | zero => rfl
  | succ fuel => rw [readAll, readAll, readChunk_max]

theorem readAll_eq {sizes : Nat → Nat} (h : ring.Holds logSize stream)
    (hsizes : ∀ k, 0 < sizes k) (hfuel : ring.total < fuel) :
    readAll ring fuel sizes cursor =
      some (stream.drop (max cursor (ring.first logSize)), ring.total) := by
  have hfirst := first_le_total ring
  by_cases hle : cursor ≤ ring.total
  · rw [← readAll_max]
    exact readAll_of_first h hsizes (Nat.le_max_right _ _) (Nat.max_le.mpr ⟨hle, hfirst⟩)
      (by omega)
  · obtain ⟨fuel, rfl⟩ : ∃ m, fuel = m + 1 := ⟨fuel - 1, by omega⟩
    have hempty : stream.drop (max cursor (ring.first logSize)) = [] := by
      apply List.drop_eq_nil_of_le
      have := h.total
      omega
    rw [readAll, readChunk_behind (by omega), hempty]
    rfl

theorem copyLoop_succ {out : Bytes} (hfirst : ring.first logSize ≤ cursor)
    (hlt : cursor < ring.total) :
    copyLoop ring (fuel + 1) cursor out =
      copyLoop ring fuel (readChunk ring cursor ring.total).2
        (out ++ (readChunk ring cursor ring.total).1) := by
  rw [copyLoop, if_neg (by omega), readChunk, RecentRing.chunk, Nat.max_eq_left hfirst]
  dsimp only
  rw [if_neg (by omega), Nat.min_eq_left (show _ ≤ ring.total by omega)]

theorem copyLoop_eq {out : Bytes} (h : ring.Holds logSize stream)
    (hfirst : ring.first logSize ≤ cursor) (hle : cursor ≤ ring.total)
    (hfuel : ring.total - cursor < fuel) :
    copyLoop ring fuel cursor out = some (out ++ stream.drop cursor) := by
  induction fuel generalizing cursor out with
  | zero => omega
  | succ fuel ih =>
    by_cases hend : ring.total ≤ cursor
    · have hempty : stream.drop cursor = [] :=
        List.drop_eq_nil_of_le (by rw [h.total]; exact hend)
      rw [copyLoop, if_pos hend, hempty, List.append_nil]
    · obtain ⟨hnext, htotal, hnil, hdrop⟩ :=
        readChunk_spec h hfirst hle (show 0 < ring.total by omega)
      have hpos : 0 < (readChunk ring cursor ring.total).1.length := by
        rw [List.length_pos_iff]
        intro hnone
        exact hend (hnil.mp hnone).ge
      rw [copyLoop_succ hfirst (by omega), ih (by omega) htotal (by omega), List.append_assoc,
        ← hdrop]

/-- Whatever has been logged, a reader with any cursor and any buffers that are not empty gets
what is still there behind its cursor, and `copy_log` appends all that is still there. -/
theorem readAll_copyLog (bytes out : Bytes) (cursor fuel : Nat) (sizes : Nat → Nat)
    (hsizes : ∀ k, 0 < sizes k) (hfuel : bytes.length < fuel) :
    readAll (ringOf bytes) fuel sizes cursor =
        some (bytes.drop (max cursor (bytes.length - logSize)), bytes.length) ∧
      copyLog (ringOf bytes) fuel out =
        some (out ++ bytes.drop (bytes.length - min bytes.length logSize)) ∧
      getLogBytes (ringOf bytes) fuel =
        some (bytes.drop (bytes.length - min bytes.length logSize)) := by
  have h := holds_logged bytes
  have htotal := h.total
  have hfirst : (ringOf bytes).first logSize = bytes.length - logSize := by
    rw [RecentRing.first, ← htotal]
  have hlast : bytes.length - min bytes.length logSize = bytes.length - logSize := by omega
  have hcopy : ∀ out, copyLog (ringOf bytes) fuel out =
      some (out ++ bytes.drop (bytes.length - min bytes.length logSize)) := by
    intro out
    rw [copyLog, copyLoop_eq h le_rfl (first_le_total _) (by omega), hfirst, hlast]
  refine ⟨?_, hcopy out, hcopy []⟩
  rw [readAll_eq h hsizes (by rwa [← htotal]), hfirst, ← htotal]

/-- Buffers of one byte from a cursor in the middle. -/
theorem readAll_copyLog_abc :
    readAll (ringOf [0x61, 0x62, 0x63]) 4 (fun _ => 1) 1 = some ([0x62, 0x63], 3) ∧
      copyLog (ringOf [0x61, 0x62, 0x63]) 4 [0x20] = some [0x20, 0x61, 0x62, 0x63] := by
  have h := readAll_copyLog [0x61, 0x62, 0x63] [0x20] 1 4 (fun _ => 1) (fun _ => Nat.one_pos)
    (by decide)
  exact ⟨h.1, h.2.1⟩

end Vibra.BootLog
