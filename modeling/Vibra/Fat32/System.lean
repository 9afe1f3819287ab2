import Vibra.Fat32.Driver

/-! # A mounted volume in use

Calls on a volume in any order, with all the file handles and log sinks they
have returned. A handle stays in use when another call removes its file.
-/

namespace Vibra.Fat32

open Lib (Memory)

/-- The sink of a log: a slot and a start cluster that it keeps for its whole life. -/
structure Sink where
  slot : DirSlot
  startCluster : Nat
  capacity : Nat
  written : Nat

namespace Sink

def maxBootBytes : Nat := 4 * 1024 * 1024
def maxShellBytes : Nat := 2 * 1024 * 1024

/-- The log file, created when there is none. -/
def findOrCreate (fs : Fat32Fs) (now : DosTime) (file : Name) :
    Io (Option (Nat × Nat × DirSlot)) := do
  match ← ((fs.lookup file).attempt : Io (Except FsError (Option (Nat × Nat × DirSlot)))) with
  | .error _ => pure none
  | .ok (some entry) => pure (some entry)
  | .ok none => do
    let _ ← ((fs.create now file).attempt : Io (Except FsError Fat32File))
    let entry ← ((fs.lookup file).attempt : Io (Except FsError (Option (Nat × Nat × DirSlot))))
    pure (entry.toOption.getD none)

/-- The sink of a found file; an empty chain is allocated while writing. -/
def ofEntry (fs : Fat32Fs) (shell : Bool) (start : Nat) (slot : DirSlot) : Io Sink := do
  let limit := if shell then maxShellBytes else maxBootBytes
  let clusters ← ((chain fs.geo start).attempt : Io (Except FsError (List Nat)))
  let count := (clusters.toOption.getD []).length
  let capacity := if count = 0 then limit else min (count * fs.geo.clusterSize) limit
  pure ⟨slot, start, capacity, 0⟩

/-- Find or create the file and read its chain. -/
def prepare (fs : Fat32Fs) (now : DosTime) (file : Name) (shell : Bool) : Io (Option Sink) := do
  match ← findOrCreate fs now file with
  | none => pure none
  | some (start, _, slot) => do
    let sink ← ofEntry fs shell start slot
    pure (some sink)

def fullMarker : List UInt8 := utf8 "\n[LOG] log file is full; output truncated\n".toList

/-- Data first, then the size; the error of the size is ignored. -/
def append (fs : Fat32Fs) (now : DosTime) (sink : Sink) (data : List UInt8) :
    Io (Sink × Bool) := do
  let (start, result) ← fs.writeAt sink.startCluster sink.written data
  let sink := { sink with startCluster := start }
  match result with
  | .error _ => pure (sink, false)
  | .ok _ => do
    let sink := { sink with written := sink.written + data.length }
    let _ ← ((fs.publishSize now sink.slot sink.startCluster (sink.written % 2 ^ 32)).attempt :
      Io (Except FsError Unit))
    pure (sink, true)

/-- `write_bytes`: a full file gets a marker if that still fits. -/
def writeBytes (fs : Fat32Fs) (now : DosTime) (sink : Sink) (data : List UInt8) :
    Io (Sink × Bool) :=
  if data = [] then pure (sink, true)
  else if sink.capacity < sink.written + data.length then
    if sink.written + fullMarker.length ≤ sink.capacity then do
      let (sink, _) ← sink.append fs now fullMarker
      pure (sink, false)
    else pure (sink, false)
  else sink.append fs now data

end Sink

/-- The handles and sinks that calls have returned, in order. -/
structure Handles where
  files : List Fat32File
  sinks : List Sink

inductive Call where
  | create (path : Name)
  | openFile (path : Name)
  | remove (path : Name)
  | truncate (path : Name)
  | mkdir (path : Name)
  | rmdir (path : Name)
  | read (i len : Nat)
  | seek (i : Nat) (pos : SeekFrom)
  | write (i : Nat) (data : List UInt8)
  | prepare (file : Name) (shell : Bool)
  | writeBytes (i : Nat) (data : List UInt8)

namespace Call

/-- The handles after the call; there is no call on a handle that was never returned. -/
def prog (fs : Fat32Fs) (now : DosTime) (h : Handles) : Call → Io Handles
  | .create path => do
    let f ← fs.create now path
    pure { h with files := h.files ++ [f] }
  | .openFile path => do
    let f ← fs.openFile path
    pure { h with files := h.files ++ [f] }
  | .remove path => do
    fs.remove path
    pure h
  | .truncate path => do
    fs.truncate now path
    pure h
  | .mkdir path => do
    fs.mkdir now path
    pure h
  | .rmdir path => do
    fs.rmdir path
    pure h
  | .read i len =>
    match h.files[i]? with
    | none => pure h
    | some f => pure { h with files := h.files.set i (f.read len).1 }
  | .seek i pos =>
    match h.files[i]? with
    | none => pure h
    | some f => pure { h with files := h.files.set i (f.seek pos).1 }
  | .write i data =>
    match h.files[i]? with
    | none => pure h
    | some f => do
      let (f, _) ← f.write now data
      pure { h with files := h.files.set i f }
  | .prepare file shell => do
    match ← Sink.prepare fs now file shell with
    | none => pure h
    | some sink => pure { h with sinks := h.sinks ++ [sink] }
  | .writeBytes i data =>
    match h.sinks[i]? with
    | none => pure h
    | some sink => do
      let (sink, _) ← sink.writeBytes fs now data
      pure { h with sinks := h.sinks.set i sink }

end Call

/-- The handles and the disk. -/
structure Session where
  handles : Handles
  memory : Memory

/-- A call that fails returns no handle; what it has written stays. -/
def Session.exec (fs : Fat32Fs) (s : Session) (now : DosTime) (call : Call) : Session :=
  match (call.prog fs now s.handles).run disk s.memory with
  | (.ok handles, m) => ⟨handles, m⟩
  | (.error _, m) => ⟨s.handles, m⟩

def Session.writes (fs : Fat32Fs) (s : Session) (now : DosTime) (call : Call) :
    List (Lib.Write Sector Origin) :=
  (call.prog fs now s.handles).trace disk s.memory

/-- The sessions of a volume mounted on `m₀`, by calls that are all allowed. -/
inductive Session.Run (fs : Fat32Fs) (Allowed : Session → DosTime → Call → Prop) (m₀ : Memory) :
    Session → Prop
  | mount : Run fs Allowed m₀ ⟨⟨[], []⟩, m₀⟩
  | call {s : Session} {now : DosTime} {call : Call} (h : Run fs Allowed m₀ s)
      (ha : Allowed s now call) : Run fs Allowed m₀ (s.exec fs now call)

end Vibra.Fat32
