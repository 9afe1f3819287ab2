import Vibra.Fat32.Driver

/-! # Operations that only read

The lookups of the driver issue no write, whatever the device answers.
-/

namespace Vibra.Fat32

open Lib (Memory Prog)
open Lib.Prog (ReadOnly readOnly_pure readOnly_fail)

variable {geo : Fat32Geo}

theorem readOnly_readSector (sector : Nat) : ReadOnly (readSector sector) := by
  intro buf
  cases buf with
  | none => trivial
  | some buf => trivial

theorem readOnly_fatGet (cluster : Nat) : ReadOnly (fatGet geo cluster) :=
  (readOnly_readSector _).bind fun _ => readOnly_pure _

theorem readOnly_chainFrom (room cluster : Nat) : ReadOnly (chainFrom geo room cluster) := by
  induction room generalizing cluster with
  | zero => trivial
  | succ room ih =>
    refine (readOnly_fatGet cluster).bind fun next => ?_
    split
    · exact readOnly_pure _
    · exact (ih next).bind fun _ => readOnly_pure _

theorem readOnly_chain (start : Nat) : ReadOnly (chain geo start) := by
  unfold chain
  split
  · exact readOnly_pure _
  · exact readOnly_chainFrom _ _

theorem readOnly_readSectors (sector count : Nat) : ReadOnly (readSectors sector count) := by
  induction count generalizing sector with
  | zero => trivial
  | succ count ih =>
    exact (readOnly_readSector sector).bind fun _ => (ih _).bind fun _ => readOnly_pure _

theorem readOnly_readClusters (clusters : List Nat) : ReadOnly (readClusters geo clusters) := by
  induction clusters with
  | nil => trivial
  | cons cluster rest ih =>
    unfold readClusters
    split
    · trivial
    · exact (readOnly_readSectors _ _).bind fun _ => ih.bind fun _ => readOnly_pure _

theorem readOnly_readChain (start : Nat) : ReadOnly (readChain geo start) :=
  (readOnly_chain start).bind fun _ => readOnly_readClusters _

theorem readOnly_scanSectors (sector count : Nat) (st : ScanState) :
    ReadOnly (scanSectors sector count st) := by
  induction count generalizing sector st with
  | zero => trivial
  | succ count ih =>
    refine (readOnly_readSector sector).bind fun buf => ?_
    dsimp only
    split
    · exact readOnly_pure _
    · exact ih _ _

theorem readOnly_scanClusters (clusters : List Nat) (st : ScanState) :
    ReadOnly (scanClusters geo clusters st) := by
  induction clusters generalizing st with
  | nil => trivial
  | cons cluster rest ih =>
    unfold scanClusters
    split
    · trivial
    · refine (readOnly_scanSectors _ _ _).bind fun st => ?_
      split
      · exact readOnly_pure _
      · exact ih st

theorem readOnly_readDir (dirCluster : Nat) : ReadOnly (readDir geo dirCluster) :=
  (readOnly_chain dirCluster).bind fun _ =>
    (readOnly_scanClusters _ _).bind fun _ => readOnly_pure _

theorem readOnly_findInDir (dirCluster : Nat) (name : Name) :
    ReadOnly (findInDir geo dirCluster name) :=
  (readOnly_readDir dirCluster).bind fun _ => readOnly_pure _

theorem readOnly_findParts (current : Nat) (parts : List Name) :
    ReadOnly (findParts geo current parts) := by
  induction parts generalizing current with
  | nil => trivial
  | cons part rest ih =>
    refine (readOnly_findInDir current part).bind fun slot => ?_
    cases slot with
    | none => exact readOnly_pure _
    | some slot =>
      dsimp only
      split
      · exact readOnly_pure _
      · split
        · exact readOnly_fail _
        · exact ih _

theorem readOnly_findPath (path : Name) : ReadOnly (findPath geo path) := by
  unfold findPath
  split
  · exact readOnly_pure _
  · exact readOnly_findParts _ _

theorem readOnly_enterDirs (current : Nat) (parts : List Name) :
    ReadOnly (enterDirs geo current parts) := by
  induction parts generalizing current with
  | nil => trivial
  | cons part rest ih =>
    refine (readOnly_findInDir current part).bind fun slot => ?_
    cases slot with
    | none => exact readOnly_fail _
    | some slot =>
      dsimp only
      split
      · exact readOnly_fail _
      · exact ih _

theorem readOnly_parentCluster (path : Name) : ReadOnly (parentCluster geo path) := by
  unfold parentCluster
  split
  · exact readOnly_fail _
  · exact (readOnly_enterDirs _ _).bind fun _ => readOnly_pure _

namespace Fat32Fs

variable {fs : Fat32Fs}

theorem run_withMode (readOnly : Bool) (m : Memory) :
    ((withMode readOnly).run disk m).1 =
      (Fat32BootSector.ofSector (disk.read m 0)).geo.map (⟨·, false, readOnly⟩) := by
  simp only [withMode, readSector, bind, pure, Prog.bind, Prog.run]
  cases (Fat32BootSector.ofSector (disk.read m 0)).geo <;> rfl

theorem withMode_run {readOnly : Bool} {m : Memory}
    (h : ((withMode readOnly).run disk m).1 = .ok fs) :
    (Fat32BootSector.ofSector (disk.read m 0)).geo = .ok fs.geo ∧ fs.readOnly = readOnly := by
  rw [run_withMode] at h
  cases hgeo : (Fat32BootSector.ofSector (disk.read m 0)).geo with
  | error e =>
    rw [hgeo] at h
    cases h
  | ok geo =>
    rw [hgeo] at h
    cases h
    exact ⟨rfl, rfl⟩

theorem readOnly_findSlot (path : Name) : ReadOnly (fs.findSlot path) := by
  refine (readOnly_findPath path).bind fun slot => ?_
  split
  · exact readOnly_pure _
  · exact readOnly_fail _

theorem readOnly_lookup (path : Name) : ReadOnly (fs.lookup path) := by
  refine (readOnly_findPath path).bind fun slot => ?_
  split
  · split
    · exact readOnly_pure _
    · exact readOnly_fail _
  · exact readOnly_pure _

theorem readOnly_openFile (path : Name) : ReadOnly (fs.openFile path) := by
  refine (readOnly_findSlot path).bind fun slot => ?_
  split
  · exact readOnly_fail _
  · split
    · exact readOnly_fail _
    · exact (readOnly_readChain _).bind fun _ => readOnly_pure _

theorem readOnly_readdir (path : Name) : ReadOnly (fs.readdir path) := by
  refine (readOnly_findSlot path).bind fun slot => ?_
  split
  · exact readOnly_fail _
  · exact (readOnly_readDir _).bind fun _ => readOnly_pure _

theorem readOnly_stat (path : Name) : ReadOnly (fs.stat path) :=
  (readOnly_findSlot path).bind fun _ => readOnly_pure _

end Fat32Fs

end Vibra.Fat32
