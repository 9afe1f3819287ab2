import Vibra.Fat32.ReadOnly
import Vibra.Vfs.Mount

/-! # Read-only mounts

The flag of the mount point, the wrapper of its files and the checks of the FAT32
driver together keep writes from the disk of a read-only mount.
-/

namespace Vibra.Fat32

open Lib (Memory Prog)
open Lib.Prog (wp)

namespace Fat32Fs

variable {fs : Fat32Fs} {m : Memory}

theorem new_readOnly (h : (new.run disk m).1 = .ok fs) : fs.readOnly = true :=
  (withMode_run h).2

theorem guardWrite_readOnly {α : Type} (h : fs.readOnly = true) (body : Io α) :
    fs.guardWrite body = .fail .readOnly :=
  if_pos h

theorem openFile_readOnly (path : Name) :
    wp disk (fun _ _ => True) (fun f _ => f.readOnly = fs.readOnly) (fun _ _ => True)
      (fs.openFile path) m := by
  rw [openFile, Prog.wp_bind]
  refine Prog.wp_of_forall (fun slot m => ?_) fun _ _ => trivial
  split
  · trivial
  · split
    · trivial
    · rw [Prog.wp_bind]
      exact Prog.wp_of_forall (fun _ _ => rfl) fun _ _ => trivial

end Fat32Fs

namespace Fat32File

theorem read_readOnly (f : Fat32File) (len : Nat) : (f.read len).1.readOnly = f.readOnly := by
  unfold read
  split <;> rfl

theorem seek_readOnly (f : Fat32File) (pos : SeekFrom) :
    (f.seek pos).1.readOnly = f.readOnly := by
  unfold seek
  extract_lets new
  by_cases h : new < 0
  · rw [if_pos h]
  · rw [if_neg h]

theorem write_readOnly {f : Fat32File} (h : f.readOnly = true) (now : DosTime)
    (data : List UInt8) : f.write now data = pure (f, .error .readOnly) :=
  if_pos h

end Fat32File

end Vibra.Fat32

namespace Vibra.Vfs

open Lib (Memory Prog ReadProg)
open Lib.Prog (wp ReadOnly readOnly_pure)
open Fat32 (Name Io FsError SeekFrom Fat32Fs Fat32File DosTime disk)

variable {D : Driver} {w : World D}

theorem readOnly_fatAnswer {α : Type} {heap : D.Heap} {p : Io α} (hp : ReadOnly p) :
    ReadOnly (fatAnswer heap p) :=
  hp.attempt.bind fun _ => readOnly_pure _

namespace MountedFs

variable (fs : MountedFs D) (heap : D.Heap) (path : Name)

theorem readOnly_openFile : ReadOnly (fs.openFile heap path) := by
  cases fs with
  | fat32 fs =>
    exact readOnly_fatAnswer ((Fat32Fs.readOnly_openFile path).bind fun _ => readOnly_pure _)
  | other fs => exact (ReadProg.readOnly_lift _).bind fun _ => readOnly_pure _

theorem readOnly_readdir : ReadOnly (fs.readdir heap path) := by
  cases fs with
  | fat32 fs => exact readOnly_fatAnswer (Fat32Fs.readOnly_readdir path)
  | other fs => exact ReadProg.readOnly_lift _

theorem readOnly_stat : ReadOnly (fs.stat heap path) := by
  cases fs with
  | fat32 fs => exact readOnly_fatAnswer (Fat32Fs.readOnly_stat path)
  | other fs => exact ReadProg.readOnly_lift _

theorem readOnly_sync : ReadOnly (fs.sync heap path) := by
  cases fs with
  | fat32 fs => exact readOnly_pure _
  | other fs => exact ReadProg.readOnly_lift _

end MountedFs

namespace VfsFile

variable (heap : D.Heap) (file : VfsFile D)

theorem readOnly_read (len : Nat) : ReadOnly (file.read heap len) := by
  induction file with
  | fat32 f => exact readOnly_pure _
  | other f => exact (ReadProg.readOnly_lift _).bind fun _ => readOnly_pure _
  | readOnly inner ih => exact ih.bind fun _ => readOnly_pure _

theorem readOnly_seek (pos : SeekFrom) : ReadOnly (file.seek heap pos) := by
  induction file with
  | fat32 f => exact readOnly_pure _
  | other f => exact (ReadProg.readOnly_lift _).bind fun _ => readOnly_pure _
  | readOnly inner ih => exact ih.bind fun _ => readOnly_pure _

end VfsFile

namespace World

theorem readOnly_finish {α : Type} {p : Io (Answer D α)} (hp : ReadOnly p) (reply : α → Reply) :
    ReadOnly (w.finish p reply) :=
  hp.bind fun _ => readOnly_pure _

theorem readOnly_finishOpen {p : Io (Answer D (VfsFile D))} (hp : ReadOnly p) (idx : Nat) :
    ReadOnly (w.finishOpen idx p) := by
  refine hp.bind fun ⟨heap, result⟩ => ?_
  cases result with
  | error e => exact readOnly_pure _
  | ok file => exact readOnly_pure _

theorem readOnly_finishFile {α : Type} {p : Io (D.Heap × VfsFile D × Except FsError α)}
    (hp : ReadOnly p) (handle idx : Nat) (reply : α → Reply) :
    ReadOnly (w.finishFile handle idx p reply) :=
  hp.bind fun _ => readOnly_pure _

end World

def MountPoint.Guarded (mount : MountPoint D) : Prop :=
  mount.readonly = true ∨ ∃ fs, mount.fs = .fat32 fs ∧ fs.readOnly = true

def VfsFile.Guarded : VfsFile D → Prop
  | .fat32 f => f.readOnly = true
  | .other _ => False
  | .readOnly _ => True

/-- The handles belong to mounts, and those of guarded mounts refuse writes. -/
def HandlesGuarded (mounts : List (MountPoint D)) (handles : List (Nat × VfsFile D)) : Prop :=
  ∀ h ∈ handles, ∃ mount, mounts[h.1]? = some mount ∧ (mount.Guarded → h.2.Guarded)

namespace HandlesGuarded

variable {mounts : List (MountPoint D)} {handles : List (Nat × VfsFile D)}

theorem append (h : HandlesGuarded mounts handles) {idx : Nat} {mount : MountPoint D}
    {file : VfsFile D} (hm : mounts[idx]? = some mount) (hf : mount.Guarded → file.Guarded) :
    HandlesGuarded mounts (handles ++ [(idx, file)]) := by
  intro x hx
  rcases List.mem_append.mp hx with hx | hx
  · exact h x hx
  · rw [List.mem_singleton] at hx
    subst hx
    exact ⟨mount, hm, hf⟩

theorem set (h : HandlesGuarded mounts handles) {handle idx : Nat} {file file' : VfsFile D}
    (hfile : handles[handle]? = some (idx, file)) (hf : file.Guarded → file'.Guarded) :
    HandlesGuarded mounts (handles.set handle (idx, file')) := by
  intro x hx
  rcases List.mem_or_eq_of_mem_set hx with hx | rfl
  · exact h x hx
  · obtain ⟨mount, hm, hg⟩ := h _ (List.mem_of_getElem? hfile)
    exact ⟨mount, hm, fun hmount => hf (hg hmount)⟩

theorem mount (h : HandlesGuarded mounts handles) (new : MountPoint D) :
    HandlesGuarded (mounts ++ [new]) handles := by
  intro x hx
  obtain ⟨mount, hm, hg⟩ := h x hx
  refine ⟨mount, ?_, hg⟩
  rw [List.getElem?_append_left (List.getElem?_eq_some_iff.mp hm).1, hm]

end HandlesGuarded

theorem resolveFs_get {mounts : List (MountPoint D)} {path target : Name} {idx : Nat}
    {mount : MountPoint D} (h : resolveFs mounts path = .ok (idx, mount, target)) :
    mounts[idx]? = some mount := by
  unfold resolveFs at h
  split at h
  · cases h
  · split at h
    · cases h
    next hget =>
      cases h
      exact hget

theorem guardMount_refused {α : Type} {mount : MountPoint D} (hg : mount.Guarded) {heap : D.Heap}
    (body : MountedFs D → Io (Answer D α))
    (hfat : ∀ fs : Fat32Fs, fs.readOnly = true →
      body (.fat32 fs) = pure (heap, .error .readOnly)) :
    guardMount heap mount (body mount.fs) = pure (heap, .error .readOnly) := by
  unfold guardMount
  split
  · rfl
  next hflag =>
    obtain ⟨fs, hfs, hro⟩ := hg.resolve_left hflag
    rw [hfs]
    exact hfat fs hro

section Refusals

variable {mount : MountPoint D} (hg : mount.Guarded) (heap : D.Heap) (now : DosTime) (path : Name)

include hg

theorem create_refused :
    guardMount heap mount (mount.fs.create heap now path) = pure (heap, .error .readOnly) := by
  refine guardMount_refused hg (fun fs => fs.create heap now path) fun fs hro => ?_
  rw [MountedFs.create, Fat32Fs.create, Fat32Fs.guardWrite_readOnly hro]
  rfl

theorem mkdir_refused :
    guardMount heap mount (mount.fs.mkdir heap now path) = pure (heap, .error .readOnly) := by
  refine guardMount_refused hg (fun fs => fs.mkdir heap now path) fun fs hro => ?_
  rw [MountedFs.mkdir, Fat32Fs.mkdir, Fat32Fs.guardWrite_readOnly hro]
  rfl

theorem rmdir_refused :
    guardMount heap mount (mount.fs.rmdir heap path) = pure (heap, .error .readOnly) := by
  refine guardMount_refused hg (fun fs => fs.rmdir heap path) fun fs hro => ?_
  rw [MountedFs.rmdir, Fat32Fs.rmdir, Fat32Fs.guardWrite_readOnly hro]
  rfl

theorem remove_refused :
    guardMount heap mount (mount.fs.remove heap path) = pure (heap, .error .readOnly) := by
  refine guardMount_refused hg (fun fs => fs.remove heap path) fun fs hro => ?_
  rw [MountedFs.remove, Fat32Fs.remove, Fat32Fs.guardWrite_readOnly hro]
  rfl

end Refusals

/-! ## Handles stay guarded -/

section Handles

variable {m : Memory}

/-- A weakest precondition without guarantee and without a condition on errors. -/
abbrev Ends {α : Type} (Q : α → Memory → Prop) (p : Io α) (m : Memory) : Prop :=
  wp disk (fun _ _ => True) Q (fun _ _ => True) p m

theorem ends_of_forall {α : Type} {Q : α → Memory → Prop} {p : Io α} (h : ∀ a m, Q a m) :
    Ends Q p m :=
  Prog.wp_of_forall h fun _ _ => trivial

theorem openFile_guarded (mount : MountPoint D) (heap : D.Heap) (path : Name) :
    Ends (fun r _ => ∀ file, r.2 = .ok file → mount.Guarded → (wrapFile mount file).Guarded)
      (mount.fs.openFile heap path) m := by
  have hwrapped : mount.readonly = true → ∀ file, (wrapFile mount file).Guarded := by
    intro hflag file
    rw [wrapFile, if_pos hflag]
    trivial
  have hplain : mount.readonly = false → ∀ file, wrapFile mount file = file := by
    intro hflag file
    rw [wrapFile, hflag]
    rfl
  cases hflag : mount.readonly with
  | true => exact ends_of_forall fun r _ file _ _ => hwrapped hflag file
  | false =>
    cases hfs : mount.fs with
    | other fs =>
      refine ends_of_forall fun r _ file _ hg => ?_
      rcases hg with h | ⟨fs', hfs', -⟩
      · rw [hflag] at h
        cases h
      · rw [hfs] at hfs'
        cases hfs'
    | fat32 fs =>
      simp only [MountedFs.openFile, fatAnswer, Ends, Prog.wp_bind, Prog.wp_attempt, Prog.wp_pure]
      refine Prog.wp_post (fs.openFile_readOnly path) (fun f _ hf file hfile hg => ?_)
        fun e _ _ file hfile => by cases hfile
      cases hfile
      rw [hplain hflag]
      rcases hg with h | ⟨fs', hfs', hro⟩
      · rw [hflag] at h
        cases h
      · rw [hfs] at hfs'
        cases hfs'
        exact hf.trans hro

theorem read_guarded (heap : D.Heap) (file : VfsFile D) (len : Nat) :
    Ends (fun r _ => file.Guarded → r.2.1.Guarded) (file.read heap len) m := by
  cases file with
  | fat32 f => exact fun h => (f.read_readOnly len).trans h
  | other f => exact ends_of_forall fun _ _ h => h.elim
  | readOnly inner =>
    rw [VfsFile.read, Ends, Prog.wp_bind]
    exact ends_of_forall fun _ _ _ => trivial

theorem seek_guarded (heap : D.Heap) (file : VfsFile D) (pos : SeekFrom) :
    Ends (fun r _ => file.Guarded → r.2.1.Guarded) (file.seek heap pos) m := by
  cases file with
  | fat32 f => exact fun h => (f.seek_readOnly pos).trans h
  | other f => exact ends_of_forall fun _ _ h => h.elim
  | readOnly inner =>
    rw [VfsFile.seek, Ends, Prog.wp_bind]
    exact ends_of_forall fun _ _ _ => trivial

theorem write_guarded {heap : D.Heap} {file : VfsFile D} (h : file.Guarded) (now : DosTime)
    (data : List UInt8) : file.write heap now data = pure (heap, file, .error .readOnly) := by
  cases file with
  | fat32 f =>
    rw [VfsFile.write, Fat32File.write_readOnly h]
    rfl
  | other f => exact h.elim
  | readOnly inner => rfl

theorem write_stays_guarded (heap : D.Heap) (file : VfsFile D) (now : DosTime)
    (data : List UInt8) :
    Ends (fun r _ => file.Guarded → r.2.1.Guarded) (file.write heap now data) m := by
  by_cases h : file.Guarded
  · rw [write_guarded h]
    exact fun _ => h
  · exact ends_of_forall fun _ _ h' => absurd h' h

def KeepsHandles (w : World D) (p : Io (World.After D)) (m : Memory) : Prop :=
  Ends (fun r _ => HandlesGuarded w.mounts r.2.1) p m

theorem finish_keeps (h : HandlesGuarded w.mounts w.handles) {α : Type} {p : Io (Answer D α)}
    {reply : α → Reply} : KeepsHandles w (w.finish p reply) m := by
  rw [KeepsHandles, World.finish, Ends, Prog.wp_bind]
  exact ends_of_forall fun _ _ => h

theorem finishOpen_keeps (h : HandlesGuarded w.mounts w.handles) {idx : Nat}
    {mount : MountPoint D} (hm : w.mounts[idx]? = some mount) {p : Io (Answer D (VfsFile D))}
    (hp : Ends (fun r _ => ∀ file, r.2 = .ok file → mount.Guarded → file.Guarded) p m) :
    KeepsHandles w (w.finishOpen idx p) m := by
  rw [KeepsHandles, World.finishOpen, Ends, Prog.wp_bind]
  refine Prog.wp_post hp (fun ⟨heap, result⟩ m' hr => ?_) fun _ _ _ => trivial
  cases result with
  | error e => exact h
  | ok file => exact h.append hm (hr file rfl)

theorem finishFile_keeps (h : HandlesGuarded w.mounts w.handles) {handle idx : Nat}
    {file : VfsFile D} (hfile : w.handles[handle]? = some (idx, file)) {α : Type}
    {p : Io (D.Heap × VfsFile D × Except FsError α)} {reply : α → Reply}
    (hp : Ends (fun r _ => file.Guarded → r.2.1.Guarded) p m) :
    KeepsHandles w (w.finishFile handle idx p reply) m := by
  rw [KeepsHandles, World.finishFile, Ends, Prog.wp_bind]
  exact Prog.wp_post hp (fun ⟨heap, file', result⟩ m' hr => h.set hfile hr) fun _ _ _ => trivial

theorem onPath_keeps (h : HandlesGuarded w.mounts w.handles) {path : Name}
    {body : Nat → MountPoint D → Name → Io (World.After D)}
    (hbody : ∀ idx mount target, w.mounts[idx]? = some mount →
      KeepsHandles w (body idx mount target) m) : KeepsHandles w (w.onPath path body) m := by
  unfold World.onPath
  split
  · exact h
  next idx mount target hresolve => exact hbody idx mount target (resolveFs_get hresolve)

theorem onHandle_keeps (h : HandlesGuarded w.mounts w.handles) {handle : Nat}
    {body : Nat → VfsFile D → Io (World.After D)}
    (hbody : ∀ idx file, w.handles[handle]? = some (idx, file) →
      KeepsHandles w (body idx file) m) : KeepsHandles w (w.onHandle handle body) m := by
  unfold World.onHandle
  split
  · exact h
  next idx file hfile => exact hbody idx file hfile

theorem prog_keeps (h : HandlesGuarded w.mounts w.handles) (now : DosTime) (op : Op) :
    KeepsHandles w (w.prog now op) m := by
  cases op with
  | openFile path =>
    refine onPath_keeps h fun idx mount target hm => finishOpen_keeps h hm ?_
    rw [Ends, Prog.wp_bind]
    refine Prog.wp_post (openFile_guarded mount w.heap target) (fun ⟨heap, result⟩ _ hr => ?_)
      fun _ _ _ => trivial
    intro file hfile hg
    cases result with
    | error e => cases hfile
    | ok inner =>
      cases hfile
      exact hr inner rfl hg
  | create path =>
    refine onPath_keeps h fun idx mount target hm => finishOpen_keeps h hm ?_
    by_cases hg : mount.Guarded
    · rw [create_refused hg]
      exact fun file hfile => by cases hfile
    · exact ends_of_forall fun _ _ _ _ h' => absurd h' hg
  | readdir path => exact onPath_keeps h fun _ _ _ _ => finish_keeps h
  | mkdir path => exact onPath_keeps h fun _ _ _ _ => finish_keeps h
  | rmdir path => exact onPath_keeps h fun _ _ _ _ => finish_keeps h
  | remove path => exact onPath_keeps h fun _ _ _ _ => finish_keeps h
  | stat path => exact onPath_keeps h fun _ _ _ _ => finish_keeps h
  | existsPath path =>
    refine onPath_keeps h fun idx mount target _ => ?_
    rw [KeepsHandles, Ends, Prog.wp_bind]
    refine ends_of_forall fun ⟨heap, result⟩ _ => ?_
    cases result with
    | error e => exact h
    | ok metadata => exact h
  | sync path => exact onPath_keeps h fun _ _ _ _ => finish_keeps h
  | read handle len =>
    exact onHandle_keeps h fun idx file hfile => finishFile_keeps h hfile (read_guarded _ _ _)
  | write handle data =>
    exact onHandle_keeps h fun idx file hfile =>
      finishFile_keeps h hfile (write_stays_guarded _ _ _ _)
  | seek handle pos =>
    exact onHandle_keeps h fun idx file hfile => finishFile_keeps h hfile (seek_guarded _ _ _)

end Handles

/-! ## Runs -/

theorem exec_keeps (h : HandlesGuarded w.mounts w.handles) (now : DosTime) (op : Op) :
    HandlesGuarded (w.exec now op).mounts (w.exec now op).handles := by
  have hrun := Prog.wp_run (prog_keeps (m := w.disks (w.device op)) h now op)
  unfold World.exec
  revert hrun
  rcases (w.prog now op).run disk (w.disks (w.device op)) with ⟨_ | ⟨heap, handles, _⟩, m'⟩
  · exact fun _ => h
  · exact id

theorem run_guarded (hrun : Run w) : HandlesGuarded w.mounts w.handles := by
  induction hrun with
  | boot heap disks => simp [HandlesGuarded]
  | mount _ path fs readonly device ih =>
    unfold World.mountFs
    split
    · exact ih
    · exact ih.mount _
  | op _ now op ih => exact exec_keeps ih now op

def Op.Mutates : Op → Prop
  | .create _ | .mkdir _ | .rmdir _ | .remove _ | .write _ _ => True
  | .openFile _ | .readdir _ | .stat _ | .existsPath _ | .sync _ | .read _ _ | .seek _ _ => False

/-- No write is issued, and a mutating operation is refused and changes nothing. -/
def Harmless (w : World D) (mutates : Prop) (p : Io (World.After D)) : Prop :=
  ReadOnly p ∧ (mutates → p = pure (w.heap, w.handles, .error .readOnly))

theorem harmless_of_readOnly {p : Io (World.After D)} (h : ReadOnly p) : Harmless w False p :=
  ⟨h, False.elim⟩

theorem harmless_of_refused {p : Io (World.After D)} {mutates : Prop}
    (h : p = pure (w.heap, w.handles, .error .readOnly)) : Harmless w mutates p :=
  ⟨h ▸ readOnly_pure _, fun _ => h⟩

theorem onPath_harmless {path : Name} {idx : Nat} {mount : MountPoint D} {mutates : Prop}
    (ht : w.target (.stat path) = some idx) (hm : w.mounts[idx]? = some mount)
    {body : Nat → MountPoint D → Name → Io (World.After D)}
    (hbody : ∀ target, Harmless w mutates (body idx mount target)) :
    Harmless w mutates (w.onPath path body) := by
  unfold World.target at ht
  unfold World.onPath
  dsimp only at ht
  split at ht
  · cases ht
  next idx' mount' target hresolve =>
    cases ht
    obtain rfl : mount' = mount := by
      have := resolveFs_get hresolve
      rw [hm] at this
      exact (Option.some.inj this).symm
    exact hbody target

theorem onHandle_harmless {handle idx : Nat} {mutates : Prop}
    (ht : w.target (.read handle 0) = some idx) {body : Nat → VfsFile D → Io (World.After D)}
    (hbody : ∀ file, w.handles[handle]? = some (idx, file) → Harmless w mutates (body idx file)) :
    Harmless w mutates (w.onHandle handle body) := by
  unfold World.target at ht
  unfold World.onHandle
  dsimp only at ht
  cases hfile : w.handles[handle]? with
  | none =>
    rw [hfile] at ht
    cases ht
  | some entry =>
    rw [hfile] at ht
    cases ht
    exact hbody entry.2 hfile

theorem prog_harmless (h : HandlesGuarded w.mounts w.handles) (now : DosTime) {op : Op} {idx : Nat}
    {mount : MountPoint D} (ht : w.target op = some idx) (hm : w.mounts[idx]? = some mount)
    (hg : mount.Guarded) : Harmless w op.Mutates (w.prog now op) := by
  cases op with
  | openFile path =>
    refine onPath_harmless ht hm fun target =>
      harmless_of_readOnly (World.readOnly_finishOpen ?_ idx)
    exact (mount.fs.readOnly_openFile _ _).bind fun _ => readOnly_pure _
  | create path =>
    refine onPath_harmless ht hm fun target => harmless_of_refused ?_
    rw [create_refused hg]
    rfl
  | readdir path =>
    exact onPath_harmless ht hm fun target =>
      harmless_of_readOnly (World.readOnly_finish (mount.fs.readOnly_readdir _ _) _)
  | mkdir path =>
    refine onPath_harmless ht hm fun target => harmless_of_refused ?_
    rw [mkdir_refused hg]
    rfl
  | rmdir path =>
    refine onPath_harmless ht hm fun target => harmless_of_refused ?_
    rw [rmdir_refused hg]
    rfl
  | remove path =>
    refine onPath_harmless ht hm fun target => harmless_of_refused ?_
    rw [remove_refused hg]
    rfl
  | stat path =>
    exact onPath_harmless ht hm fun target =>
      harmless_of_readOnly (World.readOnly_finish (mount.fs.readOnly_stat _ _) _)
  | existsPath path =>
    refine onPath_harmless ht hm fun target => harmless_of_readOnly ?_
    refine (mount.fs.readOnly_stat _ _).bind fun ⟨heap, result⟩ => ?_
    cases result with
    | error e => exact readOnly_pure _
    | ok metadata => exact readOnly_pure _
  | sync path =>
    exact onPath_harmless ht hm fun target =>
      harmless_of_readOnly (World.readOnly_finish (mount.fs.readOnly_sync _ _) _)
  | read handle len =>
    exact onHandle_harmless ht fun file _ =>
      harmless_of_readOnly (World.readOnly_finishFile (file.readOnly_read _ _) _ _ _)
  | write handle data =>
    refine onHandle_harmless ht fun file hfile => harmless_of_refused ?_
    obtain ⟨mount', hm', hf⟩ := h _ (List.mem_of_getElem? hfile)
    obtain rfl : mount' = mount := by
      rw [hm] at hm'
      exact (Option.some.inj hm').symm
    have hset : w.handles.set handle (idx, file) = w.handles := by
      obtain ⟨hlt, heq⟩ := List.getElem?_eq_some_iff.mp hfile
      rw [← heq, List.set_getElem_self]
    rw [write_guarded (hf hg)]
    change (pure (w.heap, w.handles.set handle (idx, file), .error .readOnly) : Io (World.After D)) = _
    rw [hset]
  | seek handle pos =>
    exact onHandle_harmless ht fun file _ =>
      harmless_of_readOnly (World.readOnly_finishFile (file.readOnly_seek _ _) _ _ _)

/-- In every run, an operation that reaches a read-only mount, or a mount of a
FAT32 driver from `new`, issues no write whatever the disk answers, leaves all
disks as they are, and is refused without any effect if it mutates. -/
theorem read_only_mount (hrun : Run w) (now : DosTime) {op : Op} {idx : Nat}
    {mount : MountPoint D} (ht : w.target op = some idx) (hm : w.mounts[idx]? = some mount)
    (hro : mount.readonly = true ∨ ∃ m fs, (Fat32Fs.new.run disk m).1 = .ok fs ∧
      (mount.fs = .fat32 fs ∨ mount.fs = .fat32 fs.mount)) :
    ReadOnly (w.prog now op) ∧ (w.exec now op).disks = w.disks ∧
      (op.Mutates → w.prog now op = pure (w.heap, w.handles, .error .readOnly)) := by
  have hg : mount.Guarded := by
    rcases hro with h | ⟨m, fs, hnew, hfs⟩
    · exact Or.inl h
    · have hfsro := Fat32Fs.new_readOnly hnew
      exact Or.inr (hfs.elim (fun h => ⟨fs, h, hfsro⟩) fun h => ⟨fs.mount, h, hfsro⟩)
  obtain ⟨hread, hrefused⟩ := prog_harmless (run_guarded hrun) now ht hm hg
  refine ⟨hread, ?_, hrefused⟩
  have hsame := hread.run disk (w.disks (w.device op))
  unfold World.exec
  revert hsame
  rcases (w.prog now op).run disk (w.disks (w.device op)) with ⟨_ | ⟨heap, handles, _⟩, m'⟩
  · rintro rfl
    exact Function.update_eq_self _ _
  · rintro rfl
    exact Function.update_eq_self _ _

/-- No drivers but FAT32. -/
def onlyFat32 : Driver where
  Heap := Unit
  Fs := Empty
  File := Empty
  openFile _ fs _ := nomatch fs
  create _ fs _ := nomatch fs
  remove _ fs _ := nomatch fs
  mkdir _ fs _ := nomatch fs
  rmdir _ fs _ := nomatch fs
  readdir _ fs _ := nomatch fs
  stat _ fs _ := nomatch fs
  sync _ fs _ := nomatch fs
  read _ file _ := nomatch file
  write _ file _ := nomatch file
  seek _ file _ := nomatch file

def readOnlyWorld : World onlyFat32 :=
  World.mountFs ⟨[], [], (), fun _ _ => 0⟩ ['/', 'm', 'n', 't']
    (.fat32 ⟨⟨1, 1, 1, 2, 1, 512, 2, 0, 3, []⟩, true, false⟩) true 0

/-- Creating a file below the mount point. -/
theorem read_only_mount_create :
    readOnlyWorld.prog ⟨0, 0⟩ (.create "/mnt/a".toList) =
      pure (readOnlyWorld.heap, readOnlyWorld.handles, .error .readOnly) := by
  have hrun : Run readOnlyWorld := .mount (.boot (D := onlyFat32) () _) _ _ _ _
  exact (read_only_mount hrun ⟨0, 0⟩
    (show readOnlyWorld.target (.create "/mnt/a".toList) = some 0 by decide) rfl
    (Or.inl rfl)).2.2 trivial

end Vibra.Vfs
