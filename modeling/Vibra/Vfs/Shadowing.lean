import Vibra.Vfs.Legacy
import Vibra.Vfs.MountResolution

/-! # Mounted volumes and the root file system

A request that reaches a mount of another file system leaves the root file system alone, and so does
everything that is done with the files it opens.
-/

namespace Vibra.Vfs

open Lib (Prog ReadProg)
open Lib.Prog (Yields yields_pure yields_true)
open Fat32 (Name Sector Io FsError SeekFrom DosTime)

variable {D : Driver} {σ : Type}

/-! ## Requests that leave the root file system alone -/

def MountedFs.IsRam : MountedFs (withRam D) → Prop
  | .other (.inl _) => True
  | _ => False

def VfsFile.IsRam : VfsFile (withRam D) → Prop
  | .other (.inl _) => True
  | .readOnly inner => inner.IsRam
  | _ => False

def NotRamAt (handles : List (Nat × VfsFile (withRam D))) (handle : Nat) : Prop :=
  ∀ idx file, handles[handle]? = some (idx, file) → ¬file.IsRam

/-- What a request leaves of the root file system, which it uses only if it is `own`. -/
structure RamAfter (own : Prop) (before after : RootRam) : Prop where
  grows : before.uses ≤ after.uses
  keeps : ¬own → after = before

theorem RamAfter.same {own : Prop} {ram : RootRam} : RamAfter own ram ram := ⟨le_refl _, fun _ => rfl⟩

theorem RamAfter.used {own : Prop} {ram : RootRam} (h : own) (fs : RamFs) :
    RamAfter own ram ⟨fs, ram.uses + 1⟩ :=
  ⟨Nat.le_succ _, fun hn => absurd h hn⟩

theorem RamAfter.mono {own own' : Prop} {before after : RootRam} (h : RamAfter own before after)
    (himp : own → own') : RamAfter own' before after :=
  ⟨h.grows, fun hn => h.keeps fun ho => hn (himp ho)⟩

theorem exists_of_map_ok {α β : Type} {r : Except FsError α} {f : α → β} {b : β}
    (h : r.map f = .ok b) : ∃ a, r = .ok a ∧ f a = b := by
  cases r with
  | ok a => exact ⟨a, rfl, Except.ok.inj h⟩
  | error e => cases h

theorem yields_fatAnswer {α : Type} {own : Prop} {heap : (withRam D).Heap} {P : α → Prop}
    {p : Io α} (hp : Yields P p) :
    Yields (fun r => RamAfter own heap.1 r.1.1 ∧ ∀ a, r.2 = .ok a → P a) (fatAnswer heap p) :=
  hp.attempt.bind fun _ hr => yields_pure ⟨.same, hr⟩

def OpenedBy (fs : MountedFs (withRam D)) (heap : (withRam D).Heap)
    (r : Answer (withRam D) (VfsFile (withRam D))) : Prop :=
  RamAfter fs.IsRam heap.1 r.1.1 ∧ ∀ f, r.2 = .ok f → f.IsRam → fs.IsRam

theorem yields_opened {fs : MountedFs (withRam D)} {heap : (withRam D).Heap}
    {p : ReadProg Sector ((withRam D).Heap × Except FsError (withRam D).File)}
    (hp : (p.lift : Io _).Yields fun r => RamAfter fs.IsRam heap.1 r.1.1 ∧
      ∀ f, r.2 = .ok (.inl f) → fs.IsRam) :
    Yields (OpenedBy fs heap) ((p.lift : Io _) >>= fun r => pure (r.1, r.2.map VfsFile.other)) := by
  refine hp.bind fun r hr => yields_pure ⟨hr.1, ?_⟩
  intro f hf hram
  obtain ⟨g, hg, rfl⟩ := exists_of_map_ok hf
  cases g with
  | inl g => exact hr.2 g hg
  | inr g => exact hram.elim

namespace MountedFs

variable (fs : MountedFs (withRam D)) (heap : (withRam D).Heap) (now : DosTime) (path : Name)

theorem openedBy_openFile : Yields (OpenedBy fs heap) (fs.openFile heap path) := by
  match fs with
  | .fat32 fs =>
    exact yields_fatAnswer ((yields_true _).bind fun f _ => yields_pure False.elim)
  | .other (.inl fs) =>
    exact yields_opened (yields_pure ⟨.used trivial _, fun _ _ => trivial⟩)
  | .other (.inr fs) =>
    refine yields_opened (ReadProg.yields_map (D.openFile heap.2 fs path) fun r => ⟨.same, ?_⟩)
    intro f hf
    obtain ⟨g, -, hg⟩ := exists_of_map_ok hf
    cases hg

theorem openedBy_create : Yields (OpenedBy fs heap) (fs.create heap now path) := by
  match fs with
  | .fat32 fs =>
    exact yields_fatAnswer ((yields_true _).bind fun f _ => yields_pure False.elim)
  | .other (.inl fs) =>
    exact yields_opened (yields_pure ⟨.used trivial _, fun _ _ => trivial⟩)
  | .other (.inr fs) =>
    refine yields_opened (ReadProg.yields_map (D.create heap.2 fs path) fun r => ⟨.same, ?_⟩)
    intro f hf
    obtain ⟨g, -, hg⟩ := exists_of_map_ok hf
    cases hg

theorem ramAfter_readdir :
    Yields (fun r => RamAfter fs.IsRam heap.1 r.1.1) (fs.readdir heap path) := by
  match fs with
  | .fat32 fs => exact (yields_fatAnswer (yields_true _)).mono fun _ h => h.1
  | .other (.inl fs) => exact yields_pure (.used trivial _)
  | .other (.inr fs) => exact ReadProg.yields_map _ fun _ => .same

theorem ramAfter_mkdir :
    Yields (fun r => RamAfter fs.IsRam heap.1 r.1.1) (fs.mkdir heap now path) := by
  match fs with
  | .fat32 fs => exact (yields_fatAnswer (yields_true _)).mono fun _ h => h.1
  | .other (.inl fs) => exact yields_pure (.used trivial _)
  | .other (.inr fs) => exact ReadProg.yields_map _ fun _ => .same

theorem ramAfter_rmdir :
    Yields (fun r => RamAfter fs.IsRam heap.1 r.1.1) (fs.rmdir heap path) := by
  match fs with
  | .fat32 fs => exact (yields_fatAnswer (yields_true _)).mono fun _ h => h.1
  | .other (.inl fs) => exact yields_pure (.used trivial _)
  | .other (.inr fs) => exact ReadProg.yields_map _ fun _ => .same

theorem ramAfter_remove :
    Yields (fun r => RamAfter fs.IsRam heap.1 r.1.1) (fs.remove heap path) := by
  match fs with
  | .fat32 fs => exact (yields_fatAnswer (yields_true _)).mono fun _ h => h.1
  | .other (.inl fs) => exact yields_pure (.used trivial _)
  | .other (.inr fs) => exact ReadProg.yields_map _ fun _ => .same

theorem ramAfter_stat :
    Yields (fun r => RamAfter fs.IsRam heap.1 r.1.1) (fs.stat heap path) := by
  match fs with
  | .fat32 fs => exact (yields_fatAnswer (yields_true _)).mono fun _ h => h.1
  | .other (.inl fs) => exact yields_pure (.used trivial _)
  | .other (.inr fs) => exact ReadProg.yields_map _ fun _ => .same

theorem ramAfter_sync :
    Yields (fun r => RamAfter fs.IsRam heap.1 r.1.1) (fs.sync heap path) := by
  match fs with
  | .fat32 fs => exact yields_pure .same
  | .other (.inl fs) => exact yields_pure .same
  | .other (.inr fs) => exact ReadProg.yields_map _ fun _ => .same

end MountedFs

namespace VfsFile

variable (file : VfsFile (withRam D)) (heap : (withRam D).Heap)

def Used {α : Type} (file : VfsFile (withRam D)) (heap : (withRam D).Heap)
    (r : (withRam D).Heap × VfsFile (withRam D) × Except FsError α) : Prop :=
  RamAfter file.IsRam heap.1 r.1.1 ∧ (r.2.1.IsRam → file.IsRam)

theorem used_read (len : Nat) : Yields (Used file heap) (file.read heap len) := by
  induction file with
  | fat32 f => exact yields_pure ⟨.same, id⟩
  | other f =>
    cases f with
    | inl f => exact yields_pure ⟨.used trivial _, fun _ => trivial⟩
    | inr f =>
      refine Yields.bind (P := fun r => r.1.1 = heap.1 ∧ ∃ g, r.2.1 = .inr g)
        (ReadProg.yields_map _ fun r => ⟨rfl, _, rfl⟩) fun r hr => yields_pure ?_
      obtain ⟨hram, g, hg⟩ := hr
      exact ⟨hram ▸ .same, by rw [hg]; exact False.elim⟩
  | readOnly inner ih => exact ih.bind fun r hr => yields_pure hr

theorem used_write (now : DosTime) (data : List UInt8) :
    Yields (Used file heap) (file.write heap now data) := by
  cases file with
  | fat32 f => exact (yields_true _).bind fun r _ => yields_pure ⟨.same, id⟩
  | other f =>
    cases f with
    | inl f => exact yields_pure ⟨.used trivial _, fun _ => trivial⟩
    | inr f =>
      refine Yields.bind (P := fun r => r.1.1 = heap.1 ∧ ∃ g, r.2.1 = .inr g)
        (ReadProg.yields_map _ fun r => ⟨rfl, _, rfl⟩) fun r hr => yields_pure ?_
      obtain ⟨hram, g, hg⟩ := hr
      exact ⟨hram ▸ .same, by rw [hg]; exact False.elim⟩
  | readOnly inner => exact yields_pure ⟨.same, id⟩

theorem used_seek (pos : SeekFrom) : Yields (Used file heap) (file.seek heap pos) := by
  induction file with
  | fat32 f => exact yields_pure ⟨.same, id⟩
  | other f =>
    cases f with
    | inl f => exact yields_pure ⟨.used trivial _, fun _ => trivial⟩
    | inr f =>
      refine Yields.bind (P := fun r => r.1.1 = heap.1 ∧ ∃ g, r.2.1 = .inr g)
        (ReadProg.yields_map _ fun r => ⟨rfl, _, rfl⟩) fun r hr => yields_pure ?_
      obtain ⟨hram, g, hg⟩ := hr
      exact ⟨hram ▸ .same, by rw [hg]; exact False.elim⟩
  | readOnly inner ih => exact ih.bind fun r hr => yields_pure hr

end VfsFile

theorem isRam_wrapFile {mount : MountPoint (withRam D)} {file : VfsFile (withRam D)}
    (h : (wrapFile mount file).IsRam) : file.IsRam := by
  unfold wrapFile at h
  split at h <;> exact h

/-! ## One request -/

namespace World

variable (w : World (withRam D))

def ReachesRam : Op → Prop
  | .openFile path | .create path | .readdir path | .mkdir path | .rmdir path | .remove path
  | .stat path | .existsPath path | .sync path =>
    ∃ idx mount target, resolveFs w.mounts path = .ok (idx, mount, target) ∧ mount.fs.IsRam
  | .read handle _ | .write handle _ | .seek handle _ => ¬NotRamAt w.handles handle

/-- What a request leaves of the root file system and of the files that are not its own. -/
def Leaves (op : Op) (after : After (withRam D)) : Prop :=
  RamAfter (w.ReachesRam op) w.heap.1 after.1.1 ∧
  (¬w.ReachesRam op → ∀ handle, NotRamAt w.handles handle → NotRamAt after.2.1 handle)

variable {w} {op : Op} {path : Name} {handle : Nat}

theorem leaves_same (result : Except FsError Reply) :
    w.Leaves op (w.heap, w.handles, result) :=
  ⟨.same, fun _ _ h => h⟩

theorem leaves_onPath {body : Nat → MountPoint (withRam D) → Name → Io (After (withRam D))}
    (h : ∀ idx mount target, resolveFs w.mounts path = .ok (idx, mount, target) →
      Yields (w.Leaves op) (body idx mount target)) :
    Yields (w.Leaves op) (w.onPath path body) := by
  unfold onPath
  cases hpath : resolveFs w.mounts path with
  | error e => exact yields_pure (leaves_same _)
  | ok found => exact h found.1 found.2.1 found.2.2 hpath

theorem leaves_finish {α : Type} {own : Prop} {p : Io (Answer (withRam D) α)} {reply : α → Reply}
    (hp : Yields (fun r => RamAfter own w.heap.1 r.1.1) p) (hown : own → w.ReachesRam op) :
    Yields (w.Leaves op) (w.finish p reply) :=
  hp.bind fun _ hr => yields_pure ⟨hr.mono hown, fun _ _ h => h⟩

theorem notRamAt_append {handles : List (Nat × VfsFile (withRam D))} {idx : Nat}
    {file : VfsFile (withRam D)} (hfile : ¬file.IsRam) (h : NotRamAt handles handle) :
    NotRamAt (handles ++ [(idx, file)]) handle := by
  intro idx' file' hget
  rw [List.getElem?_append] at hget
  split at hget
  · exact h idx' file' hget
  · obtain ⟨-, rfl⟩ := Prod.mk.inj (List.mem_singleton.mp (List.mem_of_getElem? hget))
    exact hfile

theorem leaves_finishOpen {mount : MountPoint (withRam D)} {idx : Nat}
    {p : Io (Answer (withRam D) (VfsFile (withRam D)))}
    (hp : Yields (OpenedBy mount.fs w.heap) p) (hown : mount.fs.IsRam → w.ReachesRam op) :
    Yields (w.Leaves op) (w.finishOpen idx p) := by
  refine hp.bind fun r hr => ?_
  obtain ⟨heap, result⟩ := r
  cases result with
  | error e => exact yields_pure ⟨hr.1.mono hown, fun _ _ h => h⟩
  | ok file =>
    refine yields_pure ⟨hr.1.mono hown, fun hn handle h => notRamAt_append ?_ h⟩
    exact fun hram => hn (hown (hr.2 file rfl hram))

theorem leaves_onHandle {α : Type}
    {body : VfsFile (withRam D) → Io ((withRam D).Heap × VfsFile (withRam D) × Except FsError α)}
    {reply : α → Reply} (hop : w.ReachesRam op ↔ ¬NotRamAt w.handles handle)
    (h : ∀ file, Yields (VfsFile.Used file w.heap) (body file)) :
    Yields (w.Leaves op)
      (w.onHandle handle fun idx file => w.finishFile handle idx (body file) reply) := by
  unfold onHandle
  cases hfile : w.handles[handle]? with
  | none => exact yields_pure (leaves_same _)
  | some entry =>
    obtain ⟨idx, file⟩ := entry
    refine (h file).bind fun r hr => yields_pure ⟨hr.1.mono fun hram => ?_, fun hn other ho => ?_⟩
    · exact hop.mpr fun hnot => hnot idx file hfile hram
    · have hnot := not_not.mp (hop.not.mp hn) idx file hfile
      intro idx' file' hget
      rw [List.getElem?_set] at hget
      split at hget
      next heq =>
        split at hget
        · obtain ⟨-, rfl⟩ := Prod.mk.inj (Option.some.inj hget)
          exact fun hram => hnot (hr.2 hram)
        · cases hget
      · exact ho idx' file' hget

theorem yields_guardMount {α : Type} {mount : MountPoint (withRam D)} {heap : (withRam D).Heap}
    {body : Io (Answer (withRam D) α)} {P : Answer (withRam D) α → Prop} (hbody : Yields P body)
    (hrefused : P (heap, .error .readOnly)) : Yields P (guardMount heap mount body) := by
  unfold guardMount
  split
  · exact yields_pure hrefused
  · exact hbody

theorem leaves_prog (now : DosTime) (op : Op) : Yields (w.Leaves op) (w.prog now op) := by
  have hreach : ∀ {path idx mount target}, resolveFs w.mounts path = .ok (idx, mount, target) →
      mount.fs.IsRam → ∃ idx mount target,
        resolveFs w.mounts path = .ok (idx, mount, target) ∧ mount.fs.IsRam :=
    fun hpath hram => ⟨_, _, _, hpath, hram⟩
  cases op with
  | openFile path =>
    refine leaves_onPath fun idx mount target hpath => leaves_finishOpen ?_ (hreach hpath)
    refine (mount.fs.openedBy_openFile w.heap target).bind fun r hr => yields_pure ⟨hr.1, ?_⟩
    intro f hf hram
    obtain ⟨g, hg, rfl⟩ := exists_of_map_ok hf
    exact hr.2 g hg (isRam_wrapFile hram)
  | create path =>
    refine leaves_onPath fun idx mount target hpath => leaves_finishOpen ?_ (hreach hpath)
    exact yields_guardMount (mount.fs.openedBy_create _ _ _) ⟨.same, fun f hf => by cases hf⟩
  | readdir path =>
    exact leaves_onPath fun idx mount target hpath =>
      leaves_finish (mount.fs.ramAfter_readdir _ _) (hreach hpath)
  | mkdir path =>
    exact leaves_onPath fun idx mount target hpath =>
      leaves_finish (yields_guardMount (mount.fs.ramAfter_mkdir _ _ _) .same) (hreach hpath)
  | rmdir path =>
    exact leaves_onPath fun idx mount target hpath =>
      leaves_finish (yields_guardMount (mount.fs.ramAfter_rmdir _ _) .same) (hreach hpath)
  | remove path =>
    exact leaves_onPath fun idx mount target hpath =>
      leaves_finish (yields_guardMount (mount.fs.ramAfter_remove _ _) .same) (hreach hpath)
  | stat path =>
    exact leaves_onPath fun idx mount target hpath =>
      leaves_finish (mount.fs.ramAfter_stat _ _) (hreach hpath)
  | existsPath path =>
    refine leaves_onPath fun idx mount target hpath => ?_
    refine (mount.fs.ramAfter_stat w.heap target).bind fun r hr => ?_
    obtain ⟨heap, result⟩ := r
    cases result <;> exact yields_pure ⟨hr.mono (hreach hpath), fun _ _ h => h⟩
  | sync path =>
    exact leaves_onPath fun idx mount target hpath =>
      leaves_finish (mount.fs.ramAfter_sync _ _) (hreach hpath)
  | read handle len => exact leaves_onHandle Iff.rfl fun file => file.used_read _ _
  | write handle data => exact leaves_onHandle Iff.rfl fun file => file.used_write _ _ _
  | seek handle pos => exact leaves_onHandle Iff.rfl fun file => file.used_seek _ _

end World

namespace Kernel

variable {env : Env D σ} {k k' k'' : Kernel D σ} {own own' : Prop} {op : Op} {path : Name}
  {handle : Nat}

/-- What a function leaves. Unless it is `own`, the root file system is not used. -/
structure After (own : Prop) (k k' : Kernel D σ) : Prop where
  ram : RamAfter own k.ram k'.ram
  mounts : k'.mounts = k.mounts
  cwd : k'.cwd = k.cwd
  handles : ¬own → ∀ handle, NotRamAt k.handles handle → NotRamAt k'.handles handle

theorem After.refl : After own k k := ⟨.same, rfl, rfl, fun _ _ h => h⟩

theorem After.mono (h : After own k k') (himp : own → own') : After own' k k' :=
  ⟨h.ram.mono himp, h.mounts, h.cwd, fun hn => h.handles fun ho => hn (himp ho)⟩

theorem After.trans (h : After own k k') (h' : After own k' k'') : After own k k'' where
  ram := ⟨h.ram.grows.trans h'.ram.grows, fun hn => (h'.ram.keeps hn).trans (h.ram.keeps hn)⟩
  mounts := h'.mounts.trans h.mounts
  cwd := h'.cwd.trans h.cwd
  handles hn handle hh := h'.handles hn handle (h.handles hn handle hh)

theorem After.andThen {α β : Type} {first : Kernel D σ × Except FsError α}
    {next : Kernel D σ → α → Kernel D σ × Except FsError β} (h : After own k first.1)
    (hnext : ∀ a, first.2 = .ok a → After own first.1 (next first.1 a).1) :
    After own k (andThen first next).1 := by
  obtain ⟨k', result⟩ := first
  cases result with
  | ok a => exact h.trans (hnext a rfl)
  | error e => exact h

theorem after_call (env : Env D σ) (k : Kernel D σ) (op : Op) :
    After (k.world.ReachesRam op) k (k.call env op).1 := by
  have hleaves := World.leaves_prog (w := k.world) (env.clock k.ticks) op
  unfold call
  dsimp only
  cases hanswer : (k.world.prog (env.clock k.ticks) op).answer env.dev
    (k.disks (k.world.device op)) with
  | mk result m =>
    cases result with
    | error e => exact ⟨.same, rfl, rfl, fun _ _ h => h⟩
    | ok after =>
      obtain ⟨hram, hhandles⟩ := hleaves.answer env.dev (congrArg Prod.fst hanswer)
      exact ⟨hram, rfl, rfl, hhandles⟩

theorem after_callOpen (env : Env D σ) (k : Kernel D σ) (op : Op) :
    After (k.world.ReachesRam op) k (k.callOpen env op).1 ∧
    ∀ handle, (k.callOpen env op).2 = .ok handle → ¬k.world.ReachesRam op →
      NotRamAt (k.callOpen env op).1.handles handle := by
  have h := after_call env k op
  refine ⟨h, fun handle hok hn => h.handles hn handle ?_⟩
  obtain ⟨-, -, rfl⟩ := exists_of_map_ok hok
  intro idx file hget
  rw [List.getElem?_eq_none (le_refl _)] at hget
  cases hget

theorem after_readFileHandle (len : Nat) :
    After (¬NotRamAt k.handles handle) k (k.readFileHandle env handle len).1 :=
  After.andThen (after_call _ _ (.read handle len)) fun _ _ => .refl

theorem after_writeFileHandle (env : Env D σ) (handle : Nat) (data : List UInt8) :
    After (¬NotRamAt k.handles handle) k (k.writeFileHandle env handle data).1 :=
  after_call _ _ (.write handle data)

theorem after_fileSize (file : VfsFile (withRam D)) :
    After file.IsRam k (k.fileSize env file).1 := by
  match file with
  | .fat32 f => exact .refl
  | .other (.inl f) => exact ⟨.used trivial _, rfl, rfl, fun _ _ h => h⟩
  | .other (.inr f) => exact .refl
  | .readOnly inner => exact after_fileSize inner

theorem after_readAll : After (¬NotRamAt k.handles handle) k (k.readAll env handle).1 := by
  unfold readAll
  split
  · exact .refl
  next idx file hfile =>
    have hsize : After (¬NotRamAt k.handles handle) k (k.fileSize env file).1 :=
      (after_fileSize file).mono fun hram hnot => hnot idx file hfile hram
    dsimp only
    split
    · exact hsize
    split
    · exact hsize
    · refine hsize.trans (After.andThen ((after_readFileHandle _).mono fun hn hnot => hn ?_)
        fun _ _ => .refl)
      exact hsize.handles (not_not.mpr hnot) handle hnot

theorem after_copyLoop (src dst polls total : Nat) :
    After (¬NotRamAt k.handles src ∨ ¬NotRamAt k.handles dst) k
      (copyLoop env src dst polls k total).1 := by
  induction polls generalizing k total with
  | zero => exact .refl
  | succ polls ih =>
    have hread : After (¬NotRamAt k.handles src ∨ ¬NotRamAt k.handles dst) k
        (k.readFileHandle env src chunk).1 := (after_readFileHandle _).mono Or.inl
    refine hread.andThen fun bytes _ => ?_
    split
    · exact .refl
    · have hmono : ∀ {k'' : Kernel D σ},
          After (¬NotRamAt k.handles src ∨ ¬NotRamAt k.handles dst) k k'' →
          ¬NotRamAt k''.handles src ∨ ¬NotRamAt k''.handles dst →
          ¬NotRamAt k.handles src ∨ ¬NotRamAt k.handles dst := by
        intro k'' h hor
        by_contra hn
        obtain ⟨hsrc, hdst⟩ := not_or.mp hn
        rcases hor with hor | hor
        · exact hor (h.handles hn src (not_not.mp hsrc))
        · exact hor (h.handles hn dst (not_not.mp hdst))
      have hwrite := (after_writeFileHandle env dst bytes).mono fun hdst =>
        hmono hread (.inr hdst)
      exact hwrite.andThen fun _ _ => (ih _).mono (hmono (hread.trans hwrite))

def RootMount (mounts : List (MountPoint (withRam D))) : Prop :=
  ∀ mp ∈ mounts, mp.path ≠ [] ∧ (mp.fs.IsRam → mp.path = ['/'])

def Under (mounts : List (MountPoint (withRam D))) (path : Name) : Prop :=
  ∃ mp ∈ mounts, mp.path ≠ ['/'] ∧ covers mp.path (normalizePath path) = true

theorem Under.resolveFs {mounts : List (MountPoint (withRam D))} (h : Under mounts path)
    (hroot : RootMount mounts) : ¬∃ idx mount target,
      resolveFs mounts path = .ok (idx, mount, target) ∧ mount.fs.IsRam := by
  rintro ⟨idx, mount, target, hpath, hram⟩
  obtain ⟨mp, hmp, hne, hcov⟩ := h
  rcases findFs_cases (fun mp hmp => (hroot mp hmp).1) path with
    ⟨hnone, -⟩ | ⟨idx', best, hsome, hidx, hbest, hmax⟩
  · simp [Vfs.resolveFs, hnone] at hpath
  · simp only [Vfs.resolveFs, hsome, hidx, Except.ok.injEq, Prod.mk.injEq] at hpath
    obtain ⟨-, rfl, -⟩ := hpath
    have hbestPath := (hroot _ (List.mem_of_getElem? hidx)).2 hram
    have hpre : mp.path <+: best.path := List.prefix_of_prefix_length_le
      ⟨_, append_drop_of_covers hcov⟩ ⟨_, append_drop_of_covers hbest⟩ (hmax mp hmp hcov)
    rw [hbestPath, List.prefix_cons_iff] at hpre
    rcases hpre with hnil | ⟨t, ht, hpre⟩
    · exact (hroot mp hmp).1 hnil
    · rw [List.prefix_nil.mp hpre] at ht
      exact hne ht

/-- The result that a call has on the mounted file systems alone. -/
def direct (env : Env D σ) (k : Kernel D σ) : PathCall → Kernel D σ × Except FsError Reply
  | .listDir path =>
    let tried := k.vfsReaddir env (resolvePath k.cwd path)
    (tried.1, .ok (tried.2.toOption.getD (.entries [])))
  | .createFile name => answered (k.vfsCreate env (resolvePath k.cwd name)) fun _ => .done
  | .openFile name => answered (k.vfsOpen env (resolvePath k.cwd name)) fun _ => .opened
  | .readFile name =>
    answered (Kernel.andThen (k.vfsOpen env (resolvePath k.cwd name)) fun k handle =>
      k.readAll env handle) .bytes
  | .copyFile polls source dest =>
    answered (Kernel.andThen (k.vfsOpen env (resolvePath k.cwd source)) fun k src =>
      Kernel.andThen (k.vfsCreate env (resolvePath k.cwd dest)) fun k dst =>
        copyLoop env src dst polls k 0) .number
  | .writeFile name data =>
    let path := resolvePath k.cwd name
    let tried := k.vfsRemove env path
    match tried.2 with
    | .ok _ | .error .notFound =>
      Kernel.andThen (tried.1.vfsCreate env path) fun k file => k.writeFileHandle env file data
    | .error e => (tried.1, .error e)
  | .createDir name => k.vfsMkdir env (resolvePath k.cwd name)
  | .removeDir name => k.vfsRmdir env (resolvePath k.cwd name)
  | .removeEntry name =>
    let path := resolvePath k.cwd name
    let tried := k.vfsRemove env path
    match tried.2 with
    | .error .notFound | .error .isADirectory => tried.1.vfsRmdir env path
    | _ => tried

/-- The call gives the mounted file system's result and does not touch the root file
system, whose uses are counted. -/
def Served (env : Env D σ) (k : Kernel D σ) (call : PathCall) : Prop :=
  k.exec env call = k.direct env call ∧ (k.exec env call).1.ram = k.ram

/-- The mounted file system does not answer that there is nothing, where the call depends
on it; a removal has two tries. -/
def Answers (env : Env D σ) (k : Kernel D σ) : PathCall → Prop
  | .listDir path => (k.vfsReaddir env (resolvePath k.cwd path)).2 ≠ .error .notFound
  | .createFile name => (k.vfsCreate env (resolvePath k.cwd name)).2 ≠ .error .notFound
  | .openFile name | .readFile name =>
    (k.vfsOpen env (resolvePath k.cwd name)).2 ≠ .error .notFound
  | .copyFile _ source dest =>
    let opened := k.vfsOpen env (resolvePath k.cwd source)
    opened.2 ≠ .error .notFound ∧ (opened.2.isOk →
      (opened.1.vfsCreate env (resolvePath k.cwd dest)).2 ≠ .error .notFound)
  | .writeFile name _ =>
    let removed := k.vfsRemove env (resolvePath k.cwd name)
    removed.2.isOk ∨ removed.2 = .error .notFound →
      (removed.1.vfsCreate env (resolvePath k.cwd name)).2 ≠ .error .notFound
  | .createDir name => (k.vfsMkdir env (resolvePath k.cwd name)).2 ≠ .error .notFound
  | .removeDir name => (k.vfsRmdir env (resolvePath k.cwd name)).2 ≠ .error .notFound
  | .removeEntry name =>
    let removed := k.vfsRemove env (resolvePath k.cwd name)
    removed.2 = .error .notFound ∨ removed.2 = .error .isADirectory →
      (removed.1.vfsRmdir env (resolvePath k.cwd name)).2 ≠ .error .notFound ∧
      (removed.1.vfsRmdir env (resolvePath k.cwd name)).2 ≠ .error .notADirectory

/-- The paths of a call. -/
def names : PathCall → List Name
  | .copyFile _ source dest => [source, dest]
  | .listDir name | .createFile name | .openFile name | .readFile name | .writeFile name _
  | .createDir name | .removeDir name | .removeEntry name => [name]

/-! ## The fallback -/

theorem orRam_of_ne {α : Type} {tried : Kernel D σ × Except FsError α}
    {fallback : Kernel D σ → Kernel D σ × Except FsError α} (h : tried.2 ≠ .error .notFound) :
    orRam tried fallback = tried := by
  unfold orRam
  split
  · exact absurd rfl h
  · rfl

theorem orRam_of_notFound {α : Type} {tried : Kernel D σ × Except FsError α}
    {fallback : Kernel D σ → Kernel D σ × Except FsError α} (h : tried.2 = .error .notFound) :
    orRam tried fallback = fallback tried.1 := by
  obtain ⟨k, result⟩ := tried
  obtain rfl : result = .error .notFound := h
  rfl

def Used (k k' : Kernel D σ) : Prop := k.ram.uses < k'.ram.uses

theorem Used.ne (h : Used k k') : k'.ram ≠ k.ram := fun he => by simp [Used, he] at h

theorem used_ramCall {α : Type} (body : RamFs → RamFs × Except FsError α) :
    Used k (k.ramCall body).1 := Nat.lt_succ_self _

theorem used_ramOpen (body : RamFs → RamFs × Except FsError RamFsFile) :
    Used k (k.ramOpen body).1 := by
  have h := used_ramCall (k := k) body
  unfold ramOpen
  generalize k.ramCall body = r at h ⊢
  obtain ⟨k', result⟩ := r
  cases result <;> exact h

theorem used_ramRecreate : Used k (k.ramRecreate path).1 :=
  Nat.lt_trans (used_ramCall _) (used_ramOpen _)

theorem used_ramRemoveEntry : Used k (k.ramRemoveEntry path).1 := by
  have h := used_ramCall (k := k) fun fs => fs.remove path
  unfold ramRemoveEntry
  generalize (k.ramCall fun fs => fs.remove path) = r at h ⊢
  obtain ⟨k', result⟩ := r
  cases result with
  | ok _ => exact h
  | error e => exact Nat.lt_trans h (used_ramCall _)

theorem After.used (h : After own k k') (hused : Used k' k'') : Used k k'' :=
  Nat.lt_of_le_of_lt h.ram.grows hused

theorem grows_andThen {α β : Type} {first : Kernel D σ × Except FsError α}
    {next : Kernel D σ → α → Kernel D σ × Except FsError β}
    (hnext : ∀ k a, k.ram.uses ≤ (next k a).1.ram.uses) :
    first.1.ram.uses ≤ (Kernel.andThen first next).1.ram.uses := by
  obtain ⟨k', result⟩ := first
  cases result with
  | ok a => exact hnext k' a
  | error e => exact le_refl _

theorem grows_orRam {α : Type} {tried : Kernel D σ × Except FsError α}
    {fallback : Kernel D σ → Kernel D σ × Except FsError α} (hfall : ∀ k, Used k (fallback k).1) :
    tried.1.ram.uses ≤ (orRam tried fallback).1.ram.uses := by
  by_cases h : tried.2 = .error .notFound
  · rw [orRam_of_notFound h]
    exact (hfall _).le
  · rw [orRam_of_ne h]

theorem grows_create :
    k.ram.uses ≤ (orRam (k.vfsCreate env path) fun k => k.ramRecreate path).1.ram.uses :=
  (after_callOpen _ _ (.create path)).1.ram.grows.trans (grows_orRam fun _ => used_ramRecreate)

theorem Used.andThen {α β : Type} {first : Kernel D σ × Except FsError α}
    {next : Kernel D σ → α → Kernel D σ × Except FsError β} (h : Used k first.1)
    (hnext : ∀ k a, k.ram.uses ≤ (next k a).1.ram.uses) :
    Used k (Kernel.andThen first next).1 :=
  Nat.lt_of_lt_of_le h (grows_andThen hnext)

theorem After.ram_eq (h : After False k k') : k'.ram = k.ram := h.ram.keeps id

theorem orRam_cases {α : Type} {tried : Kernel D σ × Except FsError α}
    {fallback : Kernel D σ → Kernel D σ × Except FsError α} (h : After False k tried.1)
    (hfall : ∀ k, Used k (fallback k).1) :
    tried.2 ≠ .error .notFound ∧ orRam tried fallback = tried ∨
      tried.2 = .error .notFound ∧ Used k (orRam tried fallback).1 := by
  by_cases hnone : tried.2 = .error .notFound
  · exact .inr ⟨hnone, by rw [orRam_of_notFound hnone]; exact h.used (hfall _)⟩
  · exact .inl ⟨hnone, orRam_of_ne hnone⟩

section Served

variable {name source dest : Name} {data : List UInt8} (hroot : RootMount k.mounts)

include hroot

variable (env op) in
theorem after_path (hunder : Under k.mounts path)
    (hop : k.world.ReachesRam op ↔ ∃ idx mount target,
      Vfs.resolveFs k.mounts path = .ok (idx, mount, target) ∧ mount.fs.IsRam) :
    After False k (k.call env op).1 :=
  (after_call ..).mono fun h => hunder.resolveFs hroot (hop.mp h)

variable (env op) in
theorem after_pathOpen (hunder : Under k.mounts path)
    (hop : k.world.ReachesRam op ↔ ∃ idx mount target,
      Vfs.resolveFs k.mounts path = .ok (idx, mount, target) ∧ mount.fs.IsRam) :
    After False k (k.callOpen env op).1 ∧
    ∀ handle, (k.callOpen env op).2 = .ok handle → NotRamAt (k.callOpen env op).1.handles handle := by
  obtain ⟨hafter, hnew⟩ := after_callOpen env k op
  have hn : ¬k.world.ReachesRam op := fun h => hunder.resolveFs hroot (hop.mp h)
  exact ⟨hafter.mono hn, fun handle hok => hnew handle hok hn⟩

theorem served_listDir (hunder : Under k.mounts (resolvePath k.cwd name)) :
    Served env k (.listDir name) ↔ Answers env k (.listDir name) := by
  have hafter := after_path env (.readdir (resolvePath k.cwd name)) hroot hunder
    Iff.rfl
  rcases orRam_cases hafter fun k' => used_ramCall fun fs =>
    (fs, (fs.readdir (resolvePath k.cwd name)).map Reply.entries) with ⟨hne, heq⟩ | ⟨hnone, hused⟩
  · refine iff_of_true ⟨?_, ?_⟩ hne
    · simp only [exec, listDir, vfsReaddir, heq, direct]
    · simpa only [exec, listDir, vfsReaddir, heq] using hafter.ram_eq
  · exact iff_of_false (fun h => hused.ne h.2) (not_not.mpr hnone)

theorem served_createFile (hunder : Under k.mounts (resolvePath k.cwd name)) :
    Served env k (.createFile name) ↔ Answers env k (.createFile name) := by
  obtain ⟨hafter, -⟩ := after_pathOpen env (.create (resolvePath k.cwd name)) hroot
    hunder Iff.rfl
  rcases orRam_cases hafter fun k' => used_ramOpen fun fs => fs.create (resolvePath k.cwd name) with
    ⟨hne, heq⟩ | ⟨hnone, hused⟩
  · refine iff_of_true ⟨congrArg (answered · _) heq, ?_⟩ hne
    exact (congrArg (fun r => r.1.ram) heq).trans hafter.ram_eq
  · exact iff_of_false (fun h => hused.ne h.2) (not_not.mpr hnone)

variable (env) in
theorem openFile_cases (hunder : Under k.mounts (resolvePath k.cwd name)) :
    (k.vfsOpen env (resolvePath k.cwd name)).2 ≠ .error .notFound ∧
      k.openFile env name = k.vfsOpen env (resolvePath k.cwd name) ∨
    (k.vfsOpen env (resolvePath k.cwd name)).2 = .error .notFound ∧
      Used k (k.openFile env name).1 :=
  orRam_cases (after_pathOpen _ (.openFile (resolvePath k.cwd name)) hroot hunder Iff.rfl).1
    fun _ => used_ramOpen _

theorem served_openFile (hunder : Under k.mounts (resolvePath k.cwd name)) :
    Served env k (.openFile name) ↔ Answers env k (.openFile name) := by
  obtain ⟨hafter, -⟩ := after_pathOpen env (.openFile (resolvePath k.cwd name))
    hroot hunder Iff.rfl
  rcases openFile_cases env hroot hunder with ⟨hne, heq⟩ | ⟨hnone, hused⟩
  · refine iff_of_true ⟨congrArg (answered · _) heq, ?_⟩ hne
    exact (congrArg (fun r => r.1.ram) heq).trans hafter.ram_eq
  · exact iff_of_false (fun h => hused.ne h.2) (not_not.mpr hnone)

theorem served_readFile (hunder : Under k.mounts (resolvePath k.cwd name)) :
    Served env k (.readFile name) ↔ Answers env k (.readFile name) := by
  obtain ⟨hafter, hnew⟩ := after_pathOpen env (.openFile (resolvePath k.cwd name))
    hroot hunder Iff.rfl
  rcases openFile_cases env hroot hunder with ⟨hne, heq⟩ | ⟨hnone, hused⟩
  · refine iff_of_true ⟨?_, ?_⟩ hne
    · simp only [exec, direct, readFile, heq]
    · simp only [exec, answered, readFile, heq]
      refine After.ram_eq (hafter.andThen fun handle hok => after_readAll.mono fun hn => hn ?_)
      exact hnew handle hok
  · refine iff_of_false (fun h => Used.ne ?_ h.2) (not_not.mpr hnone)
    exact hused.andThen fun _ _ => after_readAll.ram.grows

theorem served_createDir (hunder : Under k.mounts (resolvePath k.cwd name)) :
    Served env k (.createDir name) ↔ Answers env k (.createDir name) := by
  have hafter := after_path env (.mkdir (resolvePath k.cwd name)) hroot hunder
    Iff.rfl
  rcases orRam_cases hafter fun k' => used_ramCall fun fs =>
    ((fs.mkdir (resolvePath k.cwd name)).1,
      (fs.mkdir (resolvePath k.cwd name)).2.map fun _ => Reply.done) with ⟨hne, heq⟩ | ⟨hnone, hused⟩
  · refine iff_of_true ⟨heq, ?_⟩ hne
    exact (congrArg (fun r => r.1.ram) heq).trans hafter.ram_eq
  · exact iff_of_false (fun h => hused.ne h.2) (not_not.mpr hnone)

theorem served_removeDir (hunder : Under k.mounts (resolvePath k.cwd name)) :
    Served env k (.removeDir name) ↔ Answers env k (.removeDir name) := by
  have hafter := after_path env (.rmdir (resolvePath k.cwd name)) hroot hunder
    Iff.rfl
  rcases orRam_cases hafter fun k' => used_ramCall fun fs =>
    ((fs.rmdir (resolvePath k.cwd name)).1,
      (fs.rmdir (resolvePath k.cwd name)).2.map fun _ => Reply.done) with ⟨hne, heq⟩ | ⟨hnone, hused⟩
  · refine iff_of_true ⟨heq, ?_⟩ hne
    exact (congrArg (fun r => r.1.ram) heq).trans hafter.ram_eq
  · exact iff_of_false (fun h => hused.ne h.2) (not_not.mpr hnone)

variable (env) in
theorem create_cases (hunder : Under k.mounts path) :
    (k.vfsCreate env path).2 ≠ .error .notFound ∧
      orRam (k.vfsCreate env path) (fun k => k.ramRecreate path) = k.vfsCreate env path ∨
    (k.vfsCreate env path).2 = .error .notFound ∧
      Used k (orRam (k.vfsCreate env path) fun k => k.ramRecreate path).1 :=
  orRam_cases (after_pathOpen _ (.create path) hroot hunder Iff.rfl).1 fun _ => used_ramRecreate

theorem served_copyFile (polls : Nat) (hsource : Under k.mounts (resolvePath k.cwd source))
    (hdest : Under k.mounts (resolvePath k.cwd dest)) :
    Served env k (.copyFile polls source dest) ↔ Answers env k (.copyFile polls source dest) := by
  obtain ⟨hopen, hsrc⟩ := after_pathOpen env (.openFile (resolvePath k.cwd source))
    hroot hsource Iff.rfl
  rcases openFile_cases env hroot hsource with ⟨hne, heq⟩ | ⟨hnone, hused⟩
  · unfold Served Answers
    simp only [exec, direct, copyFile, heq]
    change After False k (k.vfsOpen env (resolvePath k.cwd source)).1 at hopen
    change ∀ handle, (k.vfsOpen env (resolvePath k.cwd source)).2 = .ok handle →
      NotRamAt (k.vfsOpen env (resolvePath k.cwd source)).1.handles handle at hsrc
    generalize k.vfsOpen env (resolvePath k.cwd source) = opened at *
    obtain ⟨k', result⟩ := opened
    cases result with
    | error e => exact iff_of_true ⟨rfl, hopen.ram_eq⟩ ⟨hne, fun h => by cases h⟩
    | ok src =>
      have hcwd : k'.cwd = k.cwd := hopen.cwd
      have hdest' : Under k'.mounts (resolvePath k.cwd dest) := hopen.mounts ▸ hdest
      have hroot' : RootMount k'.mounts := hopen.mounts ▸ hroot
      obtain ⟨hcreate, hdst⟩ := after_pathOpen env
        (.create (resolvePath k.cwd dest)) hroot' hdest' Iff.rfl
      simp only [andThen_ok, hcwd]
      rcases create_cases env hroot' hdest' with ⟨hne', heq'⟩ | ⟨hnone', hused'⟩
      · refine iff_of_true ⟨by rw [heq'], ?_⟩ ⟨hne, fun _ => hne'⟩
        rw [heq']
        have hcopy : After False k' (Kernel.andThen (k'.vfsCreate env (resolvePath k.cwd dest))
            fun k dst => copyLoop env src dst polls k 0).1 := by
          refine hcreate.andThen fun dst hok => (after_copyLoop _ _ _ _).mono fun hor => ?_
          exact hor.elim (fun hn => hn (hcreate.handles id src (hsrc src rfl)))
            fun hn => hn (hdst dst hok)
        exact (hopen.trans hcopy).ram_eq
      · refine iff_of_false (fun h => Used.ne ?_ h.2) fun h => h.2 rfl hnone'
        exact hopen.used (hused'.andThen fun _ _ => (after_copyLoop _ _ _ _).ram.grows)
  · refine iff_of_false (fun h => Used.ne ?_ h.2) fun h => h.1 hnone
    refine hused.andThen fun k' src => ?_
    exact grows_create.trans (grows_andThen fun _ _ => (after_copyLoop _ _ _ _).ram.grows)

variable (env data) in
theorem created_cases (hunder : Under k.mounts path) :
    let created := orRam (k.vfsCreate env path) fun k => k.ramRecreate path
    (k.vfsCreate env path).2 ≠ .error .notFound ∧ created = k.vfsCreate env path ∧
        After False k (Kernel.andThen created fun k file => k.writeFileHandle env file data).1 ∨
      (k.vfsCreate env path).2 = .error .notFound ∧
        Used k (Kernel.andThen created fun k file => k.writeFileHandle env file data).1 := by
  intro created
  obtain ⟨hcreate, hnew⟩ := after_pathOpen env (.create path) hroot hunder Iff.rfl
  rcases create_cases env hroot hunder with ⟨hne, heq⟩ | ⟨hnone, hused⟩
  · refine .inl ⟨hne, heq, ?_⟩
    rw [show created = k.vfsCreate env path from heq]
    exact hcreate.andThen fun file hok =>
      (after_writeFileHandle _ _ data).mono fun hn => hn (hnew file hok)
  · exact .inr ⟨hnone, hused.andThen fun _ _ => (after_writeFileHandle _ _ data).ram.grows⟩

theorem served_writeFile (hunder : Under k.mounts (resolvePath k.cwd name)) :
    Served env k (.writeFile name data) ↔ Answers env k (.writeFile name data) := by
  have hremove : After False k (k.vfsRemove env (resolvePath k.cwd name)).1 :=
    after_path _ (.remove (resolvePath k.cwd name)) hroot hunder Iff.rfl
  unfold Served Answers
  simp only [exec, direct, writeFile]
  generalize k.vfsRemove env (resolvePath k.cwd name) = removed at *
  obtain ⟨k', result⟩ := removed
  have hunder' : Under k'.mounts (resolvePath k.cwd name) := hremove.mounts ▸ hunder
  have hroot' : RootMount k'.mounts := hremove.mounts ▸ hroot
  have hgo : (Kernel.andThen (orRam (k'.vfsCreate env (resolvePath k.cwd name))
          fun k' => k'.ramRecreate (resolvePath k.cwd name)) (fun k' file =>
            k'.writeFileHandle env file data) =
        Kernel.andThen (k'.vfsCreate env (resolvePath k.cwd name)) (fun k' file =>
          k'.writeFileHandle env file data) ∧
      (Kernel.andThen (orRam (k'.vfsCreate env (resolvePath k.cwd name))
          fun k' => k'.ramRecreate (resolvePath k.cwd name)) fun k' file =>
            k'.writeFileHandle env file data).1.ram = k.ram) ↔
      (k'.vfsCreate env (resolvePath k.cwd name)).2 ≠ .error .notFound := by
    rcases created_cases env data hroot' hunder' with
      ⟨hne, heq, hafter⟩ | ⟨hnone, hused⟩
    · exact iff_of_true ⟨by rw [heq], (hremove.trans hafter).ram_eq⟩ hne
    · exact iff_of_false (fun h => (hremove.used hused).ne h.2) (not_not.mpr hnone)
  cases result with
  | ok reply => exact hgo.trans ⟨fun h _ => h, fun h => h (.inl rfl)⟩
  | error e =>
    by_cases hnone : e = .notFound
    · subst hnone
      exact hgo.trans ⟨fun h _ => h, fun h => h (.inr rfl)⟩
    · refine iff_of_true ?_ ?_
      · cases e <;> first | exact absurd rfl hnone | exact ⟨rfl, hremove.ram_eq⟩
      · rintro (h | h)
        · cases h
        · exact absurd (Except.error.inj h) hnone

variable (env) in
theorem removeAsDir_cases (hunder : Under k.mounts path) :
    After False k (k.vfsRmdir env path).1 ∧
    (((k.vfsRmdir env path).2 ≠ .error .notFound ∧ (k.vfsRmdir env path).2 ≠ .error .notADirectory) ∧
        k.removeAsDir env path = k.vfsRmdir env path ∨
      ¬((k.vfsRmdir env path).2 ≠ .error .notFound ∧
          (k.vfsRmdir env path).2 ≠ .error .notADirectory) ∧
        Used k (k.removeAsDir env path).1) := by
  have hrmdir : After False k (k.vfsRmdir env path).1 :=
    after_path _ (.rmdir path) hroot hunder Iff.rfl
  refine ⟨hrmdir, ?_⟩
  unfold removeAsDir
  generalize k.vfsRmdir env path = tried at *
  obtain ⟨k', result⟩ := tried
  have hused := hrmdir.used (@used_ramRemoveEntry _ _ _ path)
  cases result with
  | ok reply => exact .inl ⟨by simp, rfl⟩
  | error e =>
    cases e with
    | notFound => exact .inr ⟨by simp, hused⟩
    | notADirectory => exact .inr ⟨by simp, hused⟩
    | _ => exact .inl ⟨by simp, rfl⟩

theorem served_removeEntry (hunder : Under k.mounts (resolvePath k.cwd name)) :
    Served env k (.removeEntry name) ↔ Answers env k (.removeEntry name) := by
  have hremove : After False k (k.vfsRemove env (resolvePath k.cwd name)).1 :=
    after_path _ (.remove (resolvePath k.cwd name)) hroot hunder Iff.rfl
  unfold Served Answers
  simp only [exec, direct, removeEntry]
  generalize k.vfsRemove env (resolvePath k.cwd name) = removed at *
  obtain ⟨k', result⟩ := removed
  obtain ⟨hrmdir, hcases⟩ := removeAsDir_cases env (hremove.mounts ▸ hroot) (hremove.mounts ▸ hunder)
  have hsecond : (k'.removeAsDir env (resolvePath k.cwd name) =
        k'.vfsRmdir env (resolvePath k.cwd name) ∧
      (k'.removeAsDir env (resolvePath k.cwd name)).1.ram = k.ram) ↔
      (k'.vfsRmdir env (resolvePath k.cwd name)).2 ≠ .error .notFound ∧
        (k'.vfsRmdir env (resolvePath k.cwd name)).2 ≠ .error .notADirectory := by
    rcases hcases with ⟨hdecided, heq⟩ | ⟨hnone, hused⟩
    · refine iff_of_true ⟨heq, ?_⟩ hdecided
      rw [heq]
      exact (hremove.trans hrmdir).ram_eq
    · exact iff_of_false (fun h => (hremove.used hused).ne h.2) hnone
  cases result with
  | ok reply => exact iff_of_true ⟨rfl, hremove.ram_eq⟩ fun h => by simp at h
  | error e =>
    cases e with
    | notFound => exact hsecond.trans ⟨fun h _ => h, fun h => h (.inl rfl)⟩
    | isADirectory => exact hsecond.trans ⟨fun h _ => h, fun h => h (.inr rfl)⟩
    | _ => exact iff_of_true ⟨rfl, hremove.ram_eq⟩ fun h => by simp at h

end Served

/-- Under mount points a call gives the mounted file systems' result and does not touch the
root file system exactly when they do not answer that there is nothing. -/
theorem served_iff_answers (env : Env D σ) (k : Kernel D σ) (call : PathCall)
    (hroot : RootMount k.mounts)
    (hunder : ∀ name ∈ names call, Under k.mounts (resolvePath k.cwd name)) :
    Served env k call ↔ Answers env k call := by
  cases call with
  | listDir path => exact served_listDir hroot (hunder path (by simp [names]))
  | createFile name => exact served_createFile hroot (hunder name (by simp [names]))
  | openFile name => exact served_openFile hroot (hunder name (by simp [names]))
  | readFile name => exact served_readFile hroot (hunder name (by simp [names]))
  | copyFile polls source dest =>
    exact served_copyFile hroot polls (hunder source (by simp [names]))
      (hunder dest (by simp [names]))
  | writeFile name data => exact served_writeFile hroot (hunder name (by simp [names]))
  | createDir name => exact served_createDir hroot (hunder name (by simp [names]))
  | removeDir name => exact served_removeDir hroot (hunder name (by simp [names]))
  | removeEntry name => exact served_removeEntry hroot (hunder name (by simp [names]))

end Kernel

/-- A second file system in memory on `/mnt`, with nothing on it, and in the root file
system a file `/mnt/x` from the time before. -/
def shadowedMount : Kernel ramDriver Unit where
  mounts := [⟨['/'], .other (.inl ()), false, 0⟩, ⟨"/mnt".toList, .other (.inr ()), false, 1⟩]
  handles := []
  ram := ⟨⟨[.newDir ['/'], .newDir "/mnt".toList, { RamFsEntry.newFile "/mnt/x".toList with
    data := [1] }], true⟩, 0⟩
  heap := ⟨RamFs.new.mount, 0⟩
  disks := fun _ => ()
  ticks := 0
  cwd := ['/']

def noDisks : Env ramDriver Unit :=
  ⟨⟨fun _ _ => (none, ()), fun _ _ _ => (false, ())⟩, fun _ => ⟨0, 0⟩, fun ram f => f.size ram.fs⟩

theorem shadowedMount_root : Kernel.RootMount shadowedMount.mounts := by
  intro mp hmp
  rcases List.mem_cons.mp hmp with rfl | hmp
  · exact ⟨by simp, fun _ => rfl⟩
  · rw [List.mem_singleton.mp hmp]
    exact ⟨by simp, False.elim⟩

/-- Reading `/mnt/x` gives the file behind the mount. -/
theorem shadowed_readFile :
    (shadowedMount.exec noDisks (.readFile "/mnt/x".toList)).2 = .ok (.bytes [1]) ∧
      (shadowedMount.direct noDisks (.readFile "/mnt/x".toList)).2 = .error .notFound ∧
      ¬Kernel.Served noDisks shadowedMount (.readFile "/mnt/x".toList) := by
  refine ⟨by rfl, by rfl, fun h => ?_⟩
  have huses : (shadowedMount.exec noDisks (.readFile "/mnt/x".toList)).1.ram.uses ≠
      shadowedMount.ram.uses := by decide
  exact huses (congrArg RootRam.uses h.2)

/-- Creating a directory on the mount stays there. -/
theorem served_createDir_mnt :
    Kernel.Served noDisks shadowedMount (.createDir "/mnt/y".toList) := by
  refine (Kernel.served_iff_answers noDisks shadowedMount (.createDir "/mnt/y".toList)
    shadowedMount_root fun name hname => ?_).mpr ?_
  · rw [List.mem_singleton.mp hname]
    exact ⟨_, List.mem_cons_of_mem _ List.mem_cons_self, by decide, by decide⟩
  · change (Except.ok Reply.done : Except FsError Reply) ≠ .error .notFound
    simp

end Vibra.Vfs
