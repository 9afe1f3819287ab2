import Vibra.Fat32.Creation
import Vibra.Vfs.Legacy
import Vibra.Vfs.MountResolution
import Vibra.Vfs.RamFsData
import Vibra.Vfs.ReadOnlyMount

/-! # What paths hold

FAT32 volumes, the root file system and other file systems in memory, on disks that answer
every request. What a request does is told by the bytes that paths lead to.
-/

namespace Vibra.Vfs

open Lib (Memory Prog)
open Lib.Prog (Responder wp)
open Fat32 (Name Sector Io FsError Fat32Fs Fat32File disk openResult)

/-- Mounted file systems in memory. Each shares its entries with its open files. -/
def ramsDriver : Driver where
  Heap := Nat → RamFs
  Fs := Nat
  File := Nat × RamFsFile
  openFile rams i path := .pure (rams, ((rams i).openFile path).map (i, ·))
  create rams i path :=
    let after := (rams i).create path
    .pure (Function.update rams i after.1, after.2.map (i, ·))
  remove rams i path :=
    let after := (rams i).remove path
    .pure (Function.update rams i after.1, after.2)
  mkdir rams i path :=
    let after := (rams i).mkdir path
    .pure (Function.update rams i after.1, after.2)
  rmdir rams i path :=
    let after := (rams i).rmdir path
    .pure (Function.update rams i after.1, after.2)
  readdir rams i path := .pure (rams, (rams i).readdir path)
  stat rams i path := .pure (rams, (rams i).stat path)
  sync rams _ _ := .pure (rams, .ok ())
  read rams f len :=
    let after := f.2.read (rams f.1) len
    .pure (rams, (f.1, after.1), after.2)
  write rams f buf :=
    let after := f.2.write (rams f.1) buf
    .pure (Function.update rams f.1 after.1, (f.1, after.2.1), after.2.2)
  seek rams f pos :=
    let after := f.2.seek (rams f.1) pos
    .pure (rams, (f.1, after.1), after.2)

/-- A file system in memory. -/
inductive RamRef where
  | root
  | mounted (i : Nat)
deriving DecidableEq

variable {E : Driver}

def MountedFs.ofRam : RamRef → MountedFs (withRam (ramsDriver.sum E))
  | .root => .other (.inl ())
  | .mounted i => .other (.inr (.inl i))

def VfsFile.ofRam : RamRef → RamFsFile → VfsFile (withRam (ramsDriver.sum E))
  | .root, f => .other (.inl f)
  | .mounted i, f => .other (.inr (.inl (i, f)))

def ramAt (heap : (withRam (ramsDriver.sum E)).Heap) : RamRef → RamFs
  | .root => heap.1.fs
  | .mounted i => heap.2.1 i

structure SameRams (heap heap' : (withRam (ramsDriver.sum E)).Heap) : Prop where
  root : heap'.1.fs = heap.1.fs
  rams : heap'.2.1 = heap.2.1

theorem openFile_ofRam (heap : (withRam (ramsDriver.sum E)).Heap) (r : RamRef) (path : Name) :
    ∃ heap', (MountedFs.ofRam r).openFile heap path =
      pure (heap', ((ramAt heap r).openFile path).map (.ofRam r)) ∧ SameRams heap heap' := by
  cases r with
  | root =>
    refine ⟨(heap.1.look, heap.2), ?_, rfl, rfl⟩
    have hmap (x : Except FsError RamFsFile) :
        x.map (VfsFile.ofRam (E := E) .root) = (x.map .inl).map .other := by cases x <;> rfl
    rw [hmap]
    rfl
  | mounted i =>
    refine ⟨heap, ?_, rfl, rfl⟩
    have hmap (x : Except FsError RamFsFile) : x.map (VfsFile.ofRam (E := E) (.mounted i)) =
        ((((x.map (i, ·)).map .inl).map .inr).map .other) := by cases x <;> rfl
    rw [hmap]
    rfl

def MountedFs.Plain (fs : MountedFs (withRam (ramsDriver.sum E))) : Prop :=
  (∃ fat, fs = .fat32 fat) ∨ ∃ r, fs = .ofRam r

def answering : Responder Memory Sector where
  read m sector := (some (disk.read m sector), m)
  write m sector block := (true, disk.write m sector block)

theorem answer_answering {α : Type} (p : Io α) (m : Memory) :
    p.answer answering m = p.run disk m := by
  induction p generalizing m with
  | pure a => rfl
  | fail e => rfl
  | read s next ih => exact ih _ m
  | write s b t next ih => exact ih true _

theorem read_eq (f : Fat32File) (len : Nat) :
    f.read len =
      ({ f with position := f.position + ((f.data.drop f.position).take len).length },
        (f.data.drop f.position).take len) := by
  rw [Fat32File.read]
  by_cases hend : f.data.length ≤ f.position
  · rw [if_pos hend, List.drop_eq_nil_of_le hend, List.take_nil]
    rfl
  · have htake : (f.data.drop f.position).take (min len (f.data.length - f.position)) =
        (f.data.drop f.position).take len := by
      rw [← List.length_drop]
      exact List.take_eq_take_min.symm
    rw [if_neg hend]
    dsimp only
    rw [List.length_take, List.length_drop, htake]

theorem openResult_position {fs : Fat32Fs} {m : Memory} {path : Name} {f : Fat32File}
    (h : openResult fs m path = .ok f) : f.position = 0 := by
  rw [openResult] at h
  split at h
  · cases h
  · cases h
  · split at h
    · cases h
    · split at h
      · cases h
      · rw [← Except.ok.inj h]
        rfl

namespace Kernel

/-- The kernel with other file systems `E` beside FAT32 and those in memory. -/
abbrev Plain (E : Driver) := Kernel (ramsDriver.sum E) Memory

variable (env : Env (ramsDriver.sum E) Memory) (k : Plain E)

def ramFs : RamRef → RamFs
  | .root => k.ram.fs
  | .mounted i => k.heap.1 i

/-- The bytes of a file of a mount. -/
def mountData (mount : MountPoint (withRam (ramsDriver.sum E))) (target : Name) :
    Except FsError (List UInt8) :=
  match mount.fs with
  | .fat32 fs => Fat32.readFile fs (k.disks mount.device) target
  | .other (.inl _) => (k.ramFs .root).readData target
  | .other (.inr (.inl i)) => (k.ramFs (.mounted i)).readData target
  | .other (.inr (.inr _)) => .error .notSupported

/-- What the mounts do not have is taken from the root file system. -/
def orRoot {α : Type} (found root : Except FsError α) : Except FsError α :=
  match found with
  | .error .notFound => root
  | found => found

/-- The bytes that the mounts have under a path. -/
def mountsData (path : Name) : Except FsError (List UInt8) :=
  match resolveFs k.mounts path with
  | .ok (_, mount, target) => k.mountData mount target
  | .error e => .error e

/-- The bytes of the file that a path leads to, as `open_file` finds it. -/
def content (path : Name) : Except FsError (List UInt8) :=
  orRoot (k.mountsData path) (k.ram.fs.readData path)

theorem mountData_ofRam {mount : MountPoint (withRam (ramsDriver.sum E))} {r : RamRef}
    (h : mount.fs = .ofRam r) (target : Name) :
    k.mountData mount target = (k.ramFs r).readData target := by
  rw [mountData, h]
  cases r <;> rfl

theorem mountData_fat {mount : MountPoint (withRam (ramsDriver.sum E))} {fs : Fat32Fs}
    (h : mount.fs = .fat32 fs) (target : Name) :
    k.mountData mount target = Fat32.readFile fs (k.disks mount.device) target := by
  rw [mountData, h]

variable {env k}

/-- The state behind a call that leaves a heap, handles and a disk. -/
def left (k : Plain E) (device : Nat) (heap : (withRam (ramsDriver.sum E)).Heap)
    (handles : List (Nat × VfsFile (withRam (ramsDriver.sum E)))) (m : Memory) : Plain E :=
  { k with
    handles
    ram := heap.1
    heap := heap.2
    disks := Function.update k.disks device m
    ticks := k.ticks + 1 }

theorem call_of_wp (hdev : env.dev = answering) {op : Op}
    {Q : World.After (withRam (ramsDriver.sum E)) → Memory → Prop}
    (h : wp disk (fun _ _ => True) Q (fun _ _ => False) (k.world.prog (env.clock k.ticks) op)
      (k.disks (k.world.device op))) :
    ∃ heap handles result m, Q (heap, handles, result) m ∧
      k.call env op = (k.left (k.world.device op) heap handles m, result) := by
  have hrun := Prog.wp_run h
  rw [call, hdev, answer_answering]
  revert hrun
  rcases (k.world.prog (env.clock k.ticks) op).run disk (k.disks (k.world.device op)) with
    ⟨_ | ⟨heap, handles, result⟩, m⟩
  · exact False.elim
  · exact fun hQ => ⟨heap, handles, result, m, hQ, rfl⟩

theorem call_of_pure (hdev : env.dev = answering) {op : Op}
    {r : World.After (withRam (ramsDriver.sum E))}
    (h : k.world.prog (env.clock k.ticks) op = pure r) :
    k.call env op = (k.left (k.world.device op) r.1 r.2.1 (k.disks (k.world.device op)), r.2.2) := by
  rw [call, hdev, answer_answering, h]
  rfl

/-- What a step of the kernel leaves alone: all disks and all file systems in memory but one. -/
inductive Store where
  | disk (device : Nat)
  | ram (r : RamRef)

structure Effect (s : Option Store) (k k' : Plain E) : Prop where
  mounts : k'.mounts = k.mounts
  cwd : k'.cwd = k.cwd
  disks : ∀ d, s ≠ some (.disk d) → k'.disks d = k.disks d
  rams : ∀ r, s ≠ some (.ram r) → k'.ramFs r = k.ramFs r

theorem Effect.refl {s : Option Store} : Effect s k k := ⟨rfl, rfl, fun _ _ => rfl, fun _ _ => rfl⟩

theorem Effect.trans {s : Option Store} {k' k'' : Plain E} (h : Effect s k k')
    (h' : Effect s k' k'') : Effect s k k'' where
  mounts := h'.mounts.trans h.mounts
  cwd := h'.cwd.trans h.cwd
  disks d hd := (h'.disks d hd).trans (h.disks d hd)
  rams r hr := (h'.rams r hr).trans (h.rams r hr)

theorem effect_left {s : Option Store} {device : Nat} {heap : (withRam (ramsDriver.sum E)).Heap}
    {handles : List (Nat × VfsFile (withRam (ramsDriver.sum E)))} {m : Memory}
    (hm : s ≠ some (.disk device) → m = k.disks device)
    (hroot : s ≠ some (.ram .root) → heap.1.fs = k.ram.fs)
    (hrams : ∀ i, s ≠ some (.ram (.mounted i)) → heap.2.1 i = k.heap.1 i) :
    Effect s k (k.left device heap handles m) where
  mounts := rfl
  cwd := rfl
  disks d hd := by
    show Function.update k.disks device m d = k.disks d
    by_cases hdev : d = device
    · subst hdev
      rw [Function.update_self]
      exact hm hd
    · exact Function.update_of_ne hdev _ _
  rams r hr := by
    cases r with
    | root => exact hroot hr
    | mounted i => exact hrams i hr

/-- The normalized paths under which a path can lead to a file in memory. -/
inductive RamPlace (k : Plain E) (path : Name) : RamRef → Name → Prop
  | mounted {idx : Nat} {mount : MountPoint (withRam (ramsDriver.sum E))} {target : Name}
      {r : RamRef} (hres : resolveFs k.mounts path = .ok (idx, mount, target))
      (hfs : mount.fs = .ofRam r) : RamPlace k path r (RamFs.normalizePath target)
  | root : RamPlace k path .root (RamFs.normalizePath path)

/-- A step leaves the bytes under the path and at all places that it can lead to. -/
structure Spares (path : Name) (k k' : Plain E) : Prop where
  mounts : k'.mounts = k.mounts
  cwd : k'.cwd = k.cwd
  fat : ∀ idx mount target fs, resolveFs k.mounts path = .ok (idx, mount, target) →
    mount.fs = .fat32 fs →
    Fat32.readFile fs (k'.disks mount.device) target =
      Fat32.readFile fs (k.disks mount.device) target
  ram : ∀ r key, RamPlace k path r key → (k'.ramFs r).dataAt key = (k.ramFs r).dataAt key

variable {path target : Name} {file : VfsFile (withRam (ramsDriver.sum E))} {c : List UInt8}
  {t handle idx : Nat} {mount : MountPoint (withRam (ramsDriver.sum E))} {k' : Plain E}

theorem RamPlace.congr {r : RamRef} {key : Name} (h : RamPlace k path r key)
    (hmounts : k'.mounts = k.mounts) : RamPlace k' path r key := by
  cases h with
  | mounted hres hfs => exact .mounted (hmounts ▸ hres) hfs
  | root => exact .root

theorem Effect.spares (h : Effect none k k') : Spares path k k' where
  mounts := h.mounts
  cwd := h.cwd
  fat _ _ _ _ _ _ := by rw [h.disks _ nofun]
  ram r _ _ := by rw [h.rams r nofun]

theorem Spares.trans {k'' : Plain E} (h : Spares path k k') (h' : Spares path k' k'') :
    Spares path k k'' where
  mounts := h'.mounts.trans h.mounts
  cwd := h'.cwd.trans h.cwd
  fat idx mount target fs hres hfs :=
    (h'.fat idx mount target fs (h.mounts ▸ hres) hfs).trans (h.fat idx mount target fs hres hfs)
  ram r key hplace := (h'.ram r key (hplace.congr h.mounts)).trans (h.ram r key hplace)

theorem readData_congr {fs fs' : RamFs}
    (h : fs'.dataAt (RamFs.normalizePath path) = fs.dataAt (RamFs.normalizePath path)) :
    fs'.readData path = fs.readData path := by
  rw [RamFs.readData_eq, RamFs.readData_eq, h]

theorem mountsData_congr (hmounts : k'.mounts = k.mounts)
    (hfat : ∀ idx mount target fs, resolveFs k.mounts path = .ok (idx, mount, target) →
      mount.fs = .fat32 fs → Fat32.readFile fs (k'.disks mount.device) target =
        Fat32.readFile fs (k.disks mount.device) target)
    (hram : ∀ idx mount target r, resolveFs k.mounts path = .ok (idx, mount, target) →
      mount.fs = .ofRam r → (k'.ramFs r).dataAt (RamFs.normalizePath target) =
        (k.ramFs r).dataAt (RamFs.normalizePath target)) :
    k'.mountsData path = k.mountsData path := by
  rw [mountsData, mountsData, hmounts]
  cases hres : resolveFs k.mounts path with
  | error e => rfl
  | ok found =>
    rcases found with ⟨idx, mount, target⟩
    have hdata : ∀ r, mount.fs = .ofRam r →
        k'.mountData mount target = k.mountData mount target := by
      intro r hfs
      rw [k'.mountData_ofRam hfs, k.mountData_ofRam hfs]
      exact readData_congr (hram idx mount target r hres hfs)
    dsimp only
    rcases hfs : mount.fs with fs | (_ | i | e)
    · rw [k'.mountData_fat hfs, k.mountData_fat hfs, hfat idx mount target fs hres hfs]
    · exact hdata .root hfs
    · exact hdata (.mounted i) hfs
    · rw [mountData, mountData, hfs]

theorem Spares.content_eq (h : Spares path k k') : k'.content path = k.content path := by
  have hmounted : k'.mountsData path = k.mountsData path :=
    mountsData_congr h.mounts h.fat fun _ _ _ r hres hfs => h.ram r _ (.mounted hres hfs)
  rw [content, content, hmounted]
  congr 1
  exact readData_congr (h.ram .root _ .root)

/-- The handle of the path reads these bytes and stands at the position. -/
inductive Reads (k : Plain E) (path : Name) :
    VfsFile (withRam (ramsDriver.sum E)) → List UInt8 → Nat → Prop
  | fat (f : Fat32File) : Reads k path (.fat32 f) f.data f.position
  | ram {r : RamRef} {f : RamFsFile} {data : List UInt8} (hplace : RamPlace k path r f.path)
      (hdata : (k.ramFs r).dataAt f.path = some data) : Reads k path (.ofRam r f) data f.position
  | readOnly {inner : VfsFile (withRam (ramsDriver.sum E))} {c : List UInt8} {t : Nat}
      (h : Reads k path inner c t) : Reads k path (.readOnly inner) c t

theorem Reads.spared (h : Reads k path file c t) (hs : Spares path k k') :
    Reads k' path file c t := by
  induction h with
  | fat f => exact .fat f
  | ram hplace hfile => exact .ram (hplace.congr hs.mounts) ((hs.ram _ _ hplace).trans hfile)
  | readOnly _ ih => exact .readOnly ih

theorem wp_read (h : Reads k path file c t) (len : Nat) (m : Memory) :
    wp disk (fun _ _ => True)
      (fun r m' => m' = m ∧ r.1.1.fs = k.ram.fs ∧ r.1.2 = k.heap ∧
        r.2.2 = .ok ((c.drop t).take len) ∧
        Reads k path r.2.1 c (t + ((c.drop t).take len).length))
      (fun _ _ => False) (file.read (k.ram, k.heap) len) m := by
  induction h with
  | fat f =>
    have hread := read_eq f len
    refine ⟨rfl, rfl, rfl, ?_, ?_⟩
    · show Except.ok (f.read len).2 = _
      rw [hread]
    · show Reads k path (.fat32 (f.read len).1) _ _
      rw [hread]
      exact .fat _
  | @ram r f data hplace hdata =>
    have hread := RamFsFile.read_of_dataAt hdata len
    have hafter := Reads.ram (f := ⟨f.path, f.position + ((data.drop f.position).take len).length,
      f.writable⟩) hplace hdata
    cases r with
    | root => exact ⟨rfl, rfl, rfl, congrArg Prod.snd hread, congrArg Prod.fst hread ▸ hafter⟩
    | mounted i => exact ⟨rfl, rfl, rfl, congrArg Prod.snd hread, congrArg Prod.fst hread ▸ hafter⟩
  | readOnly h ih =>
    change wp disk _ _ _ (VfsFile.read _ len _ >>= _) m
    rw [Prog.wp_bind]
    apply Prog.wp_post ih
    · intro r m' hr
      exact ⟨hr.1, hr.2.1, hr.2.2.1, hr.2.2.2.1, .readOnly hr.2.2.2.2⟩
    · exact fun _ _ he => he

theorem readFileHandle_spec (hdev : env.dev = answering) (hget : k.handles[handle]? = some (idx, file))
    (h : Reads k path file c t) (len : Nat) :
    ∃ k' file', k.readFileHandle env handle len = (k', .ok ((c.drop t).take len)) ∧
      Effect none k k' ∧ k'.handles = k.handles.set handle (idx, file') ∧
      Reads k' path file' c (t + ((c.drop t).take len).length) := by
  have hwp : wp disk (fun _ _ => True)
      (fun r m => m = k.disks (k.world.device (.read handle len)) ∧ r.1.1.fs = k.ram.fs ∧
        r.1.2 = k.heap ∧ r.2.2 = .ok (.bytes ((c.drop t).take len)) ∧
        ∃ file', r.2.1 = k.handles.set handle (idx, file') ∧
          Reads k path file' c (t + ((c.drop t).take len).length))
      (fun _ _ => False) (k.world.prog (env.clock k.ticks) (.read handle len))
      (k.disks (k.world.device (.read handle len))) := by
    have hget' : k.world.handles[handle]? = some (idx, file) := hget
    rw [World.prog, World.onHandle, hget']
    dsimp only
    rw [World.finishFile, Prog.wp_bind]
    apply Prog.wp_post (wp_read h len _)
    · rintro ⟨heap, file', result⟩ m ⟨hm, hroot, hheap, hresult, hreads⟩
      exact ⟨hm, hroot, hheap, congrArg (Except.map Reply.bytes) hresult, file', rfl, hreads⟩
    · exact fun _ _ he => he
  rcases call_of_wp hdev hwp with ⟨heap, handles, result, m, ⟨hm, hroot, hheap, hresult, hafter⟩, hcall⟩
  rcases hafter with ⟨file', hhandles, hreads⟩
  dsimp only at hm hroot hheap hresult hhandles
  subst hm hresult hhandles
  have heffect : Effect none k (k.left (k.world.device (.read handle len)) heap
      (k.handles.set handle (idx, file')) (k.disks (k.world.device (.read handle len)))) :=
    effect_left (fun _ => rfl) (fun _ => hroot) fun i _ => by rw [hheap]
  refine ⟨_, file', ?_, heffect, rfl, hreads.spared heffect.spares⟩
  rw [readFileHandle, hcall]
  rfl

/-! ## Opening -/

theorem device_of_resolves (hres : resolveFs k.mounts path = .ok (idx, mount, target)) :
    (((some idx).bind fun idx => k.mounts[idx]?).map MountPoint.device).getD 0 = mount.device := by
  rw [Option.bind_some, resolveFs_get hres]
  rfl

structure Opened (k : Plain E) (path : Name) (found : Except FsError (List UInt8)) (k' : Plain E)
    (result : Except FsError Nat) : Prop where
  effect : Effect none k k'
  failed : ∀ e, found = .error e → result = .error e ∧ k'.handles = k.handles
  opened : ∀ c, found = .ok c → ∃ idx file, result = .ok k.handles.length ∧
    k'.handles = k.handles ++ [(idx, file)] ∧ Reads k' path file c 0

structure OpensTo (k : Plain E) (path : Name) (found : Except FsError (List UInt8)) (m₀ : Memory)
    (r : World.After (withRam (ramsDriver.sum E))) (m : Memory) : Prop where
  disk : m = m₀
  root : r.1.1.fs = k.ram.fs
  rams : r.1.2.1 = k.heap.1
  failed : ∀ e, found = .error e → r.2.2 = .error e ∧ r.2.1 = k.handles
  opened : ∀ c, found = .ok c → ∃ idx file, r.2.2 = .ok .opened ∧
    r.2.1 = k.handles ++ [(idx, file)] ∧ Reads k path file c 0

theorem opened_of_wp (hdev : env.dev = answering) {op : Op} {found : Except FsError (List UInt8)}
    (h : wp disk (fun _ _ => True) (OpensTo k path found (k.disks (k.world.device op)))
      (fun _ _ => False) (k.world.prog (env.clock k.ticks) op) (k.disks (k.world.device op))) :
    Opened k path found (k.callOpen env op).1 (k.callOpen env op).2 := by
  rcases call_of_wp hdev h with ⟨heap, handles, result, m, hopens, hcall⟩
  have heffect : Effect none k (k.left (k.world.device op) heap handles m) :=
    effect_left (fun _ => hopens.disk) (fun _ => hopens.root) fun i _ => congrFun hopens.rams i
  rw [callOpen, hcall]
  refine ⟨heffect, fun e he => ?_, fun c hc => ?_⟩
  · rcases hopens.failed e he with ⟨hresult, hhandles⟩
    dsimp only at hresult hhandles
    subst hresult hhandles
    exact ⟨rfl, rfl⟩
  · rcases hopens.opened c hc with ⟨idx, file, hresult, hhandles, hreads⟩
    dsimp only at hresult hhandles
    subst hresult hhandles
    exact ⟨idx, file, rfl, rfl, hreads.spared heffect.spares⟩

theorem Reads.wrap (h : Reads k path file c t) : Reads k path (wrapFile mount file) c t := by
  rw [wrapFile]
  split
  · exact .readOnly h
  · exact h

theorem vfsOpen_spec (hdev : env.dev = answering)
    (hres : resolveFs k.mounts path = .ok (idx, mount, target)) (hplain : mount.fs.Plain)
    (hgeo : ∀ fs, mount.fs = .fat32 fs → fs.geo.Valid) :
    Opened k path (k.mountData mount target) (k.vfsOpen env path).1 (k.vfsOpen env path).2 := by
  have hres' : resolveFs k.world.mounts path = .ok (idx, mount, target) := hres
  have hdevice : k.world.device (.openFile path) = mount.device := by
    rw [World.device, World.target, hres']
    exact device_of_resolves hres
  apply opened_of_wp hdev
  rw [hdevice, World.prog, World.onPath, hres']
  dsimp only
  rw [World.finishOpen, Prog.wp_bind, Prog.wp_bind]
  rcases hplain with ⟨fs, hfs⟩ | ⟨r, hfs⟩
  · rw [k.mountData_fat hfs, hfs, MountedFs.openFile.eq_def, Fat32.readFile_run (hgeo fs hfs)]
    dsimp only
    rw [fatAnswer, Prog.wp_bind, Prog.wp_attempt, Prog.wp_bind]
    have hrun := Fat32.openFile_run (m := k.disks mount.device) (hgeo fs hfs) target
    apply (Fat32Fs.readOnly_openFile target).wp
    · intro f hf
      rw [hrun] at hf
      rw [(Prod.mk.inj hf).1]
      have hreads : Reads k path (wrapFile mount (.fat32 f)) f.data 0 := by
        have hstart := openResult_position (Prod.mk.inj hf).1
        rw [← hstart]
        exact (Reads.fat f).wrap
      exact ⟨rfl, rfl, rfl, fun _ he => (by cases he), fun c hc => ⟨idx, _, rfl, rfl, Except.ok.inj hc ▸ hreads⟩⟩
    · intro e he
      rw [hrun] at he
      rw [(Prod.mk.inj he).1]
      exact ⟨rfl, rfl, rfl, fun e' he' => by cases he'; exact ⟨rfl, rfl⟩, fun _ hc => by cases hc⟩
  · rw [k.mountData_ofRam hfs, RamFs.readData_eq]
    have hplace := RamPlace.mounted hres hfs
    have hram : ramAt k.world.heap r = k.ramFs r := by cases r <;> rfl
    rcases openFile_ofRam k.world.heap r target with ⟨heap, hopen, hsame⟩
    rw [hfs, hopen, hram, RamFs.openFile_eq]
    cases hdata : (k.ramFs r).dataAt (RamFs.normalizePath target) with
    | none =>
      exact ⟨rfl, hsame.root, hsame.rams, fun e he => by cases he; exact ⟨rfl, rfl⟩,
        fun _ hc => by cases hc⟩
    | some data =>
      have hreads : Reads k path (wrapFile mount (.ofRam r ⟨RamFs.normalizePath target, 0, true⟩))
          data 0 :=
        (Reads.ram (f := ⟨RamFs.normalizePath target, 0, true⟩) hplace hdata).wrap
      refine ⟨rfl, hsame.root, hsame.rams, fun _ he => (by cases he), fun c hc => ?_⟩
      cases hc
      exact ⟨idx, _, rfl, rfl, hreads⟩

theorem resolveFs_error {D : Driver} {mounts : List (MountPoint D)} {e : FsError}
    (h : resolveFs mounts path = .error e) : e = .notFound := by
  unfold resolveFs at h
  split at h
  · exact (Except.error.inj h).symm
  · split at h
    · exact (Except.error.inj h).symm
    · cases h

theorem vfsOpen_missing (hdev : env.dev = answering) {e : FsError}
    (hres : resolveFs k.mounts path = .error e) :
    Opened k path (.error e) (k.vfsOpen env path).1 (k.vfsOpen env path).2 := by
  have hres' : resolveFs k.world.mounts path = .error e := hres
  apply opened_of_wp hdev
  rw [World.prog, World.onPath, hres']
  exact ⟨rfl, rfl, rfl, fun e he => by cases he; exact ⟨rfl, rfl⟩, nofun⟩

def PlainPath (k : Plain E) (path : Name) : Prop :=
  ∀ idx mount target, resolveFs k.mounts path = .ok (idx, mount, target) → mount.fs.Plain

theorem vfsOpen_opened (hdev : env.dev = answering) (hplain : PlainPath k path)
    (hgeo : ∀ mount ∈ k.mounts, ∀ fs, mount.fs = .fat32 fs → fs.geo.Valid) :
    Opened k path (k.mountsData path) (k.vfsOpen env path).1 (k.vfsOpen env path).2 := by
  cases hres : resolveFs k.mounts path with
  | error e =>
    rw [mountsData, hres]
    exact vfsOpen_missing hdev hres
  | ok found =>
    rcases found with ⟨idx, mount, target⟩
    rw [mountsData, hres]
    apply vfsOpen_spec hdev hres (hplain idx mount target hres)
    exact hgeo mount (List.mem_of_getElem? (resolveFs_get hres))

def withOpen (k : Plain E) (path : Name) : Plain E :=
  { k with
    ram := k.ram.look
    handles := k.handles ++
      [(k.mounts.length, .ofRam .root ⟨RamFs.normalizePath path, 0, true⟩)] }

theorem ramOpen_of_dataAt {data : List UInt8}
    (h : k.ram.fs.dataAt (RamFs.normalizePath path) = some data) :
    k.ramOpen (fun fs => (fs, fs.openFile path)) = (k.withOpen path, .ok k.handles.length) := by
  have hopen : k.ram.fs.openFile path = .ok ⟨RamFs.normalizePath path, 0, true⟩ := by
    rw [RamFs.openFile_eq, h]
  rw [ramOpen, ramCall, RootRam.update, hopen]
  rfl

theorem effect_withOpen (k : Plain E) (path : Name) : Effect none k (k.withOpen path) :=
  ⟨rfl, rfl, fun _ _ => rfl, fun r _ => by cases r <;> rfl⟩

theorem ramOpen_opened (k : Plain E) (path : Name) :
    Opened k path (k.ram.fs.readData path) (k.ramOpen fun fs => (fs, fs.openFile path)).1
      (k.ramOpen fun fs => (fs, fs.openFile path)).2 := by
  rw [RamFs.readData_eq]
  cases hdata : k.ram.fs.dataAt (RamFs.normalizePath path) with
  | none =>
    rw [ramOpen, ramCall, RootRam.update, RamFs.openFile_eq, hdata]
    refine ⟨⟨rfl, rfl, fun _ _ => rfl, fun r _ => ?_⟩, fun e he => ?_, nofun⟩
    · cases r <;> rfl
    · cases he
      exact ⟨rfl, rfl⟩
  | some data =>
    rw [ramOpen_of_dataAt hdata]
    refine ⟨effect_withOpen k path, nofun, fun c hc => ?_⟩
    cases hc
    exact ⟨_, _, rfl, rfl, .ram (r := .root) (f := ⟨RamFs.normalizePath path, 0, true⟩) .root hdata⟩

theorem openFile_spec (hdev : env.dev = answering) (name : Name)
    (hplain : PlainPath k (resolvePath k.cwd name))
    (hgeo : ∀ mount ∈ k.mounts, ∀ fs, mount.fs = .fat32 fs → fs.geo.Valid) :
    Opened k (resolvePath k.cwd name) (k.content (resolvePath k.cwd name))
      (k.openFile env name).1 (k.openFile env name).2 := by
  have hopen := vfsOpen_opened hdev hplain hgeo
  rw [openFile, orRam.eq_def, content]
  revert hopen
  rcases k.vfsOpen env (resolvePath k.cwd name) with ⟨k₁, result⟩
  intro hopen
  dsimp only at hopen ⊢
  cases hfound : k.mountsData (resolvePath k.cwd name) with
  | ok c =>
    rw [hfound] at hopen
    rcases hopen.opened c rfl with ⟨idx, file, rfl, -⟩
    exact hopen
  | error e =>
    rw [hfound] at hopen
    rcases hopen.failed e rfl with ⟨rfl, hhandles⟩
    by_cases he : e = .notFound
    · subst he
      have hroot := ramOpen_opened k₁ (resolvePath k.cwd name)
      have hfs : k₁.ram.fs = k.ram.fs := hopen.effect.rams .root nofun
      rw [hfs] at hroot
      refine ⟨hopen.effect.trans hroot.effect, fun e he => ?_, fun c hc => ?_⟩
      · rw [← hhandles]
        exact hroot.failed e he
      · rw [← hhandles]
        exact hroot.opened c hc
    · cases e <;> first | exact absurd rfl he | exact hopen

end Kernel

end Vibra.Vfs
