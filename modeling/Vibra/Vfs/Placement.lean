import Vibra.Vfs.Contents

/-! # New files

Where a path's new file goes, what its creation leaves, and what writing it from its start on
leaves. Both leave every path alone that does not come by the place.
-/

namespace Vibra.Vfs

open Lib (Memory Prog)
open Lib.Prog (wp)
open Fat32 (Name FsError Fat32Fs Fat32File DosTime Coherent Created Appended disk comesBy resolve
  dirSlotAt NamedTree)

variable {E : Driver}

theorem create_ofRam (heap : (withRam (ramsDriver.sum E)).Heap) (now : DosTime) (r : RamRef)
    (path : Name) :
    ∃ heap', (MountedFs.ofRam r).create heap now path =
        pure (heap', ((ramAt heap r).create path).2.map (.ofRam r)) ∧
      ramAt heap' r = ((ramAt heap r).create path).1 ∧
      ∀ r', r' ≠ r → ramAt heap' r' = ramAt heap r' := by
  cases r with
  | root =>
    refine ⟨((heap.1.update (heap.1.fs.create path)).1, heap.2), ?_, rfl, fun r' hr => ?_⟩
    · have hmap (x : Except FsError RamFsFile) :
          x.map (VfsFile.ofRam (E := E) .root) = (x.map .inl).map .other := by cases x <;> rfl
      rw [hmap]
      rfl
    · cases r' with
      | root => exact absurd rfl hr
      | mounted i => rfl
  | mounted i =>
    refine ⟨(heap.1, Function.update heap.2.1 i ((heap.2.1 i).create path).1, heap.2.2), ?_,
      Function.update_self _ _ _, fun r' hr => ?_⟩
    · have hmap (x : Except FsError RamFsFile) :
          x.map (VfsFile.ofRam (E := E) (.mounted i)) =
            ((((x.map (i, ·)).map .inl).map .inr).map .other) := by cases x <;> rfl
      rw [hmap]
      rfl
    · cases r' with
      | root => rfl
      | mounted j => exact Function.update_of_ne (fun heq => hr (congrArg _ heq)) _ _

theorem write_ofRam (heap : (withRam (ramsDriver.sum E)).Heap) (now : DosTime) (r : RamRef)
    (f : RamFsFile) (data : List UInt8) :
    ∃ heap', (VfsFile.ofRam r f).write heap now data =
        pure (heap', .ofRam r (f.write (ramAt heap r) data).2.1,
          (f.write (ramAt heap r) data).2.2) ∧
      ramAt heap' r = (f.write (ramAt heap r) data).1 ∧
      ∀ r', r' ≠ r → ramAt heap' r' = ramAt heap r' := by
  cases r with
  | root =>
    refine ⟨(⟨(f.write heap.1.fs data).1, heap.1.uses + 1⟩, heap.2), rfl, rfl, fun r' hr => ?_⟩
    cases r' with
    | root => exact absurd rfl hr
    | mounted i => rfl
  | mounted i =>
    refine ⟨(heap.1, Function.update heap.2.1 i (f.write (heap.2.1 i) data).1, heap.2.2), rfl,
      Function.update_self _ _ _, fun r' hr => ?_⟩
    cases r' with
    | root => rfl
    | mounted j => exact Function.update_of_ne (fun heq => hr (congrArg _ heq)) _ _

namespace Kernel

variable {env : Env (ramsDriver.sum E) Memory} {k k' k'' : Plain E} {path source target : Name}
  {S : Set Name}
  {idx device handle : Nat} {mount : MountPoint (withRam (ramsDriver.sum E))} {fs : Fat32Fs}
  {r : RamRef} {key : Name} {file : VfsFile (withRam (ramsDriver.sum E))} {d : List UInt8}

/-- The place of a file. -/
inductive Place where
  | fat (fs : Fat32Fs) (device : Nat) (target : Name)
  | ram (r : RamRef) (key : Name)

variable {p : Place}

/-- The path leads to the place, or its walk comes by there. -/
def ComesBy (k : Plain E) (path : Name) : Place → Prop
  | .fat fs device target => ∃ idx mount other fs',
      resolveFs k.mounts path = .ok (idx, mount, other) ∧ mount.fs = .fat32 fs' ∧
      mount.device = device ∧ comesBy fs.geo (k.disks device) target other = true
  | .ram r key => RamPlace k path r key

/-- The mounts have no directory for the path. -/
inductive NoPlace (k : Plain E) (path : Name) : Prop
  | unmounted {e : FsError} (hres : resolveFs k.mounts path = .error e)
  | fat {idx : Nat} {mount : MountPoint (withRam (ramsDriver.sum E))} {target : Name}
      {fs : Fat32Fs} (hres : resolveFs k.mounts path = .ok (idx, mount, target))
      (hfs : mount.fs = .fat32 fs) (hrw : mount.readonly = false)
      (hnone : Fat32.NoParent fs (k.disks mount.device) target)
  | ram {idx : Nat} {mount : MountPoint (withRam (ramsDriver.sum E))} {target : Name}
      {r : RamRef} (hres : resolveFs k.mounts path = .ok (idx, mount, target))
      (hfs : mount.fs = .ofRam r) (hrw : mount.readonly = false)
      (hnone : (k.ramFs r).NoParent (RamFs.normalizePath target))

/-- Where a new file of the path goes: into the mount that the path resolves to, and into the
root file system where the mounts have no place. -/
inductive Lands (k : Plain E) (path : Name) : Place → Prop
  | fat {idx : Nat} {mount : MountPoint (withRam (ramsDriver.sum E))} {target : Name}
      {fs : Fat32Fs} (hres : resolveFs k.mounts path = .ok (idx, mount, target))
      (hfs : mount.fs = .fat32 fs) (hrw : mount.readonly = false)
      (hable : Fat32.Creatable fs (k.disks mount.device) target) :
      Lands k path (.fat fs mount.device target)
  | ram {idx : Nat} {mount : MountPoint (withRam (ramsDriver.sum E))} {target : Name}
      {r : RamRef} (hres : resolveFs k.mounts path = .ok (idx, mount, target))
      (hfs : mount.fs = .ofRam r) (hrw : mount.readonly = false)
      (hable : (k.ramFs r).Creatable (RamFs.normalizePath target)) :
      Lands k path (.ram r (RamFs.normalizePath target))
  | root (hnone : NoPlace k path) : Lands k path (.ram .root (RamFs.normalizePath path))

inductive Leads (k : Plain E) (path : Name) : Place → Prop
  | fat {idx : Nat} {mount : MountPoint (withRam (ramsDriver.sum E))} {target : Name}
      {fs : Fat32Fs} (hres : resolveFs k.mounts path = .ok (idx, mount, target))
      (hfs : mount.fs = .fat32 fs) : Leads k path (.fat fs mount.device target)
  | ram {idx : Nat} {mount : MountPoint (withRam (ramsDriver.sum E))} {target : Name}
      {r : RamRef} (hres : resolveFs k.mounts path = .ok (idx, mount, target))
      (hfs : mount.fs = .ofRam r) : Leads k path (.ram r (RamFs.normalizePath target))
  | root (hnone : k.mountsData path = .error .notFound)
      (hother : ∀ idx mount target, resolveFs k.mounts path = .ok (idx, mount, target) →
        mount.fs = .ofRam .root → RamFs.normalizePath target ≠ RamFs.normalizePath path) :
      Leads k path (.ram .root (RamFs.normalizePath path))

/-- Nothing is changed outside the place and, on a volume, its disk. -/
structure Changes (p : Place) (k k' : Plain E) : Prop where
  mounts : k'.mounts = k.mounts
  cwd : k'.cwd = k.cwd
  disks : ∀ d, (∀ fs target, p ≠ .fat fs d target) → k'.disks d = k.disks d
  ram : ∀ r key, p ≠ .ram r key → (k'.ramFs r).dataAt key = (k.ramFs r).dataAt key

theorem Effect.changes (h : Effect none k k') : Changes p k k' :=
  ⟨h.mounts, h.cwd, fun d _ => h.disks d nofun, fun r _ _ => by rw [h.rams r nofun]⟩

theorem Changes.trans (h : Changes p k k') (h' : Changes p k' k'') : Changes p k k'' where
  mounts := h'.mounts.trans h.mounts
  cwd := h'.cwd.trans h.cwd
  disks d hd := (h'.disks d hd).trans (h.disks d hd)
  ram r key hr := (h'.ram r key hr).trans (h.ram r key hr)

theorem Changes.spares_ram (h : Changes (.ram r key) k k') (hother : ¬RamPlace k source r key) :
    Spares source k k' where
  mounts := h.mounts
  cwd := h.cwd
  fat _ mount _ _ _ _ := by rw [h.disks mount.device nofun]
  ram r' key' hplace := by
    apply h.ram r' key'
    rintro ⟨⟩
    exact hother hplace

theorem Changes.spares_fat (h : Changes (.fat fs device target) k k')
    (hread : ∀ idx mount fs' other, resolveFs k.mounts source = .ok (idx, mount, other) →
      mount.fs = .fat32 fs' → mount.device = device →
      Fat32.readFile fs' (k'.disks device) other = Fat32.readFile fs' (k.disks device) other) :
    Spares source k k' where
  mounts := h.mounts
  cwd := h.cwd
  fat idx mount other fs' hres hfs := by
    by_cases hdev : mount.device = device
    · have hsame := hread idx mount fs' other hres hfs hdev
      rw [← hdev] at hsame
      exact hsame
    · rw [h.disks mount.device]
      rintro _ _ ⟨⟩
      exact hdev rfl
  ram r key _ := h.ram r key nofun

/-- The volumes are well formed, and mounts of one disk agree on its geometry. -/
structure Healthy (k : Plain E) : Prop where
  sound : ∀ mount ∈ k.mounts, ∀ fs, mount.fs = .fat32 fs →
    fs.geo.Sound ∧ fs.geo.FsInfoReserved
  tree : ∀ mount ∈ k.mounts, ∀ fs, mount.fs = .fat32 fs →
    ∃ dirs chains, NamedTree fs.geo (k.disks mount.device) dirs chains
  shared : ∀ mount ∈ k.mounts, ∀ mount' ∈ k.mounts, ∀ fs fs', mount.fs = .fat32 fs →
    mount'.fs = .fat32 fs' → mount.device = mount'.device → fs.geo = fs'.geo

theorem mem_of_resolves (hres : resolveFs k.mounts path = .ok (idx, mount, target)) :
    mount ∈ k.mounts :=
  List.mem_of_getElem? (resolveFs_get hres)

theorem NoPlace.mountsData_eq (hk : k.Healthy) (h : NoPlace k path) :
    k.mountsData path = .error .notFound := by
  rw [mountsData]
  cases h with
  | unmounted hres =>
    rw [hres]
    exact congrArg _ (resolveFs_error hres)
  | fat hres hfs hrw hnone =>
    rw [hres]
    dsimp only
    have hgeo := (hk.sound _ (mem_of_resolves hres) _ hfs).1
    rw [k.mountData_fat hfs, Fat32.readFile_run hgeo.toValid,
      Fat32.openResult_of_parent hnone.2]
    rfl
  | ram hres hfs hrw hnone =>
    rw [hres]
    dsimp only
    rw [k.mountData_ofRam hfs, RamFs.readData_eq, hnone.dataAt_eq]

theorem Leads.changes (h : Leads k path p) (hc : Changes p k k') : Leads k' path p := by
  cases h with
  | fat hres hfs => exact .fat (hc.mounts ▸ hres) hfs
  | ram hres hfs => exact .ram (hc.mounts ▸ hres) hfs
  | root hnone hother =>
    refine .root ?_ (hc.mounts ▸ hother)
    rw [← hnone]
    apply mountsData_congr hc.mounts
    · intro idx mount target fs _ _
      rw [hc.disks mount.device nofun]
    · intro idx mount target r hres hfs
      apply hc.ram
      intro heq
      rcases Place.ram.inj heq with ⟨rfl, hkey⟩
      exact hother idx mount target hres hfs hkey.symm

/-! ## Handles that write a new file -/

/-- The handle stands at the end of the file at the place and the file holds the bytes. The paths
in `S` do not lead there. -/
inductive Into (k : Plain E) (S : Set Name) :
    Place → Nat → VfsFile (withRam (ramsDriver.sum E)) → List UInt8 → Prop
  | fat {fs : Fat32Fs} {device : Nat} {target : Name} {f : Fat32File} {idx : Nat}
      {dirs : Set Nat} {l : List Nat} {rest : List (List Nat)}
      (hidx : k.mounts[idx]?.map MountPoint.device = some device)
      (hgeo : fs.geo.Sound) (hfs : fs.geo.FsInfoReserved)
      (h : Coherent fs dirs target ⟨f, k.disks device⟩ l rest)
      (hend : f.position = f.data.length)
      (hother : ∀ source ∈ S, ∀ idx mount fs' other,
        resolveFs k.mounts source = .ok (idx, mount, other) →
        mount.fs = .fat32 fs' → mount.device = device → fs'.geo = fs.geo ∧
        resolve fs.geo (k.disks device) other ≠
          .ok (some (dirSlotAt (k.disks device) f.slot.pos))) :
      Into k S (.fat fs device target) idx (.fat32 f) f.data
  | ram {r : RamRef} {f : RamFsFile} {data : List UInt8} (idx : Nat)
      (hdata : (k.ramFs r).dataAt f.path = some data) (hend : f.position = data.length)
      (hw : f.writable = true) (hother : ∀ source ∈ S, ¬RamPlace k source r f.path) :
      Into k S (.ram r f.path) idx (.ofRam r f) data

theorem Into.effect (h : Into k S p idx file d) (he : Effect none k k') :
    Into k' S p idx file d := by
  cases h with
  | @fat fs device target f idx dirs l rest hidx hgeo hfs h hend hother =>
    have hdisk : k'.disks device = k.disks device := he.disks device nofun
    rw [← he.mounts] at hidx hother
    rw [← hdisk] at h hother
    exact .fat hidx hgeo hfs h hend hother
  | @ram r f data idx hdata hend hw hother =>
    have hram : k'.ramFs r = k.ramFs r := he.rams r nofun
    rw [← hram] at hdata
    exact .ram idx hdata hend hw fun source hs hplace =>
      hother source hs (hplace.congr he.mounts.symm)

theorem Into.content_eq (h : Into k S p idx file d) (hl : Leads k path p) :
    k.content path = .ok d := by
  rw [content]
  cases h with
  | @fat fs device target f idx dirs l rest hidx hgeo hfs h hend hother =>
    cases hl with
    | fat hres hfs' =>
      have hread : k.mountsData path = .ok f.data := by
        rw [mountsData, hres]
        dsimp only
        rw [k.mountData_fat hfs', Fat32.readFile_run hgeo.toValid, h.reopen]
        exact congrArg _ h.data.symm
      rw [hread]
      rfl
  | @ram r f data idx hdata hend hw hother =>
    generalize hkey : f.path = key at hl hdata
    cases hl with
    | @ram _ mount target _ hres hfs =>
      have hread : k.mountsData path = .ok d := by
        rw [mountsData, hres]
        dsimp only
        rw [k.mountData_ofRam hfs, RamFs.readData_eq, hdata]
      rw [hread]
      rfl
    | root hnone hother =>
      have hread : k.ram.fs.readData path = .ok d := by
        have hroot : k.ram.fs.dataAt (RamFs.normalizePath path) = some d := hdata
        rw [RamFs.readData_eq, hroot]
      rw [hnone, hread]
      rfl

theorem readFile_geo {fs' : Fat32Fs} (hgeo : fs.geo.Valid) (h : fs'.geo = fs.geo) (m : Memory)
    (path : Name) : Fat32.readFile fs' m path = Fat32.readFile fs m path := by
  rw [Fat32.readFile_run (h ▸ hgeo), Fat32.readFile_run hgeo, Fat32.openResult,
    Fat32.openResult, h]
  cases resolve fs.geo m path with
  | error e => rfl
  | ok found =>
    cases found with
    | none => rfl
    | some slot =>
      dsimp only
      split
      · rfl
      · split
        · rfl
        · show Except.ok (Fat32.content fs'.geo m slot.entry) =
            Except.ok (Fat32.content fs.geo m slot.entry)
          rw [h]

structure Wrote (k : Plain E) (S : Set Name) (p : Place) (handle idx : Nat) (d : List UInt8)
    (k' : Plain E) (result : Except FsError Reply) : Prop where
  spares : ∀ source ∈ S, Spares source k k'
  changes : Changes p k k'
  file : ∃ file, k'.handles = k.handles.set handle (idx, file) ∧
    ∀ reply, result = .ok reply → Into k' S p idx file d

theorem device_of_handle (hget : k.handles[handle]? = some (idx, file))
    (hidx : k.mounts[idx]?.map MountPoint.device = some device) (data : List UInt8) :
    k.world.device (.write handle data) = device := by
  have htarget : k.world.target (.write handle data) = some idx := by
    show k.handles[handle]?.map Prod.fst = some idx
    rw [hget]
    rfl
  rw [World.device, htarget, Option.bind_some]
  show (k.mounts[idx]?.map MountPoint.device).getD 0 = device
  rw [hidx]
  rfl

theorem write_fat (hdev : env.dev = answering) {f : Fat32File} {dirs : Set Nat} {l : List Nat}
    {rest : List (List Nat)} (hget : k.handles[handle]? = some (idx, .fat32 f))
    (hidx : k.mounts[idx]?.map MountPoint.device = some device)
    (hgeo : fs.geo.Sound) (hfs : fs.geo.FsInfoReserved)
    (h : Coherent fs dirs target ⟨f, k.disks device⟩ l rest)
    (hend : f.position = f.data.length)
    (hother : ∀ source ∈ S, ∀ idx mount fs' other,
      resolveFs k.mounts source = .ok (idx, mount, other) →
      mount.fs = .fat32 fs' → mount.device = device → fs'.geo = fs.geo ∧
      resolve fs.geo (k.disks device) other ≠
        .ok (some (dirSlotAt (k.disks device) f.slot.pos)))
    (data : List UInt8) (hlimit : f.data.length + data.length < 2 ^ 32) :
    Wrote k S (.fat fs device target) handle idx (f.data ++ data)
      (k.writeFileHandle env handle data).1 (k.writeFileHandle env handle data).2 := by
  have hdevice := device_of_handle hget hidx data
  have hwp : wp disk (fun _ _ => True)
      (fun r m => r.1 = k.world.heap ∧ ∃ f' result, r.2.1 = k.handles.set handle (idx, .fat32 f') ∧
        r.2.2 = result.map Reply.number ∧
        Appended fs dirs target ⟨f, k.disks device⟩ data rest f' result m)
      (fun _ _ => False) (k.world.prog (env.clock k.ticks) (.write handle data))
      (k.disks (k.world.device (.write handle data))) := by
    have hget' : k.world.handles[handle]? = some (idx, .fat32 f) := hget
    rw [hdevice, World.prog, World.onHandle, hget']
    dsimp only
    rw [World.finishFile, Prog.wp_bind, VfsFile.write.eq_def]
    dsimp only
    rw [Prog.wp_bind]
    apply Prog.wp_post (h.append_spec hgeo hfs (env.clock k.ticks) hend hlimit)
    · rintro ⟨f', result⟩ m happended
      exact ⟨rfl, f', result, rfl, rfl, happended⟩
    · exact fun _ _ he => he
  rcases call_of_wp hdev hwp with ⟨heap, handles, result, m, ⟨hheap, f', n, hhandles, hresult, ha⟩, hcall⟩
  dsimp only at hheap hhandles hresult
  subst hheap hhandles hresult
  rw [hdevice] at hcall
  rw [writeFileHandle, hcall]
  dsimp only
  have hdisk : (k.left device k.world.heap (k.handles.set handle (idx, .fat32 f')) m).disks device =
      m := Function.update_self _ _ _
  have hchanges : Changes (.fat fs device target) k
      (k.left device k.world.heap (k.handles.set handle (idx, .fat32 f')) m) := by
    refine ⟨rfl, rfl, fun d hd => ?_, fun r key _ => ?_⟩
    · have hne : d ≠ device := by
        rintro rfl
        exact hd fs target rfl
      exact Function.update_of_ne hne _ _
    · cases r <;> rfl
  have hset : (k.left device k.world.heap (k.handles.set handle (idx, .fat32 f')) m).handles =
      k.handles.set handle (idx, .fat32 f') := rfl
  generalize k.left device k.world.heap (k.handles.set handle (idx, .fat32 f')) m = k' at *
  refine ⟨fun source hs => hchanges.spares_fat fun idx mount fs' other hres hfs' hmount => ?_,
    hchanges, _, hset, fun reply hreply => ?_⟩
  · rcases hother source hs idx mount fs' other hres hfs' hmount with ⟨hsame, hne⟩
    rw [hdisk, readFile_geo hgeo.toValid hsame, readFile_geo hgeo.toValid hsame]
    exact (ha.others other hne).1
  · cases n with
    | error e => cases hreply
    | ok n =>
      rcases ha.coherent n rfl with ⟨l', hcoherent⟩
      rw [← ha.data n rfl]
      rw [← hchanges.mounts] at hidx hother
      rw [← hdisk] at hcoherent
      apply Into.fat hidx hgeo hfs hcoherent (ha.position n rfl)
      intro source hs idx mount fs' other hres hfs' hmount
      rcases hother source hs idx mount fs' other hres hfs' hmount with ⟨hsame, hne⟩
      rw [hdisk]
      exact ⟨hsame, (ha.others other hne).2 n rfl⟩

theorem world_ramFs (r : RamRef) : ramAt k.world.heap r = k.ramFs r := by cases r <;> rfl

theorem ramFs_left {heap : (withRam (ramsDriver.sum E)).Heap}
    {handles : List (Nat × VfsFile (withRam (ramsDriver.sum E)))} {m : Memory} (r : RamRef) :
    (k.left device heap handles m).ramFs r = ramAt heap r := by
  cases r <;> rfl

theorem changes_left {heap : (withRam (ramsDriver.sum E)).Heap}
    {handles : List (Nat × VfsFile (withRam (ramsDriver.sum E)))}
    (hfiles : ∀ key', key' ≠ key → (ramAt heap r).dataAt key' = (k.ramFs r).dataAt key')
    (hrest : ∀ r', r' ≠ r → ramAt heap r' = ramAt k.world.heap r') :
    Changes (.ram r key) k (k.left device heap handles (k.disks device)) where
  mounts := rfl
  cwd := rfl
  disks _ _ := congrFun (Function.update_eq_self _ _) _
  ram r' key' hne := by
    rw [ramFs_left]
    by_cases hr : r' = r
    · subst hr
      apply hfiles
      rintro rfl
      exact hne rfl
    · rw [hrest r' hr, world_ramFs]

theorem write_ram (hdev : env.dev = answering) {f : RamFsFile}
    (hget : k.handles[handle]? = some (idx, .ofRam r f))
    (hdata : (k.ramFs r).dataAt f.path = some d) (hend : f.position = d.length)
    (hw : f.writable = true) (hother : ∀ source ∈ S, ¬RamPlace k source r f.path)
    (data : List UInt8) :
    Wrote k S (.ram r f.path) handle idx (d ++ data)
      (k.writeFileHandle env handle data).1 (k.writeFileHandle env handle data).2 := by
  rcases RamFsFile.write_at_end hdata hend hw data with ⟨fs', hwrite, hfiles⟩
  rcases write_ofRam k.world.heap (env.clock k.ticks) r f data with ⟨heap', hrun, hhere, hrest⟩
  rw [world_ramFs, hwrite] at hrun hhere
  have hprog : k.world.prog (env.clock k.ticks) (.write handle data) = pure (heap',
      k.handles.set handle (idx, .ofRam r ⟨f.path, (d ++ data).length, f.writable⟩),
      .ok (.number data.length)) := by
    have hget' : k.world.handles[handle]? = some (idx, .ofRam r f) := hget
    rw [World.prog, World.onHandle, hget']
    dsimp only
    rw [World.finishFile, hrun]
    rfl
  have hchanges : Changes (.ram r f.path) k (k.left (k.world.device (.write handle data)) heap'
      (k.handles.set handle (idx, .ofRam r ⟨f.path, (d ++ data).length, f.writable⟩))
      (k.disks (k.world.device (.write handle data)))) := by
    apply changes_left _ hrest
    intro key hkey
    rw [hhere, hfiles, if_neg hkey]
  rw [writeFileHandle, call_of_pure hdev hprog]
  refine ⟨fun source hs => hchanges.spares_ram (hother source hs), hchanges, _, rfl, fun _ _ => ?_⟩
  apply Into.ram (f := ⟨f.path, (d ++ data).length, f.writable⟩) idx _ rfl hw
  · exact fun source hs hplace => hother source hs (hplace.congr rfl)
  · dsimp only
    rw [ramFs_left, hhere, hfiles, if_pos rfl]

theorem Into.write (hdev : env.dev = answering) (h : Into k S p idx file d)
    (hget : k.handles[handle]? = some (idx, file)) (data : List UInt8)
    (hlimit : ∀ fs device target, p = .fat fs device target → d.length + data.length < 2 ^ 32) :
    Wrote k S p handle idx (d ++ data) (k.writeFileHandle env handle data).1
      (k.writeFileHandle env handle data).2 := by
  cases h with
  | fat hidx hgeo hfs h hend hother =>
    exact write_fat hdev hget hidx hgeo hfs h hend hother data (hlimit _ _ _ rfl)
  | ram idx hdata hend hw hother => exact write_ram hdev hget hdata hend hw hother data

/-! ## Creating -/

structure Made (k : Plain E) (S : Set Name) (path : Name) (k' : Plain E) : Prop where
  spares : ∀ source ∈ S, Spares source k k'
  file : ∃ p idx file, Lands k path p ∧ k'.handles = k.handles ++ [(idx, file)] ∧
    Leads k' path p ∧ Into k' S p idx file []

/-- What `vfs_create` leaves: a new file, or everything as it was. -/
inductive Creates (k : Plain E) (S : Set Name) (path : Name) (k' : Plain E) :
    Except FsError Nat → Prop
  | made (h : Made k S path k') : Creates k S path k' (.ok k.handles.length)
  | refused {e : FsError} (heffect : Effect none k k') (hhandles : k'.handles = k.handles)
      (hnone : e = .notFound → NoPlace k path) : Creates k S path k' (.error e)

/-- The paths in `S` do not come by the place, and a volume shows the name. -/
structure Creatable (k : Plain E) (S : Set Name) (path : Name) : Prop where
  apart : ∀ source ∈ S, ∀ p, Lands k path p → ¬ComesBy k source p
  shows : ∀ fs device target, Lands k path (.fat fs device target) →
    Fat32.ShowsName fs.geo (k.disks device) target

theorem device_of_create (hres : resolveFs k.mounts path = .ok (idx, mount, target)) :
    k.world.device (.create path) = mount.device := by
  have hres' : resolveFs k.world.mounts path = .ok (idx, mount, target) := hres
  rw [World.device, World.target, hres']
  exact device_of_resolves hres

theorem proper_of_resolves (hres : resolveFs k.mounts path = .ok (idx, mount, target)) :
    Fat32.ProperParts target :=
  .of_dotless fun part hpart => normalizePath_dotless path part (resolveFs_parts hres hpart)

theorem vfsCreate_refused (hdev : env.dev = answering) {e : FsError}
    (hprog : k.world.prog (env.clock k.ticks) (.create path) =
      pure (k.world.heap, k.handles, .error e)) :
    ∃ k', k.vfsCreate env path = (k', .error e) ∧ Effect none k k' ∧ k'.handles = k.handles := by
  rw [vfsCreate, callOpen, call_of_pure hdev hprog]
  exact ⟨_, rfl, effect_left (fun _ => rfl) (fun _ => rfl) fun _ _ => rfl, rfl⟩

theorem vfsCreate_unmounted (hdev : env.dev = answering) {e : FsError}
    (hres : resolveFs k.mounts path = .error e) :
    ∃ k', k.vfsCreate env path = (k', .error .notFound) ∧ Effect none k k' ∧
      k'.handles = k.handles := by
  have hres' : resolveFs k.world.mounts path = .error .notFound :=
    hres.trans (congrArg _ (resolveFs_error hres))
  apply vfsCreate_refused hdev
  rw [World.prog, World.onPath, hres']
  rfl

theorem vfsCreate_readonly (hdev : env.dev = answering)
    (hres : resolveFs k.mounts path = .ok (idx, mount, target)) (hro : mount.readonly = true) :
    ∃ k', k.vfsCreate env path = (k', .error .readOnly) ∧ Effect none k k' ∧
      k'.handles = k.handles := by
  have hres' : resolveFs k.world.mounts path = .ok (idx, mount, target) := hres
  apply vfsCreate_refused hdev
  rw [World.prog, World.onPath, hres']
  dsimp only
  rw [guardMount, if_pos hro]
  rfl

theorem vfsCreate_fat (hdev : env.dev = answering) (hk : k.Healthy)
    (hable : Creatable k S path)
    (hres : resolveFs k.mounts path = .ok (idx, mount, target)) (hfs : mount.fs = .fat32 fs)
    (hrw : mount.readonly = false) :
    Creates k S path (k.vfsCreate env path).1 (k.vfsCreate env path).2 := by
  have hmem := mem_of_resolves hres
  have hdevice := device_of_create hres
  rcases hk.sound mount hmem fs hfs with ⟨hgeo, hinfo⟩
  rcases hk.tree mount hmem fs hfs with ⟨dirs, chains, htree⟩
  have hwp : wp disk (fun _ _ => True)
      (fun r m => r.1 = k.world.heap ∧
        ((∃ f, r.2.1 = k.handles ++ [(idx, .fat32 f)] ∧ r.2.2 = .ok .opened ∧
            Fat32.Creatable fs (k.disks mount.device) target ∧
            Created fs (k.disks mount.device) dirs target f m) ∨
          ∃ e, r.2.1 = k.handles ∧ r.2.2 = .error e ∧ m = k.disks mount.device ∧
            (e = .notFound → Fat32.NoParent fs (k.disks mount.device) target)))
      (fun _ _ => False) (k.world.prog (env.clock k.ticks) (.create path))
      (k.disks (k.world.device (.create path))) := by
    have hres' : resolveFs k.world.mounts path = .ok (idx, mount, target) := hres
    rw [hdevice, World.prog, World.onPath, hres']
    dsimp only
    rw [World.finishOpen, Prog.wp_bind, guardMount, hrw, if_neg Bool.false_ne_true, hfs,
      MountedFs.create.eq_def]
    dsimp only
    rw [fatAnswer, Prog.wp_bind, Prog.wp_attempt, Prog.wp_bind]
    apply Prog.wp_post (Fat32.create_spec hgeo hinfo htree (env.clock k.ticks)
      (proper_of_resolves hres) fun habl => hable.shows _ _ _ (.fat hres hfs hrw habl))
    · intro f m hcreated
      exact ⟨rfl, .inl ⟨f, rfl, rfl, hcreated⟩⟩
    · intro e m hfailed
      exact ⟨rfl, .inr ⟨e, rfl, rfl, hfailed⟩⟩
  rcases call_of_wp hdev hwp with ⟨heap, handles, result, m, ⟨hheap, hcases⟩, hcall⟩
  rw [hdevice] at hcall
  dsimp only at hheap hcases
  subst hheap
  rw [vfsCreate, callOpen, hcall]
  rcases hcases with ⟨f, hhandles, hresult, habl, hcreated⟩ | ⟨e, hhandles, hresult, hm, hnone⟩
  · subst hhandles hresult
    have hdisk : (k.left mount.device k.world.heap (k.handles ++ [(idx, .fat32 f)]) m).disks
        mount.device = m := Function.update_self _ _ _
    have hlands : Lands k path (.fat fs mount.device target) := .fat hres hfs hrw habl
    have hmiss : ∀ source ∈ S, ∀ idx' mount' fs' other,
        resolveFs k.mounts source = .ok (idx', mount', other) → mount'.fs = .fat32 fs' → mount'.device = mount.device →
        fs'.geo = fs.geo ∧ comesBy fs.geo (k.disks mount.device) target other = false := by
      intro source hs idx' mount' fs' other hres' hfs' hsame
      refine ⟨hk.shared mount' (mem_of_resolves hres') mount hmem fs' fs hfs' hfs hsame, ?_⟩
      rw [Bool.eq_false_iff]
      exact fun hby => hable.apart source hs _ hlands ⟨idx', mount', other, fs', hres', hfs', hsame, hby⟩
    have hchanges : Changes (.fat fs mount.device target) k
        (k.left mount.device k.world.heap (k.handles ++ [(idx, .fat32 f)]) m) := by
      refine ⟨rfl, rfl, fun d hd => ?_, fun r key _ => ?_⟩
      · have hne : d ≠ mount.device := by
          rintro rfl
          exact hd fs target rfl
        exact Function.update_of_ne hne _ _
      · cases r <;> rfl
    have hset : (k.left mount.device k.world.heap (k.handles ++ [(idx, .fat32 f)]) m).handles =
        k.handles ++ [(idx, .fat32 f)] := rfl
    generalize k.left mount.device k.world.heap (k.handles ++ [(idx, .fat32 f)]) m = k' at *
    refine .made ⟨fun source hs => hchanges.spares_fat fun idx' mount' fs' other hres' hfs' hsame =>
      ?_, _, _, _, hlands, hset, .fat (hchanges.mounts ▸ hres) hfs, ?_⟩
    · rcases hmiss source hs idx' mount' fs' other hres' hfs' hsame with ⟨hgeo', hby⟩
      rw [hdisk, readFile_geo hgeo.toValid hgeo', readFile_geo hgeo.toValid hgeo']
      exact (hcreated.others other hby).2
    · rcases hcreated.coherent with ⟨l, rest, hcoherent⟩
      rw [← hcreated.data]
      rw [← hchanges.mounts] at hres hmiss
      rw [← hdisk] at hcoherent
      have hidx : k'.mounts[idx]?.map MountPoint.device = some mount.device := by
        rw [resolveFs_get hres]
        rfl
      have hend : f.position = f.data.length := by
        rw [hcreated.position, hcreated.data]
        rfl
      apply Into.fat hidx hgeo hinfo hcoherent hend
      intro source hs idx' mount' fs' other hres' hfs' hsame
      rcases hmiss source hs idx' mount' fs' other hres' hfs' hsame with ⟨hgeo', hby⟩
      rw [hdisk]
      exact ⟨hgeo', (hcreated.others other hby).1⟩
  · subst hhandles hresult hm
    refine .refused (effect_left (fun _ => rfl) (fun _ => rfl) fun _ _ => rfl) rfl fun he => ?_
    exact .fat hres hfs hrw (hnone he)

theorem vfsCreate_ram (hdev : env.dev = answering) (hable : Creatable k S path)
    (hres : resolveFs k.mounts path = .ok (idx, mount, target)) (hfs : mount.fs = .ofRam r)
    (hrw : mount.readonly = false) :
    Creates k S path (k.vfsCreate env path).1 (k.vfsCreate env path).2 := by
  have hres' : resolveFs k.world.mounts path = .ok (idx, mount, target) := hres
  rcases create_ofRam k.world.heap (env.clock k.ticks) r target with ⟨heap', hrun, hhere, hrest⟩
  rw [world_ramFs] at hrun hhere
  have hprog : k.world.prog (env.clock k.ticks) (.create path) = k.world.finishOpen idx
      (pure (heap', ((k.ramFs r).create target).2.map (.ofRam r))) := by
    rw [World.prog, World.onPath, hres']
    dsimp only
    rw [guardMount, hrw, if_neg Bool.false_ne_true, hfs, hrun]
  rcases (k.ramFs r).create_cases target with
    ⟨e, hcreate, -, hnone⟩ | ⟨fs', hcreate, habl, hfile, hfiles⟩
  · rw [hcreate] at hprog hhere
    have hrams : ∀ r', ramAt heap' r' = k.ramFs r' := by
      intro r'
      by_cases hr : r' = r
      · rw [hr, hhere]
      · rw [hrest r' hr, world_ramFs]
    rw [vfsCreate, callOpen, call_of_pure hdev hprog]
    refine .refused (effect_left (fun _ => rfl) (fun _ => hrams .root) fun i _ => ?_) rfl
      fun he => .ram hres hfs hrw (hnone he)
    exact hrams (.mounted i)
  · rw [hcreate] at hprog hhere
    have hlands : Lands k path (.ram r (RamFs.normalizePath target)) := .ram hres hfs hrw habl
    have hchanges : Changes (.ram r (RamFs.normalizePath target)) k
        (k.left (k.world.device (.create path)) heap'
          (k.handles ++ [(idx, .ofRam r ⟨RamFs.normalizePath target, 0, true⟩)])
          (k.disks (k.world.device (.create path)))) := by
      apply changes_left _ hrest
      intro key hkey
      rw [hhere, hfiles key hkey]
    have hother : ∀ source ∈ S, ¬RamPlace k source r (RamFs.normalizePath target) :=
      fun source hs => hable.apart source hs _ hlands
    rw [vfsCreate, callOpen, call_of_pure hdev hprog]
    refine .made ⟨fun source hs => hchanges.spares_ram (hother source hs), _, idx, _, hlands, rfl, .ram hres hfs, ?_⟩
    apply Into.ram (f := ⟨RamFs.normalizePath target, 0, true⟩) idx _ rfl rfl
    · exact fun source hs hplace => hother source hs (hplace.congr rfl)
    · dsimp only
      rw [ramFs_left, hhere, hfile]

theorem vfsCreate_spec (hdev : env.dev = answering) (hk : k.Healthy) (hplain : PlainPath k path)
    (hable : Creatable k S path) :
    Creates k S path (k.vfsCreate env path).1 (k.vfsCreate env path).2 := by
  cases hres : resolveFs k.mounts path with
  | error e =>
    rcases vfsCreate_unmounted hdev hres with ⟨k', hrun, heffect, hhandles⟩
    rw [hrun]
    exact .refused heffect hhandles fun _ => .unmounted hres
  | ok found =>
    rcases found with ⟨idx, mount, target⟩
    by_cases hro : mount.readonly = true
    · rcases vfsCreate_readonly hdev hres hro with ⟨k', hrun, heffect, hhandles⟩
      rw [hrun]
      exact .refused heffect hhandles nofun
    · have hrw : mount.readonly = false := by simpa using hro
      rcases hplain idx mount target hres with ⟨fs, hfs⟩ | ⟨r, hfs⟩
      · exact vfsCreate_fat hdev hk hable hres hfs hrw
      · exact vfsCreate_ram hdev hable hres hfs hrw

theorem changes_root {k' : Plain E} (hmounts : k'.mounts = k.mounts) (hcwd : k'.cwd = k.cwd)
    (hdisks : k'.disks = k.disks) (hheap : k'.heap = k.heap)
    (hfiles : ∀ key', key' ≠ key → k'.ram.fs.dataAt key' = k.ram.fs.dataAt key') :
    Changes (.ram .root key) k k' where
  mounts := hmounts
  cwd := hcwd
  disks _ _ := congrFun hdisks _
  ram r key' hne := by
    cases r with
    | root =>
      apply hfiles
      rintro rfl
      exact hne rfl
    | mounted i => rw [ramFs, ramFs, hheap]

def withFile (k : Plain E) (fs : RamFs) (path : Name) : Plain E :=
  { k with
    ram := ⟨fs, k.ram.uses + 1 + 1⟩
    handles := k.handles ++
      [(k.mounts.length, .ofRam .root ⟨RamFs.normalizePath path, 0, true⟩)] }

theorem ramRecreate_cases (k : Plain E) (path : Name) :
    (¬(k.ram.fs.remove path).1.Creatable (RamFs.normalizePath path) ∧ ∃ e, k.ramRecreate path =
        ({ k with ram := ⟨(k.ram.fs.remove path).1, k.ram.uses + 1 + 1⟩ }, .error e)) ∨
      ∃ fs', k.ramRecreate path = (k.withFile fs' path, .ok k.handles.length) ∧
        (k.ram.fs.remove path).1.Creatable (RamFs.normalizePath path) ∧
        fs'.dataAt (RamFs.normalizePath path) = some [] ∧
        ∀ key, key ≠ RamFs.normalizePath path → fs'.dataAt key = k.ram.fs.dataAt key := by
  rcases (k.ram.fs.remove path).1.create_cases path with
    ⟨e, hcreate, hunable, -⟩ | ⟨fs', hcreate, habl, hfile, hfiles⟩
  · refine .inl ⟨hunable, e, ?_⟩
    rw [ramRecreate, ramOpen, ramCall, ramCall, RootRam.update, RootRam.update, hcreate]
  · refine .inr ⟨fs', ?_, habl, hfile, fun key hkey =>
      (hfiles key hkey).trans (k.ram.fs.dataAt_remove path hkey)⟩
    rw [ramRecreate, ramOpen, ramCall, ramCall, RootRam.update, RootRam.update, hcreate]
    rfl

theorem ramRecreate_spec (hk : k.Healthy) (hnone : NoPlace k path)
    (hother : ∀ source ∈ S, ¬RamPlace k source .root (RamFs.normalizePath path)) :
    (∀ source ∈ S, Spares source k (k.ramRecreate path).1) ∧ ∀ handle, (k.ramRecreate path).2 = .ok handle →
      handle = k.handles.length ∧ Made k S path (k.ramRecreate path).1 := by
  rcases k.ramRecreate_cases path with ⟨-, e, hrun⟩ | ⟨fs', hrun, habl, hfile, hfiles⟩
  · have hchanges : Changes (.ram .root (RamFs.normalizePath path)) k
        { k with ram := ⟨(k.ram.fs.remove path).1, k.ram.uses + 1 + 1⟩ } :=
      changes_root rfl rfl rfl rfl fun key => k.ram.fs.dataAt_remove path
    rw [hrun]
    exact ⟨fun source hs => hchanges.spares_ram (hother source hs), nofun⟩
  · rw [hrun]
    dsimp only
    have hchanges : Changes (.ram .root (RamFs.normalizePath path)) k (k.withFile fs' path) :=
      changes_root rfl rfl rfl rfl hfiles
    have hapart : ∀ idx mount target, resolveFs k.mounts path = .ok (idx, mount, target) →
        mount.fs = .ofRam .root →
        RamFs.normalizePath target ≠ RamFs.normalizePath path := by
      intro idx mount target hres hfs hsame
      have hparent := k.ram.fs.parentExists_remove path habl.2
      cases hnone with
      | unmounted hres' =>
        rw [hres] at hres'
        cases hres'
      | fat hres' hfs' _ _ =>
        rw [hres] at hres'
        cases hres'
        rw [hfs] at hfs'
        cases hfs'
      | @ram _ _ _ r hres' hfs' _ hnone =>
        rw [hres] at hres'
        cases hres'
        rw [hfs] at hfs'
        cases r with
        | root =>
          have hno : RamFs.parentExists k.ram.fs.entries (RamFs.normalizePath target) = false :=
            hnone.2
          rw [hsame, hparent] at hno
          cases hno
        | mounted i => cases hfs'
    have hmissing : k.mountsData path = .error .notFound := hnone.mountsData_eq hk
    have hleads : Leads k path (.ram .root (RamFs.normalizePath path)) := .root hmissing hapart
    have hspares : ∀ source ∈ S, Spares source k (k.withFile fs' path) :=
      fun source hs => hchanges.spares_ram (hother source hs)
    refine ⟨hspares, fun handle hhandle => ⟨(Except.ok.inj hhandle).symm, ?_⟩⟩
    refine ⟨hspares, _, k.mounts.length, _, .root hnone, rfl,
      hleads.changes hchanges, ?_⟩
    apply Into.ram (r := .root) (f := ⟨RamFs.normalizePath path, 0, true⟩) k.mounts.length _ rfl rfl
    · exact fun source hs hplace => hother source hs (hplace.congr rfl)
    · exact hfile

theorem Effect.disks_eq (h : Effect none k k') : k'.disks = k.disks :=
  funext fun d => h.disks d nofun

theorem Effect.ramFs_eq (h : Effect none k k') : k'.ramFs = k.ramFs :=
  funext fun r => h.rams r nofun

theorem Effect.symm (h : Effect none k k') : Effect none k' k :=
  ⟨h.mounts.symm, h.cwd.symm, fun d _ => (h.disks d nofun).symm, fun r _ => (h.rams r nofun).symm⟩

theorem NoPlace.effect (h : NoPlace k path) (he : Effect none k k') : NoPlace k' path := by
  cases h with
  | unmounted hres => exact .unmounted (he.mounts ▸ hres)
  | fat hres hfs hrw hnone => exact .fat (he.mounts ▸ hres) hfs hrw (he.disks_eq ▸ hnone)
  | ram hres hfs hrw hnone => exact .ram (he.mounts ▸ hres) hfs hrw (he.ramFs_eq ▸ hnone)

theorem Lands.effect (h : Lands k path p) (he : Effect none k k') : Lands k' path p := by
  cases h with
  | fat hres hfs hrw hable => exact .fat (he.mounts ▸ hres) hfs hrw (he.disks_eq ▸ hable)
  | ram hres hfs hrw hable => exact .ram (he.mounts ▸ hres) hfs hrw (he.ramFs_eq ▸ hable)
  | root hnone => exact .root (hnone.effect he)

theorem ComesBy.effect (h : ComesBy k path p) (he : Effect none k k') : ComesBy k' path p := by
  cases p with
  | fat fs device target =>
    rcases h with ⟨idx, mount, other, fs', hres, hfs, hdev, hby⟩
    exact ⟨idx, mount, other, fs', he.mounts ▸ hres, hfs, hdev, he.disks_eq ▸ hby⟩
  | ram r key => exact RamPlace.congr h he.mounts

theorem Healthy.effect (h : k.Healthy) (he : Effect none k k') : k'.Healthy where
  sound := he.mounts ▸ h.sound
  tree := by
    rw [he.mounts, he.disks_eq]
    exact h.tree
  shared := he.mounts ▸ h.shared

theorem Creatable.effect (h : Creatable k S path) (he : Effect none k k') :
    Creatable k' S path where
  apart source hs p hlands hby := h.apart source hs p (hlands.effect he.symm) (hby.effect he.symm)
  shows fs device target hlands := by
    rw [he.disks_eq]
    exact h.shows fs device target (hlands.effect he.symm)

theorem PlainPath.effect (h : PlainPath k path) (he : Effect none k k') : PlainPath k' path := by
  rw [PlainPath, he.mounts]
  exact h

theorem recreate_spec (hdev : env.dev = answering) (hk : k.Healthy) (hplain : PlainPath k path)
    (hable : Creatable k S path) :
    (∀ source ∈ S, Spares source k (orRam (k.vfsCreate env path) fun k => k.ramRecreate path).1) ∧
    ∀ handle, (orRam (k.vfsCreate env path) fun k => k.ramRecreate path).2 = .ok handle →
      handle = k.handles.length ∧
      Made k S path (orRam (k.vfsCreate env path) fun k => k.ramRecreate path).1 := by
  have hcreates := vfsCreate_spec hdev hk hplain hable
  revert hcreates
  rcases k.vfsCreate env path with ⟨k₁, result⟩
  intro hcreates
  rw [orRam.eq_def]
  cases hcreates with
  | made hmade => exact ⟨hmade.spares, fun handle hhandle => ⟨(Except.ok.inj hhandle).symm, hmade⟩⟩
  | @refused e heffect hhandles hnone =>
    by_cases he : e = .notFound
    · subst he
      have hplace := hnone rfl
      have hother : ∀ source ∈ S, ¬RamPlace k₁ source .root (RamFs.normalizePath path) := by
        intro source hs hby
        exact hable.apart source hs _ (.root hplace) (hby.congr heffect.mounts.symm)
      rcases ramRecreate_spec (hk.effect heffect) (hplace.effect heffect) hother with
        ⟨hspares, hmade⟩
      have hall : ∀ source ∈ S, Spares source k _ := fun source hs =>
        heffect.spares.trans (hspares source hs)
      refine ⟨hall, fun handle hhandle => ?_⟩
      rcases hmade handle hhandle with ⟨hindex, hmade⟩
      rcases hmade.file with ⟨p, idx, file, hlands, hfile⟩
      rw [hhandles] at hindex hfile
      exact ⟨hindex, hall, p, idx, file, hlands.effect heffect.symm, hfile⟩
    · cases e <;> first | exact absurd rfl he | exact ⟨fun _ _ => heffect.spares, fun _ he => by cases he⟩

end Kernel

end Vibra.Vfs
