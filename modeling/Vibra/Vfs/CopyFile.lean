import Vibra.Vfs.Placement

/-! # Copying a file

The source is open before the destination is created.
-/

namespace Vibra.Vfs

open Lib (Memory)
open Fat32 (Name FsError)

namespace Kernel

variable {E : Driver} {env : Env (ramsDriver.sum E) Memory} {k k' : Plain E}
  {S : Set Name} {source path : Name} {p : Place} {c : List UInt8} {src dst t : Nat}

/-- Between two rounds: so many bytes have been read and written. -/
structure Copying (k : Plain E) (source : Name) (p : Place) (src dst : Nat) (c : List UInt8)
    (t : Nat) : Prop where
  ne : src ≠ dst
  le : t ≤ c.length
  reads : ∃ idx file, k.handles[src]? = some (idx, file) ∧ Reads k source file c t
  into : ∃ idx file, k.handles[dst]? = some (idx, file) ∧ Into k {source} p idx file (c.take t)

structure Copied (k : Plain E) (source : Name) (p : Place) (c : List UInt8) (k' : Plain E)
    (result : Except FsError Nat) : Prop where
  spares : Spares source k k'
  changes : Changes p k k'
  done : ∀ n, result = .ok n → n = c.length ∧ ∃ idx file, Into k' {source} p idx file c

theorem Copied.after {k₁ : Plain E} {result : Except FsError Nat} (hs : Spares source k k₁)
    (hc : Changes p k k₁) (h : Copied k₁ source p c k' result) : Copied k source p c k' result :=
  ⟨hs.trans h.spares, hc.trans h.changes, h.done⟩

theorem copyLoop_spec (hdev : env.dev = answering)
    (hlimit : ∀ fs device target, p = .fat fs device target → c.length < 2 ^ 32) (polls : Nat)
    (h : Copying k source p src dst c t) :
    Copied k source p c (copyLoop env src dst polls k t).1 (copyLoop env src dst polls k t).2 := by
  induction polls generalizing k t with
  | zero => exact ⟨(Effect.refl (s := none)).spares, (Effect.refl (s := none)).changes, nofun⟩
  | succ polls ih =>
    rcases h.reads with ⟨i, file, hget, hreads⟩
    rcases h.into with ⟨j, out, hout, hinto⟩
    rcases readFileHandle_spec hdev hget hreads chunk with
      ⟨k₁, file₁, hread, heffect, hhandles, hreads₁⟩
    have hinto₁ := hinto.effect heffect
    have hout₁ : k₁.handles[dst]? = some (j, out) := by
      rw [hhandles, List.getElem?_set_ne h.ne, hout]
    rw [copyLoop, hread, andThen_ok]
    by_cases hnil : (c.drop t).take chunk = []
    · rw [if_pos hnil]
      have hend : t = c.length := by
        apply Nat.le_antisymm h.le
        rw [List.take_eq_nil_iff, List.drop_eq_nil_iff] at hnil
        exact hnil.resolve_left (by decide)
      refine ⟨heffect.spares, heffect.changes, fun n hn => ⟨(Except.ok.inj hn).symm.trans hend, ?_⟩⟩
      rw [hend, List.take_length] at hinto₁
      exact ⟨j, out, hinto₁⟩
    · rw [if_neg hnil]
      set bytes := (c.drop t).take chunk with hbytes
      have hle : t + bytes.length ≤ c.length := by
        rw [hbytes, List.length_take, List.length_drop]
        have hmin := Nat.min_le_right chunk (c.length - t)
        have ht := h.le
        omega
      have htake : c.take t ++ bytes = c.take (t + bytes.length) := by
        rw [List.take_add, hbytes, List.take_eq_take_min (i := chunk), ← List.length_take]
        simp
      have hshort : (c.take t).length + bytes.length ≤ c.length := by
        rw [List.length_take_of_le h.le]
        exact hle
      have hwrote := hinto₁.write hdev hout₁ bytes fun fs device target hp =>
        hshort.trans_lt (hlimit fs device target hp)
      rw [htake] at hwrote
      revert hwrote
      rcases k₁.writeFileHandle env dst bytes with ⟨k₂, result⟩
      intro hwrote
      have hspares₁ : Spares source k₁ k₂ := hwrote.spares source rfl
      have hspares : Spares source k k₂ := heffect.spares.trans hspares₁
      have hchanges : Changes p k k₂ := heffect.changes.trans hwrote.changes
      cases result with
      | error e => exact ⟨hspares, hchanges, nofun⟩
      | ok reply =>
        rw [andThen_ok]
        rcases hwrote.file with ⟨out₂, hset, hinto₂⟩
        dsimp only at hset
        have hlt : dst < k₁.handles.length := (List.getElem?_eq_some_iff.mp hout₁).1
        have hsrc : src < k.handles.length := (List.getElem?_eq_some_iff.mp hget).1
        refine (ih ⟨h.ne, hle, ⟨i, file₁, ?_, hreads₁.spared hspares₁⟩, ⟨j, out₂, ?_,
          hinto₂ reply rfl⟩⟩).after hspares hchanges
        · rw [hset, List.getElem?_set_ne (Ne.symm h.ne), hhandles, List.getElem?_set_self hsrc]
        · rw [hset, List.getElem?_set_self hlt]

def contentOf (k : Plain E) (name : Name) : Except FsError (List UInt8) :=
  k.content (resolvePath k.cwd name)

/-- The file is copied, or the source is left as it was. -/
def Copies (env : Env (ramsDriver.sum E) Memory) (k : Plain E) (polls : Nat)
    (source dest : Name) : Prop :=
  match k.copyFile env polls source dest with
  | (k', .ok n) => ∃ c, k.contentOf source = .ok c ∧ n = c.length ∧ k'.contentOf dest = .ok c ∧
      k'.contentOf source = .ok c
  | (k', .error _) => k'.contentOf source = k.contentOf source

theorem Spares.contentOf_eq {name : Name} (h : Spares (resolvePath k.cwd name) k k') :
    k'.contentOf name = k.contentOf name := by
  rw [contentOf, contentOf, h.cwd, h.content_eq]

theorem openFile_root (hdev : env.dev = answering) {name : Name} {e : FsError}
    (hres : resolveFs k.mounts (resolvePath k.cwd name) = .error e)
    (hdata : k.ram.fs.dataAt (RamFs.normalizePath (resolvePath k.cwd name)) = some c) :
    ∃ k₁, k.openFile env name = (k₁, .ok k.handles.length) ∧ Effect none k k₁ ∧
      k₁.handles = k.handles ++ [(k.mounts.length,
        .ofRam .root ⟨RamFs.normalizePath (resolvePath k.cwd name), 0, true⟩)] := by
  have hopen := vfsOpen_missing hdev hres
  rcases hopen.failed e rfl with ⟨herror, hhandles⟩
  have heffect := hopen.effect
  rw [openFile]
  revert heffect herror hhandles
  rcases k.vfsOpen env (resolvePath k.cwd name) with ⟨k₀, result⟩
  rintro herror hhandles heffect
  dsimp only at heffect herror hhandles
  subst herror
  rw [resolveFs_error hres, orRam.eq_def]
  have hfs : k₀.ram.fs = k.ram.fs := heffect.rams .root (by simp)
  rw [← hfs] at hdata
  dsimp only
  rw [ramOpen_of_dataAt hdata]
  refine ⟨_, by rw [hhandles], heffect.trans (effect_withOpen _ _), ?_⟩
  rw [withOpen, hhandles, heffect.mounts]

theorem copyFile_onto_itself (hdev : env.dev = answering) (polls : Nat) {name dest : Name}
    {e : RamFsEntry} {err : FsError}
    (hsame : resolvePath k.cwd dest = resolvePath k.cwd name)
    (hres : resolveFs k.mounts (resolvePath k.cwd name) = .error err)
    (htree : RamFs.Tree k.ram.fs.entries) (he : e ∈ k.ram.fs.entries)
    (hname : e.name = RamFs.normalizePath (resolvePath k.cwd name))
    (hfile : e.fileType = .file) (hne : e.data ≠ []) : ¬Copies env k polls name dest := by
  have hdata : k.ram.fs.dataAt (RamFs.normalizePath (resolvePath k.cwd name)) = some e.data := by
    rw [← hname]
    exact k.ram.fs.dataAt_of_tree htree he hfile
  have hroot : ∀ k' : Plain E, k'.mounts = k.mounts → k'.cwd = k.cwd → ∀ data,
      k'.ram.fs.dataAt (RamFs.normalizePath (resolvePath k.cwd name)) = some data →
      k'.contentOf name = .ok data := by
    intro k' hmounts hcwd data hdata
    rw [contentOf, hcwd, content, mountsData, hmounts, hres, resolveFs_error hres, orRoot,
      RamFs.readData_eq, hdata]
  have hlost : ∀ k' : Plain E, ∀ result, k'.contentOf name = .ok [] →
      k.copyFile env polls name dest = (k', result) → ¬Copies env k polls name dest := by
    intro k' result hempty hrun hcopies
    have hbefore := hroot k rfl rfl _ hdata
    rw [Copies, hrun] at hcopies
    cases result with
    | error e =>
      dsimp only at hcopies
      rw [hempty, hbefore] at hcopies
      exact hne (Except.ok.inj hcopies).symm
    | ok n =>
      rcases hcopies with ⟨c, hc, -, -, hafter⟩
      rw [hbefore] at hc
      rw [hempty] at hafter
      exact hne ((Except.ok.inj hc).trans (Except.ok.inj hafter).symm)
  rcases openFile_root hdev hres hdata with ⟨k₁, hopen, heffect, hhandles⟩
  rcases vfsCreate_unmounted (k := k₁) hdev (heffect.mounts ▸ hres) with
    ⟨k₂, hcreate, heffect₂, hhandles₂⟩
  have hfs : k₂.ram.fs = k.ram.fs :=
    (heffect.trans heffect₂).rams .root (by simp)
  have hrecreate : ∃ fs', k₂.ramRecreate (resolvePath k.cwd name) =
      (k₂.withFile fs' (resolvePath k.cwd name), .ok k₂.handles.length) ∧
      fs'.dataAt (RamFs.normalizePath (resolvePath k.cwd name)) = some [] := by
    rcases k₂.ramRecreate_cases (resolvePath k.cwd name) with ⟨hunable, -⟩ | ⟨fs', hrun, -, hempty, -⟩
    · rw [hfs] at hunable
      exact absurd (k.ram.fs.creatable_remove _ htree he hname hfile) hunable
    · exact ⟨fs', hrun, hempty⟩
  rcases hrecreate with ⟨fs', hrecreate, hempty⟩
  set k₃ := k₂.withFile fs' (resolvePath k.cwd name) with hk₃
  have hmounts : k₃.mounts = k.mounts := heffect₂.mounts.trans heffect.mounts
  have hcwd : k₃.cwd = k.cwd := heffect₂.cwd.trans heffect.cwd
  have hrun : k.copyFile env polls name dest =
      copyLoop env k.handles.length k₂.handles.length polls k₃ 0 := by
    rw [copyFile, hopen, andThen_ok]
    dsimp only
    rw [heffect.cwd, hsame, hcreate, orRam.eq_def]
    dsimp only
    rw [hrecreate, andThen_ok]
  cases polls with
  | zero => exact hlost k₃ _ (hroot k₃ hmounts hcwd _ hempty) hrun
  | succ polls =>
    have hget : k₃.handles[k.handles.length]? = some (k.mounts.length,
        .ofRam .root ⟨RamFs.normalizePath (resolvePath k.cwd name), 0, true⟩) := by
      have hhandles₃ : k₃.handles = k₂.handles ++ [(k₂.mounts.length,
          .ofRam .root ⟨RamFs.normalizePath (resolvePath k.cwd name), 0, true⟩)] := rfl
      rw [hhandles₃, hhandles₂, hhandles, List.append_assoc,
        List.getElem?_append_right (Nat.le_refl _), Nat.sub_self]
      rfl
    have hreads : Reads k₃ (resolvePath k.cwd name)
        (.ofRam .root ⟨RamFs.normalizePath (resolvePath k.cwd name), 0, true⟩) [] 0 :=
      .ram (r := .root) (f := ⟨RamFs.normalizePath (resolvePath k.cwd name), 0, true⟩) .root hempty
    rcases readFileHandle_spec hdev hget hreads chunk with ⟨k₄, file, hread, heffect₄, -, -⟩
    have hfs₄ : k₄.ram.fs = fs' := heffect₄.rams .root (by simp)
    rw [copyLoop, hread, andThen_ok, List.drop_nil, List.take_nil, if_pos rfl] at hrun
    apply hlost k₄ _ _ hrun
    apply hroot k₄ (heffect₄.mounts.trans hmounts) (heffect₄.cwd.trans hcwd)
    rw [hfs₄]
    exact hempty

end Kernel

/-- The disks answer and the clock stands still. -/
def stillEnv : Env (ramsDriver.sum ramDriver) Memory where
  dev := answering
  clock _ := ⟨0, 0⟩
  sizeOf heap
    | .inl (i, f) => f.size (heap.1 i)
    | .inr f => f.size heap.2.fs

/-- A volume with the file `a` on `/mnt`, and a file `/a` in the root file system. -/
def twoFiles : Kernel.Plain ramDriver where
  mounts := [⟨"/mnt".toList, .fat32 Fat32.smallFs, false, 0⟩]
  handles := []
  ram := ⟨⟨[.newDir ['/'], { RamFsEntry.newFile "/a".toList with data := [1, 2, 3] }], true⟩, 0⟩
  heap := (fun _ => RamFs.new, ⟨RamFs.new, 0⟩)
  disks := fun _ => Fat32.logVolume
  ticks := 0
  cwd := ['/']

theorem twoFiles_mount {mount : MountPoint (withRam (ramsDriver.sum ramDriver))}
    (h : mount ∈ twoFiles.mounts) : mount = ⟨"/mnt".toList, .fat32 Fat32.smallFs, false, 0⟩ :=
  List.mem_singleton.mp h

theorem twoFiles_healthy : twoFiles.Healthy where
  sound mount hmem fs hfs := by
    rw [twoFiles_mount hmem] at hfs
    cases hfs
    exact ⟨⟨⟨by decide, by decide, by decide, by decide, by decide, by decide⟩,
      Fat32.smallFs_sane⟩, fun h => absurd rfl h.1⟩
  tree mount hmem fs hfs := by
    rw [twoFiles_mount hmem] at hfs
    cases hfs
    exact ⟨{2}, [[2], [3]], Fat32.logVolume_named⟩
  shared mount hmem mount' hmem' fs fs' hfs hfs' _ := by
    rw [twoFiles_mount hmem] at hfs
    rw [twoFiles_mount hmem'] at hfs'
    cases hfs
    cases hfs'
    rfl

theorem twoFiles_plain (path : Name) : Kernel.PlainPath twoFiles path := by
  intro idx mount target hres
  rw [twoFiles_mount (Kernel.mem_of_resolves hres)]
  exact .inl ⟨_, rfl⟩

theorem twoFiles_tree : RamFs.Tree twoFiles.ram.fs.entries := by
  have hnew : ∀ d ∈ RamFs.new.mount.entries, d.name ≠ "/a".toList := by decide
  exact RamFs.tree_mounted.append (e := { RamFsEntry.newFile "/a".toList with data := [1, 2, 3] })
    (by decide) hnew (by decide)

end Vibra.Vfs
