import Vibra.Fat32.FileWrite
import Vibra.Vfs.RamFsTree

/-! # The bytes of the files in memory

Every call of the file system in memory and of its open files, seen as a change of a map
from normalized paths to bytes.
-/

namespace Vibra.Vfs

open Fat32 (Name)

namespace RamFs

variable (fs : RamFs) (path : Name)

def dataAt (key : Name) : Option (List UInt8) := (fs.file? key).map (·.data)

theorem isSome_file? (key : Name) :
    (fs.file? key).isSome = fs.entries.any fun e => e.name == key && e.fileType == .file := by
  rw [file?, Bool.eq_iff_iff, List.find?_isSome, List.any_eq_true]

theorem openFile_eq : fs.openFile path =
    match fs.dataAt (normalizePath path) with
    | some _ => .ok ⟨normalizePath path, 0, true⟩
    | none => .error .notFound := by
  rw [openFile, ← isSome_file?, dataAt]
  cases fs.file? (normalizePath path) <;> rfl

theorem readData_eq : fs.readData path =
    match fs.dataAt (normalizePath path) with
    | some data => .ok data
    | none => .error .notFound := by
  rw [readData, dataAt]
  cases fs.file? (normalizePath path) <;> rfl

theorem dataAt_eq_none {key : Name} (h : ¬(fs.entries.any fun e => e.name == key) = true) :
    fs.dataAt key = none := by
  rw [dataAt, file?, Option.map_eq_none_iff, List.find?_eq_none]
  intro e he hfile
  apply h
  rw [List.any_eq_true]
  exact ⟨e, he, (Bool.and_eq_true_iff.mp hfile).1⟩

theorem dataAt_append {entries : List RamFsEntry} {e : RamFsEntry} {mounted mounted' : Bool}
    {key : Name} (h : e.name ≠ key) :
    dataAt ⟨entries ++ [e], mounted⟩ key = dataAt ⟨entries, mounted'⟩ key := by
  have hfind : [e].find? (fun e => e.name == key && e.fileType == .file) = none := by simp [h]
  rw [dataAt, dataAt, file?, file?, List.find?_append, hfind, Option.or_none]

/-- The checks of `create`. -/
def Creatable (key : Name) : Prop :=
  (fs.entries.any fun e => e.name == key) = false ∧ parentExists fs.entries key = true

def NoParent (key : Name) : Prop :=
  (fs.entries.any fun e => e.name == key) = false ∧ parentExists fs.entries key = false

theorem NoParent.dataAt_eq {key : Name} (h : fs.NoParent key) : fs.dataAt key = none :=
  fs.dataAt_eq_none (by simp [h.1])

theorem create_cases :
    (∃ e, fs.create path = (fs, .error e) ∧ ¬fs.Creatable (normalizePath path) ∧
      (e = .notFound → fs.NoParent (normalizePath path))) ∨
    ∃ fs', fs.create path = (fs', .ok ⟨normalizePath path, 0, true⟩) ∧
      fs.Creatable (normalizePath path) ∧ fs'.dataAt (normalizePath path) = some [] ∧
      ∀ key, key ≠ normalizePath path → fs'.dataAt key = fs.dataAt key := by
  unfold create
  extract_lets key
  by_cases hany : (fs.entries.any fun e => e.name == key) = true
  · left
    rw [if_pos hany]
    exact ⟨_, rfl, fun hable => Bool.false_ne_true (hable.1.symm.trans hany), nofun⟩
  · have hnone := fs.dataAt_eq_none hany
    have hfalse : (fs.entries.any fun e => e.name == key) = false := by simpa using hany
    rw [if_neg hany]
    by_cases hparent : (!parentExists fs.entries key) = true
    · left
      rw [if_pos hparent]
      have hno : parentExists fs.entries key = false := by simpa using hparent
      exact ⟨_, rfl, fun hable => Bool.false_ne_true (hno.symm.trans hable.2), fun _ => ⟨hfalse, hno⟩⟩
    · right
      rw [if_neg hparent]
      refine ⟨_, rfl, ⟨hfalse, by simpa using hparent⟩, ?_, fun key' hne => ?_⟩
      · have hfile : fs.file? key = none := by simpa [dataAt] using hnone
        rw [file?] at hfile
        rw [dataAt, file?, List.find?_append, hfile]
        simp [RamFsEntry.newFile, key]
      · exact dataAt_append (fun heq => hne heq.symm)

theorem dataAt_eraseIdx {entries : List RamFsEntry} {mounted : Bool} {pos : Nat} {key : Name}
    (h : ∀ e, entries[pos]? = some e → e.name ≠ key) :
    dataAt ⟨entries.eraseIdx pos, mounted⟩ key = dataAt ⟨entries, mounted⟩ key := by
  rw [dataAt, dataAt, file?, file?]
  congr 1
  induction entries generalizing pos with
  | nil => rfl
  | cons e entries ih =>
    cases pos with
    | zero =>
      have hne : e.name ≠ key := h e rfl
      rw [List.eraseIdx_zero, List.tail_cons, List.find?_cons_of_neg (by simp [hne])]
    | succ pos =>
      rw [List.eraseIdx_cons_succ, List.find?_cons, List.find?_cons, ih fun e he => h e (by simpa using he)]

theorem dataAt_remove {key : Name} (h : key ≠ normalizePath path) :
    (fs.remove path).1.dataAt key = fs.dataAt key := by
  unfold remove
  extract_lets target
  by_cases hroot : target = ['/']
  · rw [if_pos hroot]
  · rw [if_neg hroot]
    cases hfind : fs.entries.findIdx? fun e => e.name == target with
    | none => rfl
    | some pos =>
      dsimp only
      split
      · rfl
      · apply dataAt_eraseIdx
        intro e he hname
        rcases List.findIdx?_eq_some_iff_getElem.mp hfind with ⟨hlt, htarget, -⟩
        rw [List.getElem?_eq_getElem hlt, Option.some.injEq] at he
        rw [he, beq_iff_eq] at htarget
        exact h (hname.symm.trans htarget)

theorem parentExists_remove {key : Name}
    (h : parentExists (fs.remove path).1.entries key = true) :
    parentExists fs.entries key = true := by
  have hsub : (fs.remove path).1.entries.Sublist fs.entries := by
    unfold remove
    extract_lets target
    split
    · exact List.Sublist.refl _
    · split
      · exact List.Sublist.refl _
      · split
        · exact List.Sublist.refl _
        · exact List.eraseIdx_sublist _ _
  rw [parentExists, List.any_eq_true] at h ⊢
  rcases h with ⟨e, he, hdir⟩
  exact ⟨e, hsub.subset he, hdir⟩

theorem dataAt_of_tree (h : Tree fs.entries) {e : RamFsEntry} (he : e ∈ fs.entries)
    (hfile : e.fileType = .file) : fs.dataAt e.name = some e.data := by
  have hsome : (fs.file? e.name).isSome = true := by
    rw [isSome_file?, List.any_eq_true]
    exact ⟨e, he, by rw [beq_self_eq_true, hfile]; rfl⟩
  rcases Option.isSome_iff_exists.mp hsome with ⟨d, hd⟩
  have hfind : fs.entries.find? (fun d => d.name == e.name && d.fileType == .file) = some d := hd
  have hfound := List.find?_some hfind
  rw [Bool.and_eq_true_iff, beq_iff_eq] at hfound
  have hname := hfound.1
  rw [dataAt, hd, h.eq_of_name (List.mem_of_find?_eq_some hfind) he hname]
  rfl

theorem creatable_remove (h : Tree fs.entries) {e : RamFsEntry} (he : e ∈ fs.entries)
    (hname : e.name = normalizePath path) (hfile : e.fileType = .file) :
    (fs.remove path).1.Creatable (normalizePath path) := by
  have hroot : normalizePath path ≠ ['/'] := by
    intro hslash
    rcases h.root with ⟨d, hd, hdname, hdir⟩
    rw [h.eq_of_name he hd (hname.trans (hslash.trans hdname.symm)), hdir] at hfile
    cases hfile
  have hfind : ∃ pos, fs.entries.findIdx? (fun e => e.name == normalizePath path) = some pos ∧
      fs.entries[pos]? = some e := by
    cases hidx : fs.entries.findIdx? fun e => e.name == normalizePath path with
    | none =>
      rw [List.findIdx?_eq_none_iff] at hidx
      have hno := hidx e he
      rw [hname, beq_self_eq_true] at hno
      cases hno
    | some pos =>
      rcases exists_of_findIdx? fs hidx with ⟨d, hd, hdname⟩
      refine ⟨pos, rfl, ?_⟩
      rw [hd, h.eq_of_name (List.mem_of_getElem? hd) he (hdname.trans hname.symm)]
  rcases hfind with ⟨pos, hidx, hpos⟩
  have hafter : (fs.remove path).1.entries = fs.entries.eraseIdx pos := by
    rw [remove, if_neg hroot, hidx]
    dsimp only
    rw [hpos, Option.map_some, hfile, if_neg (by simp)]
  have hmem := h.mem_eraseIdx hpos
  rw [Creatable, hafter]
  constructor
  · rw [List.any_eq_false]
    intro d hd hdname
    rcases (hmem d).mp hd with ⟨hd, hne⟩
    rw [beq_iff_eq] at hdname
    exact hne (h.eq_of_name hd he (hdname.trans hname.symm))
  · rcases h.parent e he (hname ▸ hroot) with ⟨d, hd, hdname, hdir⟩
    rw [parentExists_iff]
    refine ⟨d, (hmem d).mpr ⟨hd, ?_⟩, hname ▸ hdname, hdir⟩
    rintro rfl
    rw [hfile] at hdir
    cases hdir

theorem dataAt_setData {key : Name} {idx : Nat} (h : fs.fileIdx key = some idx)
    (data : List UInt8) (key' : Name) :
    (fs.setData idx data).dataAt key' = if key' = key then some data else fs.dataAt key' := by
  rcases fs with ⟨entries, mounted⟩
  rw [fileIdx] at h
  rw [setData, dataAt, dataAt, file?, file?]
  dsimp only at h ⊢
  induction entries generalizing idx with
  | nil => cases h
  | cons e entries ih =>
    rw [List.findIdx?_cons] at h
    by_cases he : (e.name == key && e.fileType == .file) = true
    · rw [if_pos he, Option.some.injEq] at h
      subst h
      rcases Bool.and_eq_true_iff.mp he with ⟨hname, hfile⟩
      rw [beq_iff_eq] at hname
      rw [List.modify_zero_cons, List.find?_cons, List.find?_cons]
      by_cases hkey : key' = key
      · subst hkey
        simp [hname, hfile]
      · rw [if_neg hkey]
        have hne : (e.name == key') = false := beq_false_of_ne fun heq => hkey (heq.symm.trans hname)
        simp [hne]
    · rw [if_neg he, Option.map_eq_some_iff] at h
      rcases h with ⟨idx, h, rfl⟩
      rw [List.modify_succ_cons, List.find?_cons, List.find?_cons]
      cases hfind : e.name == key' && e.fileType == .file with
      | false => exact ih h
      | true =>
        have hkey : key' ≠ key := fun heq => he (heq ▸ hfind)
        rw [if_neg hkey]

theorem exists_fileIdx {key : Name} {data : List UInt8} (h : fs.dataAt key = some data) :
    ∃ idx e, fs.fileIdx key = some idx ∧ fs.file? key = some e ∧ e.data = data := by
  rcases Option.map_eq_some_iff.mp h with ⟨e, he, hdata⟩
  cases hidx : fs.fileIdx key with
  | some idx => exact ⟨idx, e, rfl, he, hdata⟩
  | none =>
    rw [fileIdx, List.findIdx?_eq_none_iff] at hidx
    have hfile := List.find?_some he
    rw [hidx e (List.mem_of_find?_eq_some he)] at hfile
    cases hfile

end RamFs

namespace RamFsFile

variable {fs : RamFs} {f : RamFsFile} {data : List UInt8}

theorem read_of_dataAt (h : fs.dataAt f.path = some data) (len : Nat) :
    f.read fs len =
      ({ f with position := f.position + ((data.drop f.position).take len).length },
        .ok ((data.drop f.position).take len)) := by
  rcases fs.exists_fileIdx h with ⟨-, e, -, he, rfl⟩
  rw [read, he]
  dsimp only
  by_cases hend : e.data.length ≤ f.position
  · rw [if_pos hend, List.drop_eq_nil_of_le hend, List.take_nil]
    rfl
  · have htake : (e.data.drop f.position).take (min len (e.data.length - f.position)) =
        (e.data.drop f.position).take len := by
      rw [← List.length_drop]
      exact List.take_eq_take_min.symm
    rw [if_neg hend, List.length_take, List.length_drop, htake]

theorem write_at_end (h : fs.dataAt f.path = some data) (hend : f.position = data.length)
    (hw : f.writable = true) (buf : List UInt8) :
    ∃ fs', f.write fs buf =
        (fs', { f with position := (data ++ buf).length }, .ok buf.length) ∧
      ∀ key, fs'.dataAt key = if key = f.path then some (data ++ buf) else fs.dataAt key := by
  rcases fs.exists_fileIdx h with ⟨idx, e, hidx, he, rfl⟩
  have hoverlay : Fat32.Fat32File.overlay e.data f.position buf = e.data ++ buf := by
    rw [hend]
    exact Fat32.overlay_length _ _
  refine ⟨fs.setData idx (e.data ++ buf), ?_, fs.dataAt_setData hidx _⟩
  rw [write, hw, hidx, he, List.length_append, ← hend]
  simp [hoverlay]

end RamFsFile

end Vibra.Vfs
