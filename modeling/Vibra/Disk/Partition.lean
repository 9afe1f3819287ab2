import Vibra.Fat32.Volume

/-! # Windows onto a disk

A partition is a window of 512-byte sectors of its parent. Three calls translate
sector numbers; the parent records what it is asked for.
-/

namespace Vibra.Disk

open Fat32 (FsError)

/-- A disk as the block layer sees it: sector numbers count 512 bytes. -/
structure DiskIo (σ : Type) where
  read : σ → Nat → Nat → σ × Except FsError (List UInt8)
  write : σ → Nat → List UInt8 → σ × Except FsError Unit
  sectorSize : Nat

/-- `checked_add` and `checked_mul` on `u64`. -/
def checked (n : Nat) : Option Nat := if n < 2 ^ 64 then some n else none

/-- `saturating_add` and `saturating_mul` on a number of `w` bits. -/
def saturating (w n : Nat) : Nat := min n (2 ^ w - 1)

/-- What the parent is asked to read or write: the first sector and a number of bytes. -/
structure Request where
  sector : Nat
  len : Nat
deriving DecidableEq

/-- The parent with its requests in order. -/
structure Parent (σ : Type) where
  state : σ
  requests : List Request

variable {σ : Type}

def Parent.read (inner : DiskIo σ) (p : Parent σ) (sector len : Nat) :
    Parent σ × Except FsError (List UInt8) :=
  let (state, result) := inner.read p.state sector len
  (⟨state, p.requests ++ [⟨sector, len⟩]⟩, result)

def Parent.write (inner : DiskIo σ) (p : Parent σ) (sector : Nat) (data : List UInt8) :
    Parent σ × Except FsError Unit :=
  let (state, result) := inner.write p.state sector data
  (⟨state, p.requests ++ [⟨sector, data.length⟩]⟩, result)

/-- The window: `offset` and `sectors` count 512 bytes, whatever the device uses. -/
structure PartitionDisk where
  offset : Nat
  sectors : Nat

namespace PartitionDisk

def check (d : PartitionDisk) (sector len : Nat) : Except FsError Unit :=
  if len = 0 ∨ len % 512 ≠ 0 then .error .invalidPath
  else
    match checked (sector + len / 512) with
    | none => .error .ioError
    | some stop => if d.sectors < stop then .error .ioError else .ok ()

def read (d : PartitionDisk) (inner : DiskIo σ) (p : Parent σ) (sector len : Nat) :
    Parent σ × Except FsError (List UInt8) :=
  match d.check sector len with
  | .error e => (p, .error e)
  | .ok () =>
    match checked (d.offset + sector) with
    | none => (p, .error .ioError)
    | some target => p.read inner target len

def write (d : PartitionDisk) (inner : DiskIo σ) (p : Parent σ) (sector : Nat)
    (data : List UInt8) : Parent σ × Except FsError Unit :=
  match d.check sector data.length with
  | .error e => (p, .error e)
  | .ok () =>
    match checked (d.offset + sector) with
    | none => (p, .error .ioError)
    | some target => p.write inner target data

/-- The byte address of a logical sector of the device; `none` on overflow. -/
def lbaByte (d : PartitionDisk) (sectorSize lba : Nat) : Option Nat := do
  let base ← checked (d.offset * 512)
  let rel ← checked (lba * max sectorSize 512)
  checked (base + rel)

/-- `read_lba`: the number counts logical sectors of the device. -/
def readLba (d : PartitionDisk) (inner : DiskIo σ) (p : Parent σ) (lba len : Nat) :
    Parent σ × Except FsError (List UInt8) :=
  match d.lbaByte inner.sectorSize lba with
  | none => (p, .error .ioError)
  | some byte =>
    if byte % 512 ≠ 0 then (p, .error .invalidPath) else p.read inner (byte / 512) len

end PartitionDisk

inductive WindowCall where
  | read (sector len : Nat)
  | write (sector : Nat) (data : List UInt8)
  | readLba (lba len : Nat)

/-- The parent after a call, and whether the call has succeeded. -/
def PartitionDisk.exec (d : PartitionDisk) (inner : DiskIo σ) (p : Parent σ) :
    WindowCall → Parent σ × Bool
  | .read sector len =>
    let (p, result) := d.read inner p sector len
    (p, result.toBool)
  | .write sector data =>
    let (p, result) := d.write inner p sector data
    (p, result.toBool)
  | .readLba lba len =>
    let (p, result) := d.readLba inner p lba len
    (p, result.toBool)

def PartitionDisk.Holds (d : PartitionDisk) (r : Request) : Prop :=
  ∀ s, r.sector ≤ s → s < r.sector + (r.len + 511) / 512 → d.offset ≤ s ∧ s < d.offset + d.sectors

/-- One call: it asks the parent for sectors of the window, or it fails and asks nothing. -/
def PartitionDisk.Confined (d : PartitionDisk) (inner : DiskIo σ) (p : Parent σ)
    (call : WindowCall) : Prop :=
  (∃ r, (d.exec inner p call).1.requests = p.requests ++ [r] ∧ d.Holds r) ∨
    ((d.exec inner p call).1 = p ∧ (d.exec inner p call).2 = false)

/-- All calls of a sequence, one after the other. -/
def PartitionDisk.AllConfined (d : PartitionDisk) (inner : DiskIo σ) :
    Parent σ → List WindowCall → Prop
  | _, [] => True
  | p, call :: rest => d.Confined inner p call ∧ d.AllConfined inner (d.exec inner p call).1 rest

/-- The bytes from a logical sector on lie in the window, or `read_lba` has no
address to ask the parent for. -/
def PartitionDisk.LbaFits (d : PartitionDisk) (sectorSize lba len : Nat) : Prop :=
  match d.lbaByte sectorSize lba with
  | none => True
  | some byte =>
    byte % 512 ≠ 0 ∨ len = 0 ∨ lba * max sectorSize 512 / 512 + (len + 511) / 512 ≤ d.sectors

namespace PartitionDisk

variable {d : PartitionDisk} {inner : DiskIo σ} {p : Parent σ}

theorem checked_eq_some {n k : Nat} (h : checked n = some k) : k = n := by
  unfold checked at h
  split at h
  · exact (Option.some.inj h).symm
  · cases h

theorem check_ok {sector len : Nat} (h : d.check sector len = .ok ()) :
    len % 512 = 0 ∧ sector + len / 512 ≤ d.sectors := by
  unfold check at h
  split at h
  · cases h
  next hlen =>
    cases hc : checked (sector + len / 512) with
    | none =>
      rw [hc] at h
      cases h
    | some stop =>
      rw [hc] at h
      dsimp only at h
      split at h
      · cases h
      next hstop =>
        rw [checked_eq_some hc] at hstop
        omega

theorem holds_of_check {sector len : Nat} (h : d.check sector len = .ok ()) :
    d.Holds ⟨d.offset + sector, len⟩ := by
  obtain ⟨hlen, hle⟩ := check_ok h
  intro s hlo hhi
  dsimp only at hlo hhi
  omega

theorem confined_of_error {call : WindowCall} (h : d.exec inner p call = (p, false)) :
    d.Confined inner p call := by
  refine Or.inr ?_
  rw [h]
  exact ⟨rfl, rfl⟩

theorem read_confined (sector len : Nat) : d.Confined inner p (.read sector len) := by
  cases hcheck : d.check sector len with
  | error e => exact confined_of_error (by simp only [exec, read, hcheck]; rfl)
  | ok u =>
    cases htarget : checked (d.offset + sector) with
    | none => exact confined_of_error (by simp only [exec, read, hcheck, htarget]; rfl)
    | some target =>
      obtain rfl := checked_eq_some htarget
      refine Or.inl ⟨⟨d.offset + sector, len⟩, ?_, holds_of_check hcheck⟩
      simp only [exec, read, hcheck, htarget]
      rfl

theorem write_confined (sector : Nat) (data : List UInt8) :
    d.Confined inner p (.write sector data) := by
  cases hcheck : d.check sector data.length with
  | error e => exact confined_of_error (by simp only [exec, write, hcheck]; rfl)
  | ok u =>
    cases htarget : checked (d.offset + sector) with
    | none => exact confined_of_error (by simp only [exec, write, hcheck, htarget]; rfl)
    | some target =>
      obtain rfl := checked_eq_some htarget
      refine Or.inl ⟨⟨d.offset + sector, data.length⟩, ?_, holds_of_check hcheck⟩
      simp only [exec, write, hcheck, htarget]
      rfl

theorem lbaByte_eq_some {sectorSize lba byte : Nat} (h : d.lbaByte sectorSize lba = some byte) :
    byte = d.offset * 512 + lba * max sectorSize 512 := by
  simp only [lbaByte, Option.bind_eq_bind, Option.bind_eq_some_iff] at h
  obtain ⟨base, hbase, rel, hrel, hsum⟩ := h
  rw [checked_eq_some hsum, checked_eq_some hbase, checked_eq_some hrel]

theorem readLba_confined (lba len : Nat) :
    d.Confined inner p (.readLba lba len) ↔ d.LbaFits inner.sectorSize lba len := by
  unfold LbaFits
  cases hbyte : d.lbaByte inner.sectorSize lba with
  | none =>
    exact iff_of_true (confined_of_error (by simp only [exec, readLba, hbyte]; rfl)) trivial
  | some byte =>
    have hsum := lbaByte_eq_some hbyte
    dsimp only
    by_cases hmod : byte % 512 ≠ 0
    · refine iff_of_true (confined_of_error ?_) (Or.inl hmod)
      simp only [exec, readLba, hbyte, if_pos hmod]
      rfl
    · have hnew : (d.exec inner p (.readLba lba len)).1.requests =
          p.requests ++ [⟨byte / 512, len⟩] := by
        simp only [exec, readLba, hbyte, if_neg hmod]
        rfl
      rw [not_ne_iff] at hmod
      have hholds : d.Holds ⟨byte / 512, len⟩ ↔
          len = 0 ∨ lba * max inner.sectorSize 512 / 512 + (len + 511) / 512 ≤ d.sectors := by
        constructor
        · intro h
          rcases Nat.eq_zero_or_pos len with hlen | hlen
          · exact Or.inl hlen
          · have := h (byte / 512 + ((len + 511) / 512 - 1)) (by simp only; omega)
              (by simp only; omega)
            omega
        · rintro h s hlo hhi
          dsimp only at hlo hhi
          omega
      constructor
      · rintro (⟨r, hr, hh⟩ | ⟨hsame, -⟩)
        · obtain rfl : ⟨byte / 512, len⟩ = r := by
            rw [hnew] at hr
            simpa using hr
          exact Or.inr (hholds.mp hh)
        · have hlen := congrArg (fun q => q.requests.length) hsame
          simp [hnew] at hlen
      · intro h
        exact Or.inl ⟨_, hnew, hholds.mpr (h.resolve_left (by omega))⟩

/-- A sequence of calls keeps to the window exactly when every logical sector that
`read_lba` is asked for lies in it. -/
theorem window_confines (d : PartitionDisk) (inner : DiskIo σ) (p : Parent σ)
    (calls : List WindowCall) :
    d.AllConfined inner p calls ↔
      ∀ lba len, .readLba lba len ∈ calls → d.LbaFits inner.sectorSize lba len := by
  induction calls generalizing p with
  | nil => simp [AllConfined]
  | cons call rest ih =>
    rw [AllConfined, ih]
    cases call with
    | read sector len => simp [read_confined]
    | write sector data => simp [write_confined]
    | readLba lba len =>
      rw [readLba_confined]
      constructor
      · rintro ⟨hfirst, hrest⟩ lba' len' hmem
        rcases List.mem_cons.mp hmem with heq | hmem
        · cases heq
          exact hfirst
        · exact hrest lba' len' hmem
      · intro h
        exact ⟨h lba len List.mem_cons_self, fun lba' len' hmem =>
          h lba' len' (List.mem_cons_of_mem _ hmem)⟩

/-- A disk of 512-byte sectors that only answers with zeros. -/
def zeroDisk : DiskIo Unit where
  read s _ len := (s, .ok (List.replicate len 0))
  write s _ _ := (s, .ok ())
  sectorSize := 512

/-- Logical sector 1000 of a window of 100 sectors is read from the parent. -/
theorem window_confines_fails :
    ((PartitionDisk.mk 2048 100).exec zeroDisk ⟨(), []⟩ (.readLba 1000 512)).1.requests =
        [⟨3048, 512⟩] ∧
      ¬ (PartitionDisk.mk 2048 100).AllConfined zeroDisk ⟨(), []⟩ [.readLba 1000 512] := by
  refine ⟨by decide, fun h => ?_⟩
  obtain ⟨hcall, -⟩ := h
  have hfits := @readLba_confined _ ⟨2048, 100⟩ zeroDisk ⟨(), []⟩ 1000 512
  have hbyte : (PartitionDisk.mk 2048 100).lbaByte 512 1000 = some 1560576 := by decide
  simp [LbaFits, zeroDisk, hbyte] at hfits
  exact hfits hcall

end PartitionDisk

end Vibra.Disk
