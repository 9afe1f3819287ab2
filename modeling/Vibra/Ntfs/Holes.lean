import Vibra.Ntfs.DataRuns
import Vibra.Ntfs.Driver

/-! # Reading with holes

A range of the content is read cluster by cluster, each byte from where its run lies.
-/

namespace Vibra.Ntfs

open Lib (Outcome Bytes RawDisk Memory)
open Lib.Outcome
open Fat32 (FsError)

/-! ## One turn of the loop -/

section Reading

variable {cs offset total sectors : Nat} {runs : List Run} {m : Memory} {disk : RawDisk}

theorem readRunsLoop_step (h : Readable cs runs offset total) {fuel : Nat} {out : Bytes} {run : Run}
    (hout : out.length < total) (hrun : runAt runs ((offset + out.length) / cs) = some run)
    (hfit : sectorAt cs run (offset + out.length) < 2 ^ 64) :
    readRunsLoop disk cs (max (cs / 512) 1) runs offset total (fuel + 1) out =
      ofOption .ioError (bytesAt disk cs run (offset + out.length) (total - out.length)) >>=
        fun tmp => readRunsLoop disk cs (max (cs / 512) 1) runs offset total fuel
          (out ++ (tmp.drop ((offset + out.length) % cs % 512)).take
            (takeAt cs (offset + out.length) (total - out.length))) := by
  have hcs := h.clusterSize
  have hrange := h.range
  have hne : cs ≠ 0 := by omega
  have hmod := Nat.mod_lt (offset + out.length) hcs.1
  obtain ⟨_, hvcn⟩ := runAt_spec hrun
  have hlcn : run.lcn + ((offset + out.length) / cs - run.vcn) ≤
      (run.lcn + ((offset + out.length) / cs - run.vcn)) * max (cs / 512) 1 :=
    Nat.le_mul_of_pos_right _ (by omega)
  unfold sectorAt at hfit
  have htake : takeAt cs (offset + out.length) (total - out.length) ≤ cs := by
    unfold takeAt
    omega
  rw [readRunsLoop, if_pos hout]
  simp only [add, sub, mul, div, rem, if_neg hne, runFor_eq h.runs, ok_bind]
  rw [if_pos (by omega), ok_bind, hrun]
  dsimp only
  rw [if_pos hvcn, ok_bind, if_pos (by omega), ok_bind, if_pos (by omega), ok_bind,
    if_pos (by omega), ok_bind, if_pos hfit, ok_bind, if_pos (by omega), ok_bind,
    if_pos (by omega), ok_bind, if_pos (by omega), ok_bind]
  change ofOption FsError.ioError (bytesAt disk cs run (offset + out.length)
    (total - out.length)) >>= _ = _
  cases hbytes : bytesAt disk cs run (offset + out.length) (total - out.length) with
  | none => rfl
  | some tmp =>
    have hlen := disk.length_read _ _ _ hbytes
    unfold takeAt at hlen
    simp only [ofOption, ok_bind]
    rw [slice_of_le (by omega), ok_bind, Nat.add_sub_cancel_left]
    rfl

def Leads (cs : Nat) (runs : List Run) (offset total : Nat) (addr : Nat → Nat) : Prop :=
  ∀ p, offset ≤ p → p < offset + total → ∃ run, runAt runs (p / cs) = some run ∧
    (run.lcn + (p / cs - run.vcn)) * cs + p % cs = addr p

theorem sectorAt_addr (hdvd : 512 ∣ cs) (hcs : 0 < cs) {run : Run} {p a : Nat}
    (ha : (run.lcn + (p / cs - run.vcn)) * cs + p % cs = a) :
    512 * sectorAt cs run p + p % cs % 512 = a := by
  obtain ⟨q, rfl⟩ := hdvd
  have hq : max (512 * q / 512) 1 = q := by omega
  have hmul : 512 * ((run.lcn + (p / (512 * q) - run.vcn)) * q) =
      (run.lcn + (p / (512 * q) - run.vcn)) * (512 * q) := Nat.mul_left_comm ..
  rw [sectorAt, hq, Nat.mul_add, hmul]
  omega

theorem Leads.next {addr : Nat → Nat} (h : Leads cs runs offset total addr) {p i : Nat}
    (hlo : offset ≤ p) (hi : p % cs + i < cs) (hhi : p + i < offset + total) :
    addr (p + i) = addr p + i := by
  have hcs : 0 < cs := by omega
  have hdm := Nat.div_add_mod p cs
  have hsum : p + i = cs * (p / cs) + (p % cs + i) := by omega
  have hdiv : (p + i) / cs = p / cs := by
    rw [hsum, Nat.mul_add_div hcs, Nat.div_eq_of_lt hi, Nat.add_zero]
  have hmod : (p + i) % cs = p % cs + i := by
    rw [hsum, Nat.mul_add_mod, Nat.mod_eq_of_lt hi]
  obtain ⟨run, hrun, haddr⟩ := h p hlo (by omega)
  obtain ⟨run', hrun', haddr'⟩ := h (p + i) (by omega) hhi
  rw [hdiv, hrun] at hrun'
  obtain rfl := Option.some.inj hrun'
  rw [hdiv, hmod] at haddr'
  omega

def gathered (m : Memory) (addr : Nat → Nat) (offset total : Nat) : Bytes :=
  (List.range' offset total).map fun p => m (addr p)

theorem gathered_add (addr : Nat → Nat) (offset n k : Nat) :
    gathered m addr offset (n + k) =
      gathered m addr offset n ++ gathered m addr (offset + n) k := by
  simp only [gathered, ← List.map_append, List.range'_append_1]

theorem Leads.gathered {addr : Nat → Nat} (h : Leads cs runs offset total addr) {p n : Nat}
    (hlo : offset ≤ p) (hn : p % cs + n ≤ cs) (hhi : p + n ≤ offset + total) :
    gathered m addr p n = m.slice (addr p) n := by
  unfold Ntfs.gathered Memory.slice
  rw [List.range'_eq_map_range, List.map_map]
  apply List.map_congr_left
  intro i hi
  have hi := List.mem_range.mp hi
  change m (addr (p + i)) = m (addr p + i)
  rw [h.next hlo (by omega) (by omega)]

theorem readRunsLoop_eq_ok_iff (h : Readable cs runs offset total) (hdvd : 512 ∣ cs)
    (hsectors : sectors ≤ 2 ^ 64) {addr : Nat → Nat} (haddr : Leads cs runs offset total addr)
    {fuel : Nat} {out data : Bytes} (hle : out.length ≤ total) (hfuel : total - out.length < fuel) :
    readRunsLoop (RawDisk.ofMemory sectors m) cs (max (cs / 512) 1) runs offset total fuel out =
        .ok data ↔
      (∀ p, offset + out.length ≤ p → p < offset + total → addr p < 512 * sectors) ∧
        data = out ++ gathered m addr (offset + out.length) (total - out.length) := by
  induction fuel generalizing out with
  | zero => omega
  | succ fuel ih =>
    by_cases hout : out.length < total
    · have hcs := h.clusterSize.1
      have hpos : 0 < takeAt cs (offset + out.length) (total - out.length) :=
        takeAt_pos hcs (by omega)
      have htake : takeAt cs (offset + out.length) (total - out.length) ≤ total - out.length :=
        min_le_left _ _
      have hcluster : (offset + out.length) % cs +
          takeAt cs (offset + out.length) (total - out.length) ≤ cs := by
        have hmod := Nat.mod_lt (offset + out.length) hcs
        unfold takeAt
        omega
      obtain ⟨run, hrun, ha⟩ := haddr (offset + out.length) (by omega) (by omega)
      have hsector := sectorAt_addr hdvd hcs ha
      have hchunk := haddr.gathered (m := m) (Nat.le_add_right offset out.length) hcluster (by omega)
      have hrest := gathered_add (m := m) addr (offset + out.length)
        (takeAt cs (offset + out.length) (total - out.length))
        (total - out.length - takeAt cs (offset + out.length) (total - out.length))
      rw [Nat.add_sub_cancel' htake] at hrest
      generalize htk : takeAt cs (offset + out.length) (total - out.length) = take at *
      by_cases hon : addr (offset + out.length) + take ≤ 512 * sectors
      · have hread : bytesAt (RawDisk.ofMemory sectors m) cs run (offset + out.length)
            (total - out.length) = some (m.slice (512 * sectorAt cs run (offset + out.length))
              (((offset + out.length) % cs % 512 + take + 511) / 512 * 512)) := by
          rw [bytesAt, htk]
          exact RawDisk.read_ofMemory m (by omega)
        rw [readRunsLoop_step h hout hrun (by omega), hread, ofOption, ok_bind, htk,
          Memory.drop_slice (by omega), Memory.take_slice (by omega), hsector, ← hchunk,
          ih (by rw [List.length_append, hchunk, Memory.length_slice]; omega)
            (by rw [List.length_append, hchunk, Memory.length_slice]; omega),
          List.length_append, hchunk, Memory.length_slice, ← hchunk, List.append_assoc,
          ← Nat.add_assoc, ← Nat.sub_sub, ← hrest]
        refine and_congr_left fun _ => ⟨fun hall p hlo hhi => ?_, fun hall p hlo hhi => ?_⟩
        · by_cases hin : p < offset + out.length + take
          · have hnext := haddr.next (p := offset + out.length) (i := p - (offset + out.length))
              (by omega) (by omega) (by omega)
            rw [Nat.add_sub_cancel' hlo] at hnext
            omega
          · exact hall p (by omega) hhi
        · exact hall p (by omega) hhi
      · constructor
        · intro hdata
          have hsafe : (readRunsLoop (RawDisk.ofMemory sectors m) cs (max (cs / 512) 1) runs offset
              total (fuel + 1) out).Ensures fun _ => True := by
            rw [hdata]
            trivial
          have hfit := ((readRunsLoop_ensures_iff h hout).mp hsafe run hrun).1
          have hread : bytesAt (RawDisk.ofMemory sectors m) cs run (offset + out.length)
              (total - out.length) = none := by
            rw [bytesAt, htk]
            exact if_neg (by omega)
          rw [readRunsLoop_step h hout hrun hfit, hread] at hdata
          cases hdata
        · rintro ⟨hall, -⟩
          have hnext := haddr.next (p := offset + out.length) (i := take - 1)
            (by omega) (by omega) (by omega)
          have hlast := hall (offset + out.length + (take - 1)) (by omega) (by omega)
          omega
    · have hzero : total - out.length = 0 := by omega
      rw [readRunsLoop, if_neg hout, hzero]
      constructor
      · intro hdata
        refine ⟨fun p hlo hhi => by omega, ?_⟩
        rw [← Outcome.ok.inj hdata]
        exact (List.append_nil out).symm
      · rintro ⟨-, rfl⟩
        exact congrArg Outcome.ok (List.append_nil out).symm

theorem readRunsInto_eq_ok_iff (h : Readable cs runs offset total) (hdvd : 512 ∣ cs)
    (hsectors : sectors ≤ 2 ^ 64) {addr : Nat → Nat} (haddr : Leads cs runs offset total addr)
    (hne : runs ≠ []) {data : Bytes} :
    readRunsInto (RawDisk.ofMemory sectors m) cs runs offset total = .ok data ↔
      (∀ p, offset ≤ p → p < offset + total → addr p < 512 * sectors) ∧
        data = gathered m addr offset total := by
  have hcs := h.clusterSize.1
  have hentry : ¬ (cs = 0 ∨ runs = []) := by
    rintro (h0 | h0)
    · omega
    · exact hne h0
  rw [readRunsInto, if_neg hentry]
  exact readRunsLoop_eq_ok_iff h hdvd hsectors haddr (Nat.zero_le total) (Nat.lt_succ_self total)

theorem Leads.mono {addr : Nat → Nat} (h : Leads cs runs offset total addr) {offset' total' : Nat}
    (hlo : offset ≤ offset') (hhi : offset' + total' ≤ offset + total) :
    Leads cs runs offset' total' addr :=
  fun p hp hp' => h p (by omega) (by omega)

end Reading

/-- Reads of so many bytes each, one after the other. -/
def NtfsFile.readPieces (file : NtfsFile) : List Nat → Res Bytes
  | [] => .ok []
  | n :: rest => do
      let (file, piece) ← file.read n
      let more ← readPieces file rest
      return piece ++ more

theorem NtfsFile.read_zero (file : NtfsFile) : file.read 0 = .ok (file, []) := if_pos (.inr rfl)

theorem NtfsFile.read_eq (file : NtfsFile) {n : Nat} (hpos : 0 < n)
    (hle : file.position + n ≤ file.storage.len) (hlt : file.storage.len < 2 ^ 64) :
    file.read n = do
      let data ← file.content n
      return ({ file with position := file.position + n }, data) := by
  have hmin : min n (file.storage.len - file.position) = n := by omega
  have hinside : ¬ (file.position ≥ file.storage.len ∨ n = 0) := by omega
  simp only [NtfsFile.read, hmin]
  rw [if_neg hinside, add_of_lt (by omega)]
  rfl

section Pieces

variable {cs size sectors : Nat} {runs : List Run} {m : Memory} {addr : Nat → Nat}

theorem readPieces_eq (hcs : 0 < cs ∧ cs < 2 ^ 32) (hruns : RunsOk runs) (hdvd : 512 ∣ cs)
    (hsectors : sectors ≤ 2 ^ 64) (hsize : size < 2 ^ 64) (hne : runs ≠ []) {pieces : List Nat}
    {offset : Nat} (hrange : offset + pieces.sum ≤ size)
    (haddr : Leads cs runs offset pieces.sum addr)
    (hon : ∀ p, offset ≤ p → p < offset + pieces.sum → addr p < 512 * sectors) :
    NtfsFile.readPieces ⟨RawDisk.ofMemory sectors m, cs, .runs runs size, offset⟩ pieces =
      .ok (gathered m addr offset pieces.sum) := by
  induction pieces generalizing offset with
  | nil => rfl
  | cons n rest ih =>
    rw [List.sum_cons] at hrange haddr hon ⊢
    have hrest := @ih (offset + n) (by omega) (haddr.mono (by omega) (by omega))
      (fun p hlo hhi => hon p (by omega) (by omega))
    have hread : NtfsFile.read ⟨RawDisk.ofMemory sectors m, cs, .runs runs size, offset⟩ n =
        .ok (⟨RawDisk.ofMemory sectors m, cs, .runs runs size, offset + n⟩,
          gathered m addr offset n) := by
      rcases Nat.eq_zero_or_pos n with rfl | hpos
      · exact NtfsFile.read_zero _
      · have hready : Readable cs runs offset n := ⟨hcs, hruns, by omega⟩
        have hinto := (readRunsInto_eq_ok_iff (m := m) hready hdvd hsectors
          (haddr.mono (Nat.le_refl _) (by omega)) hne).mpr
            ⟨fun p hlo hhi => hon p hlo (by omega), rfl⟩
        have heq := NtfsFile.read_eq
          ⟨RawDisk.ofMemory sectors m, cs, .runs runs size, offset⟩ hpos
          (show offset + n ≤ size by omega) hsize
        rw [heq, NtfsFile.content]
        simp only [hinto, ok_bind]
        rfl
    rw [NtfsFile.readPieces, hread, ok_bind]
    simp only [hrest, ok_bind, gathered_add, pure_eq]

end Pieces

section Runs

variable {cs sectors : Nat} {runs : List DataRun} {m : Memory}

theorem leads_placed (hcs : 0 < cs) {offset total : Nat}
    (hrange : offset + total ≤ clusters runs * cs) :
    Leads cs (placed 0 0 runs) offset total (readAddr cs 0 runs) := by
  intro p _ hhi
  have h := @runAt_placed cs runs hcs 0 0 p (by omega) (by rw [Nat.zero_add]; omega)
  rw [Nat.zero_mul, Nat.sub_zero] at h
  exact h

theorem gathered_eq_iff {offset total : Nat} (hrange : offset + total ≤ clusters runs * cs) :
    (List.range' offset total).map (contentByte m cs runs) =
        gathered m (readAddr cs 0 runs) offset total ↔
      ∀ p, offset ≤ p → p < offset + total → InHole cs runs p → m (readAddr cs 0 runs p) = 0 := by
  rw [gathered, List.map_inj_left]
  constructor
  · intro h p hlo hhi hhole
    rw [← h p (List.mem_range'_1.mpr ⟨hlo, hhi⟩), contentByte_hole hhole]
  · intro h p hp
    obtain ⟨hlo, hhi⟩ := List.mem_range'_1.mp hp
    by_cases hhole : InHole cs runs p
    · rw [contentByte_hole hhole, h p hlo hhi hhole]
    · exact contentByte_mapped hhole (by omega)

end Runs

/-- A list of runs that is written down in the format, with fields of any width that holds them, is
parsed and read, at once and in pieces, as the bytes of the mapped clusters and zeros in the holes
exactly if it has a cluster and each byte of a hole in the range is on the disk and is 0 at the
place of the last run before the hole (the start of the disk, where there is none). -/
theorem dataRuns_iff (runs : List DataRun) (tail : Bytes)
    (hlength : (runBytes 0 runs ++ tail).length < 2 ^ 32) (hend : Ends tail)
    (hcoded : RunsCoded 0 runs) (hvcn : clusters runs < 2 ^ 64) (m : Memory) (sectors : Nat)
    (hsectors : sectors ≤ 2 ^ 64) (cs : Nat) (hcs : 0 < cs ∧ cs < 2 ^ 32) (hdvd : 512 ∣ cs)
    (hmapped : ∀ r ∈ runs, ∀ lcn, r.place = some lcn → (lcn + r.count) * cs ≤ 512 * sectors)
    (offset total : Nat) (hrange : offset + total ≤ clusters runs * cs)
    (hsize : offset + total < 2 ^ 64) :
    (∃ parsed, parseRuns (runBytes 0 runs ++ tail) = .ok parsed ∧
      let content := (List.range' offset total).map (contentByte m cs runs)
      readRunsInto (RawDisk.ofMemory sectors m) cs parsed offset total = .ok content ∧
        ∀ size pieces, offset + total ≤ size → size < 2 ^ 64 → pieces.sum = total →
          NtfsFile.readPieces ⟨RawDisk.ofMemory sectors m, cs, .runs parsed size, offset⟩ pieces =
            .ok content) ↔
      0 < clusters runs ∧ ∀ p, offset ≤ p → p < offset + total → InHole cs runs p →
        readAddr cs 0 runs p < 512 * sectors ∧ m (readAddr cs 0 runs p) = 0 := by
  have hparse := parseRuns_encoded hlength hend hcoded hvcn
  have hruns : RunsOk (placed 0 0 runs) := placed_ok (by omega)
  have hready : Readable cs (placed 0 0 runs) offset total := ⟨hcs, hruns, by omega⟩
  have hleads := leads_placed hcs.1 hrange
  have hclusters : placed 0 0 runs ≠ [] ↔ 0 < clusters runs := by
    rw [ne_eq, placed_eq_nil]
    omega
  constructor
  · rintro ⟨parsed, hparsed, hread, -⟩
    obtain rfl := Outcome.ok.inj (hparse.symm.trans hparsed)
    have hne : placed 0 0 runs ≠ [] := by
      intro hnil
      rw [readRunsInto, if_pos (.inr hnil)] at hread
      cases hread
    obtain ⟨hon, hdata⟩ := (readRunsInto_eq_ok_iff hready hdvd hsectors hleads hne).mp hread
    refine ⟨hclusters.mp hne, fun p hlo hhi hhole => ⟨hon p hlo hhi, ?_⟩⟩
    exact (gathered_eq_iff hrange).mp hdata p hlo hhi hhole
  · rintro ⟨hpos, hholes⟩
    have hne := hclusters.mpr hpos
    have hon (p : Nat) (hlo : offset ≤ p) (hhi : p < offset + total) :
        readAddr cs 0 runs p < 512 * sectors := by
      by_cases hhole : InHole cs runs p
      · exact (hholes p hlo hhi hhole).1
      · exact readAddr_mapped hhole (by omega) hmapped
    have hdata := (gathered_eq_iff (m := m) hrange).mpr
      fun p hlo hhi hhole => (hholes p hlo hhi hhole).2
    refine ⟨_, hparse, ?_, ?_⟩
    · exact (readRunsInto_eq_ok_iff hready hdvd hsectors hleads hne).mpr ⟨hon, hdata⟩
    · rintro size pieces hle hlt rfl
      rw [hdata]
      exact readPieces_eq hcs hruns hdvd hsectors hlt hne hle hleads hon

def holeRun : DataRun := ⟨1, none, 1, 0, by decide, by decide, by decide, by decide⟩

def clusterOne : DataRun := ⟨1, some 1, 1, 1, by decide, by decide, by decide, by decide⟩

/-- Zeros in cluster 0, and the byte 7 all over cluster 1, with clusters of 512 bytes. -/
def sevens : Memory := fun a => if a < 512 then 0 else 7

theorem dataRuns_iff_holeFirst :
    ∃ parsed, parseRuns (runBytes 0 [holeRun, clusterOne] ++ [0]) = .ok parsed ∧
      let content := (List.range' 0 1024).map (contentByte sevens 512 [holeRun, clusterOne])
      readRunsInto (RawDisk.ofMemory 2 sevens) 512 parsed 0 1024 = .ok content ∧
        ∀ size pieces, 0 + 1024 ≤ size → size < 2 ^ 64 → pieces.sum = 1024 →
          NtfsFile.readPieces ⟨RawDisk.ofMemory 2 sevens, 512, .runs parsed size, 0⟩ pieces =
            .ok content := by
  have hcoded : RunsCoded 0 [holeRun, clusterOne] := by
    refine ⟨⟨by decide, fun h => absurd rfl h⟩, ⟨by decide, fun _ => by decide⟩, trivial⟩
  have hmapped : ∀ r ∈ [holeRun, clusterOne], ∀ lcn, r.place = some lcn →
      (lcn + r.count) * 512 ≤ 512 * 2 := by
    intro r hr lcn hlcn
    rcases List.mem_pair.mp hr with rfl | rfl
    · cases hlcn
    · cases hlcn
      decide
  apply (dataRuns_iff [holeRun, clusterOne] [0] (by decide) (by simp [Ends]) hcoded (by decide)
    sevens 2 (by decide) 512 (by decide) (by decide) hmapped 0 1024 (by decide) (by decide)).mpr
  refine ⟨by decide, fun p _ hhi hhole => ?_⟩
  rw [InHole] at hhole
  rw [readAddr]
  split at hhole
  next hp =>
    have hcount : holeRun.count = 1 := rfl
    have hafter : holeRun.after 0 = 0 := rfl
    have hlt : p < 512 := by rwa [hcount, Nat.one_mul] at hp
    rw [if_pos hp, hafter, Nat.zero_mul, Nat.zero_add]
    exact ⟨Nat.lt_trans hlt (by decide), if_pos hlt⟩
  next hp =>
    rw [InHole] at hhole
    split at hhole
    · cases hhole
    · exact hhole.elim

/-- A hole behind a cluster reads as that cluster. -/
theorem hole_reads_cluster :
    parseRuns (runBytes 0 [clusterOne, holeRun] ++ [0]) = .ok [⟨0, 1, 1⟩, ⟨1, 1, 1⟩] ∧
      readRunsInto (RawDisk.ofMemory 2 sevens) 512 [⟨0, 1, 1⟩, ⟨1, 1, 1⟩] 512 1 = .ok [7] ∧
      (List.range' 512 1).map (contentByte sevens 512 [clusterOne, holeRun]) = [0] := by
  decide +kernel

end Vibra.Ntfs
