import Vibra.Exfat.Listing
import Vibra.Ntfs.Driver

/-! # Open files

An open file reads its clusters on demand and remembers the last one it has come to, so that it does
not walk the FAT from the first cluster each time.
-/

namespace Vibra.Exfat

open Lib (Outcome Bytes RawDisk Memory Stateful)
open Lib.Outcome
open Lib.Stateful (Meets get modify lift fail)
open Fat32 (FsError Name)
open Ntfs (SeekFrom toI64)

structure ExfatFile where
  boot : ExfatBoot
  firstCluster : Nat
  size : Nat
  noFatChain : Bool
  position : Nat
  /-- The last cluster walked to; 0 before the first. -/
  cachedCluster : Nat
  cachedIndex : Nat

/-- The file that `open` returns for an entry. -/
def EntryInfo.opened (e : EntryInfo) (boot : ExfatBoot) : ExfatFile :=
  ⟨boot, e.firstCluster, e.size, e.noFatChain, 0, 0, 0⟩

/-- `ExfatFs::open`. -/
def ExfatFs.«open» (fs : ExfatFs) (path : Name) : Res ExfatFile := do
  match ← fs.findEntry path with
  | none => .err .notFound
  | some entry => if entry.isDir then .err .isADirectory else return entry.opened fs.boot

/-- An open file, and how many requests it has made to the disk. -/
structure Session where
  file : ExfatFile
  requests : Nat

abbrev Call := Stateful Session FsError

def Session.cached (s : Session) (cluster index : Nat) : Session :=
  { s with file := { s.file with cachedCluster := cluster, cachedIndex := index } }

def Session.moved (s : Session) (position : Nat) : Session :=
  { s with file := { s.file with position := position } }

namespace Streaming

variable (disks : Nat → RawDisk)

def request {α : Type} (ask : RawDisk → Res α) : Call α := fun s =>
  (ask (disks s.requests), { s with requests := s.requests + 1 })

/-- The loop of `cluster_at`: so many steps along the FAT. -/
def walkLoop : Nat → Call Unit
  | 0 => pure ()
  | more + 1 => do
      let s ← get
      match ← request disks fun disk =>
          ExfatFs.nextCluster ⟨disk, s.file.boot⟩ s.file.cachedCluster with
      | some next => do
          modify fun s => s.cached next (s.file.cachedIndex + 1)
          walkLoop more
      | none => fail .ioError

/-- `cluster_at`: the cluster with a number inside the file. -/
def clusterAt (index : Nat) : Call Nat := do
  let s ← get
  if s.file.noFatChain then
    let c := s.file.firstCluster + index
    if c ≥ s.file.boot.clusterCount + 2 then fail .ioError else pure c
  else
    if s.file.cachedIndex > index ∨ s.file.cachedCluster = 0 then
      modify fun s => s.cached s.file.firstCluster 0
    let s ← get
    walkLoop disks (index - s.file.cachedIndex)
    let s ← get
    pure s.file.cachedCluster

/-- The loop of `read_at`: `len` more bytes of the file from `abs` on. -/
def readLoop : Nat → Nat → Nat → Call Bytes
  | 0, _, _ => lift .diverge
  | fuel + 1, abs, len =>
    if len = 0 then pure []
    else do
      let s ← get
      let clusterSize := s.file.boot.clusterSize
      let inCluster := abs % clusterSize
      let cluster ← clusterAt disks (abs / clusterSize)
      let take := min len (clusterSize - inCluster)
      let start := inCluster % 512
      let sectors := (start + take + 511) / 512
      let lba := s.file.boot.clusterLba cluster + inCluster / 512
      let tmp ← request disks fun disk => ofOption .ioError (disk.read lba (sectors * 512))
      let rest ← readLoop fuel (abs + take) (len - take)
      pure ((tmp.drop start).take take ++ rest)

def readAt (offset len : Nat) : Call Bytes := do
  let s ← get
  if s.file.boot.clusterSize = 0 then fail .ioError
  else readLoop disks (len + 1) offset len

/-- `File::read` into a buffer of `len` bytes. -/
def read (len : Nat) : Call Bytes := do
  let s ← get
  if len = 0 ∨ s.file.position ≥ s.file.size then pure []
  else
    let n := min len (s.file.size - s.file.position)
    let bytes ← readAt disks s.file.position n
    modify fun s => s.moved (s.file.position + n)
    pure bytes

/-- Where a seek goes to. -/
def target (file : ExfatFile) : SeekFrom → Res Int
  | .start o => .ok (toI64 o.toNat)
  | .current o => addInt 64 (toI64 file.position) o.toInt
  | .end o => addInt 64 (toI64 file.size) o.toInt

def seek (pos : SeekFrom) : Call Nat := do
  let s ← get
  let new ← lift (target s.file pos)
  if new < 0 then fail .invalidPath
  else
    modify fun s => s.moved new.toNat
    pure new.toNat

inductive FileCall where
  | seek (pos : SeekFrom)
  | read (len : Nat)

def exec (s : Session) : FileCall → Session
  | .seek pos => (seek pos s).2
  | .read len => (read disks len s).2

def after (file : ExfatFile) (calls : List FileCall) : Session := calls.foldl (exec disks) ⟨file, 0⟩

end Streaming

def ExfatBoot.fatByte (boot : ExfatBoot) (cluster : Nat) : Nat :=
  boot.fatOffset * boot.bytesPerSector + cluster * 4

/-- The boot sector is in order, and no cluster has a number that marks the end of a chain. -/
structure VolumeOf (m : Memory) (boot : ExfatBoot) : Prop where
  parsed : ExfatBoot.parse (m.slice 0 512) = .ok boot
  count_le : boot.clusterCount + 2 ≤ fatBad

/-- The clusters of a file in order: consecutive ones, or those that the FAT links. -/
structure Laid (m : Memory) (boot : ExfatBoot) (e : EntryInfo) (clusters : List Nat) : Prop where
  first : ∀ c, clusters[0]? = some c → c = e.firstCluster
  next : ∀ i c c', clusters[i]? = some c → clusters[i + 1]? = some c' →
    if e.noFatChain then c' = c + 1 else m.le32 (boot.fatByte c) = c'
  heap : ∀ c ∈ clusters, boot.InHeap c
  size_le : e.size ≤ clusters.length * boot.clusterSize

def clusterBytes (m : Memory) (boot : ExfatBoot) (clusters : List Nat) : Bytes :=
  clusters.flatMap fun c => m.slice (512 * boot.clusterLba c) boot.clusterSize

def Names (clusters : List Nat) (file : ExfatFile) : Prop :=
  file.cachedCluster ≠ 0 → clusters[file.cachedIndex]? = some file.cachedCluster

/-- What a read into a buffer of `len` bytes does: it returns the bytes at the position, or it
fails and leaves the position. -/
def ReadsOff (content : Bytes) (len : Nat) (s : Session) (result : Res Bytes × Session) : Prop :=
  let n := min len (s.file.size - s.file.position)
  match result with
  | (.ok bytes, s') => bytes = (content.drop s.file.position).take n ∧ bytes.length = n ∧
      s'.file.position = s.file.position + n
  | (.err _, s') => s'.file.position = s.file.position
  | _ => False

variable {m : Memory} {boot : ExfatBoot} {e : EntryInfo} {clusters : List Nat}

theorem parse_bytesPerSector (s : Bytes) :
    (ExfatBoot.parse s).Returns fun boot => 512 ∣ boot.bytesPerSector := by
  simp only [ExfatBoot.parse, returns_ite, returns_dite, returns_err, returns_panic, returns_ok,
    implies_true, true_and, and_true, not_or, not_not]
  intro _ hshift
  intros
  exact pow_dvd_pow 2 hshift.1.1

theorem VolumeOf.clusterSize_pos (h : VolumeOf m boot) : 0 < boot.clusterSize :=
  Nat.pos_of_ne_zero (parse_clusterSize _ boot h.parsed)

theorem VolumeOf.dvd_clusterSize (h : VolumeOf m boot) : 512 ∣ boot.clusterSize :=
  Dvd.dvd.mul_right (parse_bytesPerSector _ boot h.parsed) _

theorem VolumeOf.nextCluster (h : VolumeOf m boot) {disk : RawDisk} (hd : Lib.Faithful m disk)
    {c c' : Nat} (hc : boot.InHeap c) (hc' : boot.InHeap c') (hlink : m.le32 (boot.fatByte c) = c') :
    (ExfatFs.nextCluster ⟨disk, boot⟩ c).Ensures fun next => next = some c' := by
  have halign : boot.fatByte c % 512 + 4 ≤ 512 := by
    have hdvd := Dvd.dvd.mul_left (parse_bytesPerSector _ boot h.parsed) boot.fatOffset
    unfold ExfatBoot.fatByte
    omega
  have hentry : (ExfatFs.fatEntry ⟨disk, boot⟩ c).Ensures fun next => next = c' := by
    rw [ExfatFs.fatEntry, if_neg (show ¬ c ≥ boot.clusterCount + 2 by exact Nat.not_le.mpr hc.2)]
    simp only [ensures_bind, ensures_ofOption, pure_eq, ensures_ok]
    intro buf hbuf
    rw [hd _ _ _ hbuf, ← hlink]
    exact (Lib.u32At_slice m halign).trans (congrArg m.le32 (Nat.div_add_mod (boot.fatByte c) 512))
  have hlt : c' < fatBad := Nat.lt_of_lt_of_le hc'.2 h.count_le
  rw [ExfatFs.nextCluster]
  simp only [ensures_bind]
  refine hentry.mono fun next hnext => ?_
  subst hnext
  have heoc : ¬ next ≥ fatEoc := by
    unfold fatBad at hlt
    unfold fatEoc
    omega
  rw [if_neg heoc, if_neg]
  · simp
  · rintro (hbad | hout)
    · exact hlt.ne hbad
    · exact hout hc'

theorem Laid.inHeap (h : Laid m boot e clusters) {i c : Nat} (hi : clusters[i]? = some c) :
    boot.InHeap c :=
  h.heap c (List.mem_of_getElem? hi)

theorem Laid.consecutive (h : Laid m boot e clusters) (hchain : e.noFatChain = true) {i c : Nat}
    (hi : clusters[i]? = some c) : c = e.firstCluster + i := by
  induction i generalizing c with
  | zero => exact h.first c hi
  | succ i ih =>
    obtain ⟨hlt, -⟩ := List.getElem?_eq_some_iff.mp hi
    have hprev : clusters[i]? = some clusters[i] := List.getElem?_eq_getElem (by omega)
    have hnext := h.next i _ c hprev hi
    rw [if_pos hchain] at hnext
    rw [hnext, ih hprev]
    rfl

theorem length_clusterBytes : (clusterBytes m boot clusters).length =
    clusters.length * boot.clusterSize :=
  Lib.length_blocks fun _ _ => Memory.length_slice _ _ _

theorem window_clusterBytes {i c off n : Nat} (hi : clusters[i]? = some c)
    (h : off + n ≤ boot.clusterSize) :
    ((clusterBytes m boot clusters).drop (i * boot.clusterSize + off)).take n =
      m.slice (512 * boot.clusterLba c + off) n := by
  rw [clusterBytes, Lib.window_blocks (fun _ _ => Memory.length_slice _ _ _) hi h,
    Memory.drop_slice (by omega), Memory.take_slice (by omega)]

/-! ## Calls -/

namespace Streaming

variable {disks : Nat → RawDisk} {s : Session}

/-- What every call keeps: the file is that of the entry, at a position, and what it remembers
is right. -/
structure Kept (boot : ExfatBoot) (e : EntryInfo) (clusters : List Nat) (position : Nat)
    (s : Session) : Prop where
  boot : s.file.boot = boot
  first : s.file.firstCluster = e.firstCluster
  size : s.file.size = e.size
  chain : s.file.noFatChain = e.noFatChain
  position : s.file.position = position
  names : Names clusters s.file

theorem Kept.moved {position : Nat} (h : Kept boot e clusters position s) (next : Nat) :
    Kept boot e clusters next (s.moved next) :=
  ⟨h.boot, h.first, h.size, h.chain, rfl, h.names⟩

theorem Kept.cached {position c i : Nat} (h : Kept boot e clusters position s)
    (hc : clusters[i]? = some c) : Kept boot e clusters position (s.cached c i) :=
  ⟨h.boot, h.first, h.size, h.chain, h.position, fun _ => hc⟩

theorem meets_request {position : Nat} (h : Kept boot e clusters position s) {α : Type}
    {ask : RawDisk → Res α} {Q : α → Prop} (hask : ∀ k, (ask (disks k)).Ensures Q) :
    Meets (Kept boot e clusters position) (fun a s' => Q a ∧ s'.file = s.file) (request disks ask)
      s :=
  ⟨⟨h.boot, h.first, h.size, h.chain, h.position, h.names⟩,
    (hask s.requests).mono fun _ ha => ⟨ha, rfl⟩⟩

variable (hv : VolumeOf m boot) (hl : Laid m boot e clusters)
  (hd : ∀ k, Lib.Faithful m (disks k))

include hv hl hd

theorem walkLoop_meets (hchain : e.noFatChain = false) {position : Nat} (more : Nat)
    (h : Kept boot e clusters position s)
    (hcur : clusters[s.file.cachedIndex]? = some s.file.cachedCluster)
    (hmore : s.file.cachedIndex + more < clusters.length) :
    Meets (Kept boot e clusters position)
      (fun _ s' => clusters[s.file.cachedIndex + more]? = some s'.file.cachedCluster)
      (walkLoop disks more) s := by
  induction more generalizing s with
  | zero => exact ⟨h, hcur⟩
  | succ more ih =>
    obtain ⟨c', hc'⟩ : ∃ c', clusters[s.file.cachedIndex + 1]? = some c' :=
      ⟨_, List.getElem?_eq_getElem (by omega)⟩
    have hlink := hl.next _ _ _ hcur hc'
    rw [if_neg (by simp [hchain])] at hlink
    have hask (k : Nat) : (ExfatFs.nextCluster ⟨disks k, s.file.boot⟩
        s.file.cachedCluster).Ensures fun next => next = some c' := by
      rw [h.boot]
      exact hv.nextCluster (hd k) (hl.inHeap hcur) (hl.inHeap hc') hlink
    rw [walkLoop, Lib.Stateful.meets_get_bind]
    apply (meets_request h hask).bind
    rintro next s1 h1 ⟨rfl, hsame⟩
    have hsum : s.file.cachedIndex + (more + 1) =
        (s1.cached c' (s1.file.cachedIndex + 1)).file.cachedIndex + more := by
      rw [← hsame]
      exact (Nat.succ_add_eq_add_succ _ _).symm
    have hnext : clusters[s1.file.cachedIndex + 1]? = some c' := by
      rw [hsame]
      exact hc'
    rw [Lib.Stateful.meets_modify_bind, hsum]
    apply ih (h1.cached hnext) hnext
    rw [← hsum]
    exact hmore

theorem walkTo_meets (hchain : e.noFatChain = false) {position index : Nat}
    (h : Kept boot e clusters position s)
    (hcur : clusters[s.file.cachedIndex]? = some s.file.cachedCluster)
    (hle : s.file.cachedIndex ≤ index) (hindex : index < clusters.length) :
    Meets (Kept boot e clusters position) (fun c _ => clusters[index]? = some c)
      (do walkLoop disks (index - s.file.cachedIndex)
          let s ← get
          pure s.file.cachedCluster) s := by
  have hsum : s.file.cachedIndex + (index - s.file.cachedIndex) = index := Nat.add_sub_cancel' hle
  have hwalk := walkLoop_meets hv hl hd hchain (index - s.file.cachedIndex) h hcur (by omega)
  rw [hsum] at hwalk
  apply hwalk.bind
  exact fun _ s1 h1 hc => ⟨h1, hc⟩

theorem clusterAt_meets {position index : Nat} (h : Kept boot e clusters position s)
    (hindex : index < clusters.length) :
    Meets (Kept boot e clusters position) (fun c _ => clusters[index]? = some c)
      (clusterAt disks index) s := by
  rw [clusterAt, Lib.Stateful.meets_get_bind, h.chain]
  cases hchain : e.noFatChain with
  | true =>
    have hc : clusters[index]? = some clusters[index] := List.getElem?_eq_getElem hindex
    have heq : clusters[index] = s.file.firstCluster + index := by
      rw [h.first]
      exact hl.consecutive hchain hc
    have hin : ¬ s.file.firstCluster + index ≥ s.file.boot.clusterCount + 2 := by
      rw [← heq, h.boot]
      exact Nat.not_le.mpr (hl.inHeap hc).2
    rw [if_pos rfl, if_neg hin, ← heq]
    exact ⟨h, hc⟩
  | false =>
    rw [if_neg Bool.false_ne_true]
    by_cases hreset : s.file.cachedIndex > index ∨ s.file.cachedCluster = 0
    · -- from the first cluster again
      have hfirst : clusters[0]? = some s.file.firstCluster := by
        have h0 : clusters[0]? = some clusters[0] := List.getElem?_eq_getElem (by omega)
        rw [h.first, ← hl.first _ h0]
        exact h0
      simp only [if_pos hreset, Lib.Stateful.meets_modify_bind, Lib.Stateful.meets_get_bind]
      exact walkTo_meets hv hl hd hchain (h.cached hfirst) hfirst (Nat.zero_le index) hindex
    · rw [not_or] at hreset
      simp only [if_neg (not_or.mpr hreset), Lib.Stateful.meets_get_bind]
      exact walkTo_meets hv hl hd hchain h (h.names hreset.2) (Nat.not_lt.mp hreset.1) hindex

theorem readLoop_meets {position : Nat} (fuel abs len : Nat)
    (h : Kept boot e clusters position s) (hfuel : len < fuel)
    (hlen : abs + len ≤ clusters.length * boot.clusterSize) :
    Meets (Kept boot e clusters position)
      (fun bytes _ => bytes = ((clusterBytes m boot clusters).drop abs).take len)
      (readLoop disks fuel abs len) s := by
  induction fuel generalizing abs len s with
  | zero => omega
  | succ fuel ih =>
    rw [readLoop]
    by_cases h0 : len = 0
    · rw [if_pos h0, h0]
      exact ⟨h, rfl⟩
    · have hpos := hv.clusterSize_pos
      have hdvd := hv.dvd_clusterSize
      have hmod := Nat.mod_lt abs hpos
      have hdm : abs / boot.clusterSize * boot.clusterSize + abs % boot.clusterSize = abs :=
        Nat.div_add_mod' abs boot.clusterSize
      have hindex : abs / boot.clusterSize < clusters.length :=
        Nat.div_lt_of_lt_mul (by rw [Nat.mul_comm]; omega)
      simp only [if_neg h0, Lib.Stateful.meets_get_bind, h.boot]
      set inCluster := abs % boot.clusterSize with hin
      set take := min len (boot.clusterSize - inCluster) with htake
      apply (clusterAt_meets hv hl hd h hindex).bind
      intro c s1 h1 hc
      have hwindow := window_clusterBytes (m := m) hc
        (show inCluster + take ≤ boot.clusterSize by omega)
      rw [hdm] at hwindow
      have hask (k : Nat) : (ofOption FsError.ioError ((disks k).read
          (boot.clusterLba c + inCluster / 512)
          ((inCluster % 512 + take + 511) / 512 * 512))).Ensures fun tmp =>
            (tmp.drop (inCluster % 512)).take take =
              ((clusterBytes m boot clusters).drop abs).take take := by
        rw [ensures_ofOption]
        intro tmp htmp
        rw [hd k _ _ _ htmp, Memory.drop_slice (by omega), Memory.take_slice (by omega), hwindow]
        congr 1
        omega
      apply (meets_request h1 hask).bind
      rintro tmp s2 h2 ⟨htmp, -⟩
      apply (ih (abs + take) (len - take) h2 (by omega) (by omega)).bind
      rintro rest s3 h3 rfl
      refine ⟨h3, ?_⟩
      have hsum : len = take + (len - take) := by omega
      rw [htmp, ← List.drop_drop]
      conv_rhs => rw [hsum]
      exact List.take_add.symm

theorem readAt_meets {position offset len : Nat} (h : Kept boot e clusters position s)
    (hlen : offset + len ≤ clusters.length * boot.clusterSize) :
    Meets (Kept boot e clusters position)
      (fun bytes _ => bytes = ((clusterBytes m boot clusters).drop offset).take len)
      (readAt disks offset len) s := by
  rw [readAt, Lib.Stateful.meets_get_bind, if_neg (h.boot ▸ hv.clusterSize_pos.ne')]
  exact readLoop_meets hv hl hd (len + 1) offset len h (Nat.lt_succ_self len) hlen

theorem read_readsOff {position : Nat} (h : Kept boot e clusters position s) (len : Nat) :
    (∃ next, Kept boot e clusters next (read disks len s).2) ∧
      ReadsOff (clusterBytes m boot clusters) len s (read disks len s) := by
  rw [read, Lib.Stateful.get_bind]
  by_cases hnone : len = 0 ∨ s.file.position ≥ s.file.size
  · have hn : min len (s.file.size - s.file.position) = 0 := by omega
    rw [if_pos hnone]
    refine ⟨⟨position, h⟩, ?_, ?_, ?_⟩
    · simp [hn]
    · exact hn.symm
    · rw [hn]
      rfl
  · have hsize := hl.size_le
    rw [← h.size] at hsize
    set n := min len (s.file.size - s.file.position) with hn
    have hlen : s.file.position + n ≤ clusters.length * boot.clusterSize := by omega
    obtain ⟨hkept, hbytes⟩ := readAt_meets hv hl hd h hlen
    rw [if_neg hnone]
    change (∃ next, Kept boot e clusters next (Lib.Stateful.bind _ _ s).2) ∧
      ReadsOff _ len s (Lib.Stateful.bind _ _ s)
    unfold Lib.Stateful.bind
    rcases hat : readAt disks s.file.position n s with ⟨r, s1⟩
    rw [hat] at hkept hbytes
    cases r with
    | ok bytes =>
      refine ⟨⟨_, hkept.moved _⟩, hbytes, ?_, ?_⟩
      · rw [hbytes, List.length_take, List.length_drop, length_clusterBytes, ← hn]
        omega
      · exact congrArg (· + n) (hkept.position.trans h.position.symm)
    | err e =>
      refine ⟨⟨_, hkept⟩, hkept.position.trans h.position.symm⟩
    | panic => exact hbytes.elim
    | diverge => exact hbytes.elim

omit hv hl hd in
theorem seek_kept {position : Nat} (h : Kept boot e clusters position s) (pos : SeekFrom) :
    ∃ next, Kept boot e clusters next (seek pos s).2 := by
  rw [seek, Lib.Stateful.get_bind]
  change ∃ next, Kept boot e clusters next (Lib.Stateful.bind (lift _) _ s).2
  unfold Lib.Stateful.bind lift
  cases target s.file pos with
  | ok new =>
    simp only []
    split
    · exact ⟨position, h⟩
    · exact ⟨_, h.moved _⟩
  | err e => exact ⟨position, h⟩
  | panic => exact ⟨position, h⟩
  | diverge => exact ⟨position, h⟩

omit hv hl hd in
theorem opened_kept : Kept boot e clusters 0 ⟨e.opened boot, 0⟩ :=
  ⟨rfl, rfl, rfl, rfl, rfl, fun h => absurd rfl h⟩

theorem after_kept (calls : List FileCall) :
    ∃ position, Kept boot e clusters position (after disks (e.opened boot) calls) := by
  unfold after
  induction calls using List.reverseRecOn with
  | nil => exact ⟨0, opened_kept⟩
  | append_singleton calls call ih =>
    obtain ⟨position, h⟩ := ih
    rw [List.foldl_append, List.foldl_cons, List.foldl_nil]
    cases call with
    | seek pos => exact seek_kept h pos
    | read len => exact (read_readsOff hv hl hd h len).1

end Streaming

/-- After any calls on a file of a well-formed volume, whatever requests have failed, the file
remembers the right cluster if it remembers one, and the next read returns the bytes of the
clusters from the position on, as many as fit, and moves the position behind them, or it fails
and the position stays. -/
theorem read_eq_content (m : Memory) (boot : ExfatBoot) (hv : VolumeOf m boot) (e : EntryInfo)
    (clusters : List Nat) (hl : Laid m boot e clusters) (disks : Nat → RawDisk)
    (hd : ∀ k, Lib.Faithful m (disks k)) (calls : List Streaming.FileCall) :
    let s := Streaming.after disks (e.opened boot) calls
    Names clusters s.file ∧
      ∀ len, ReadsOff (clusterBytes m boot clusters) len s (Streaming.read disks len s) := by
  obtain ⟨position, h⟩ := Streaming.after_kept hv hl hd calls
  exact ⟨h.names, fun len => (Streaming.read_readsOff hv hl hd h len).2⟩

theorem oneFile_volumeOf : VolumeOf (oneFileBytes 3 1) (oneFileFs 3 1).boot := by
  refine ⟨?_, by decide⟩
  have h := (oneFile_reads (.inr rfl) : (oneFile 3 1).read 0 512 >>= _ = _ ∧ _).1
  rw [oneFile, Lib.RawDisk.read_ofMemory _ (by decide), Option.bind_eq_bind, Option.bind_some] at h
  exact toOption_eq_some.mp h

theorem oneFile_laid : Laid (oneFileBytes 3 1) (oneFileFs 3 1).boot (setOfA 3 1).info [3] := by
  refine ⟨?_, ?_, ?_, by decide⟩
  · intro c hc
    exact (Option.some.inj hc).symm
  · intro i c c' _ hc'
    simp at hc'
  · intro c hc
    rw [List.mem_singleton.mp hc]
    exact ⟨by decide, by decide⟩

def lateDisks (k : Nat) : RawDisk := if k = 0 then ⟨fun _ _ => none, by simp⟩ else oneFile 3 1

theorem lateDisks_faithful (k : Nat) : Lib.Faithful (oneFileBytes 3 1) (lateDisks k) := by
  intro sector len buf h
  unfold lateDisks at h
  split at h
  · cases h
  · exact Lib.RawDisk.faithful_ofMemory 64 _ sector len buf h

theorem read_eq_content_oneFile :
    let s := Streaming.after lateDisks ((setOfA 3 1).info.opened (oneFileFs 3 1).boot)
      [.read 4, .seek (.end (-1))]
    Names [3] s.file ∧ ∀ len, ReadsOff (clusterBytes (oneFileBytes 3 1) (oneFileFs 3 1).boot [3])
      len s (Streaming.read lateDisks len s) :=
  read_eq_content _ _ oneFile_volumeOf _ _ oneFile_laid lateDisks lateDisks_faithful _

example : (Streaming.read lateDisks 4 (Streaming.after lateDisks
    ((setOfA 3 1).info.opened (oneFileFs 3 1).boot) [.read 4])).1 = .ok [0] := by
  decide +kernel

/-- A file that has just been opened remembers cluster 0 as its first one. -/
theorem opened_remembers_none :
    VolumeOf (oneFileBytes 3 1) (oneFileFs 3 1).boot ∧
      Laid (oneFileBytes 3 1) (oneFileFs 3 1).boot (setOfA 3 1).info [3] ∧
      let file := (Streaming.after lateDisks ((setOfA 3 1).info.opened (oneFileFs 3 1).boot) []).file
      [3][file.cachedIndex]? ≠ some file.cachedCluster := by
  refine ⟨oneFile_volumeOf, oneFile_laid, ?_⟩
  decide

end Vibra.Exfat
