import Vibra.Fat32.TreeUpdate

/-! # Writing a file of a tree

What a file reads as while its chain is written, and after its entry is set.
-/

namespace Vibra.Fat32

open Lib (Memory Prog LinkTable)
open Lib.LinkTable (Partition)

variable {geo : Fat32Geo} {m₀ m m' : Memory} {dirs : Set Nat} {chains rest rest' : List (List Nat)}
  {l₀ l l' : List Nat} {p : Nat × Nat} {offset n : Nat} {data : List UInt8}

/-- A volume whose entries all fit: a tree with `.` and `..` inside, and no file
longer than its chain. -/
structure WellFormedTree (geo : Fat32Geo) (m : Memory) (dirs : Set Nat) (chains : List (List Nat)) :
    Prop extends Tree geo m dirs chains where
  inside : DotsInside geo m dirs
  fits : ∀ d ∈ dirs, ∀ x ∈ listing geo m d, x.1.entry.isFile = true →
    x.1.entry.fileSize ≤ (chainOf geo m x.1.entry.cluster).length * geo.clusterSize

theorem FatDirEntry.isDirectory_of_isFile {entry : FatDirEntry} (h : entry.isFile = true) :
    entry.isDirectory = false := by
  simp only [isFile, Bool.and_eq_true, Bool.not_eq_true'] at h
  exact h.1

theorem DotsInside.not_dot (h : DotsInside geo m dirs) {d : Nat} (hd : d ∈ dirs)
    {x : DirSlot × Name} (hx : x ∈ listing geo m d) (hfile : x.1.entry.isFile = true) :
    x.1.entry.isDot = false := by
  by_contra hdot
  rw [Bool.not_eq_false] at hdot
  have hdir := FatDirEntry.isDirectory_of_isFile hfile
  rw [(h d hd x hx hdot).1] at hdir
  cases hdir

theorem WellFormedTree.congr (hgeo : geo.Sound) (h : WellFormedTree geo m dirs chains)
    (hfat : ∀ a, geo.InFat a → m' a = m a)
    (hdirs : ∀ d ∈ dirs, ∀ c ∈ chainOf geo m d, SameCluster geo m m' c) :
    WellFormedTree geo m' dirs chains := by
  obtain ⟨-, -, hlinks⟩ := frame_of_sameFat hgeo hfat
  have hpart := hlinks.partition h.part
  have hchain : ∀ c, (c < 2 ∨ ∃ l ∈ chains, l.head? = some c) →
      chainOf geo m' c = chainOf geo m c := by
    intro c hc
    rcases hc with hlt | ⟨l, hl, hhead⟩
    · rw [chainOf, chainOf, if_pos hlt, if_pos hlt]
    · rw [h.chainOf_head hl hhead]
      cases l with
      | nil => cases hhead
      | cons a l =>
        obtain rfl : a = c := by simpa using hhead
        exact chainOf_eq hpart hl
  have hmem : ∀ d ∈ dirs, ∀ x ∈ listing geo m' d, x ∈ listing geo m d := by
    intro d hd x hx
    rwa [listing_congr hgeo.toValid (hchain d (Or.inr (h.dir d hd))) (hdirs d hd)] at hx
  exact {
    part := hpart
    root := h.root
    dir := h.dir
    sub := fun d hd x hx => h.sub d hd x (hmem d hd x hx)
    file := fun d hd x hx => h.file d hd x (hmem d hd x hx)
    once := fun d hd x hx d' hd' y hy => h.once d hd x (hmem d hd x hx) d' hd' y (hmem d' hd' y hy)
    dots := fun d hd x hx => h.dots d hd x (hmem d hd x hx)
    inside := fun d hd x hx => h.inside d hd x (hmem d hd x hx)
    fits := fun d hd x hx hfile => by
      have hx := hmem d hd x hx
      rw [hchain _ (h.entry_chain hd hx (h.inside.not_dot hd hx hfile))]
      exact h.fits d hd x hx hfile }

theorem WrittenAt.sameCluster (hgeo : geo.Valid) (hfs : geo.FsInfoReserved)
    (h : WrittenAt geo m₀ l offset n m) (hl : ∀ c ∈ l, 2 ≤ c) {c : Nat} (hc : 2 ≤ c)
    (hcl : c ∉ l) : SameCluster geo m₀ m c := by
  have hpos := hgeo.clusterSize_pos
  intro i hi
  refine h _ (clusterAddr_not_inFat hgeo c i) (clusterAddr_not_inFsInfo hgeo hfs c i) ?_
  intro q _ _ hq heq
  have hidx : q / geo.clusterSize < l.length := (Nat.div_lt_iff_lt_mul hpos).mpr hq
  rw [Fat32Geo.fileAddr, List.getD_eq_getElem _ _ hidx] at heq
  have hmem := List.getElem_mem hidx
  obtain ⟨rfl, -⟩ := clusterAddr_inj hgeo hc (hl _ hmem) hi (Nat.mod_lt _ hpos) heq
  exact hcl hmem

theorem chainBytes_congr (h : ∀ c ∈ l, SameCluster geo m m' c) :
    chainBytes geo m' l = chainBytes geo m l := by
  rw [chainBytes, chainBytes]
  exact List.flatMap_congr fun c hc => Memory.slice_congr fun i hi => h c hc i hi

/-! ## The content of the file -/

theorem WrittenAt.fileAddr_eq (hgeo : geo.Valid) (hfs : geo.FsInfoReserved)
    (h : WrittenAt geo m₀ l offset n m) (hnodup : l.Nodup) (hl : ∀ c ∈ l, 2 ≤ c) {q : Nat}
    (hq : q < l.length * geo.clusterSize) (hout : q < offset ∨ offset + n ≤ q) :
    m (geo.fileAddr l q) = m₀ (geo.fileAddr l q) := by
  refine h _ (clusterAddr_not_inFat hgeo _ _) (clusterAddr_not_inFsInfo hgeo hfs _ _) ?_
  intro r hlo hhi hr heq
  have := fileAddr_inj hgeo hnodup hl hq hr heq
  omega

theorem WrittenAt.take_chainBytes (hgeo : geo.Valid) (hfs : geo.FsInfoReserved)
    (h : WrittenAt geo m₀ l offset n m) (hnodup : l.Nodup) (hl : ∀ c ∈ l, 2 ≤ c)
    (hext : Extends geo m₀ l₀ l) {size : Nat} (hsize : size ≤ l₀.length * geo.clusterSize)
    (hoff : size ≤ offset) :
    (chainBytes geo m l).take size = (chainBytes geo m₀ l₀).take size := by
  obtain ⟨new, rfl, -⟩ := hext
  have hle : l₀.length * geo.clusterSize ≤ (l₀ ++ new).length * geo.clusterSize :=
    Nat.mul_le_mul_right _ (by simp)
  rw [Fat32.take_chainBytes hgeo (by omega), Fat32.take_chainBytes hgeo hsize]
  refine List.map_congr_left fun q hq => ?_
  rw [List.mem_range] at hq
  rw [h.fileAddr_eq hgeo hfs hnodup hl (by omega) (by omega), fileAddr_append hgeo (by omega)]

theorem length_overlay (old : List UInt8) (offset : Nat) (data : List UInt8) :
    (Fat32File.overlay old offset data).length = max old.length (offset + data.length) := by
  simp only [Fat32File.overlay, List.length_append, List.length_take, List.length_drop,
    List.length_replicate]
  omega

theorem getD_overlay {old : List UInt8} (hoff : offset ≤ old.length) (q : Nat) :
    (Fat32File.overlay old offset data).getD q 0 =
      if offset ≤ q ∧ q < offset + data.length then data.getD (q - offset) 0 else old.getD q 0 := by
  have hlen : (old ++ List.replicate (offset + data.length - old.length) (0 : UInt8)).length =
      max old.length (offset + data.length) := by
    simp only [List.length_append, List.length_replicate]
    omega
  rw [Fat32File.overlay, List.append_assoc]
  by_cases hlo : q < offset
  · rw [if_neg (by omega), List.getD_append _ _ _ _ (by rw [List.length_take, hlen]; omega)]
    rw [List.take_append_of_le_length hoff]
    rw [List.getD_eq_getElem _ _ (by rw [List.length_take]; omega),
      List.getD_eq_getElem _ _ (by omega), List.getElem_take]
  · rw [List.getD_append_right _ _ _ _ (by rw [List.length_take, hlen]; omega), List.length_take,
      hlen, Nat.min_eq_left (by omega)]
    by_cases hhi : q < offset + data.length
    · rw [if_pos ⟨by omega, hhi⟩, List.getD_append _ _ _ _ (by omega)]
    · rw [if_neg (by omega), List.getD_append_right _ _ _ _ (by omega)]
      rw [List.drop_append, List.drop_replicate, Nat.sub_self, List.replicate_zero, List.append_nil]
      rw [List.getD_eq_getElem?_getD, List.getElem?_drop, List.getD_eq_getElem?_getD]
      congr 2
      omega

theorem Writing.size_le (h : Writing geo m₀ l₀ rest offset data data.length l m) {size : Nat}
    (hsize : size ≤ l₀.length * geo.clusterSize) (hoff : offset ≤ size) :
    max size (offset + data.length) ≤ l.length * geo.clusterSize := by
  obtain ⟨new, hl, -⟩ := h.ext
  have hle : l₀.length * geo.clusterSize ≤ l.length * geo.clusterSize :=
    Nat.mul_le_mul_right _ (by rw [hl]; simp)
  rcases h.bound with hb | hb <;> omega

theorem Writing.take_chainBytes (hgeo : geo.Valid) (hfs : geo.FsInfoReserved)
    (h : Writing geo m₀ l₀ rest offset data data.length l m) {size : Nat}
    (hsize : size ≤ l₀.length * geo.clusterSize) (hoff : offset ≤ size) :
    (chainBytes geo m l).take (max size (offset + data.length)) =
      Fat32File.overlay ((chainBytes geo m₀ l₀).take size) offset data := by
  have hnodup : l.Nodup := h.part.chain_nodup List.mem_cons_self
  have hl2 : ∀ c ∈ l, 2 ≤ c := fun c hc => (h.part.dom_of_mem List.mem_cons_self hc).1
  obtain ⟨new, hl, -⟩ := h.ext
  have hold : ((chainBytes geo m₀ l₀).take size).length = size := by
    rw [List.length_take, length_chainBytes]
    omega
  have hbound := h.size_le hsize hoff
  refine List.ext_getElem ?_ fun q hq hq' => ?_
  · rw [length_overlay, hold, List.length_take, length_chainBytes]
    omega
  · have hqb : q < max size (offset + data.length) := by
      rw [List.length_take] at hq
      omega
    rw [← List.getD_eq_getElem _ 0 hq, ← List.getD_eq_getElem _ 0 hq',
      getD_overlay (by omega)]
    rw [Fat32.take_chainBytes hgeo hbound, Fat32.take_chainBytes hgeo hsize]
    rw [List.getD_eq_getElem _ _ (by simpa using hqb), List.getElem_map, List.getElem_range]
    by_cases hin : offset ≤ q ∧ q < offset + data.length
    · rw [if_pos hin]
      have := h.content hfs (q - offset) (by omega)
      rwa [Nat.add_sub_cancel' hin.1] at this
    · have hqs : q < size := by omega
      rw [if_neg hin, List.getD_eq_getElem _ _ (by simpa using hqs), List.getElem_map,
        List.getElem_range]
      rw [h.frame.fileAddr_eq hgeo hfs hnodup hl2 (by omega) (by omega), hl,
        fileAddr_append hgeo (by omega)]

theorem overlay_length (old data : List UInt8) :
    Fat32File.overlay old old.length data = old ++ data := by
  rw [Fat32File.overlay, List.take_left, List.drop_eq_nil_of_le, List.append_nil]
  simp only [List.length_append, List.length_replicate]
  omega

section Paths

variable {fs : Fat32Fs}

theorem readFile_run (hgeo : fs.geo.Valid) (m : Memory) (path : Name) :
    readFile fs m path = (openResult fs m path).map Fat32File.data := by
  rw [readFile, openFile_run hgeo]

theorem readFile_map (hgeo : fs.geo.Valid) (h : Refreshed fs.geo dirs m m')
    (htree : Tree fs.geo m dirs chains) (hdots : DotsInside fs.geo m dirs) {path : Name}
    {f : List UInt8 → List UInt8}
    (hcontent : ∀ d ∈ dirs, ∀ x ∈ listing fs.geo m d, resolve fs.geo m path = .ok (some x.1) →
      x.1.entry.isFile = true →
      content fs.geo m' (entryAt m' x.1.pos) = f (content fs.geo m x.1.entry)) :
    readFile fs m' path = (readFile fs m path).map f := by
  rw [readFile_run hgeo, readFile_run hgeo, openResult, openResult]
  by_cases hpath : pathParts path = []
  · have hroot : (rootSlot fs.geo).entry.isDirectory = true := by
      simp [rootSlot, FatDirEntry.isDirectory, FatDirEntry.attrDirectory]
    rw [resolve, resolve, if_pos hpath, if_pos hpath]
    simp only [hroot, if_true, Except.map]
  · rw [h.resolve_eq htree hdots hpath]
    cases hres : resolve fs.geo m path with
    | error e => rfl
    | ok found =>
      cases found with
      | none => rfl
      | some slot =>
        have hmem : resolveParts fs.geo m fs.geo.rootCluster (pathParts path) = .ok (some slot) := by
          rwa [resolve, if_neg hpath] at hres
        obtain ⟨d, hd, x, hx, rfl⟩ := resolveParts_mem htree hdots (Or.inr htree.root) hmem
        have halike := h.alike d hd x hx
        simp only [Except.map, Option.map_some, dirSlotAt_entry, halike.isDirectory, halike.isFile]
        by_cases hdir : x.1.entry.isDirectory = true
        · rw [if_pos hdir, if_pos hdir]
        · rw [if_neg hdir, if_neg hdir]
          by_cases hfile : (!x.1.entry.isFile) = true
          · rw [if_pos hfile, if_pos hfile]
          · rw [if_neg hfile, if_neg hfile]
            exact congrArg Except.ok (hcontent d hd x hx hres (by simpa using hfile))

end Paths

theorem chainOf_startOf (h : Partition (links geo m) geo.InRange (l :: rest)) {start : Nat}
    (hs : StartOf l start) : chainOf geo m start = l := by
  cases l with
  | nil =>
    have hlt : start < 2 := hs
    rw [chainOf, if_pos hlt]
  | cons c l =>
    obtain rfl : start = c := hs
    exact chainOf_eq h List.mem_cons_self

structure FileAt (geo : Fat32Geo) (m : Memory) (dirs : Set Nat) (p : Nat × Nat) (l : List Nat)
    (rest : List (List Nat)) : Prop extends TreeBut geo m dirs p l rest where
  listed : ∃ d ∈ dirs, ∃ x ∈ listing geo m d, x.1.pos = p
  dot : (entryAt m p).isDot = false
  isFile : (entryAt m p).isFile = true
  start : StartOf l (entryAt m p).cluster
  size : (entryAt m p).fileSize ≤ l.length * geo.clusterSize
  inside : DotsInside geo m dirs

theorem FatDirEntry.isListed_long {entry : FatDirEntry} (h : entry.isListed = true) :
    entry.isLongName = false := by
  simp only [isListed, Bool.and_eq_true, Bool.not_eq_true'] at h
  exact h.1.2

theorem WellFormedTree.fileAt (h : WellFormedTree geo m dirs chains) {d : Nat} (hd : d ∈ dirs)
    {x : DirSlot × Name} (hx : x ∈ listing geo m d) (hfile : x.1.entry.isFile = true) :
    ∃ l rest, FileAt geo m dirs x.1.pos l rest := by
  obtain ⟨-, hx', -⟩ := mem_listing hx
  have hentry : entryAt m x.1.pos = x.1.entry := congrArg DirSlot.entry hx'.symm
  have hdot := h.inside.not_dot hd hx hfile
  obtain ⟨l, rest, hstart, hbut, -⟩ :=
    h.toTree.leaveFile hd hx hdot (FatDirEntry.isDirectory_of_isFile hfile)
  have hfits := h.fits d hd x hx hfile
  rw [chainOf_startOf hbut.part hstart] at hfits
  refine ⟨l, rest, hbut, ⟨d, hd, x, hx, rfl⟩, ?_, ?_, ?_, ?_, h.inside⟩
  all_goals rw [hentry]
  · exact hdot
  · exact hfile
  · exact hstart
  · exact hfits

namespace FileAt

variable (h : FileAt geo m₀ dirs p l₀ rest)

include h

theorem slotOf : SlotOf geo m₀ dirs p := by
  obtain ⟨d, hd, x, hx, rfl⟩ := h.listed
  exact ⟨d, hd, (mem_listing hx).1⟩

theorem notLong : (entryAt m₀ p).isLongName = false := by
  obtain ⟨d, hd, x, hx, rfl⟩ := h.listed
  exact FatDirEntry.isListed_long (mem_listing hx).2.2

theorem tree : Tree geo m₀ dirs (l₀ :: rest) := by
  refine h.toTreeBut.putFile fun d hd x hx hpos => ?_
  obtain ⟨-, hx', -⟩ := mem_listing hx
  rw [hpos] at hx'
  rw [hx', dirSlotAt_entry]
  exact ⟨h.dot, FatDirEntry.isDirectory_of_isFile h.isFile, h.start⟩

theorem content_eq :
    content geo m₀ (entryAt m₀ p) = (chainBytes geo m₀ l₀).take (entryAt m₀ p).fileSize := by
  rw [content, chainOf_startOf h.part h.start]

theorem other_content (hpart : Partition (links geo m) geo.InRange chains)
    (hsub : ∀ k ∈ rest, k ∈ chains) {d : Nat} (hd : d ∈ dirs) {x : DirSlot × Name}
    (hx : x ∈ listing geo m₀ d) (hpos : x.1.pos ≠ p) (hfile : x.1.entry.isFile = true)
    (hsame : ∀ k ∈ rest, (∀ d ∈ dirs, k.head? ≠ some d) → ∀ c ∈ k, SameCluster geo m₀ m c) :
    content geo m x.1.entry = content geo m₀ x.1.entry := by
  have hdir := FatDirEntry.isDirectory_of_isFile hfile
  have hdot := h.inside.not_dot hd hx hfile
  rw [content, content]
  rcases h.file d hd x hx hpos hdot hdir with hlt | ⟨hnot, k, hk, hhead⟩
  · rw [chainOf, chainOf, if_pos hlt, if_pos hlt]
    rfl
  · cases k with
    | nil => cases hhead
    | cons c k =>
      obtain rfl : c = x.1.entry.cluster := by simpa using hhead
      rw [chainOf_eq hpart (hsub _ hk), chainOf_eq h.part (List.mem_cons_of_mem _ hk)]
      rw [chainBytes_congr (hsame _ hk ?_)]
      intro e he heq
      rw [hhead] at heq
      cases heq
      exact hnot he

theorem written_same (hgeo : geo.Valid) (hfs : geo.FsInfoReserved)
    (hw : WrittenAt geo m₀ l offset n m) (hpart : Partition (links geo m) geo.InRange (l :: rest'))
    (hsub : ∀ k ∈ rest, k ∈ rest') : ∀ k ∈ rest, ∀ c ∈ k, SameCluster geo m₀ m c := by
  intro k hk c hc
  refine hw.sameCluster hgeo hfs (fun c hc => (hpart.dom_of_mem List.mem_cons_self hc).1)
    (h.inRange hk hc).1 fun hcl => ?_
  obtain ⟨-, -, hdisj⟩ := List.nodup_append.mp hpart.nodup
  exact hdisj c hcl c (List.mem_flatten.mpr ⟨k, hsub k hk, hc⟩) rfl

theorem written_slots (hgeo : geo.Valid) (hfs : geo.FsInfoReserved)
    (hw : WrittenAt geo m₀ l offset n m) (hpart : Partition (links geo m) geo.InRange (l :: rest'))
    (hsub : ∀ k ∈ rest, k ∈ rest') {d : Nat} (hd : d ∈ dirs) :
    chainOf geo m d = chainOf geo m₀ d ∧
      ∀ q ∈ dirSlots geo (chainOf geo m₀ d), SameSlot m₀ m q := by
  have hsame := h.written_same hgeo hfs hw hpart hsub
  refine ⟨(h.listing_eq hgeo hpart (fun k hk => List.mem_cons_of_mem _ (hsub k hk)) hsame hd).1,
    fun q hq => sameSlot_of_cluster hgeo hq ?_⟩
  obtain ⟨k, hk, -, hchain⟩ := h.dir_chain hd
  rw [hchain]
  exact hsame k hk

end FileAt

theorem FileAt.readFile_cut {fs : Fat32Fs} (hgeo : fs.geo.Valid) (hfs : fs.geo.FsInfoReserved)
    (h : FileAt fs.geo m₀ dirs p l₀ rest) (hext : Extends fs.geo m₀ l₀ l)
    (hw : WrittenAt fs.geo m₀ l offset n m)
    (hpart : Partition (links fs.geo m) fs.geo.InRange (l :: rest'))
    (hsub : ∀ k ∈ rest, k ∈ rest') (hoff : (entryAt m₀ p).fileSize ≤ offset) (path : Name) :
    readFile fs m path = readFile fs m₀ path := by
  have hslots := fun d hd => h.written_slots hgeo hfs hw hpart hsub (d := d) hd
  have hrefreshed : Refreshed fs.geo dirs m₀ m :=
    refreshed_of_slots (fun d hd => (hslots d hd).1) fun d hd q hq => Or.inl ((hslots d hd).2 q hq)
  have hmap : readFile fs m path = (readFile fs m₀ path).map id :=
    readFile_map hgeo hrefreshed h.tree h.inside fun d hd x hx _ hfile => ?_
  · rw [hmap]
    cases readFile fs m₀ path <;> rfl
  · obtain ⟨hq, hx', -⟩ := mem_listing hx
    have hentry : entryAt m x.1.pos = x.1.entry :=
      ((hslots d hd).2 _ hq).entry.trans (congrArg DirSlot.entry hx'.symm)
    rw [hentry]
    by_cases hpos : x.1.pos = p
    · have hxp : x.1.entry = entryAt m₀ p := by rw [hx', hpos, dirSlotAt_entry]
      rw [hxp, h.content_eq, content]
      -- the entry names the first cluster of both chains, or none
      cases l₀ with
      | nil =>
        have hlt : (entryAt m₀ p).cluster < 2 := h.start
        rw [chainOf, if_pos hlt]
        rfl
      | cons c l₀ =>
        have hstart : StartOf l (entryAt m₀ p).cluster := by
          obtain ⟨new, rfl, -⟩ := hext
          exact h.start
        rw [chainOf_startOf hpart hstart]
        exact hw.take_chainBytes hgeo hfs (hpart.chain_nodup List.mem_cons_self)
          (fun c hc => (hpart.dom_of_mem List.mem_cons_self hc).1) hext h.size hoff
    · exact h.other_content hpart (fun k hk => List.mem_cons_of_mem _ (hsub k hk)) hd hx hpos hfile
        fun k hk _ => h.written_same hgeo hfs hw hpart hsub k hk

section Publish

variable {start size : Nat} {now : DosTime}

theorem startOf_lt (hgeo : geo.Sound) (hpart : Partition (links geo m) geo.InRange (l :: rest))
    (hs : StartOf l start) : start < 2 ^ 32 := by
  have hb := hgeo.bounded
  cases l with
  | nil =>
    have hlt : start < 2 := hs
    omega
  | cons c l =>
    obtain rfl : start = c := hs
    have hc := (hpart.dom_of_mem List.mem_cons_self (List.mem_cons_self : start ∈ start :: l)).2
    omega

structure Published (geo : Fat32Geo) (m₀ : Memory) (dirs : Set Nat) (p : Nat × Nat)
    (l : List Nat) (rest : List (List Nat)) (start size : Nat) (m' : Memory) : Prop where
  part : Partition (links geo m') geo.InRange (l :: rest)
  chain : ∀ d ∈ dirs, chainOf geo m' d = chainOf geo m₀ d
  slots : ∀ d ∈ dirs, ∀ q ∈ dirSlots geo (chainOf geo m₀ d), q ≠ p → SameSlot m₀ m' q
  head : SameHead m₀ m' p
  same : ∀ k ∈ rest, (∀ d ∈ dirs, k.head? ≠ some d) → ∀ c ∈ k, SameCluster geo m₀ m' c
  cluster : (entryAt m' p).cluster = start
  fileSize : (entryAt m' p).fileSize = size

namespace FileAt

variable (h : FileAt geo m₀ dirs p l₀ rest)

include h

theorem published (now : DosTime) (hgeo : geo.Sound) (hfs : geo.FsInfoReserved)
    (hw : WrittenAt geo m₀ l offset n m) (hpart : Partition (links geo m) geo.InRange (l :: rest))
    (hs : StartOf l start) (hsize : size < 2 ^ 32) :
    Published geo m₀ dirs p l rest start size (setSlot m now p start size) ∧
      chainBytes geo (setSlot m now p start size) l = chainBytes geo m l := by
  have hslots := fun d hd => h.written_slots hgeo.toValid hfs hw hpart (fun _ hk => hk) (d := d) hd
  have hsame := h.written_same hgeo.toValid hfs hw hpart fun _ hk => hk
  have hbut : TreeBut geo m dirs p l rest :=
    h.toTreeBut.spared hgeo.toValid hpart (fun _ hk => hk) hsame
  have hoff := h.slotOf.offset
  obtain ⟨e, he, hslot⟩ := h.slotOf
  have hp : SameSlot m₀ m p := (hslots e he).2 p hslot
  rw [← (hslots e he).1] at hslot
  have hchange : SlotChange m p (setSlot m now p start size) := setSlot_change
  obtain ⟨hpart', hchain', hsame'⟩ := hbut.slotChange hgeo he hslot hchange
  refine ⟨⟨hpart', fun d hd => (hchain' d hd).trans (hslots d hd).1, ?_, ?_, ?_,
    entryAt_setSlot_cluster (startOf_lt hgeo hpart hs), entryAt_setSlot_size hsize⟩, ?_⟩
  · intro d hd q hq hqp i hi
    rw [hchange.sameSlot hoff (offsets_dirSlots _ hq) hqp i hi, (hslots d hd).2 q hq i hi]
  · intro i hi
    rw [setSlot_head i hi, hp i (by omega)]
  · intro k hk hnot c hc i hi
    rw [hsame' k (List.mem_cons_of_mem _ hk) (hnot e he) c hc i hi, hsame k hk c hc i hi]
  · refine chainBytes_congr (hsame' l List.mem_cons_self fun heq => ?_)
    obtain ⟨k, hk, hhead⟩ := hbut.dir e he
    exact hbut.not_mem hk (List.mem_of_mem_head? hhead) (List.mem_of_mem_head? heq)

section Published

variable (hp : Published geo m₀ dirs p l rest start size m')

include hp

theorem published_refreshed : Refreshed geo dirs m₀ m' := by
  refine refreshed_of_slots hp.chain fun d hd q hq => ?_
  by_cases hqp : q = p
  · subst hqp
    exact Or.inr ⟨hp.head, h.notLong, FatDirEntry.isDirectory_of_isFile h.isFile⟩
  · exact Or.inl (hp.slots d hd q hq hqp)

theorem published_listing {d : Nat} (hd : d ∈ dirs) {y : DirSlot × Name}
    (hy : y ∈ listing geo m' d) (hpos : y.1.pos ≠ p) : y ∈ listing geo m₀ d := by
  rw [(h.published_refreshed hp).list d hd] at hy
  obtain ⟨x, hx, rfl⟩ := List.mem_map.mp hy
  obtain ⟨hq, hx', -⟩ := mem_listing hx
  have hentry : dirSlotAt m' x.1.pos = x.1 := by
    rw [hx', dirSlotAt_pos, dirSlotAt, dirSlotAt, (hp.slots d hd _ hq hpos).entry]
  have hrefresh : refresh m' x = x := Prod.ext hentry rfl
  rwa [hrefresh]

theorem published_isDot : (entryAt m' p).isDot = false := by
  rw [FatDirEntry.isDot, hp.head.alike.1]
  exact h.dot

theorem published_fileAt (hs : StartOf l start) (hsize : size ≤ l.length * geo.clusterSize) :
    FileAt geo m' dirs p l rest where
  toTreeBut := h.toTreeBut.relist hp.part (fun k hk c hhead => ⟨k, hk, hhead⟩)
    fun d hd y hy hpos => h.published_listing hp hd hy hpos
  listed := by
    obtain ⟨d, hd, x, hx, hpos⟩ := h.listed
    refine ⟨d, hd, refresh m' x, ?_, hpos⟩
    rw [(h.published_refreshed hp).list d hd]
    exact List.mem_map_of_mem hx
  dot := h.published_isDot hp
  isFile := hp.head.alike.isFile.trans h.isFile
  start := by
    rw [hp.cluster]
    exact hs
  size := by
    rw [hp.fileSize]
    exact hsize
  inside d hd y hy hdot := by
    by_cases hpos : y.1.pos = p
    · obtain ⟨-, hy', -⟩ := mem_listing hy
      rw [hy', hpos, dirSlotAt_entry, h.published_isDot hp] at hdot
      cases hdot
    · exact h.inside d hd y (h.published_listing hp hd hy hpos) hdot

end Published

end FileAt

theorem FileAt.readFile_published {fs : Fat32Fs} (hgeo : fs.geo.Valid)
    (h : FileAt fs.geo m₀ dirs p l₀ rest)
    (hp : Published fs.geo m₀ dirs p l rest start size m') (hs : StartOf l start)
    {f : List UInt8 → List UInt8}
    (hcontent : (chainBytes fs.geo m' l).take size = f (content fs.geo m₀ (entryAt m₀ p)))
    (path : Name) :
    readFile fs m' path =
      (readFile fs m₀ path).map
        (if resolve fs.geo m₀ path = .ok (some (dirSlotAt m₀ p)) then f else id) := by
  refine readFile_map hgeo (h.published_refreshed hp) h.tree h.inside fun d hd x hx hres hfile => ?_
  obtain ⟨hq, hx', -⟩ := mem_listing hx
  by_cases hpos : x.1.pos = p
  · rw [hpos] at hx' ⊢
    rw [hx'] at hres
    rw [if_pos hres, hx', dirSlotAt_entry, content, hp.cluster, hp.fileSize,
      chainOf_startOf hp.part hs, hcontent]
  · rw [if_neg, (hp.slots d hd _ hq hpos).entry]
    · have hentry : entryAt m₀ x.1.pos = x.1.entry := congrArg DirSlot.entry hx'.symm
      rw [hentry]
      exact h.other_content hp.part (fun k hk => List.mem_cons_of_mem _ hk) hd hx hpos hfile hp.same
    · rw [hres]
      intro heq
      have hxp : x.1 = dirSlotAt m₀ p := by simpa using heq
      exact hpos (by rw [hxp, dirSlotAt_pos])

end Publish

end Vibra.Fat32
