import Vibra.Fat32.TableSpec

/-! # Chains of a damaged table

`chain` follows the links of any table, on a disk that may refuse to read some sectors.
-/

namespace Vibra.Fat32

open Lib (Prog Memory LinkTable Link)
open Lib.Prog (Responder)

variable {geo : Fat32Geo} {m : Memory} {readable : Nat → Bool} {room cluster start : Nat}
  {v : List Nat}

def refusing (readable : Nat → Bool) : Responder Memory Sector where
  read m sector := (if readable sector then some (disk.read m sector) else none, m)
  write m sector block := (true, disk.write m sector block)

def Fat32Geo.entrySector (geo : Fat32Geo) (cluster : Nat) : Nat :=
  geo.fatStartSector + cluster * 4 / sectorSize

/-- Where `chain` goes on, whatever the cluster is. -/
def rawLinks (geo : Fat32Geo) (m : Memory) : LinkTable Nat := fun cluster =>
  if endsChain (fatValue geo m cluster) then .stop else .next (fatValue geo m cluster)

/-- A link that cannot be read is one of the next ones. -/
def Breaks (geo : Fat32Geo) (readable : Nat → Bool) (m : Memory) : Nat → Nat → Prop
  | 0, _ => False
  | room + 1, cluster =>
    readable (geo.entrySector cluster) = false ∨
      endsChain (fatValue geo m cluster) = false ∧
        Breaks geo readable m room (fatValue geo m cluster)

/-- A path in the table through distinct clusters of the volume. -/
structure Path (geo : Fat32Geo) (m : Memory) (v : List Nat) : Prop where
  linked : v.IsChain fun c d => fatValue geo m c = d
  distinct : v.Nodup
  inRange : ∀ c ∈ v, geo.InRange c

theorem answer_bind {β τ ε α α' μ : Type} (dev : Responder μ β) (p : Prog β τ ε α)
    (f : α → Prog β τ ε α') (m : μ) :
    (p >>= f).answer dev m = match p.answer dev m with
      | (.ok a, m') => (f a).answer dev m'
      | (.error e, m') => (.error e, m') := by
  change (p.bind f).answer dev m = _
  induction p generalizing m with
  | pure a => rfl
  | fail e => rfl
  | read s next ih => exact ih _ _
  | write s b t next ih => exact ih _ _

theorem answer_readSector (sector : Nat) :
    (readSector sector).answer (refusing readable) m =
      (if readable sector then .ok (disk.read m sector) else .error .ioError, m) := by
  rw [readSector, Prog.answer]
  cases h : readable sector with
  | true => simp only [refusing, h, if_true]; rfl
  | false => simp only [refusing, h, Bool.false_eq_true, if_false]; rfl

theorem answer_fatGet (cluster : Nat) :
    (fatGet geo cluster).answer (refusing readable) m =
      (if readable (geo.entrySector cluster) then .ok (fatValue geo m cluster)
        else .error .ioError, m) := by
  have hvalue : Memory.le32 (disk.read m (geo.entrySector cluster)) (cluster * 4 % sectorSize) &&&
      fatMask = fatValue geo m cluster := by
    rw [and_fatMask, fatValue, ← le32_sector]
    rfl
  have hread : (readSector (geo.fatStartSector + cluster * 4 / sectorSize)).answer
      (refusing readable) m = _ := answer_readSector (geo.entrySector cluster)
  rw [fatGet, answer_bind, hread]
  cases readable (geo.entrySector cluster) with
  | true => exact congrArg (fun n => (Except.ok n, m)) hvalue
  | false => rfl

theorem answer_chainFrom (geo : Fat32Geo) (readable : Nat → Bool) (m : Memory)
    (room cluster : Nat) :
    (Breaks geo readable m room cluster ∧
      (chainFrom geo room cluster).answer (refusing readable) m = (.error .ioError, m)) ∨
    (¬ Breaks geo readable m room cluster ∧
      (chainFrom geo room cluster).answer (refusing readable) m =
        (.ok (walk geo m room cluster), m)) := by
  induction room generalizing cluster with
  | zero => exact .inr ⟨id, rfl⟩
  | succ room ih =>
    rw [chainFrom, answer_bind, answer_fatGet, Breaks, walk]
    cases readable (geo.entrySector cluster) with
    | false => exact .inl ⟨.inl rfl, rfl⟩
    | true =>
      simp only [if_true, Bool.true_eq_false, false_or]
      cases endsChain (fatValue geo m cluster) with
      | true => exact .inr ⟨fun h => Bool.noConfusion h.1, rfl⟩
      | false =>
        simp only [Bool.false_eq_true, if_false, true_and, answer_bind]
        rcases ih (fatValue geo m cluster) with ⟨hbreaks, hrest⟩ | ⟨hwhole, hrest⟩
        · rw [hrest]
          exact .inl ⟨hbreaks, rfl⟩
        · rw [hrest]
          exact .inr ⟨hwhole, rfl⟩

theorem walk_cases (geo : Fat32Geo) (m : Memory) (room cluster : Nat) :
    (∃ l, walk geo m room cluster = cluster :: l ∧
      LinkTable.IsChain (rawLinks geo m) (cluster :: l)) ∨
    (walk geo m room cluster).length = room := by
  induction room generalizing cluster with
  | zero => exact .inr rfl
  | succ room ih =>
    rw [walk]
    split
    case isTrue hend => exact .inl ⟨[], rfl, if_pos hend⟩
    case isFalse hend =>
        rcases ih (fatValue geo m cluster) with ⟨l, hwalk, hchain⟩ | hlength
        · rw [hwalk]
          exact .inl ⟨_, rfl, if_neg hend, hchain⟩
        · exact .inr (by rw [List.length_cons, hlength])

theorem walk_of_isChain {l : List Nat} (h : LinkTable.IsChain (rawLinks geo m) (cluster :: l))
    (hroom : l.length < room) : walk geo m room cluster = cluster :: l := by
  induction room generalizing cluster l with
  | zero => exact absurd hroom (Nat.not_lt_zero _)
  | succ room ih =>
    rw [walk]
    cases hend : endsChain (fatValue geo m cluster) with
    | true =>
      have hstop : rawLinks geo m cluster = .stop := if_pos hend
      cases l with
      | nil => rfl
      | cons d l => cases hstop.symm.trans h.1
    | false =>
      have hnext : rawLinks geo m cluster = .next (fatValue geo m cluster) :=
        if_neg (by rw [hend]; exact Bool.false_ne_true)
      cases l with
      | nil => cases hnext.symm.trans h
      | cons d l =>
        obtain rfl : fatValue geo m cluster = d := Link.next.inj (hnext.symm.trans h.1)
        rw [ih h.2 (Nat.lt_of_succ_lt_succ hroom)]
        rfl

theorem walk_linked (room cluster : Nat) :
    (walk geo m room cluster).IsChain fun c d => fatValue geo m c = d := by
  induction room generalizing cluster with
  | zero => exact .nil
  | succ room ih =>
    rw [walk]
    split
    · exact .singleton _
    · have hrest := ih (fatValue geo m cluster)
      cases room with
      | zero => exact .singleton _
      | succ room =>
        rw [walk] at hrest ⊢
        split at hrest
        case isTrue hend =>
            rw [if_pos hend]
            exact .cons_cons rfl hrest
        case isFalse hend =>
            rw [if_neg hend]
            exact .cons_cons rfl hrest

theorem nodup_of_isChain {l : List Nat} (h : LinkTable.IsChain (rawLinks geo m) l) :
    l.Nodup := by
  induction l with
  | nil => exact .nil
  | cons c l ih =>
    have hrest : LinkTable.IsChain (rawLinks geo m) l := by
      cases l with
      | nil => trivial
      | cons d l => exact h.2
    refine List.nodup_cons.mpr ⟨fun hmem => ?_, ih hrest⟩
    obtain ⟨before, after, hsplit⟩ := List.append_of_mem hmem
    have hsuffix : LinkTable.IsChain (rawLinks geo m) (c :: after) :=
      LinkTable.IsChain.suffix (hsplit ▸ hrest)
    have hlength := congrArg List.length (h.unique hsuffix)
    rw [hsplit, List.length_append, List.length_cons] at hlength
    omega

/-- A chain of the table from the cluster on, through clusters of the volume. -/
def EndsInside (geo : Fat32Geo) (m : Memory) (start : Nat) : Prop :=
  ∃ l, LinkTable.IsChain (rawLinks geo m) (start :: l) ∧ ∀ c ∈ start :: l, geo.InRange c

theorem length_walk_le (room cluster : Nat) : (walk geo m room cluster).length ≤ room := by
  induction room generalizing cluster with
  | zero => exact Nat.le_refl 0
  | succ room ih =>
    rw [walk]
    split
    · exact Nat.succ_le_succ (Nat.zero_le room)
    · exact Nat.succ_le_succ (ih _)

theorem length_chain_le (h : ((chain geo start).answer (refusing readable) m).1 = .ok v) :
    v.length ≤ geo.totalClusters + 3 := by
  rw [chain] at h
  split at h
  · obtain rfl : [] = v := Except.ok.inj h
    exact Nat.zero_le _
  · rcases answer_chainFrom geo readable m (geo.totalClusters + 3) start with ⟨-, hrun⟩ | ⟨-, hrun⟩
    · rw [hrun] at h
      cases h
    · rw [hrun] at h
      obtain rfl := Except.ok.inj h
      exact length_walk_le _ _

/-- `chain` reads at most `total_clusters + 3` links. A list that it returns is a path through
distinct clusters of the volume exactly when there is no cluster to start from, or a link cannot be
read, or the links lead through the volume to an end. -/
theorem chain_path_iff (geo : Fat32Geo) (m : Memory) (readable : Nat → Bool) (start : Nat) :
    (∀ v, ((chain geo start).answer (refusing readable) m).1 = .ok v →
      v.length ≤ geo.totalClusters + 3) ∧
    ((∀ v, ((chain geo start).answer (refusing readable) m).1 = .ok v → Path geo m v) ↔
      start < 2 ∨ Breaks geo readable m (geo.totalClusters + 3) start ∨
        EndsInside geo m start) := by
  refine ⟨fun v => length_chain_le, ?_⟩
  rw [chain]
  split
  case isTrue hstart =>
      refine iff_of_true (fun v hv => ?_) (.inl hstart)
      obtain rfl : [] = v := Except.ok.inj hv
      exact ⟨.nil, .nil, nofun⟩
  case isFalse hstart =>
      rw [or_iff_right hstart]
      rcases answer_chainFrom geo readable m (geo.totalClusters + 3) start with
        ⟨hbreaks, hrun⟩ | ⟨hwhole, hrun⟩
      · rw [hrun]
        exact iff_of_true (fun v hv => nomatch hv) (.inl hbreaks)
      · rw [hrun, or_iff_right hwhole]
        constructor
        · intro h
          have hpath := h _ rfl
          have hle := length_le_of_nodup hpath.distinct hpath.inRange
          rcases walk_cases geo m (geo.totalClusters + 3) start with
            ⟨l, hwalk, hchain⟩ | hlength
          · exact ⟨l, hchain, hwalk ▸ hpath.inRange⟩
          · omega
        · rintro ⟨l, hchain, hrange⟩ v hv
          have hle := length_le_of_nodup (nodup_of_isChain hchain) hrange
          rw [List.length_cons] at hle
          obtain rfl : walk geo m (geo.totalClusters + 3) start = v := Except.ok.inj hv
          have hroom : l.length < geo.totalClusters + 3 := by omega
          have hwalk := walk_of_isChain hchain hroom
          refine ⟨walk_linked _ _, ?_, ?_⟩
          · rw [hwalk]
            exact nodup_of_isChain hchain
          · rw [hwalk]
            exact hrange

/-- The entry of cluster 2 links to cluster 2. -/
theorem chain_self_link :
    ¬ ∀ (geo : Fat32Geo) (m : Memory) (readable : Nat → Bool) (start : Nat) (v : List Nat),
      ((chain geo start).answer (refusing readable) m).1 = .ok v → Path geo m v := by
  intro h
  have hpath := h
    { fatStartSector := 1
      fatCount := 1
      fatSize := 1
      dataStartSector := 2
      sectorsPerCluster := 1
      clusterSize := 512
      rootCluster := 2
      fsInfoSector := 0
      totalClusters := 2
      volumeLabel := [] }
    (fun a => if a = 520 then 2 else 0) (fun _ => true) 2 [2, 2, 2, 2, 2] rfl
  exact absurd hpath.distinct (by decide)

end Vibra.Fat32
