import Vibra.Net.AnyFrame

/-! # Resolving an address

`resolve` sends a request and waits for three seconds.
-/

namespace Vibra.Net

open Lib (Bytes Outcome)
open Lib.Outcome

variable {net net' : Stack} {frame : Bytes} {ip : Ip} {mac : Mac}

/-- An ARP packet of the host `ip` with the address `mac`. -/
structure IsArp (frame : Bytes) (opcode : Nat) (ip : Ip) (mac : Mac) : Prop where
  length : 42 ≤ frame.length
  type : be16At frame 12 = 0x0806
  opcode : be16At (frame.drop 14) 6 = opcode
  sender : field 4 (frame.drop 14) 14 = ip
  mac : field 6 (frame.drop 14) 8 = mac

def Answers (net : Stack) (frame : Bytes) (ip : Ip) (mac : Mac) : Prop :=
  IsArp frame arpOpReply ip mac ∧
    (field 6 frame 0 = broadcastMac ∨ field 6 frame 0 = net.getLocalMac)

structure SameArp (net net' : Stack) : Prop where
  table : net'.arpTable = net.arpTable
  pending : net'.arpPendingIp = net.arpPendingIp
  resolved : net'.arpResolvedMac = net.arpResolvedMac

structure Heard (frame : Bytes) (net net' : Stack) : Prop where
  table : ∀ entry ∈ net'.arpTable,
    entry ∈ net.arpTable ∨ ∃ opcode, IsArp frame opcode entry.ip entry.mac
  pending : net'.arpPendingIp = net.arpPendingIp ∨ net'.arpPendingIp = none
  resolved : ∀ mac, net'.arpResolvedMac = some mac → net.arpResolvedMac = some mac ∨
    ∃ ip, net.arpPendingIp = some ip ∧ IsArp frame arpOpReply ip mac

theorem SameArp.heard (h : SameArp net net') : Heard frame net net' :=
  ⟨fun _ hmem => Or.inl (h.table ▸ hmem), Or.inl h.pending, fun _ hmac => Or.inl (h.resolved ▸ hmac)⟩

theorem SameArp.refl (net : Stack) : SameArp net net := ⟨rfl, rfl, rfl⟩

/-! ## What handling a frame does -/

theorem sendPacket_same (data : Bytes) :
    (sendPacket net data).Returns fun r => SameArp net r.2 := by
  rw [sendPacket]
  cases net.e1000 with
  | none => exact (returns_ok _).mpr (.refl _)
  | some ring =>
    simp only [returns_bind]
    exact returns_true.mono fun _ _ => returns_true.mono fun _ _ => (returns_ok _).mpr ⟨rfl, rfl, rfl⟩

theorem sendEthernet_same (dst : Mac) (etherType : Nat) (payload : Bytes) :
    (sendEthernet net dst etherType payload).Returns (SameArp net) := by
  simp only [sendEthernet, returns_bind]
  refine returns_true.mono fun _ _ => returns_true.mono fun _ _ => returns_true.mono fun _ _ =>
    returns_true.mono fun _ _ => returns_true.mono fun _ _ => (sendPacket_same _).mono fun r hr => ?_
  rw [returns_ite]
  exact ⟨fun _ => (returns_ok _).mpr ⟨hr.table, hr.pending, hr.resolved⟩, fun _ => (returns_ok _).mpr hr⟩

theorem awaitReply_unanswered (fuel turn : Nat) :
    (awaitReply unanswered fuel turn).Returns (· = none) := by
  induction fuel generalizing turn with
  | zero => exact returns_diverge
  | succ fuel ih =>
    rw [awaitReply]
    show Returns (if _ then _ else _) _
    rw [returns_ite]
    exact ⟨fun _ => (returns_ok _).mpr rfl, fun _ => ih _⟩

theorem resolve_heard (frame : Bytes) (targetIp : Ip) (srcMac : Mac) (srcIp : Ip) :
    (resolve unanswered net targetIp srcMac srcIp).Returns fun r => Heard frame net r.2 := by
  rw [resolve]
  cases net.arpTable.find? (·.ip = targetIp) with
  | some entry => exact (returns_ok _).mpr (SameArp.refl net).heard
  | none =>
    simp only [returns_bind]
    refine (sendEthernet_same _ _ _).mono fun net' hsame =>
      (awaitReply_unanswered _ _).mono fun found hfound => (returns_ok _).mpr ?_
    subst hfound
    exact ⟨fun _ hmem => Or.inl (hsame.table ▸ hmem), Or.inr rfl, nofun⟩

theorem Heard.trans_same {net₁ net₂ : Stack} (h : Heard frame net net₁) (hsame : SameArp net₁ net₂) :
    Heard frame net net₂ :=
  ⟨fun _ hmem => h.table _ (hsame.table ▸ hmem), hsame.pending ▸ h.pending,
    fun _ hmac => h.resolved _ (hsame.resolved ▸ hmac)⟩

theorem SameArp.trans_heard {net₁ net₂ : Stack} (hsame : SameArp net net₁)
    (h : Heard frame net₁ net₂) : Heard frame net net₂ :=
  ⟨fun entry hmem => hsame.table ▸ h.table entry hmem, hsame.pending ▸ h.pending,
    fun mac hmac => hsame.resolved ▸ hsame.pending ▸ h.resolved mac hmac⟩

theorem sendIp_heard (frame : Bytes) (dstIp : Ip) (protocol : Nat) (payload : Bytes) :
    (sendIp unanswered net dstIp protocol payload).Returns (Heard frame net) := by
  simp only [sendIp, returns_bind]
  refine returns_true.mono fun _ _ => returns_true.mono fun _ _ => returns_true.mono fun _ _ =>
    returns_true.mono fun _ _ => (resolve_heard frame _ _ _).mono fun r hr => ?_
  cases hmac : r.1 with
  | none => exact (returns_ok _).mpr hr
  | some mac => exact (sendEthernet_same _ _ _).mono fun _ hsame => hr.trans_same hsame

theorem handleIp_heard (p : Bytes) :
    (handleIp unanswered net p).Returns (Heard frame net) := by
  have hkept : Returns (.ok net : Res Stack) (Heard frame net) :=
    (returns_ok _).mpr (SameArp.refl net).heard
  simp only [handleIp, returns_ite, returns_bind, pure_eq]
  refine ⟨fun _ => hkept, fun _ => ⟨fun _ => hkept, fun _ => ⟨fun _ => hkept, fun _ =>
    ⟨fun _ => hkept, fun _ => returns_true.mono fun _ _ => ⟨fun _ => hkept, fun _ =>
      returns_true.mono fun data _ => ⟨fun _ => ?_, fun _ => hkept⟩⟩⟩⟩⟩⟩
  simp only [handleIcmp, returns_ite, returns_bind, pure_eq]
  refine ⟨fun _ => hkept, fun _ => returns_true.mono fun payload _ => ⟨fun _ => ?_, fun _ =>
    ⟨fun _ => (returns_ok _).mpr ?_, fun _ => hkept⟩⟩⟩
  · simp only [sendEchoReply, sendEcho, returns_bind]
    exact returns_true.mono fun _ _ => returns_true.mono fun _ _ => returns_true.mono fun _ _ =>
      returns_true.mono fun _ _ => returns_true.mono fun _ _ => sendIp_heard frame _ _ _
  · exact SameArp.heard ⟨rfl, rfl, rfl⟩

theorem mem_addEntry {entry : ArpEntry} (h : entry ∈ (addEntry net ip mac).arpTable) :
    entry ∈ net.arpTable ∨ entry = ⟨ip, mac⟩ := by
  rw [addEntry] at h
  cases hfind : net.arpTable.findIdx? (·.ip = ip) with
  | none =>
    rw [hfind] at h
    rcases List.mem_append.mp h with hold | hnew
    · exact Or.inl hold
    · exact Or.inr (List.mem_singleton.mp hnew)
  | some i =>
    rw [hfind] at h
    obtain ⟨j, hj⟩ := List.getElem?_of_mem h
    rw [List.getElem?_modify] at hj
    obtain ⟨old, hold, hentry⟩ := Option.map_eq_some_iff.mp hj
    by_cases hij : i = j
    · subst hij
      rw [if_pos rfl] at hentry
      obtain ⟨hi, hip, -⟩ := List.findIdx?_eq_some_iff_getElem.mp hfind
      rw [List.getElem?_eq_getElem hi] at hold
      obtain rfl := Option.some.inj hold
      right
      rw [← hentry, of_decide_eq_true hip]
    · rw [if_neg hij] at hentry
      exact Or.inl (hentry ▸ List.mem_of_getElem? hold)

theorem handleArp_heard (htype : be16At frame 12 = 0x0806) :
    (handleArp net (frame.drop 14)).Returns (Heard frame net) := by
  have hkept : Returns (.ok net : Res Stack) (Heard frame net) :=
    (returns_ok _).mpr (SameArp.refl net).heard
  simp only [handleArp, returns_ite, pure_eq]
  refine ⟨fun _ => hkept, fun hshort => ?_⟩
  rw [List.length_drop] at hshort
  have harp (opcode : Nat) (hopcode : be16At (frame.drop 14) 6 = opcode) :
      IsArp frame opcode (field 4 (frame.drop 14) 14) (field 6 (frame.drop 14) 8) :=
    ⟨by omega, htype, hopcode, rfl, rfl⟩
  have hpending (ip : Ip) (mac : Mac) : (addEntry net ip mac).arpPendingIp = net.arpPendingIp := by
    unfold addEntry
    split <;> rfl
  have hresolved (ip : Ip) (mac : Mac) :
      (addEntry net ip mac).arpResolvedMac = net.arpResolvedMac := by
    unfold addEntry
    split <;> rfl
  have hadded : Heard frame net
      (addEntry net (field 4 (frame.drop 14) 14) (field 6 (frame.drop 14) 8)) := by
    refine ⟨fun entry hmem => ?_, Or.inl (hpending _ _), fun mac hmac => Or.inl ?_⟩
    · rcases mem_addEntry hmem with hold | rfl
      · exact Or.inl hold
      · exact Or.inr ⟨_, harp _ rfl⟩
    · rwa [hresolved] at hmac
  refine ⟨fun _ => ⟨fun _ => ?_, fun _ => hkept⟩, fun _ => ⟨fun hreply => ⟨fun hwaits => ?_,
    fun _ => (returns_ok _).mpr hadded⟩, fun _ => hkept⟩⟩
  · exact (sendEthernet_same _ _ _).mono fun _ hsame => hadded.trans_same hsame
  · rw [hpending] at hwaits
    refine (returns_ok _).mpr ⟨hadded.table, hadded.pending, fun mac hmac => Or.inr ⟨_, hwaits, ?_⟩⟩
    obtain rfl := Option.some.inj hmac
    exact harp _ hreply

theorem handleEthernet_heard : (handleEthernet unanswered net frame).Returns (Heard frame net) := by
  have hkept : Returns (.ok net : Res Stack) (Heard frame net) :=
    (returns_ok _).mpr (SameArp.refl net).heard
  have hcount : SameArp net (countFrame net frame) := ⟨rfl, rfl, rfl⟩
  have hkept' : Returns (.ok (countFrame net frame) : Res Stack) (Heard frame net) :=
    (returns_ok _).mpr hcount.heard
  simp only [handleEthernet, returns_ite, returns_bind, pure_eq]
  refine ⟨fun _ => hkept, fun _ => returns_true.mono fun _ _ => returns_true.mono fun _ _ =>
    returns_true.mono fun _ _ => ⟨fun _ => hkept', fun _ => ?_⟩⟩
  intro payload hpayload
  obtain rfl : payload = frame.drop 14 := by
    rw [slice] at hpayload
    split at hpayload
    · obtain rfl := Outcome.ok.inj hpayload
      exact List.take_of_length_le (by rw [List.length_drop])
    · cases hpayload
  exact ⟨fun htype => (handleArp_heard htype).mono fun _ h => hcount.trans_heard h, fun _ =>
    ⟨fun _ => (handleIp_heard _).mono fun _ h => hcount.trans_heard h, fun _ => hkept'⟩⟩

/-- The stack and the frames that the card holds. What has arrived is on record, and what has
since the last request. -/
structure Link where
  net : Stack
  ring : List Bytes
  arrived : List Bytes
  window : List Bytes

/-- What happens beside the task that resolves: a frame arrives, or another task takes one. -/
inductive Happening where
  | arrive (frame : Bytes)
  | poll

namespace Link

/-- A poll is that of `poll_recv_static`, and a turn of that of `poll_recv_once`. -/
def happen (s : Link) : Happening → Option Link
  | .arrive frame => some { s with
      ring := s.ring ++ [frame]
      arrived := s.arrived ++ [frame]
      window := s.window ++ [frame] }
  | .poll =>
    if s.net.netInterface.isNone then some s
    else
      match s.ring with
      | [] => some s
      | frame :: ring =>
        (handleEthernet unanswered s.net frame).toOption.map fun net => { s with net, ring }

def beside (s : Link) (happenings : List Happening) : Option Link := happenings.foldlM happen s

end Link

/-- A call of `resolve`: what happens beside it between two of its accesses, and the clock, which
has passed the time limit at turn `last`. -/
structure Call where
  targetIp : Ip
  srcMac : Mac
  srcIp : Ip
  searched : List Happening
  sent : List Happening
  pending : List Happening
  turns : Nat → List Happening
  uptimeMs : Nat → Nat
  last : Nat
  passes : 3000 ≤ (uptimeMs last + 2 ^ 64 - uptimeMs 0) % 2 ^ 64

namespace Call

def Expired (c : Call) (turn : Nat) : Prop :=
  3000 ≤ (c.uptimeMs turn + 2 ^ 64 - c.uptimeMs 0) % 2 ^ 64

instance (c : Call) : DecidablePred c.Expired := fun _ => inferInstanceAs (Decidable (_ ≤ _))

/-- The loop of `resolve` from a turn on. -/
def await (c : Call) : Nat → Nat → Link → Option (Option Mac × Link)
  | 0, _, _ => none
  | fuel + 1, turn, s => do
      let s ← s.beside (c.turns turn)
      match s.net.arpResolvedMac with
      | some mac => return (some mac, s)
      | none => if c.Expired turn then return (none, s) else await c fuel (turn + 1) s

/-- The state in which the loop starts. -/
def enter (c : Call) (s : Link) : Option Link := do
  let s ← s.beside c.searched
  let net ← (sendArpRequest s.net c.targetIp c.srcMac c.srcIp).toOption
  let s ← { s with net, window := [] }.beside c.sent
  let s ← { s with net := { s.net with arpPendingIp := some c.targetIp } }.beside c.pending
  return { s with net := { s.net with arpResolvedMac := none } }

/-- `resolve`, with what happens beside it. -/
def exec (c : Call) (s : Link) : Option (Option Mac × Link) :=
  match s.net.arpTable.find? (·.ip = c.targetIp) with
  | some entry => some (some entry.mac, s)
  | none => do
      let s ← c.enter s
      let (found, s) ← c.await (c.last + 1) 0 s
      return (found, { s with net := { s.net with arpPendingIp := none } })

end Call

/-- The state before check `n` of those from a turn on. -/
def Call.check (c : Call) : Nat → Nat → Link → Option Link
  | 0, turn, s => s.beside (c.turns turn)
  | n + 1, turn, s => (s.beside (c.turns turn)).bind (c.check n (turn + 1))

def Call.Answered (c : Call) (turn : Nat) (s : Link) : Prop :=
  ∃ n s', (∀ k < n, ¬ c.Expired (turn + k)) ∧ c.check n turn s = some s' ∧
    s'.net.arpResolvedMac ≠ none

/-- What the kernel may do with the network: frames come, and the stack polls or resolves. -/
inductive LinkEvent where
  | happen (happening : Happening)
  | resolve (c : Call)

def Link.step (s : Link) : LinkEvent → Option Link
  | .happen happening => s.happen happening
  | .resolve c => (c.exec s).map Prod.snd

def Link.run (s : Link) (events : List LinkEvent) : Option Link := events.foldlM Link.step s

/-- What the table and the card hold has arrived. -/
structure Link.Known (s : Link) : Prop where
  table : ∀ entry ∈ s.net.arpTable, ∃ frame ∈ s.arrived, ∃ opcode,
    IsArp frame opcode entry.ip entry.mac
  ring : ∀ frame ∈ s.ring, frame ∈ s.arrived

def Link.Reserved (s : Link) (ip : Ip) : Prop :=
  s.net.arpPendingIp = some ip ∨ s.net.arpPendingIp = none

structure Link.Awaits (s : Link) (ip : Ip) : Prop where
  pending : s.Reserved ip
  resolved : ∀ mac, s.net.arpResolvedMac = some mac →
    ∃ frame ∈ s.arrived, IsArp frame arpOpReply ip mac

/-! ## Invariants -/

section Invariants

variable {s s' : Link} {c : Call}

theorem Link.Known.of_same (h : s.Known) (hsame : SameArp s.net net) (window : List Bytes) :
    Link.Known { s with net, window } :=
  ⟨fun entry hmem => h.table entry (hsame.table ▸ hmem), h.ring⟩

theorem Link.Known.of_cells (h : s.Known) (pending : Option Ip) (resolved : Option Mac) :
    Link.Known { s with
      net := { s.net with arpPendingIp := pending, arpResolvedMac := resolved } } :=
  ⟨h.table, h.ring⟩

theorem Link.happen_spec {happening : Happening} (hs : s.Known)
    (h : s.happen happening = some s') :
    s'.Known ∧ (s.Reserved ip → s'.Reserved ip) ∧ (s.Awaits ip → s'.Awaits ip) := by
  cases happening with
  | arrive frame =>
    obtain rfl := Option.some.inj h
    have hold {f : Bytes} (hf : f ∈ s.arrived) : f ∈ s.arrived ++ [frame] :=
      List.mem_append_left _ hf
    refine ⟨⟨fun entry hmem => ?_, fun f hf => ?_⟩, id, fun hw => ⟨hw.pending, ?_⟩⟩
    · obtain ⟨f, hf, htold⟩ := hs.table entry hmem
      exact ⟨f, hold hf, htold⟩
    · rcases List.mem_append.mp hf with hf | hf
      · exact hold (hs.ring f hf)
      · exact List.mem_append_right _ hf
    · intro mac hmac
      obtain ⟨f, hf, htold⟩ := hw.resolved mac hmac
      exact ⟨f, hold hf, htold⟩
  | poll =>
    rw [Link.happen] at h
    split at h
    · obtain rfl := Option.some.inj h
      exact ⟨hs, id, id⟩
    · split at h
      · obtain rfl := Option.some.inj h
        exact ⟨hs, id, id⟩
      · rename_i frame ring hring
        have hframe : frame ∈ s.arrived := hs.ring frame (hring ▸ List.mem_cons_self)
        obtain ⟨net, hnet, rfl⟩ := Option.map_eq_some_iff.mp h
        have hheard : Heard frame s.net net :=
          handleEthernet_heard net (toOption_eq_some.mp hnet)
        have hreserved (hp : s.Reserved ip) : Link.Reserved { s with net, ring } ip :=
          hheard.pending.elim (fun hsame => hp.imp hsame.trans hsame.trans) Or.inr
        refine ⟨⟨fun entry hmem => ?_, fun f hf => ?_⟩, hreserved, fun hw =>
          ⟨hreserved hw.pending, ?_⟩⟩
        · rcases hheard.table entry hmem with hold | htold
          · exact hs.table entry hold
          · exact ⟨frame, hframe, htold⟩
        · exact hs.ring f (hring ▸ List.mem_cons_of_mem _ hf)
        · intro mac hmac
          rcases hheard.resolved mac hmac with hold | ⟨ip', hip, htold⟩
          · exact hw.resolved mac hold
          · rcases hw.pending with hpending | hpending
            · obtain rfl := Option.some.inj (hip.symm.trans hpending)
              exact ⟨frame, hframe, htold⟩
            · rw [hpending] at hip
              cases hip

theorem Link.beside_spec {happenings : List Happening} (hs : s.Known)
    (h : s.beside happenings = some s') :
    s'.Known ∧ (s.Reserved ip → s'.Reserved ip) ∧ (s.Awaits ip → s'.Awaits ip) := by
  induction happenings generalizing s with
  | nil =>
    obtain rfl := Option.some.inj h
    exact ⟨hs, id, id⟩
  | cons happening happenings ih =>
    rw [beside, List.foldlM_cons] at h
    obtain ⟨s₁, h₁, h₂⟩ := Option.bind_eq_some_iff.mp h
    obtain ⟨hknown, hreserved, hawaits⟩ := @happen_spec ip _ _ _ hs h₁
    obtain ⟨hknown', hreserved', hawaits'⟩ := ih hknown h₂
    exact ⟨hknown', fun hr => hreserved' (hreserved hr), fun hw => hawaits' (hawaits hw)⟩

theorem Call.enter_spec (hs : s.Known) (h : c.enter s = some s') :
    s'.Known ∧ s'.Awaits c.targetIp := by
  obtain ⟨s₁, h₁, h⟩ := Option.bind_eq_some_iff.mp h
  obtain ⟨net, hnet, h⟩ := Option.bind_eq_some_iff.mp h
  obtain ⟨s₂, h₂, h⟩ := Option.bind_eq_some_iff.mp h
  obtain ⟨s₃, h₃, h⟩ := Option.bind_eq_some_iff.mp h
  obtain rfl := Option.some.inj h
  have hsame : SameArp s₁.net net := sendEthernet_same _ _ _ net (toOption_eq_some.mp hnet)
  obtain ⟨hknown₁, -⟩ := @Link.beside_spec c.targetIp _ _ _ hs h₁
  obtain ⟨hknown₂, -⟩ := @Link.beside_spec c.targetIp _ _ _ (hknown₁.of_same hsame []) h₂
  obtain ⟨hknown₃, hreserved, -⟩ := @Link.beside_spec c.targetIp _ _ _
    (hknown₂.of_cells (some c.targetIp) s₂.net.arpResolvedMac) h₃
  exact ⟨hknown₃.of_cells _ none, hreserved (Or.inl rfl), nofun⟩

theorem Call.await_spec {fuel turn : Nat} {found : Option Mac} (hs : s.Known)
    (hw : s.Awaits c.targetIp) (h : c.await fuel turn s = some (found, s')) :
    s'.Known ∧ s'.Awaits c.targetIp ∧ s'.net.arpResolvedMac = found ∧
      (found ≠ none ↔ c.Answered turn s) := by
  induction fuel generalizing turn s with
  | zero => cases h
  | succ fuel ih =>
    obtain ⟨s₁, h₁, h⟩ := Option.bind_eq_some_iff.mp h
    obtain ⟨hknown, -, hawaits⟩ := @Link.beside_spec c.targetIp _ _ _ hs h₁
    cases hcell : s₁.net.arpResolvedMac with
    | some mac =>
      simp only [hcell] at h
      obtain ⟨rfl, rfl⟩ := Prod.mk.inj (Option.some.inj h)
      exact ⟨hknown, hawaits hw, hcell, fun _ => ⟨0, s₁, nofun, h₁, by rw [hcell]; exact nofun⟩,
        fun _ => nofun⟩
    | none =>
      simp only [hcell] at h
      have hlater : ¬ c.Expired turn →
          (c.Answered turn s ↔ c.Answered (turn + 1) s₁) := by
        intro hexpired
        constructor
        · rintro ⟨n, s₂, hopen, hcheck, hset⟩
          cases n with
          | zero =>
            obtain rfl := Option.some.inj (h₁.symm.trans hcheck)
            exact absurd hcell hset
          | succ n =>
            rw [Call.check, h₁] at hcheck
            exact ⟨n, s₂, fun k hk => by
              have := hopen (k + 1) (by omega)
              rwa [← Nat.add_assoc, Nat.add_right_comm] at this, hcheck, hset⟩
        · rintro ⟨n, s₂, hopen, hcheck, hset⟩
          refine ⟨n + 1, s₂, fun k hk => ?_, by rw [Call.check, h₁]; exact hcheck, hset⟩
          cases k with
          | zero => exact hexpired
          | succ k =>
            have := hopen k (by omega)
            rwa [Nat.add_right_comm, Nat.add_assoc] at this
      split at h
      · rename_i hexpired
        obtain ⟨rfl, rfl⟩ := Prod.mk.inj (Option.some.inj h)
        refine ⟨hknown, hawaits hw, hcell, fun hne => absurd rfl hne, ?_⟩
        rintro ⟨n, s₂, hopen, hcheck, hset⟩
        cases n with
        | zero =>
          obtain rfl := Option.some.inj (h₁.symm.trans hcheck)
          exact absurd hcell hset
        | succ n => exact absurd hexpired (hopen 0 (by omega))
      · rename_i hexpired
        obtain ⟨hknown', hawaits', hfound, hanswered⟩ := ih hknown (hawaits hw) h
        exact ⟨hknown', hawaits', hfound, hanswered.trans (hlater hexpired).symm⟩

theorem Call.exec_known {found : Option Mac} (hs : s.Known) (h : c.exec s = some (found, s')) :
    s'.Known := by
  rw [Call.exec] at h
  split at h
  · obtain ⟨-, rfl⟩ := Prod.mk.inj (Option.some.inj h)
    exact hs
  · obtain ⟨s₁, h₁, h⟩ := Option.bind_eq_some_iff.mp h
    obtain ⟨⟨found', s₂⟩, h₂, h⟩ := Option.bind_eq_some_iff.mp h
    obtain ⟨-, rfl⟩ := Prod.mk.inj (Option.some.inj h)
    obtain ⟨hknown, hawaits⟩ := c.enter_spec hs h₁
    exact (c.await_spec hknown hawaits h₂).1.of_cells none s₂.net.arpResolvedMac

theorem Link.run_known {events : List LinkEvent} (hs : s.Known) (h : s.run events = some s') :
    s'.Known := by
  induction events generalizing s with
  | nil =>
    obtain rfl := Option.some.inj h
    exact hs
  | cons e events ih =>
    rw [run, List.foldlM_cons] at h
    obtain ⟨s₁, h₁, h₂⟩ := Option.bind_eq_some_iff.mp h
    refine ih ?_ h₂
    cases e with
    | happen happening => exact (@happen_spec (Vector.replicate 4 0) _ _ _ hs h₁).1
    | resolve c =>
      obtain ⟨⟨found, s₂⟩, hexec, rfl⟩ := Option.map_eq_some_iff.mp h₁
      exact c.exec_known hs hexec

end Invariants

variable {s s' : Link} {c : Call} {found : Option Mac}

/-- The call returns an address that the host has told, and it does when a reply has arrived
since the request was sent. -/
structure Call.Finds (c : Call) (s : Link) (found : Option Mac) (s' : Link) : Prop where
  reached : s.net.arpTable.find? (·.ip = c.targetIp) = none →
    (∃ frame ∈ s'.window, ∃ mac, Answers s'.net frame c.targetIp mac) →
      ∃ mac, found = some mac ∧ ∃ frame ∈ s'.arrived, IsArp frame arpOpReply c.targetIp mac
  told : ∀ mac, found = some mac → ∃ frame ∈ s'.arrived, ∃ opcode,
    IsArp frame opcode c.targetIp mac

/-- When a request is sent and a reply to it arrives, a check within the time limit finds that
another task has stored an answer. -/
def Call.Heeded (c : Call) (s s' : Link) : Prop :=
  s.net.arpTable.find? (·.ip = c.targetIp) = none →
    (∃ frame ∈ s'.window, ∃ mac, Answers s'.net frame c.targetIp mac) →
      ∃ s₁, c.enter s = some s₁ ∧ c.Answered 0 s₁

def gatewayIp : Ip := quiet.getGateway

def gatewayMac : Mac := #v[0x52, 0x55, 10, 0, 2, 2]

def gatewayReply : Bytes :=
  quiet.getLocalMac.toList ++ gatewayMac.toList ++ [0x08, 0x06] ++
    arpPacket arpOpReply gatewayMac gatewayIp quiet.getLocalMac quiet.getLocalIp

/-- The state after `init`: nothing has arrived. -/
def quietLink : Link := ⟨quiet, [], [], []⟩

theorem known_quietLink : quietLink.Known := ⟨nofun, nofun⟩

/-- A call for the gateway's address, with what happens after the request and before the
checks. -/
def gatewayCall (sent : List Happening) (turns : Nat → List Happening) : Call :=
  ⟨gatewayIp, quiet.getLocalMac, quiet.getLocalIp, [], sent, [], turns, fun turn => 3000 * turn, 1,
    unanswered.passes⟩

def heededCall : Call :=
  gatewayCall [] fun turn => if turn = 0 then [.arrive gatewayReply, .poll] else []

def missedCall : Call :=
  gatewayCall [] fun turn => if turn = 0 then [.arrive gatewayReply] else []

/-- Another task polls before `ARP_PENDING_IP` is set. -/
def earlyCall : Call := gatewayCall [.arrive gatewayReply, .poll] fun _ => []

theorem answers_gatewayReply (net : Stack) (h : net.netInterface = quiet.netInterface) :
    Answers net gatewayReply gatewayIp gatewayMac :=
  ⟨⟨by decide, by decide, by decide, by decide, by decide⟩,
    Or.inr (by rw [Stack.getLocalMac, h]; decide)⟩

end Vibra.Net
