import Mathlib.Data.Nat.Basic
import Vibra.Lib.Runs

/-! # Alternating bits

Either end of an endpoint has a bit that it turns with every packet.
-/

namespace Vibra.Lib

open Function (update)

/-- The packets of one transfer, the first with this bit of the host, or a new start. -/
inductive Traffic (ι : Type) where
  | packets (endpoint : ι) (dirIn toggle : Bool) (count : Nat)
  | clear (endpoint : ι)

/-- The bits of the two ends at each packet, and that of the device afterwards. -/
def exchange (dirIn : Bool) : Nat → Bool → Bool → List (Bool × Bool) × Bool
  | 0, _, device => ([], device)
  | count + 1, host, device =>
    let next :=
      if host = device then (!host, !device)
      else if dirIn then (host, !device) else (!host, device)
    let rest := exchange dirIn count next.1 next.2
    ((host, device) :: rest.1, rest.2)

/-- What the device has for its endpoints: the bit that is due, and the packets since the start. -/
structure Endpoints (ι : Type) where
  due : ι → Bool
  moved : ι → Nat

namespace Endpoints

variable {ι : Type}

def start : Endpoints ι := ⟨fun _ => false, fun _ => 0⟩

variable [DecidableEq ι]

def step (s : Endpoints ι) : Traffic ι → Endpoints ι
  | .packets endpoint dirIn toggle count =>
    { due := update s.due endpoint (exchange dirIn count toggle (s.due endpoint)).2
      moved := update s.moved endpoint (s.moved endpoint + count) }
  | .clear endpoint => ⟨update s.due endpoint false, update s.moved endpoint 0⟩

omit [DecidableEq ι] in
/-- No packet is thrown away. -/
def InStep (s : Endpoints ι) : Traffic ι → Prop
  | .packets endpoint dirIn toggle count =>
    ∀ packet ∈ (exchange dirIn count toggle (s.due endpoint)).1, packet.1 = packet.2
  | .clear _ => True

omit [DecidableEq ι] in
/-- The first packet has the bit that the number of packets before it makes due. -/
def Counts (s : Endpoints ι) : Traffic ι → Prop
  | .packets endpoint _ toggle count => count = 0 ∨ toggle = (s.moved endpoint % 2 == 1)
  | .clear _ => True

omit [DecidableEq ι] in
instance (s : Endpoints ι) : DecidablePred s.InStep
  | .packets _ _ _ _ => inferInstanceAs (Decidable (∀ packet ∈ _, _))
  | .clear _ => instDecidableTrue

end Endpoints

theorem exchange_inStep_iff (dirIn : Bool) (count : Nat) (host device : Bool) :
    (∀ packet ∈ (exchange dirIn count host device).1, packet.1 = packet.2) ↔
      count = 0 ∨ host = device := by
  induction count generalizing host device with
  | zero => simp [exchange]
  | succ count ih =>
    rw [exchange]
    dsimp only
    rw [List.forall_mem_cons, ih]
    constructor
    · exact fun h => Or.inr h.1
    · intro h
      have heq : host = device := h.resolve_left (Nat.succ_ne_zero count)
      refine ⟨heq, Or.inr ?_⟩
      rw [if_pos heq, heq]

theorem exchange_due (dirIn : Bool) (count : Nat) (bit : Bool) :
    (exchange dirIn count bit bit).2 = (bit ^^ (count % 2 == 1)) := by
  induction count generalizing bit with
  | zero => simp [exchange]
  | succ count ih =>
    rw [exchange]
    dsimp only
    rw [if_pos rfl, ih]
    rcases Nat.mod_two_eq_zero_or_one count with h | h
    · have hnext : (count + 1) % 2 = 1 := by omega
      rw [h, hnext]
      cases bit <;> rfl
    · have hnext : (count + 1) % 2 = 0 := by omega
      rw [h, hnext]
      cases bit <;> rfl

namespace Endpoints

variable {ι : Type} [DecidableEq ι] {s : Endpoints ι} {traffic : List (Traffic ι)}

def Counted (s : Endpoints ι) : Prop := ∀ endpoint, s.due endpoint = (s.moved endpoint % 2 == 1)

omit [DecidableEq ι] in
theorem inStep_iff_counts (h : s.Counted) (t : Traffic ι) : s.InStep t ↔ s.Counts t := by
  cases t with
  | clear endpoint => exact Iff.rfl
  | packets endpoint dirIn toggle count =>
    show (∀ packet ∈ _, _) ↔ _
    rw [exchange_inStep_iff, h endpoint]
    rfl

theorem counted_step (h : s.Counted) (t : Traffic ι) (ht : s.InStep t) : (s.step t).Counted := by
  intro q
  cases t with
  | clear endpoint =>
    show update s.due endpoint false q = (update s.moved endpoint 0 q % 2 == 1)
    rcases eq_or_ne q endpoint with rfl | hne
    · simp
    · rw [Function.update_of_ne hne, Function.update_of_ne hne]
      exact h q
  | packets endpoint dirIn toggle count =>
    show update s.due endpoint (exchange dirIn count toggle (s.due endpoint)).2 q =
      (update s.moved endpoint (s.moved endpoint + count) q % 2 == 1)
    rcases eq_or_ne q endpoint with rfl | hne
    · rw [Function.update_self, Function.update_self]
      rcases (exchange_inStep_iff dirIn count toggle (s.due q)).mp ht with rfl | rfl
      · exact h q
      · rw [exchange_due, h q]
        rcases Nat.mod_two_eq_zero_or_one (s.moved q) with hm | hm <;>
        rcases Nat.mod_two_eq_zero_or_one count with hc | hc <;>
        simp [Nat.add_mod, hm, hc]
    · rw [Function.update_of_ne hne, Function.update_of_ne hne]
      exact h q

theorem along_inStep_iff :
    Along step InStep start traffic ↔ Along step Counts (start : Endpoints ι) traffic :=
  along_congr (fun _ t _ h => inStep_iff_counts h t) (fun _ t _ h ht => counted_step h t ht)
    fun _ => rfl

omit [DecidableEq ι] in
/-- The transfer moves no packet, or the packets before it are even in number. -/
def Even (s : Endpoints ι) : Traffic ι → Prop
  | .packets endpoint _ _ count => count = 0 ∨ s.moved endpoint % 2 = 0
  | .clear _ => True

omit [DecidableEq ι] in
def FromZero : Traffic ι → Prop
  | .packets _ _ toggle _ => toggle = false
  | .clear _ => True

theorem along_inStep_iff_even (h : ∀ t ∈ traffic, FromZero t) :
    Along step InStep start traffic ↔ Along step Even (start : Endpoints ι) traffic := by
  refine along_inStep_iff.trans (along_congr (fun s t ht (_ : True) => ?_)
    (fun _ _ _ _ _ => trivial) trivial)
  have hzero := h t ht
  cases t with
  | clear endpoint => exact Iff.rfl
  | packets endpoint dirIn toggle count =>
    refine or_congr Iff.rfl ?_
    rw [show toggle = false from hzero]
    rcases Nat.mod_two_eq_zero_or_one (s.moved endpoint) with hm | hm <;> simp [hm]

end Endpoints

end Vibra.Lib
