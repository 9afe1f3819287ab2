import Vibra.Lib.Runs

/-! # Memory lent to devices

A request lends blocks to a device.
-/

namespace Vibra.Lib

variable {C B : Type} [DecidableEq C] [DecidableEq B]

structure Loan (C B : Type) where
  serial : Nat
  channel : C
  blocks : List B

/-- A request with the serial of the one whose end is observed, if any, and the channel that it
has the device drop once it is done. Or a block is freed. -/
inductive Deed (C B : Type) where
  | request (loan : Loan C B) (observed : Option Nat) (recalled : Option C)
  | free (block : B)
  | other

/-- The loans that there are, and those that there are as far as anyone knows. -/
structure Ledger (C B : Type) where
  lent : List (Loan C B)
  believed : List (Loan C B)

namespace Ledger

def empty : Ledger C B := ⟨[], []⟩

def drop (recalled : Option C) (loans : List (Loan C B)) : List (Loan C B) :=
  loans.filter fun loan => recalled ≠ some loan.channel

@[simp] theorem drop_none (loans : List (Loan C B)) : drop none loans = loans :=
  List.filter_eq_self.mpr fun _ _ => rfl

theorem drop_eq_nil {channel : C} {loans : List (Loan C B)}
    (h : ∀ l ∈ loans, l.channel = channel) : drop (some channel) loans = [] :=
  List.filter_eq_nil_iff.mpr fun l hl => by simp [h l hl]

def step (s : Ledger C B) : Deed C B → Ledger C B
  | .request loan none _ => ⟨s.lent ++ [loan], s.believed ++ [loan]⟩
  | .request loan (some serial) recalled =>
    ⟨if serial = loan.serial then drop recalled s.lent
      else (s.lent ++ [loan]).filter (·.serial ≠ serial), drop recalled s.believed⟩
  | .free _ => s
  | .other => s

/-- A request is a new one, and what ends is one of the same channel. -/
def Possible (s : Ledger C B) : Deed C B → Prop
  | .request loan observed _ =>
    (∀ l ∈ s.lent, l.serial ≠ loan.serial) ∧
      ∀ serial ∈ observed, ∃ l ∈ s.lent ++ [loan], l.serial = serial ∧ l.channel = loan.channel
  | _ => True

/-- No block is freed before the last request with it is answered or dropped, and a request
without blocks is answered. -/
def InTime (s : Ledger C B) : Deed C B → Prop
  | .request loan observed _ => loan.blocks = [] → observed ≠ none
  | .free block => ∀ l ∈ s.believed, block ∉ l.blocks
  | .other => True

def Safe (s : Ledger C B) : Deed C B → Prop
  | .free block => ∀ l ∈ s.lent, block ∉ l.blocks
  | _ => True

instance (s : Ledger C B) : (deed : Deed C B) → Decidable (s.Possible deed)
  | .request .. => inferInstanceAs (Decidable (_ ∧ ∀ _ ∈ _, _))
  | .free _ | .other => instDecidableTrue

instance (s : Ledger C B) : (deed : Deed C B) → Decidable (s.InTime deed)
  | .request .. => inferInstanceAs (Decidable (_ → _))
  | .free _ => inferInstanceAs (Decidable (∀ _ ∈ _, _))
  | .other => instDecidableTrue

instance (s : Ledger C B) : (deed : Deed C B) → Decidable (s.Safe deed)
  | .free _ => inferInstanceAs (Decidable (∀ _ ∈ _, _))
  | .request .. | .other => instDecidableTrue

end Ledger

/-- In a possible run in time, nothing has been freed in use, and exactly `loans` are out, as
everyone knows. -/
def Holding (loans : List (Loan C B)) (deeds : List (Deed C B)) : Prop :=
  Along Ledger.step Ledger.Possible .empty deeds → Along Ledger.step Ledger.InTime .empty deeds →
    Along Ledger.step Ledger.Safe .empty deeds ∧
      deeds.foldl Ledger.step .empty = ⟨loans, loans⟩

namespace Holding

variable {loans loans' : List (Loan C B)} {deeds : List (Deed C B)} {loan : Loan C B} {block : B}
  {recalled : Option C} {serial : Nat}

theorem nil : Holding ([] : List (Loan C B)) [] := fun _ _ => ⟨trivial, rfl⟩

theorem snoc {deed : Deed C B} (h : Holding loans deeds)
    (hdeed : Ledger.Possible ⟨loans, loans⟩ deed → Ledger.InTime ⟨loans, loans⟩ deed →
      Ledger.Safe ⟨loans, loans⟩ deed ∧ Ledger.step ⟨loans, loans⟩ deed = ⟨loans', loans'⟩) :
    Holding loans' (deeds ++ [deed]) := by
  intro hpossible hintime
  obtain ⟨hpossible, hlast⟩ := along_snoc.mp hpossible
  obtain ⟨hintime, hlast'⟩ := along_snoc.mp hintime
  obtain ⟨hsafe, hrun⟩ := h hpossible hintime
  rw [hrun] at hlast hlast'
  obtain ⟨hsafe', hstep⟩ := hdeed hlast hlast'
  exact ⟨along_snoc.mpr ⟨hsafe, hrun ▸ hsafe'⟩, by
    rw [List.foldl_append, List.foldl_cons, List.foldl_nil, hrun, hstep]⟩

theorem other (h : Holding loans deeds) : Holding loans (deeds ++ [.other]) :=
  h.snoc fun _ _ => ⟨trivial, rfl⟩

theorem answered (h : Holding loans deeds) (hchannel : ∀ l ∈ loans, l.channel ≠ loan.channel) :
    Holding (Ledger.drop recalled loans) (deeds ++ [.request loan (some serial) recalled]) := by
  refine h.snoc fun hpossible _ => ⟨trivial, ?_⟩
  obtain ⟨l, hl, hserial, hsame⟩ := hpossible.2 serial rfl
  rcases List.mem_append.mp hl with hl | hl
  · exact absurd hsame (hchannel l hl)
  · rw [List.mem_singleton.mp hl] at hserial
    rw [Ledger.step, if_pos hserial.symm]

theorem unanswered (h : Holding loans deeds) :
    Holding (loans ++ [loan]) (deeds ++ [.request loan none recalled]) :=
  h.snoc fun _ _ => ⟨trivial, rfl⟩

theorem late (h : Holding loans deeds) (hblocks : loan.blocks = []) :
    Holding loans' (deeds ++ [.request loan none recalled]) :=
  h.snoc fun _ hintime => absurd rfl (hintime hblocks)

theorem free (h : Holding loans deeds) : Holding loans (deeds ++ [.free block]) :=
  h.snoc fun _ hintime => ⟨hintime, rfl⟩

theorem free_lent (h : Holding loans deeds) (hloan : loan ∈ loans) (hblock : block ∈ loan.blocks) :
    Holding loans' (deeds ++ [.free block]) :=
  h.snoc fun _ hintime => absurd hblock (hintime loan hloan)

theorem lend_free (h : Holding [] deeds) {observed : Option Nat} (hblock : block ∈ loan.blocks) :
    Holding [] (deeds ++ [.request loan observed none] ++ [.free block]) := by
  cases observed with
  | none => exact (@unanswered _ _ _ _ _ _ loan _ h).free_lent List.mem_cons_self hblock
  | some serial => exact (@answered _ _ _ _ _ _ _ none _ h nofun).free

end Holding

end Vibra.Lib
