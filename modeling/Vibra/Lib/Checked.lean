import Mathlib.Algebra.Ring.Int.Defs
import Mathlib.Algebra.Ring.Nat
import Mathlib.Data.List.GetD
import Mathlib.Tactic.Common

/-! # Programs with checked arithmetic

A program returns a value or an error, or it panics: an operation on machine integers overflows, or
an index or a range does not fit a buffer.
-/

namespace Vibra.Lib

inductive Outcome (ε α : Type) where
  | ok (a : α)
  | err (e : ε)
  | panic
  | diverge
deriving DecidableEq

namespace Outcome

variable {ε ε' α β : Type}

protected def bind : Outcome ε α → (α → Outcome ε β) → Outcome ε β
  | .ok a, f => f a
  | .err e, _ => .err e
  | .panic, _ => .panic
  | .diverge, _ => .diverge

instance : Monad (Outcome ε) where
  pure := .ok
  bind := .bind

/-- The result as a value: a caller that looks at an error goes on. -/
def attempt : Outcome ε α → Outcome ε' (Except ε α)
  | .ok a => .ok (.ok a)
  | .err e => .ok (.error e)
  | .panic => .panic
  | .diverge => .diverge

def toOption : Outcome ε α → Option α
  | .ok a => some a
  | _ => none

theorem toOption_eq_some {x : Outcome ε α} {a : α} : x.toOption = some a ↔ x = .ok a := by
  cases x <;> simp [toOption]

def isPanic : Outcome ε α → Bool
  | .panic => true
  | _ => false

theorem isPanic_iff {x : Outcome ε α} : x.isPanic = true ↔ x = .panic := by
  cases x <;> simp [isPanic]

def ofOption (e : ε) : Option α → Outcome ε α
  | some a => .ok a
  | none => .err e

def check (p : Prop) [Decidable p] : Outcome ε Unit := if p then .ok () else .panic

def add (w a b : Nat) : Outcome ε Nat := if a + b < 2 ^ w then .ok (a + b) else .panic

def sub (a b : Nat) : Outcome ε Nat := if b ≤ a then .ok (a - b) else .panic

def mul (w a b : Nat) : Outcome ε Nat := if a * b < 2 ^ w then .ok (a * b) else .panic

def div (a b : Nat) : Outcome ε Nat := if b = 0 then .panic else .ok (a / b)

def rem (a b : Nat) : Outcome ε Nat := if b = 0 then .panic else .ok (a % b)

/-- `a << k`; bits shifted out are lost. -/
def shl (w a k : Nat) : Outcome ε Nat := if k < w then .ok (a * 2 ^ k % 2 ^ w) else .panic

def addInt (w : Nat) (a b : Int) : Outcome ε Int :=
  if -2 ^ (w - 1) ≤ a + b ∧ a + b < 2 ^ (w - 1) then .ok (a + b) else .panic

/-- `xs[i]`. -/
def get (xs : List α) (i : Nat) : Outcome ε α :=
  match xs[i]? with
  | some a => .ok a
  | none => .panic

/-- `&xs[lo..hi]`. -/
def slice (xs : List α) (lo hi : Nat) : Outcome ε (List α) :=
  if lo ≤ hi ∧ hi ≤ xs.length then .ok ((xs.drop lo).take (hi - lo)) else .panic

/-- `xs[lo..lo + ys.len()].copy_from_slice(ys)`. -/
def copyAt (xs : List α) (lo : Nat) (ys : List α) : Outcome ε (List α) :=
  if lo + ys.length ≤ xs.length then .ok (xs.take lo ++ ys ++ xs.drop (lo + ys.length))
  else .panic

/-- `xs[lo..].copy_from_slice(ys)`. -/
def copyTail (xs : List α) (lo : Nat) (ys : List α) : Outcome ε (List α) :=
  if lo + ys.length = xs.length then .ok (xs.take lo ++ ys) else .panic

/-- `xs[i] = x`. -/
def put (xs : List α) (i : Nat) (x : α) : Outcome ε (List α) :=
  if i < xs.length then .ok (xs.set i x) else .panic

/-- `for x in xs`, each turn adding to a list. -/
def collect (f : α → Outcome ε (List β)) : List α → Outcome ε (List β)
  | [] => .ok []
  | x :: xs => do
      let here ← f x
      let rest ← collect f xs
      return here ++ rest

/-- `for x in xs` up to the first turn that has something to return. -/
def first (f : α → Outcome ε (Option β)) : List α → Outcome ε (Option β)
  | [] => .ok none
  | x :: xs => do
      match ← f x with
      | some y => return some y
      | none => first f xs

/-! ## Postconditions -/

/-- Neither panic nor divergence, and a value meets `Q`. -/
def Ensures (x : Outcome ε α) (Q : α → Prop) : Prop :=
  match x with
  | .ok a => Q a
  | .err _ => True
  | .panic => False
  | .diverge => False

def Safe (x : Outcome ε α) : Prop := x.Ensures fun _ => True

variable {x : Outcome ε α} {f : α → Outcome ε β} {Q Q' : α → Prop}

@[simp] theorem pure_eq (a : α) : (pure a : Outcome ε α) = .ok a := rfl

@[simp] theorem ok_bind (a : α) (f : α → Outcome ε β) : (Outcome.ok a >>= f) = f a := rfl

@[simp] theorem err_bind (e : ε) (f : α → Outcome ε β) :
    ((.err e : Outcome ε α) >>= f) = .err e := rfl

@[simp] theorem panic_bind (f : α → Outcome ε β) : ((.panic : Outcome ε α) >>= f) = .panic := rfl

@[simp] theorem diverge_bind (f : α → Outcome ε β) :
    ((.diverge : Outcome ε α) >>= f) = .diverge := rfl

@[simp] theorem ensures_ok (a : α) : (Outcome.ok a : Outcome ε α).Ensures Q ↔ Q a := Iff.rfl

@[simp] theorem ensures_err (e : ε) : (.err e : Outcome ε α).Ensures Q ↔ True := Iff.rfl

@[simp] theorem ensures_panic : (.panic : Outcome ε α).Ensures Q ↔ False := Iff.rfl

@[simp] theorem ensures_diverge : (.diverge : Outcome ε α).Ensures Q ↔ False := Iff.rfl

@[simp] theorem ensures_bind {Q : β → Prop} :
    (x >>= f).Ensures Q ↔ x.Ensures fun a => (f a).Ensures Q := by
  cases x <;> rfl

theorem bind_eq_ok {b : β} (h : (x >>= f) = .ok b) : ∃ a, x = .ok a ∧ f a = .ok b := by
  cases x with
  | ok a => exact ⟨a, rfl, h⟩
  | err e => contradiction
  | panic => contradiction
  | diverge => contradiction

theorem check_eq_ok {p : Prop} [Decidable p] : (check p : Outcome ε Unit) = .ok () ↔ p := by
  by_cases h : p <;> simp [check, h]

theorem Ensures.mono (h : x.Ensures Q) (hQ : ∀ a, Q a → Q' a) : x.Ensures Q' := by
  cases x with
  | ok a => exact hQ a h
  | err e => trivial
  | panic => exact h
  | diverge => exact h

theorem Ensures.of_ok (h : x.Ensures Q) {a : α} (hx : x = .ok a) : Q a := by
  rw [hx] at h
  exact h

theorem Safe.ensures (h : x.Safe) (hQ : ∀ a, x = .ok a → Q a) : x.Ensures Q := by
  cases x with
  | ok a => exact hQ a rfl
  | err e => trivial
  | panic => exact h
  | diverge => exact h

theorem safe_bind : (x >>= f).Safe ↔ x.Safe ∧ ∀ a, x = .ok a → (f a).Safe := by
  cases x with
  | ok a => simp [Safe]
  | err e => simp [Safe]
  | panic => simp [Safe]
  | diverge => simp [Safe]

theorem ensures_ite {p : Prop} [Decidable p] {y : Outcome ε α} :
    (if p then x else y).Ensures Q ↔ (p → x.Ensures Q) ∧ (¬ p → y.Ensures Q) := by
  by_cases h : p <;> simp [h]

@[simp] theorem ensures_attempt {Q : Except ε α → Prop} :
    (x.attempt : Outcome ε' (Except ε α)).Ensures Q ↔
      x.Safe ∧ (∀ a, x = .ok a → Q (.ok a)) ∧ ∀ e, x = .err e → Q (.error e) := by
  cases x <;> simp [attempt, Safe]

@[simp] theorem ensures_ofOption {e : ε} {o : Option α} :
    (ofOption e o).Ensures Q ↔ ∀ a, o = some a → Q a := by
  cases o <;> simp [ofOption]

@[simp] theorem ensures_check {p : Prop} [Decidable p] {Q : Unit → Prop} :
    (check p : Outcome ε Unit).Ensures Q ↔ p ∧ Q () := by
  by_cases h : p <;> simp [check, h]

@[simp] theorem ensures_add {w a b : Nat} {Q : Nat → Prop} :
    (add w a b : Outcome ε Nat).Ensures Q ↔ a + b < 2 ^ w ∧ Q (a + b) := by
  unfold add
  split <;> simp [*]

@[simp] theorem ensures_sub {a b : Nat} {Q : Nat → Prop} :
    (sub a b : Outcome ε Nat).Ensures Q ↔ b ≤ a ∧ Q (a - b) := by
  unfold sub
  split <;> simp [*]

@[simp] theorem ensures_mul {w a b : Nat} {Q : Nat → Prop} :
    (mul w a b : Outcome ε Nat).Ensures Q ↔ a * b < 2 ^ w ∧ Q (a * b) := by
  unfold mul
  split <;> simp [*]

@[simp] theorem ensures_div {a b : Nat} {Q : Nat → Prop} :
    (div a b : Outcome ε Nat).Ensures Q ↔ b ≠ 0 ∧ Q (a / b) := by
  unfold div
  split <;> simp [*]

@[simp] theorem ensures_rem {a b : Nat} {Q : Nat → Prop} :
    (rem a b : Outcome ε Nat).Ensures Q ↔ b ≠ 0 ∧ Q (a % b) := by
  unfold rem
  split <;> simp [*]

@[simp] theorem ensures_shl {w a k : Nat} {Q : Nat → Prop} :
    (shl w a k : Outcome ε Nat).Ensures Q ↔ k < w ∧ Q (a * 2 ^ k % 2 ^ w) := by
  unfold shl
  split <;> simp [*]

@[simp] theorem ensures_addInt {w : Nat} {a b : Int} {Q : Int → Prop} :
    (addInt w a b : Outcome ε Int).Ensures Q ↔
      (-2 ^ (w - 1) ≤ a + b ∧ a + b < 2 ^ (w - 1)) ∧ Q (a + b) := by
  unfold addInt
  split <;> simp [*]

@[simp] theorem ensures_get {xs : List α} {i : Nat} :
    (get xs i : Outcome ε α).Ensures Q ↔ ∃ a, xs[i]? = some a ∧ Q a := by
  unfold get
  cases xs[i]? <;> simp

@[simp] theorem ensures_slice {xs : List α} {lo hi : Nat} {Q : List α → Prop} :
    (slice xs lo hi : Outcome ε (List α)).Ensures Q ↔
      (lo ≤ hi ∧ hi ≤ xs.length) ∧ Q ((xs.drop lo).take (hi - lo)) := by
  unfold slice
  split <;> simp [*]

@[simp] theorem ensures_copyAt {xs ys : List α} {lo : Nat} {Q : List α → Prop} :
    (copyAt xs lo ys : Outcome ε (List α)).Ensures Q ↔ lo + ys.length ≤ xs.length ∧
      Q (xs.take lo ++ ys ++ xs.drop (lo + ys.length)) := by
  unfold copyAt
  split <;> simp [*]

@[simp] theorem ensures_copyTail {xs ys : List α} {lo : Nat} {Q : List α → Prop} :
    (copyTail xs lo ys : Outcome ε (List α)).Ensures Q ↔
      lo + ys.length = xs.length ∧ Q (xs.take lo ++ ys) := by
  unfold copyTail
  split <;> simp [*]

@[simp] theorem ensures_put {xs : List α} {i : Nat} {x : α} {Q : List α → Prop} :
    (put xs i x : Outcome ε (List α)).Ensures Q ↔ i < xs.length ∧ Q (xs.set i x) := by
  unfold put
  split <;> simp [*]

theorem add_of_lt {w a b : Nat} (h : a + b < 2 ^ w) : (add w a b : Outcome ε Nat) = .ok (a + b) :=
  if_pos h

theorem get_of_lt {xs : List α} {i : Nat} (h : i < xs.length) :
    (get xs i : Outcome ε α) = .ok xs[i] := by
  rw [get, List.getElem?_eq_getElem h]

theorem slice_of_le {xs : List α} {lo hi : Nat} (h : lo ≤ hi ∧ hi ≤ xs.length) :
    (slice xs lo hi : Outcome ε (List α)) = .ok ((xs.drop lo).take (hi - lo)) :=
  if_pos h

theorem collect_ensures {P : α → Prop} {Q : β → Prop} {f : α → Outcome ε (List β)}
    {xs : List α} (hf : ∀ x, P x → (f x).Ensures fun ys => ∀ y ∈ ys, Q y) (hxs : ∀ x ∈ xs, P x) :
    (collect f xs).Ensures fun ys => ∀ y ∈ ys, Q y := by
  induction xs with
  | nil => simp [collect]
  | cons x xs ih =>
    have hrest := ih fun y hy => hxs y (by simp [hy])
    simp only [collect, ensures_bind, pure_eq, ensures_ok]
    refine (hf x (hxs x (by simp))).mono fun here hhere => hrest.mono fun rest hr y hy => ?_
    rcases List.mem_append.mp hy with hy | hy
    · exact hhere y hy
    · exact hr y hy

theorem collect_safe {f : α → Outcome ε (List β)} {xs : List α}
    (h : ∀ x ∈ xs, (f x).Safe) : (collect f xs).Safe := by
  have hcollect : (collect f xs).Ensures fun ys => ∀ y ∈ ys, True :=
    collect_ensures (P := fun x => (f x).Safe) (fun x hx => hx.mono fun _ _ _ _ => trivial) h
  exact hcollect.mono fun _ _ => trivial

theorem collect_ok {f : α → Outcome ε (List β)} {xs : List α} (h : ∀ x ∈ xs, ∃ ys, f x = .ok ys) :
    ∃ ys, collect f xs = .ok ys := by
  induction xs with
  | nil => exact ⟨[], rfl⟩
  | cons x xs ih =>
    obtain ⟨here, hhere⟩ := h x (by simp)
    obtain ⟨rest, hrest⟩ := ih fun y hy => h y (by simp [hy])
    exact ⟨here ++ rest, by rw [collect, hhere, ok_bind, hrest, ok_bind, pure_eq]⟩

theorem collect_turn {f : α → Outcome ε (List β)} {xs : List α}
    (herr : ∀ x ∈ xs, ∀ e, f x ≠ .err e) (h : (collect f xs).Safe) {x : α} (hx : x ∈ xs) :
    (f x).Safe := by
  induction xs with
  | nil => simp at hx
  | cons y ys ih =>
    simp only [collect, Safe, ensures_bind] at h
    rcases List.mem_cons.mp hx with rfl | hx
    · exact h.mono fun _ _ => trivial
    · cases hy : f y with
      | ok here =>
        rw [hy, ensures_ok] at h
        exact ih (fun z hz => herr z (by simp [hz])) (h.mono fun _ _ => trivial) hx
      | err e => exact absurd hy (herr y (by simp) e)
      | panic => simp [hy] at h
      | diverge => simp [hy] at h

theorem first_eq_find {f : α → Outcome ε (Option β)} {p : α → Bool} {xs : List α}
    (hskip : ∀ x ∈ xs, p x = false → f x = .ok none)
    (hstop : ∀ x ∈ xs, p x = true → f x ≠ .ok none) :
    first f xs = (xs.find? p).elim (.ok none) f := by
  induction xs with
  | nil => rfl
  | cons x xs ih =>
    have hrest := ih (fun y hy => hskip y (by simp [hy])) fun y hy => hstop y (by simp [hy])
    rw [List.find?_cons]
    cases hx : p x with
    | false =>
      rw [first, hskip x (by simp) hx, ok_bind]
      exact hrest
    | true =>
      have hne := hstop x (by simp) hx
      rw [first]
      cases hf : f x with
      | ok found =>
        cases found with
        | none => exact absurd hf hne
        | some y => exact hf.symm
      | err e => exact hf.symm
      | panic => exact hf.symm
      | diverge => exact hf.symm

theorem first_ensures {f : α → Outcome ε (Option β)} {xs : List α} {Q : β → Prop}
    (h : ∀ x ∈ xs, (f x).Ensures fun found => ∀ y, found = some y → Q y) :
    (first f xs).Ensures fun found => ∀ y, found = some y → Q y := by
  induction xs with
  | nil => simp [first]
  | cons x xs ih =>
    rw [first, ensures_bind]
    refine (h x (by simp)).mono fun found hfound => ?_
    cases found with
    | none => exact ih fun y hy => h y (by simp [hy])
    | some y => exact hfound

/-- A value the program returns meets `Q`, whatever else it may do. -/
def Returns (x : Outcome ε α) (Q : α → Prop) : Prop := ∀ a, x = .ok a → Q a

@[simp] theorem returns_ok (a : α) : (.ok a : Outcome ε α).Returns Q ↔ Q a :=
  ⟨fun h => h a rfl, fun h _ ha => Outcome.ok.inj ha ▸ h⟩

@[simp] theorem returns_err (e : ε) : (.err e : Outcome ε α).Returns Q := by
  intro a h
  contradiction

@[simp] theorem returns_panic : (.panic : Outcome ε α).Returns Q := by
  intro a h
  contradiction

@[simp] theorem returns_diverge : (.diverge : Outcome ε α).Returns Q := by
  intro a h
  contradiction

@[simp] theorem returns_bind {Q : β → Prop} :
    (x >>= f).Returns Q ↔ x.Returns fun a => (f a).Returns Q := by
  constructor
  · intro h a ha b hb
    refine h b ?_
    rw [ha]
    exact hb
  · intro h b hb
    obtain ⟨a, ha, hfa⟩ := bind_eq_ok hb
    exact h a ha b hfa

theorem returns_true : x.Returns fun _ => True := fun _ _ => trivial

theorem Returns.mono (h : x.Returns Q) (hQ : ∀ a, Q a → Q' a) : x.Returns Q' :=
  fun a ha => hQ a (h a ha)

theorem returns_ite {p : Prop} [Decidable p] {y : Outcome ε α} :
    (if p then x else y).Returns Q ↔ (p → x.Returns Q) ∧ (¬ p → y.Returns Q) := by
  by_cases h : p <;> simp [h]

theorem returns_dite {p : Prop} [Decidable p] {x : p → Outcome ε α} {y : ¬ p → Outcome ε α} :
    (if h : p then x h else y h).Returns Q ↔
      (∀ h, (x h).Returns Q) ∧ ∀ h, (y h).Returns Q := by
  by_cases h : p <;> simp [h]

def NoErr : Outcome ε α → Prop
  | .err _ => False
  | _ => True

theorem NoErr.ne (h : x.NoErr) (e : ε) : x ≠ .err e := by
  rintro rfl
  exact h

@[simp] theorem noErr_ok (a : α) : (.ok a : Outcome ε α).NoErr := trivial

@[simp] theorem noErr_err (e : ε) : (.err e : Outcome ε α).NoErr ↔ False := Iff.rfl

@[simp] theorem noErr_panic : (.panic : Outcome ε α).NoErr := trivial

@[simp] theorem noErr_diverge : (.diverge : Outcome ε α).NoErr := trivial

@[simp] theorem noErr_bind :
    (x >>= f).NoErr ↔ x.NoErr ∧ ∀ a, x = .ok a → (f a).NoErr := by
  cases x <;> simp

theorem noErr_ite {p : Prop} [Decidable p] {y : Outcome ε α} :
    (if p then x else y).NoErr ↔ (p → x.NoErr) ∧ (¬ p → y.NoErr) := by
  by_cases h : p <;> simp [h]

theorem noErr_of_ite {p : Prop} [Decidable p] {y : Outcome ε α} (hx : x.NoErr) (hy : y.NoErr) :
    (if p then x else y).NoErr :=
  Iff.mpr noErr_ite ⟨fun _ => hx, fun _ => hy⟩

@[simp] theorem noErr_attempt : (x.attempt : Outcome ε' (Except ε α)).NoErr := by
  cases x <;> trivial

@[simp] theorem noErr_add (w a b : Nat) : (add w a b : Outcome ε Nat).NoErr :=
  noErr_of_ite trivial trivial

@[simp] theorem noErr_sub (a b : Nat) : (sub a b : Outcome ε Nat).NoErr :=
  noErr_of_ite trivial trivial

@[simp] theorem noErr_mul (w a b : Nat) : (mul w a b : Outcome ε Nat).NoErr :=
  noErr_of_ite trivial trivial

@[simp] theorem noErr_addInt (w : Nat) (a b : Int) : (addInt w a b : Outcome ε Int).NoErr :=
  noErr_of_ite trivial trivial

@[simp] theorem noErr_slice (xs : List α) (lo hi : Nat) :
    (slice xs lo hi : Outcome ε (List α)).NoErr :=
  noErr_of_ite trivial trivial

@[simp] theorem noErr_put (xs : List α) (i : Nat) (a : α) :
    (put xs i a : Outcome ε (List α)).NoErr :=
  noErr_of_ite trivial trivial

@[simp] theorem noErr_get (xs : List α) (i : Nat) : (get xs i : Outcome ε α).NoErr := by
  unfold get
  split <;> trivial

theorem NoErr.exists_ok (h : x.NoErr) (hsafe : x.Safe) : ∃ a, x = .ok a := by
  cases x with
  | ok a => exact ⟨a, rfl⟩
  | err e => exact h.elim
  | panic => exact hsafe.elim
  | diverge => exact hsafe.elim

theorem noErr_first {f : α → Outcome ε (Option β)} {xs : List α} (h : ∀ x ∈ xs, (f x).NoErr) :
    (first f xs).NoErr := by
  induction xs with
  | nil => trivial
  | cons x xs ih =>
    rw [first, noErr_bind]
    refine ⟨h x (by simp), fun found _ => ?_⟩
    cases found with
    | none => exact ih fun y hy => h y (by simp [hy])
    | some y => trivial

theorem noErr_collect {f : α → Outcome ε (List β)} {xs : List α} (h : ∀ x ∈ xs, (f x).NoErr) :
    (collect f xs).NoErr := by
  induction xs with
  | nil => trivial
  | cons x xs ih =>
    have hrest := ih fun y hy => h y (by simp [hy])
    simp [collect, h x (by simp), hrest]

theorem length_copyAt {xs ys : List α} {lo : Nat} (h : lo + ys.length ≤ xs.length) :
    (xs.take lo ++ ys ++ xs.drop (lo + ys.length)).length = xs.length := by
  simp
  omega

theorem length_slice {xs : List α} {lo hi : Nat} (h : lo ≤ hi ∧ hi ≤ xs.length) :
    ((xs.drop lo).take (hi - lo)).length = hi - lo := by
  simp
  omega

end Outcome

end Vibra.Lib

/-! ## Walking a path

A path is followed part by part, each step a program that may fail. The states a walk comes
to are those reached from its start by steps that return.
-/

namespace Vibra.Lib

open Outcome

variable {ε σ α : Type}

/-- Enter the parts one after the other. -/
def walk (enter : σ → α → Outcome ε σ) : List α → σ → Outcome ε σ
  | [], s => .ok s
  | p :: ps, s => do
      let next ← enter s p
      walk enter ps next

/-- The states that walks over parts with `Part` come to. -/
inductive Reached (enter : σ → α → Outcome ε σ) (Part : α → Prop) (start : σ) : σ → Prop
  | start : Reached enter Part start start
  | step {s s' : σ} {p : α} : Reached enter Part start s → Part p → enter s p = .ok s' →
      Reached enter Part start s'

variable {enter : σ → α → Outcome ε σ} {Part : α → Prop} {start s : σ}

theorem walk_cons (p : α) (ps : List α) (s : σ) :
    walk enter (p :: ps) s = enter s p >>= walk enter ps :=
  rfl

theorem walk_append (ps qs : List α) (s : σ) :
    walk enter (ps ++ qs) s = walk enter ps s >>= walk enter qs := by
  induction ps generalizing s with
  | nil => rfl
  | cons p ps ih =>
    rw [List.cons_append, walk_cons, walk_cons]
    cases enter s p with
    | ok next => exact ih next
    | err e => rfl
    | panic => rfl
    | diverge => rfl

theorem walk_singleton (p : α) (s : σ) : walk enter [p] s = enter s p := by
  rw [walk_cons]
  cases enter s p <;> rfl

theorem Reached.walk {ps : List α} (h : Reached enter Part start s) (hps : ∀ p ∈ ps, Part p)
    {s' : σ} (hwalk : Lib.walk enter ps s = .ok s') : Reached enter Part start s' := by
  induction ps generalizing s with
  | nil =>
    cases hwalk
    exact h
  | cons p ps ih =>
    rw [walk_cons] at hwalk
    obtain ⟨next, henter, hrest⟩ := bind_eq_ok hwalk
    exact ih (h.step (hps p (by simp)) henter) (fun q hq => hps q (by simp [hq])) hrest

theorem reached_iff : Reached enter Part start s ↔
    ∃ ps, (∀ p ∈ ps, Part p) ∧ Lib.walk enter ps start = .ok s := by
  constructor
  · intro h
    induction h with
    | start => exact ⟨[], by simp, rfl⟩
    | @step s s' p _ hp henter ih =>
      obtain ⟨ps, hps, hwalk⟩ := ih
      refine ⟨ps ++ [p], ?_, ?_⟩
      · intro q hq
        rcases List.mem_append.mp hq with hq | hq
        · exact hps q hq
        · rw [List.mem_singleton.mp hq]
          exact hp
      · rw [walk_append, hwalk, ok_bind, walk_singleton, henter]
  · intro ⟨ps, hps, hwalk⟩
    exact Reached.start.walk hps hwalk

theorem walk_safe_iff : (∀ ps, (∀ p ∈ ps, Part p) → (Lib.walk enter ps start).Safe) ↔
    ∀ s p, Reached enter Part start s → Part p → (enter s p).Safe := by
  constructor
  · intro h s p hs hp
    obtain ⟨ps, hps, hwalk⟩ := Iff.mp reached_iff hs
    have hsafe := h (ps ++ [p]) fun q hq => by
      rcases List.mem_append.mp hq with hq | hq
      · exact hps q hq
      · rw [List.mem_singleton.mp hq]
        exact hp
    rwa [walk_append, hwalk, ok_bind, walk_singleton] at hsafe
  · intro h ps hps
    suffices hgo : ∀ s, Reached enter Part start s → (Lib.walk enter ps s).Safe from
      hgo start .start
    induction ps with
    | nil => exact fun s _ => trivial
    | cons p ps ih =>
      intro s hs
      rw [walk_cons]
      rw [safe_bind]
      refine ⟨h s p hs (hps p (by simp)), fun s' henter => ?_⟩
      exact ih (fun q hq => hps q (by simp [hq])) s' (hs.step (hps p (by simp)) henter)

end Vibra.Lib

/-! ## Programs that keep their state

A program that works on a state and may fail: what it has changed before it fails stays changed.
-/

namespace Vibra.Lib

/-- Programs on a state `σ` with errors `ε` and results `α`. -/
def Stateful (σ ε α : Type) := σ → Outcome ε α × σ

namespace Stateful

variable {σ ε α β : Type}

protected def bind (x : Stateful σ ε α) (f : α → Stateful σ ε β) : Stateful σ ε β := fun s =>
  match x s with
  | (.ok a, s') => f a s'
  | (.err e, s') => (.err e, s')
  | (.panic, s') => (.panic, s')
  | (.diverge, s') => (.diverge, s')

instance : Monad (Stateful σ ε) where
  pure a := fun s => (.ok a, s)
  bind := .bind

def get : Stateful σ ε σ := fun s => (.ok s, s)

def modify (f : σ → σ) : Stateful σ ε Unit := fun s => (.ok (), f s)

def lift (x : Outcome ε α) : Stateful σ ε α := fun s => (x, s)

def fail (e : ε) : Stateful σ ε α := lift (.err e)

/-- The program keeps `I`, it returns, and a value that it returns meets `Q`. -/
def Meets (I : σ → Prop) (Q : α → σ → Prop) (x : Stateful σ ε α) (s : σ) : Prop :=
  I (x s).2 ∧ (x s).1.Ensures fun a => Q a (x s).2

variable {I : σ → Prop} {Q Q' : α → σ → Prop} {x : Stateful σ ε α} {f : α → Stateful σ ε β} {s : σ}

@[simp] theorem get_bind {f : σ → Stateful σ ε β} : (get >>= f) s = f s s := rfl

@[simp] theorem meets_get_bind {f : σ → Stateful σ ε β} {Q : β → σ → Prop} :
    Meets I Q (get >>= f) s ↔ Meets I Q (f s) s := Iff.rfl

@[simp] theorem meets_modify_bind {g : σ → σ} {f : Unit → Stateful σ ε β} {Q : β → σ → Prop} :
    Meets I Q (modify g >>= f) s ↔ Meets I Q (f ()) (g s) := Iff.rfl

theorem Meets.bind {Q' : β → σ → Prop} (h : Meets I Q x s)
    (hf : ∀ a s', I s' → Q a s' → Meets I Q' (f a) s') : Meets I Q' (x >>= f) s := by
  obtain ⟨hI, hQ⟩ := h
  change Meets I Q' (x.bind f) s
  unfold Meets Stateful.bind
  rcases hx : x s with ⟨r, s'⟩
  rw [hx] at hI hQ
  cases r with
  | ok a => exact hf a s' hI hQ
  | err e => exact ⟨hI, trivial⟩
  | panic => exact hQ.elim
  | diverge => exact hQ.elim

end Stateful

end Vibra.Lib
