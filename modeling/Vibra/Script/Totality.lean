import Vibra.Script.Parser
import Mathlib.Order.Nat

/-! # The parser returns

Each parser returns a program or an error, and what it has read is shorter than what it was given.
-/

namespace Vibra.Script.Parser

open Lib (Outcome)
open Lib.Outcome (Ensures ensures_bind ensures_ite)

variable {n k : Nat} {p inner : Parser Expr} {tokens : List Token}

def Reads {α : Type} (n k : Nat) (p : Parser α) : Prop :=
  ∀ tokens, tokens.length < n → (p tokens).Ensures fun r => r.2.length + k ≤ tokens.length

theorem advance_le (tokens : List Token) : (advance tokens).length ≤ tokens.length := by
  rw [advance, List.length_tail]
  exact Nat.sub_le _ _

theorem advance_length (h : peek tokens ≠ .eof) :
    (advance tokens).length + 1 = tokens.length := by
  cases tokens with
  | nil => exact absurd rfl h
  | cons t tokens => rfl

theorem reads_expect {t : Token} (ht : t ≠ .eof) : Reads n 1 (expect t) := by
  intro tokens _
  rw [expect]
  split
  case isTrue h => exact (advance_length (h ▸ ht)).le
  case isFalse h => trivial

theorem operators_ensures {level : Token → Option BinOp} (hlevel : level .eof = none)
    (hp : Reads n 0 p) (fuel : Nat) (left : Expr) (hfuel : tokens.length < fuel)
    (hn : tokens.length < n) :
    (operators level p fuel left tokens).Ensures fun r => r.2.length ≤ tokens.length := by
  induction fuel generalizing left tokens with
  | zero => contradiction
  | succ fuel ih =>
    rw [operators]
    dsimp only
    cases hop : level (peek tokens) with
    | none => exact le_rfl
    | some op =>
      have hlen : (advance tokens).length + 1 = tokens.length := advance_length fun h => by
        rw [h, hlevel] at hop
        contradiction
      simp only [ensures_bind]
      refine (hp (advance tokens) (by omega)).mono fun r hr => ?_
      exact (ih (.binOp left op r.1) (by omega) (by omega)).mono fun r' hr' => by omega

theorem reads_chain {level : Token → Option BinOp} (hlevel : level .eof = none)
    (hp : Reads n 1 p) : Reads n 1 (chain level p) := by
  intro tokens hn
  rw [chain, ensures_bind]
  refine (hp tokens hn).mono fun r hr => ?_
  have hweak : Reads n 0 p := fun t ht => (hp t ht).mono fun _ h => by omega
  exact (operators_ensures hlevel hweak (r.2.length + 1) r.1 (Nat.lt_succ_self _)
    (by omega)).mono fun r' hr' => by omega

theorem reads_atom (h : Reads n 1 inner) : Reads (n + 1) 1 (atom inner) := by
  intro tokens hn
  have hread : peek tokens ≠ .eof → (advance tokens).length + 1 ≤ tokens.length :=
    fun h => (advance_length h).le
  rw [atom]
  split
  case h_1 ht => exact hread (by rw [ht]; exact fun h => nomatch h)
  case h_2 ht => exact hread (by rw [ht]; exact fun h => nomatch h)
  case h_3 ht => exact hread (by rw [ht]; exact fun h => nomatch h)
  case h_4 ht =>
      have hlen := hread (by rw [ht]; decide)
      simp only [ensures_bind]
      refine (h (advance tokens) (by omega)).mono fun r hr => ?_
      exact (reads_expect (by decide) (n := r.2.length + 1) r.2 (Nat.lt_succ_self _)).mono
        fun r' hr' => by
          show r'.2.length + 1 ≤ tokens.length
          omega
  case h_5 => trivial

theorem reads_unary (h : Reads n 1 inner) : Reads (n + 1) 1 (unary inner) := by
  intro tokens hn
  have hatom := reads_atom h (advance tokens) ((advance_le tokens).trans_lt hn)
  rw [unary]
  split
  case h_1 =>
      simp only [ensures_bind]
      exact hatom.mono fun r hr => hr.trans (advance_le tokens)
  case h_2 =>
      simp only [ensures_bind]
      exact hatom.mono fun r hr => hr.trans (advance_le tokens)
  case h_3 => exact reads_atom h tokens hn

theorem reads_exprFor (fuel : Nat) : Reads fuel 1 (exprFor fuel) := by
  induction fuel with
  | zero => exact fun _ h => absurd h (Nat.not_lt_zero _)
  | succ fuel ih =>
    exact reads_chain rfl (reads_chain rfl (reads_chain rfl (reads_unary ih)))

theorem reads_expr : Reads n 1 expr :=
  fun tokens _ => reads_exprFor (tokens.length + 1) tokens (Nat.lt_succ_self _)

/-! ## Statements -/

theorem skipEnds_le (tokens : List Token) : (skipEnds tokens).length ≤ tokens.length :=
  (List.dropWhile_sublist _).length_le

theorem printArgs_ensures (fuel : Nat) (hfuel : tokens.length < fuel) :
    (printArgs fuel tokens).Ensures fun r => r.2.length ≤ tokens.length := by
  induction fuel generalizing tokens with
  | zero => contradiction
  | succ fuel ih =>
    rw [printArgs]
    dsimp only
    split
    case isTrue => exact le_rfl
    case isFalse =>
        simp only [ensures_bind]
        refine (reads_expr (n := tokens.length + 1) tokens (Nat.lt_succ_self _)).mono
          fun r hr => ?_
        have hle : (if peek r.2 = .comma then advance r.2 else r.2).length ≤ r.2.length := by
          split
          · exact advance_le _
          · exact le_rfl
        exact (ih (by omega)).mono fun r' hr' => hr'.trans (by omega)

variable {skip : Token → Bool} {s : Parser Stmt}

theorem body_ensures (hs : Reads n 1 s) (fuel : Nat) (hfuel : tokens.length < fuel)
    (hn : tokens.length < n) :
    (body skip s fuel tokens).Ensures fun r => r.2.length ≤ tokens.length := by
  induction fuel generalizing tokens with
  | zero => contradiction
  | succ fuel ih =>
    rw [body]
    dsimp only
    split
    case isTrue => exact advance_le tokens
    case isFalse hend =>
        split
        case isTrue =>
            have hlen := advance_length fun h => hend (.inr h)
            exact (ih (by omega) (by omega)).mono fun r hr => by omega
        case isFalse =>
            simp only [ensures_bind]
            refine (hs tokens hn).mono fun r hr => ?_
            exact (ih (by omega) (by omega)).mono fun r' hr' => by
              show r'.2.length ≤ tokens.length
              omega

theorem reads_block (hs : Reads n 1 s) : Reads n 0 (block skip s) :=
  fun tokens hn => body_ensures hs (tokens.length + 1) (Nat.lt_succ_self _) hn

theorem reads_parseIf (hs : Reads n 1 s) (hn : tokens.length < n + 1) (hif : peek tokens = .if) :
    (parseIf s tokens).Ensures fun r => r.2.length + 1 ≤ tokens.length := by
  have hlen : (advance tokens).length + 1 = tokens.length :=
    advance_length (by rw [hif]; decide)
  rw [parseIf]
  simp only [ensures_bind]
  refine (reads_expr (n := n) _ (by omega)).mono fun r hr => ?_
  refine (reads_expect (by decide) (n := n) r.2 (by omega)).mono fun r₁ hr₁ => ?_
  refine (reads_block hs r₁.2 (by omega)).mono fun r₂ hr₂ => ?_
  rw [ensures_ite]
  refine ⟨fun _ => ?_, fun _ => by show r₂.2.length + 1 ≤ _; omega⟩
  have hle := advance_le r₂.2
  simp only [ensures_bind]
  refine (reads_expect (by decide) (n := n) _ (by omega)).mono fun r₃ hr₃ => ?_
  refine (reads_block hs r₃.2 (by omega)).mono fun r₄ hr₄ => ?_
  show r₄.2.length + 1 ≤ _
  omega

theorem reads_parseWhile (hs : Reads n 1 s) (hn : tokens.length < n + 1)
    (hwhile : peek tokens = .while) :
    (parseWhile s tokens).Ensures fun r => r.2.length + 1 ≤ tokens.length := by
  have hlen : (advance tokens).length + 1 = tokens.length :=
    advance_length (by rw [hwhile]; decide)
  rw [parseWhile]
  simp only [ensures_bind]
  refine (reads_expr (n := n) _ (by omega)).mono fun r hr => ?_
  refine (reads_expect (by decide) (n := n) r.2 (by omega)).mono fun r₁ hr₁ => ?_
  refine (reads_block hs r₁.2 (by omega)).mono fun r₂ hr₂ => ?_
  show r₂.2.length + 1 ≤ _
  omega

theorem reads_stmtFor (fuel : Nat) : Reads fuel 1 (stmtFor fuel) := by
  induction fuel with
  | zero => exact fun _ h => absurd h (Nat.not_lt_zero _)
  | succ fuel ih =>
    intro tokens hn
    have hskip := skipEnds_le tokens
    rw [stmtFor]
    dsimp only
    generalize hrest : skipEnds tokens = rest at hskip
    have hread : peek rest ≠ .eof → (advance rest).length + 1 = rest.length := advance_length
    have hexpr : ∀ more : List Token, (expr more).Ensures fun r => r.2.length + 1 ≤ more.length :=
      fun more => reads_expr (n := more.length + 1) more (Nat.lt_succ_self _)
    split
    case h_1 ht =>
        have hlen := hread (by rw [ht]; decide)
        split
        case h_1 =>
            have hle := advance_le (advance rest)
            simp only [ensures_bind]
            refine (reads_expect (by decide) (n := tokens.length + 1) _ (by omega)).mono
              fun r hr => ?_
            refine (hexpr r.2).mono fun r' hr' => ?_
            show r'.2.length + 1 ≤ tokens.length
            omega
        case h_2 => trivial
    case h_2 ht => exact (reads_parseIf ih (by omega) ht).mono fun r hr => by omega
    case h_3 ht => exact (reads_parseWhile ih (by omega) ht).mono fun r hr => by omega
    case h_4 ht =>
        have hlen := hread (by rw [ht]; decide)
        simp only [ensures_bind]
        refine (printArgs_ensures _ (by omega)).mono fun r hr => ?_
        show r.2.length + 1 ≤ tokens.length
        omega
    case h_5 ht =>
        have hlen := hread (by rw [ht]; decide)
        simp only [ensures_bind]
        refine (hexpr _).mono fun r hr => ?_
        show r.2.length + 1 ≤ tokens.length
        omega
    case h_6 ht =>
        have hlen := hread (by rw [ht]; decide)
        simp only [ensures_bind]
        refine (hexpr _).mono fun r hr => ?_
        show r.2.length + 1 ≤ tokens.length
        omega
    case h_7 ht =>
        have hlen := hread (by rw [ht]; decide)
        show (advance rest).length + 1 ≤ tokens.length
        omega
    case h_8 ht =>
        have hlen := hread (by rw [ht]; decide)
        simp only [ensures_bind]
        refine (reads_block ih _ (by omega)).mono fun r hr => ?_
        show r.2.length + 1 ≤ tokens.length
        omega
    case h_9 ht =>
        have hlen := hread (by rw [ht]; simp)
        split
        case isTrue =>
            have hle := advance_le (advance rest)
            simp only [ensures_bind]
            refine (hexpr _).mono fun r hr => ?_
            show r.2.length + 1 ≤ tokens.length
            omega
        case isFalse =>
            show (advance rest).length + 1 ≤ tokens.length
            omega
    case h_10 ht =>
        have hlen := hread (by rw [ht]; decide)
        exact (ih _ (by omega)).mono fun r hr => by omega
    case h_11 =>
        simp only [ensures_bind]
        refine (hexpr _).mono fun r hr => ?_
        show r.2.length + 1 ≤ tokens.length
        omega

theorem statements_safe (fuel : Nat) (hfuel : tokens.length ≤ fuel) :
    (statements fuel tokens).Safe := by
  induction fuel generalizing tokens with
  | zero =>
    rw [List.length_eq_zero_iff.mp (Nat.le_zero.mp hfuel)]
    trivial
  | succ fuel ih =>
    cases tokens with
    | nil => trivial
    | cons t tokens =>
      rw [List.length_cons] at hfuel
      rw [statements]
      split
      case isTrue => trivial
      case isFalse =>
          split
          case isTrue => exact ih (by omega)
          case isFalse =>
              rw [Outcome.Safe, ensures_bind]
              have hstmt : (stmt (t :: tokens)).Ensures
                  fun r => r.2.length + 1 ≤ (t :: tokens).length :=
                reads_stmtFor _ (t :: tokens) (Nat.lt_succ_self _)
              refine hstmt.mono fun r hr => ?_
              rw [List.length_cons] at hr
              rw [ensures_bind]
              exact (ih (by omega)).mono fun _ _ => trivial

end Vibra.Script.Parser

namespace Vibra.Script

theorem parse_safe (tokens : List Token) : (parse tokens).Safe :=
  Parser.statements_safe tokens.length le_rfl

end Vibra.Script
