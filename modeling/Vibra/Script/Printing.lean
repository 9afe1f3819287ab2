import Vibra.Script.Totality

/-! # Printing expressions

A tree is printed with the parentheses that the usual precedence asks for.
-/

namespace Vibra.Script

open Lib (Outcome)

/-- The expressions that can be written. -/
inductive Tree where
  | number (n : Nat)
  | str (s : Text)
  | var (name : Text)
  | binOp (l : Tree) (op : BinOp) (r : Tree)
  | unaryOp (op : UnOp) (e : Tree)

/-- An expression with the parentheses around its parts. -/
inductive Layout where
  | number (n : Int)
  | str (s : Text)
  | var (name : Text)
  | binOp (l : Layout) (op : BinOp) (r : Layout)
  | unaryOp (op : UnOp) (e : Layout)
  | paren (e : Layout)

def BinOp.token : BinOp → Token
  | .add => .plus
  | .sub => .minus
  | .mul => .star
  | .div => .slash
  | .mod => .percent
  | .eq => .eq
  | .ne => .ne
  | .lt => .lt
  | .gt => .gt
  | .le => .le
  | .ge => .ge

def UnOp.token : UnOp → Token
  | .not => .not
  | .neg => .minus

def BinOp.isComparison : BinOp → Bool
  | .eq | .ne | .lt | .gt | .le | .ge => true
  | _ => false

def BinOp.isSum : BinOp → Bool
  | .add | .sub => true
  | _ => false

def BinOp.precedence (op : BinOp) : Nat :=
  if op.isComparison then 1 else if op.isSum then 2 else 3

namespace Tree

def expr : Tree → Expr
  | number n => .number n
  | str s => .str s
  | var name => .var name
  | binOp l op r => .binOp l.expr op r.expr
  | unaryOp op e => .unaryOp op e.expr

def precedence : Tree → Nat
  | binOp _ op _ => op.precedence
  | unaryOp _ _ => 4
  | _ => 5

def wrap (least : Nat) (e : Tree) (layout : Layout) : Layout :=
  if e.precedence < least then .paren layout else layout

/-- The tree with as few parentheses as possible. -/
def minimal : Tree → Layout
  | number n => .number n
  | str s => .str s
  | var name => .var name
  | binOp l op r =>
    .binOp (wrap op.precedence l l.minimal) op (wrap (op.precedence + 1) r r.minimal)
  | unaryOp op e => .unaryOp op (wrap 4 e e.minimal)

/-- No sum and no product is an operand of a comparison, and no unary operator stands behind
another one. -/
def Layered : Tree → Prop
  | binOp l op r => l.Layered ∧ r.Layered ∧
      (op.isComparison → (l.precedence ∉ [2, 3]) ∧ r.precedence ∉ [2, 3])
  | unaryOp _ e => e.Layered ∧ e.precedence ≠ 4
  | _ => True

end Tree

namespace Layout

def expr : Layout → Expr
  | number n => .number n
  | str s => .str s
  | var name => .var name
  | binOp l op r => .binOp l.expr op r.expr
  | unaryOp op e => .unaryOp op e.expr
  | paren e => e.expr

def tokens : Layout → List Token
  | number n => [.number n]
  | str s => [.str s]
  | var name => [.ident name]
  | binOp l op r => l.tokens ++ op.token :: r.tokens
  | unaryOp op e => op.token :: e.tokens
  | paren e => .lParen :: (e.tokens ++ [.rParen])

end Layout

theorem Tree.expr_wrap (least : Nat) (e : Tree) (layout : Layout) :
    (e.wrap least layout).expr = layout.expr := by
  unfold Tree.wrap
  split <;> rfl

theorem Tree.expr_minimal (e : Tree) : e.minimal.expr = e.expr := by
  induction e with
  | number n => rfl
  | str s => rfl
  | var name => rfl
  | binOp l op r ihl ihr =>
    simp only [Tree.minimal, Layout.expr, Tree.expr, Tree.expr_wrap, ihl, ihr]
  | unaryOp op e ih => simp only [Tree.minimal, Layout.expr, Tree.expr, Tree.expr_wrap, ih]

/-- `expr` reads sums, `term` products and `factor` comparisons. -/
def BinOp.layer (op : BinOp) : Nat :=
  if op.isSum then 1 else if op.isComparison then 3 else 2

namespace Layout

def layer : Layout → Nat
  | binOp _ op _ => op.layer
  | unaryOp _ _ => 4
  | _ => 5

/-- Every operand is of a layer that the parser reads in its place. -/
def Conforms : Layout → Prop
  | binOp l op r => l.Conforms ∧ r.Conforms ∧ op.layer ≤ l.layer ∧ op.layer < r.layer
  | unaryOp _ e => e.Conforms ∧ e.layer = 5
  | paren e => e.Conforms
  | _ => True

end Layout

theorem BinOp.layer_pos (op : BinOp) : 1 ≤ op.layer := by cases op <;> decide

theorem BinOp.layer_le (op : BinOp) : op.layer ≤ 3 := by cases op <;> decide

theorem Layout.layer_pos (e : Layout) : 1 ≤ e.layer := by
  cases e with
  | binOp l op r => exact op.layer_pos
  | unaryOp op e => exact Nat.le_of_ble_eq_true rfl
  | number n => exact Nat.le_of_ble_eq_true rfl
  | str s => exact Nat.le_of_ble_eq_true rfl
  | var name => exact Nat.le_of_ble_eq_true rfl
  | paren e => exact Nat.le_of_ble_eq_true rfl

theorem BinOp.token_inj {op op' : BinOp} (h : op.token = op'.token) : op = op' := by
  cases op <;> cases op' <;> first | rfl | cases h

def layerOf : Nat → Nat
  | 1 => 3
  | 2 => 1
  | 3 => 2
  | n => n

theorem BinOp.layer_eq (op : BinOp) : op.layer = layerOf op.precedence := by
  cases op <;> rfl

theorem BinOp.precedence_mem (op : BinOp) : op.precedence ∈ [1, 2, 3] := by
  cases op <;> decide

theorem BinOp.isComparison_iff (op : BinOp) : op.isComparison = true ↔ op.precedence = 1 := by
  cases op <;> decide

theorem Tree.precedence_mem (e : Tree) : e.precedence ∈ [1, 2, 3, 4, 5] := by
  cases e with
  | binOp l op r => exact List.mem_append_left [4, 5] op.precedence_mem
  | number n => simp [precedence]
  | str s => simp [precedence]
  | var name => simp [precedence]
  | unaryOp op e => simp [precedence]

theorem Tree.layer_minimal (e : Tree) : e.minimal.layer = layerOf e.precedence := by
  cases e with
  | binOp l op r => exact op.layer_eq
  | _ => rfl

theorem layers_iff : ∀ p ∈ [1, 2, 3], ∀ a ∈ [1, 2, 3, 4, 5], ∀ b ∈ [1, 2, 3, 4, 5],
    (layerOf p ≤ (if a < p then 5 else layerOf a) ∧
      layerOf p < (if b < p + 1 then 5 else layerOf b)) ↔
        (p = 1 → a ∉ [2, 3] ∧ b ∉ [2, 3]) := by
  decide

theorem layer_unary_iff : ∀ a ∈ [1, 2, 3, 4, 5],
    (if a < 4 then 5 else layerOf a) = 5 ↔ a ≠ 4 := by
  decide

theorem Tree.layer_wrap (least : Nat) (e : Tree) : (e.wrap least e.minimal).layer =
    if e.precedence < least then 5 else layerOf e.precedence := by
  rw [← e.layer_minimal]
  unfold Tree.wrap
  split <;> rfl

theorem Tree.conforms_wrap (least : Nat) (e : Tree) :
    (e.wrap least e.minimal).Conforms ↔ e.minimal.Conforms := by
  unfold Tree.wrap
  split <;> rfl

theorem Tree.conforms_iff (e : Tree) : e.minimal.Conforms ↔ e.Layered := by
  induction e with
  | number n => exact Iff.rfl
  | str s => exact Iff.rfl
  | var name => exact Iff.rfl
  | binOp l op r ihl ihr =>
    simp only [minimal, Layout.Conforms, Layered, conforms_wrap, ihl, ihr, layer_wrap,
      op.layer_eq, op.isComparison_iff]
    rw [layers_iff _ op.precedence_mem _ l.precedence_mem _ r.precedence_mem]
  | unaryOp op e ih =>
    simp only [minimal, Layout.Conforms, Layered, conforms_wrap, ih, layer_wrap]
    rw [layer_unary_iff _ e.precedence_mem]

/-! ## What conforms is read -/

namespace Parser

variable {level : Token → Option BinOp} {k n : Nat} {p inner : Parser Expr}

def Stops (k : Nat) (rest : List Token) : Prop := ∀ op : BinOp, k ≤ op.layer → peek rest ≠ op.token

/-- What conforms to the layer and has at most `n` tokens is read. -/
def Complete (k n : Nat) (p : Parser Expr) : Prop :=
  ∀ e : Layout, e.Conforms → k ≤ e.layer → e.tokens.length ≤ n → ∀ rest, Stops k rest →
    p (e.tokens ++ rest) = .ok (e.expr, rest)

def Sound (k : Nat) (p : Parser Expr) : Prop :=
  ∀ tokens e rest, p tokens = .ok (e, rest) →
    ∃ l : Layout, l.Conforms ∧ k ≤ l.layer ∧ l.expr = e ∧ tokens = l.tokens ++ rest

def ReadsLayer (level : Token → Option BinOp) (k : Nat) : Prop :=
  ∀ t op, level t = some op ↔ t = op.token ∧ op.layer = k

theorem readsLayer_sum : ReadsLayer sumLevel 1 := by
  intro t op
  cases op <;> cases t <;> simp [sumLevel, BinOp.token, BinOp.layer, BinOp.isSum,
    BinOp.isComparison]

theorem readsLayer_product : ReadsLayer productLevel 2 := by
  intro t op
  cases op <;> cases t <;> simp [productLevel, BinOp.token, BinOp.layer, BinOp.isSum,
    BinOp.isComparison]

theorem readsLayer_comparison : ReadsLayer comparisonLevel 3 := by
  intro t op
  cases op <;> cases t <;> simp [comparisonLevel, BinOp.token, BinOp.layer, BinOp.isSum,
    BinOp.isComparison]

theorem Stops.mono (h : Stops k rest) (hk : k ≤ k') : Stops k' rest :=
  fun op hop => h op (hk.trans hop)

theorem stops_token {op : BinOp} (h : op.layer < k) (rest : List Token) :
    Stops k (op.token :: rest) := by
  intro op' hop' heq
  rw [BinOp.token_inj heq] at h
  omega

theorem ReadsLayer.none (hlevel : ReadsLayer level k) {rest : List Token} (h : Stops k rest) :
    level (peek rest) = none := by
  rw [Option.eq_none_iff_forall_ne_some]
  intro op hop
  rw [hlevel] at hop
  exact h op hop.2.ge hop.1

def Tail (k : Nat) (ops : List (BinOp × Layout)) : Prop :=
  ∀ x ∈ ops, x.1.layer = k ∧ x.2.Conforms ∧ k < x.2.layer

def tailTokens (ops : List (BinOp × Layout)) : List Token :=
  ops.flatMap fun x => x.1.token :: x.2.tokens

def applyTail (e : Expr) (ops : List (BinOp × Layout)) : Expr :=
  ops.foldl (fun l x => .binOp l x.1 x.2.expr) e

def Spine (k : Nat) (e : Layout) : Prop :=
  ∃ (first : Layout) (ops : List (BinOp × Layout)), first.Conforms ∧ k < first.layer ∧
    Tail k ops ∧ e.tokens = first.tokens ++ tailTokens ops ∧ e.expr = applyTail first.expr ops

theorem spine_of_lt {e : Layout} (he : e.Conforms) (hlt : k < e.layer) : Spine k e :=
  ⟨e, [], he, hlt, nofun, (List.append_nil _).symm, rfl⟩

theorem spine (hk3 : k ≤ 3) {e : Layout} (he : e.Conforms) (hk : k ≤ e.layer) : Spine k e := by
  have hk4 : k < 4 := Nat.lt_succ_of_le hk3
  have hk5 : k < 5 := Nat.lt_succ_of_lt hk4
  induction e with
  | binOp l op r ihl _ =>
    by_cases hop : op.layer = k
    · obtain ⟨first, ops, hfirst, hlt, htail, htokens, hexpr⟩ := ihl he.1 (hop ▸ he.2.2.1)
      refine ⟨first, ops ++ [(op, r)], hfirst, hlt, ?_, ?_, ?_⟩
      · intro x hx
        rcases List.mem_append.mp hx with hx | hx
        · exact htail x hx
        · rw [List.mem_singleton.mp hx]
          exact ⟨hop, he.2.1, hop ▸ he.2.2.2⟩
      · simp [Layout.tokens, htokens, tailTokens]
      · simp [Layout.expr, hexpr, applyTail]
    · exact spine_of_lt he (lt_of_le_of_ne hk (Ne.symm hop))
  | unaryOp op e => exact spine_of_lt he hk4
  | number n => exact spine_of_lt he hk5
  | str s => exact spine_of_lt he hk5
  | var name => exact spine_of_lt he hk5
  | paren e => exact spine_of_lt he hk5

theorem operators_complete (hlevel : ReadsLayer level k) (hp : Complete (k + 1) n p)
    {ops : List (BinOp × Layout)} (hops : Tail k ops) (hn : (tailTokens ops).length ≤ n)
    {rest : List Token} (hrest : Stops k rest) (fuel : Nat) (left : Expr)
    (hfuel : (tailTokens ops).length < fuel) :
    operators level p fuel left (tailTokens ops ++ rest) = .ok (applyTail left ops, rest) := by
  induction ops generalizing fuel left with
  | nil =>
    cases fuel with
    | zero => contradiction
    | succ fuel =>
      have hnone := hlevel.none hrest
      simp only [tailTokens, List.flatMap_nil, List.nil_append, operators, hnone]
      rfl
  | cons x ops ih =>
    cases fuel with
    | zero => contradiction
    | succ fuel =>
      obtain ⟨op, r⟩ := x
      have hx := hops (op, r) List.mem_cons_self
      have hsome : level op.token = some op := (hlevel _ _).mpr ⟨rfl, hx.1⟩
      have htail : Tail k ops := fun y hy => hops y (List.mem_cons_of_mem _ hy)
      have htokens : tailTokens ((op, r) :: ops) ++ rest =
          op.token :: (r.tokens ++ (tailTokens ops ++ rest)) := by
        simp [tailTokens]
      have hlength : (tailTokens ((op, r) :: ops)).length =
          1 + r.tokens.length + (tailTokens ops).length := by
        simp [tailTokens]
        omega
      have hstops : Stops (k + 1) (tailTokens ops ++ rest) := by
        cases ops with
        | nil => exact hrest.mono (Nat.le_succ k)
        | cons y ops =>
          have hy := htail y List.mem_cons_self
          exact stops_token (by omega) _
      have hoperand := hp r hx.2.1 hx.2.2 (by omega) _ hstops
      rw [htokens, operators]
      simp only [peek, List.headD_cons, hsome, advance, List.tail_cons, hoperand,
        Outcome.ok_bind]
      exact ih htail (by omega) fuel _ (by omega)

theorem chain_complete (hk3 : k ≤ 3) (hlevel : ReadsLayer level k) (hp : Complete (k + 1) n p) :
    Complete k n (chain level p) := by
  intro e he hk hn rest hrest
  obtain ⟨first, ops, hfirst, hlt, hops, htokens, hexpr⟩ := spine hk3 he hk
  have hlength : e.tokens.length = first.tokens.length + (tailTokens ops).length := by
    rw [htokens, List.length_append]
  have hstops : Stops (k + 1) (tailTokens ops ++ rest) := by
    cases ops with
    | nil => exact hrest.mono (Nat.le_succ k)
    | cons y ops =>
      have hy := hops y List.mem_cons_self
      exact stops_token (by omega) _
  rw [chain, htokens, List.append_assoc, hp first hfirst hlt (by omega) _ hstops, Outcome.ok_bind,
    hexpr]
  refine operators_complete hlevel hp hops (by omega) hrest _ _ ?_
  simp only [List.length_append]
  omega

theorem atom_complete (hinner : Complete 1 n inner) : Complete 5 (n + 1) (atom inner) := by
  intro e he hk hn rest _
  cases e with
  | number n => rfl
  | str s => rfl
  | var name => rfl
  | binOp l op r => exact absurd (hk.trans op.layer_le) (by decide)
  | unaryOp op e => exact absurd hk (Nat.lt_irrefl 4)
  | paren e =>
    have hlength : e.tokens.length ≤ n := by
      simp only [Layout.tokens, List.length_cons, List.length_append, List.length_nil] at hn
      omega
    have hstops : Stops 1 (.rParen :: rest) := by
      intro op _
      cases op <;> exact nofun
    have hread := hinner e he e.layer_pos hlength (.rParen :: rest) hstops
    simp only [Layout.tokens, List.cons_append, List.append_assoc, List.nil_append, atom, peek,
      List.headD_cons, advance, List.tail_cons, hread, Outcome.ok_bind, expect, if_true]
    rfl

theorem unary_complete (hinner : Complete 1 n inner) : Complete 4 (n + 1) (unary inner) := by
  have hatom := atom_complete hinner
  intro e he hk hn rest hrest
  cases e with
  | number n => rfl
  | str s => rfl
  | var name => rfl
  | binOp l op r => exact absurd (hk.trans op.layer_le) (by decide)
  | unaryOp op e =>
    have hlength : e.tokens.length ≤ n + 1 := by
      simp only [Layout.tokens, List.length_cons] at hn
      omega
    have hread := hatom e he.1 he.2.ge hlength rest (hrest.mono (by decide))
    cases op <;>
      simp only [Layout.tokens, UnOp.token, List.cons_append, unary, peek, List.headD_cons,
        advance, List.tail_cons, hread, Outcome.ok_bind] <;> rfl
  | paren e =>
    exact hatom (.paren e) he (Nat.le_refl 5) hn rest (hrest.mono (by decide))

theorem tokens_pos (e : Layout) : 0 < e.tokens.length := by
  cases e with
  | binOp l op r =>
    simp only [Layout.tokens, List.length_append, List.length_cons]
    omega
  | _ => exact Nat.succ_pos _

theorem exprFor_complete (n : Nat) : Complete 1 n (exprFor n) := by
  induction n with
  | zero => exact fun e _ _ hn => absurd hn (Nat.not_le_of_lt (tokens_pos e))
  | succ n ih =>
    exact chain_complete (by decide) readsLayer_sum
      (chain_complete (by decide) readsLayer_product
        (chain_complete (by decide) readsLayer_comparison (unary_complete ih)))

theorem operators_sound (hlevel : ReadsLayer level k) (hp : Sound (k + 1) p) (fuel : Nat)
    {l : Layout} (hl : l.Conforms) (hk : k ≤ l.layer) {tokens rest : List Token} {e : Expr}
    (h : operators level p fuel l.expr tokens = .ok (e, rest)) :
    ∃ l' : Layout, l'.Conforms ∧ k ≤ l'.layer ∧ l'.expr = e ∧
      l.tokens ++ tokens = l'.tokens ++ rest := by
  induction fuel generalizing l tokens with
  | zero => cases h
  | succ fuel ih =>
    rw [operators] at h
    dsimp only at h
    cases hop : level (peek tokens) with
    | none =>
      rw [hop] at h
      cases h
      exact ⟨l, hl, hk, rfl, rfl⟩
    | some op =>
      rw [hop] at h
      obtain ⟨⟨r, tokens'⟩, hr, h⟩ := Outcome.bind_eq_ok h
      obtain ⟨htoken, hlayer⟩ := (hlevel _ _).mp hop
      obtain ⟨r', hr', hlt, rfl, htokens⟩ := hp _ _ _ hr
      have hconforms : (Layout.binOp l op r').Conforms := ⟨hl, hr', by omega, by omega⟩
      have hge : k ≤ (Layout.binOp l op r').layer := hlayer.ge
      obtain ⟨l', hl', hk', hexpr, heq⟩ := ih hconforms hge h
      refine ⟨l', hl', hk', hexpr, ?_⟩
      rw [← heq]
      cases tokens with
      | nil => cases op <;> cases htoken
      | cons t tokens =>
        have ht : t = op.token := htoken
        have hrest : tokens = r'.tokens ++ tokens' := htokens
        rw [ht, hrest]
        simp [Layout.tokens]

theorem chain_sound (hlevel : ReadsLayer level k) (hp : Sound (k + 1) p) :
    Sound k (chain level p) := by
  intro tokens e rest h
  obtain ⟨⟨left, rest'⟩, hleft, hloop⟩ := Outcome.bind_eq_ok h
  obtain ⟨l, hl, hlt, rfl, htokens⟩ := hp _ _ _ hleft
  obtain ⟨l', hl', hk, hexpr, heq⟩ :=
    operators_sound hlevel hp _ hl (Nat.le_of_succ_le hlt) hloop
  exact ⟨l', hl', hk, hexpr, htokens.trans heq⟩

theorem eq_cons_of_peek {t : Token} {tokens : List Token} (h : peek tokens = t) (ht : t ≠ .eof) :
    tokens = t :: advance tokens := by
  cases tokens with
  | nil => exact absurd h.symm ht
  | cons t' tokens =>
    have ht' : t' = t := h
    rw [ht']
    rfl

theorem atom_sound (hinner : Sound 1 inner) : Sound 5 (atom inner) := by
  intro tokens e rest h
  rw [atom] at h
  split at h
  case h_1 n ht =>
      cases h
      exact ⟨.number n, trivial, le_rfl, rfl, eq_cons_of_peek ht (by simp)⟩
  case h_2 s ht =>
      cases h
      exact ⟨.str s, trivial, le_rfl, rfl, eq_cons_of_peek ht (by simp)⟩
  case h_3 name ht =>
      cases h
      exact ⟨.var name, trivial, le_rfl, rfl, eq_cons_of_peek ht (by simp)⟩
  case h_4 ht =>
      obtain ⟨⟨e', tokens'⟩, he, h⟩ := Outcome.bind_eq_ok h
      obtain ⟨⟨⟨⟩, tokens''⟩, hexpect, h⟩ := Outcome.bind_eq_ok h
      cases h
      obtain ⟨l, hl, -, rfl, htokens⟩ := hinner _ _ _ he
      rw [expect] at hexpect
      split at hexpect
      case isTrue hclose =>
          cases hexpect
          have hopen := eq_cons_of_peek ht (by simp)
          have hbehind := eq_cons_of_peek hclose (by simp)
          refine ⟨.paren l, hl, le_rfl, rfl, ?_⟩
          rw [hopen, htokens, hbehind]
          simp [Layout.tokens, advance]
      case isFalse => cases hexpect
  case h_5 => cases h

theorem unary_sound (hinner : Sound 1 inner) : Sound 4 (unary inner) := by
  have hatom := atom_sound hinner
  have hprefixed (op : UnOp) {tokens rest : List Token} {e : Expr}
      (ht : peek tokens = op.token) (he : atom inner (advance tokens) = .ok (e, rest)) :
      ∃ l : Layout, l.Conforms ∧ 4 ≤ l.layer ∧ l.expr = .unaryOp op e ∧
        tokens = l.tokens ++ rest := by
    obtain ⟨l, hl, hlayer, rfl, htokens⟩ := hatom _ _ _ he
    have hfive : l.layer = 5 := by
      cases l with
      | binOp a op b => exact absurd (hlayer.trans op.layer_le) (by decide)
      | unaryOp op a => exact absurd hlayer (Nat.lt_irrefl 4)
      | _ => rfl
    refine ⟨.unaryOp op l, ⟨hl, hfive⟩, le_rfl, rfl, ?_⟩
    have hne : op.token ≠ .eof := by cases op <;> nofun
    rw [eq_cons_of_peek ht hne, htokens]
    rfl
  intro tokens e rest h
  rw [unary] at h
  split at h
  case h_1 ht =>
      obtain ⟨⟨e', tokens'⟩, he, h⟩ := Outcome.bind_eq_ok h
      cases h
      exact hprefixed .neg ht he
  case h_2 ht =>
      obtain ⟨⟨e', tokens'⟩, he, h⟩ := Outcome.bind_eq_ok h
      cases h
      exact hprefixed .not ht he
  case h_3 =>
      obtain ⟨l, hl, hlayer, hrest⟩ := hatom _ _ _ h
      exact ⟨l, hl, Nat.le_of_succ_le hlayer, hrest⟩

theorem exprFor_sound (fuel : Nat) : Sound 1 (exprFor fuel) := by
  induction fuel with
  | zero => intro tokens e rest h; cases h
  | succ fuel ih =>
    exact chain_sound readsLayer_sum (chain_sound readsLayer_product
      (chain_sound readsLayer_comparison (unary_sound ih)))

end Parser

/-! ## The tokens of a tree say where its parentheses are -/

def Token.isLeaf : Token → Bool
  | .number _ | .str _ | .ident _ => true
  | _ => false

def Expr.leaves : Expr → Nat
  | .binOp l _ r => l.leaves + r.leaves
  | .unaryOp _ e => e.leaves
  | _ => 1

theorem Expr.leaves_pos (e : Expr) : 0 < e.leaves := by
  cases e with
  | binOp l op r => exact Nat.add_pos_left l.leaves_pos _
  | unaryOp op e => exact e.leaves_pos
  | _ => exact Nat.one_pos

structure Balanced (tokens : List Token) : Prop where
  whole : tokens.count .lParen = tokens.count .rParen
  begun : ∀ p, p <+: tokens → p.count .rParen ≤ p.count .lParen

theorem Balanced.append {a b : List Token} (ha : Balanced a) (hb : Balanced b) :
    Balanced (a ++ b) := by
  constructor
  · rw [List.count_append, List.count_append, ha.whole, hb.whole]
  · rintro p ⟨q, hq⟩
    rcases List.append_eq_append_iff.mp hq with ⟨c, hc, -⟩ | ⟨c, rfl, hc⟩
    · exact ha.begun p ⟨c, hc.symm⟩
    · have hbegun := hb.begun c ⟨q, hc.symm⟩
      rw [List.count_append, List.count_append, ha.whole]
      exact Nat.add_le_add_left hbegun _

theorem balanced_nil : Balanced [] :=
  ⟨rfl, fun p hp => by rw [List.prefix_nil.mp hp]; exact Nat.le_refl _⟩

theorem Balanced.cons {tokens : List Token} (h : Balanced tokens) {t : Token}
    (ht : t ≠ .lParen ∧ t ≠ .rParen) : Balanced (t :: tokens) := by
  have hone : Balanced [t] := by
    constructor
    · rw [List.count_singleton, List.count_singleton, if_neg (by simpa using ht.1),
        if_neg (by simpa using ht.2)]
    · intro p hp
      have hcount : p.count .rParen ≤ [t].count .rParen := hp.sublist.count_le _
      rw [List.count_singleton, if_neg (by simpa using ht.2)] at hcount
      omega
  exact hone.append h

theorem BinOp.token_ne (op : BinOp) : op.token ≠ .lParen ∧ op.token ≠ .rParen := by
  cases op <;> exact ⟨nofun, nofun⟩

theorem UnOp.token_ne (op : UnOp) : op.token ≠ .lParen ∧ op.token ≠ .rParen := by
  cases op <;> exact ⟨nofun, nofun⟩

theorem BinOp.not_isLeaf (op : BinOp) : op.token.isLeaf = false := by cases op <;> rfl

theorem UnOp.not_isLeaf (op : UnOp) : op.token.isLeaf = false := by cases op <;> rfl

namespace Layout

theorem countP_tokens (e : Layout) : e.tokens.countP Token.isLeaf = e.expr.leaves := by
  induction e with
  | number n => rfl
  | str s => rfl
  | var name => rfl
  | binOp l op r ihl ihr => simp [tokens, expr, Expr.leaves, op.not_isLeaf, ihl, ihr]
  | unaryOp op e ih => simp [tokens, expr, Expr.leaves, op.not_isLeaf, ih]
  | paren e ih =>
    have hl : Token.lParen.isLeaf = false := rfl
    have hr : Token.rParen.isLeaf = false := rfl
    simp [tokens, expr, hl, hr, ih]

theorem begun_paren {e : Layout} {p : List Token} (hp : p <+: (paren e).tokens) :
    p = [] ∨ (∃ p', p = .lParen :: p' ∧ p' <+: e.tokens) ∨ p = (paren e).tokens := by
  cases p with
  | nil => exact Or.inl rfl
  | cons t p =>
    rw [tokens, List.cons_prefix_cons] at hp
    obtain ⟨rfl, hp⟩ := hp
    rw [List.prefix_concat_iff] at hp
    rcases hp with rfl | hp
    · exact Or.inr (Or.inr rfl)
    · exact Or.inr (Or.inl ⟨p, rfl, hp⟩)

theorem balanced_tokens (e : Layout) : Balanced e.tokens := by
  induction e with
  | number n => exact balanced_nil.cons ⟨nofun, nofun⟩
  | str s => exact balanced_nil.cons ⟨nofun, nofun⟩
  | var name => exact balanced_nil.cons ⟨nofun, nofun⟩
  | binOp l op r ihl ihr => exact ihl.append (ihr.cons op.token_ne)
  | unaryOp op e ih => exact ih.cons op.token_ne
  | paren e ih =>
    constructor
    · simp [tokens, ih.whole]
    · intro p hp
      rcases begun_paren hp with rfl | ⟨p', rfl, hp'⟩ | rfl
      · exact Nat.le_refl 0
      · have hbegun := ih.begun p' hp'
        simp only [List.count_cons]
        simpa using Nat.le_succ_of_le hbegun
      · simp [tokens, ih.whole]

theorem paren_ne_binOp {q l r : Layout} {op : BinOp}
    (hexpr : (paren q).expr = (binOp l op r).expr) (rest rest' : List Token) :
    (paren q).tokens ++ rest ≠ (binOp l op r).tokens ++ rest' := by
  have hmore : ¬ (paren q).tokens <+: l.tokens := by
    intro hprefix
    have hcount : (paren q).tokens.countP Token.isLeaf ≤ l.tokens.countP Token.isLeaf :=
      hprefix.sublist.countP_le
    rw [countP_tokens, countP_tokens, hexpr, expr, Expr.leaves] at hcount
    have hpos := r.expr.leaves_pos
    omega
  have hless : ¬ (l.tokens <+: (paren q).tokens) := by
    intro hprefix
    rcases begun_paren hprefix with hnil | ⟨p, hp, hbegun⟩ | hwhole
    · have hpos := Parser.tokens_pos l
      rw [hnil] at hpos
      exact Nat.lt_irrefl 0 hpos
    · -- the first parenthesis is still open behind `l`
      have hopen := (balanced_tokens q).begun p hbegun
      have hclosed := (balanced_tokens l).whole
      rw [hp] at hclosed
      simp only [List.count_cons] at hclosed
      simp at hclosed
      omega
    · exact hmore (hwhole ▸ List.prefix_refl _)
  intro h
  rw [tokens, List.append_assoc] at h
  rcases List.append_eq_append_iff.mp h with ⟨c, hc, -⟩ | ⟨c, hc, -⟩
  · exact hmore ⟨c, hc.symm⟩
  · exact hless ⟨c, hc.symm⟩

theorem tokens_inj {e e' : Layout} (hexpr : e.expr = e'.expr) {rest rest' : List Token}
    (h : e.tokens ++ rest = e'.tokens ++ rest') : e = e' ∧ rest = rest' := by
  induction e generalizing e' rest rest' with
  | number n =>
    cases e' with
    | number n' =>
      cases hexpr
      exact ⟨rfl, (List.cons.inj h).2⟩
    | paren q => exact absurd (List.cons.inj h).1 nofun
    | _ => cases hexpr
  | str s =>
    cases e' with
    | str s' =>
      cases hexpr
      exact ⟨rfl, (List.cons.inj h).2⟩
    | paren q => exact absurd (List.cons.inj h).1 nofun
    | _ => cases hexpr
  | var name =>
    cases e' with
    | var name' =>
      cases hexpr
      exact ⟨rfl, (List.cons.inj h).2⟩
    | paren q => exact absurd (List.cons.inj h).1 nofun
    | _ => cases hexpr
  | binOp l op r ihl ihr =>
    cases e' with
    | binOp l' op' r' =>
      simp only [expr, Expr.binOp.injEq] at hexpr
      obtain ⟨hl, rfl, hr⟩ := hexpr
      simp only [tokens, List.append_assoc, List.cons_append] at h
      obtain ⟨rfl, htail⟩ := ihl hl h
      obtain ⟨rfl, hrest⟩ := ihr hr (List.cons.inj htail).2
      exact ⟨rfl, hrest⟩
    | paren q => exact absurd h.symm (paren_ne_binOp hexpr.symm rest' rest)
    | _ => cases hexpr
  | unaryOp op e ih =>
    cases e' with
    | unaryOp op' e' =>
      simp only [expr, Expr.unaryOp.injEq] at hexpr
      obtain ⟨rfl, he⟩ := hexpr
      obtain ⟨rfl, hrest⟩ := ih he (List.cons.inj h).2
      exact ⟨rfl, hrest⟩
    | paren q => exact absurd (List.cons.inj h).1 op.token_ne.1
    | _ => cases hexpr
  | paren q ih =>
    cases e' with
    | paren q' =>
      simp only [tokens, List.cons_append, List.append_assoc] at h
      have hinner := (List.cons.inj h).2
      have hq : q.expr = q'.expr := hexpr
      obtain ⟨rfl, htail⟩ := ih hq hinner
      exact ⟨rfl, (List.cons.inj htail).2⟩
    | binOp l op r => exact absurd h (paren_ne_binOp hexpr rest rest')
    | unaryOp op e' => exact absurd (List.cons.inj h).1.symm op.token_ne.1
    | number n => exact absurd (List.cons.inj h).1 nofun
    | str s => exact absurd (List.cons.inj h).1 nofun
    | var name => exact absurd (List.cons.inj h).1 nofun

end Layout

namespace Parser

theorem stmt_var (name : Text) (tokens : List Token) :
    stmt (.var :: .ident name :: .assign :: tokens) = (do
      let (e, rest) ← expr tokens
      return (.varDecl name e, rest)) := by
  rfl

theorem parse_var (name : Text) (tokens : List Token) :
    parse (.var :: .ident name :: .assign :: tokens) = (do
      let (e, rest) ← expr tokens
      let program ← statements (tokens.length + 2) rest
      return .varDecl name e :: program) := by
  rw [parse, List.length_cons, statements, if_neg (by simp), if_neg (by decide), stmt_var]
  cases expr tokens <;> rfl

end Parser

/-- A declaration of a printed tree is parsed as that tree exactly where the tree has no sum and
no product below a comparison, and no unary operator below another one. -/
theorem parse_printed_iff (name : Text) (e : Tree) :
    parse (.var :: .ident name :: .assign :: (e.minimal.tokens ++ [.eof])) =
      .ok [.varDecl name e.expr] ↔ e.Layered := by
  rw [Parser.parse_var, ← e.conforms_iff]
  constructor
  · intro h
    obtain ⟨⟨e', rest⟩, hexpr, h⟩ := Outcome.bind_eq_ok h
    obtain ⟨program, hprogram, h⟩ := Outcome.bind_eq_ok h
    simp only [Outcome.pure_eq, Outcome.ok.injEq, List.cons.injEq, Stmt.varDecl.injEq,
      true_and] at h
    obtain ⟨he, rfl⟩ := h
    obtain ⟨l, hl, -, hle, htokens⟩ := Parser.exprFor_sound _ _ _ _ hexpr
    have hsame : e.minimal.expr = l.expr := by rw [e.expr_minimal, ← he, hle]
    rw [(Layout.tokens_inj hsame htokens).1]
    exact hl
  · intro h
    have hstops : Parser.Stops 1 [.eof] := by
      intro op _
      cases op <;> exact nofun
    have hread : Parser.expr (e.minimal.tokens ++ [.eof]) = .ok (e.minimal.expr, [.eof]) := by
      apply Parser.exprFor_complete _ e.minimal h e.minimal.layer_pos _ _ hstops
      simp only [List.length_append]
      omega
    rw [hread, e.expr_minimal]
    rfl

/-- `1 + 2 == 3` compares first. -/
theorem parse_sum_compared : ¬ ∀ (name : Text) (e : Tree),
    parse (.var :: .ident name :: .assign :: (e.minimal.tokens ++ [.eof])) =
      .ok [.varDecl name e.expr] := by
  intro h
  have hsum := h ['x'] (.binOp (.binOp (.number 1) .add (.number 2)) .eq (.number 3))
  cases hsum

end Vibra.Script
