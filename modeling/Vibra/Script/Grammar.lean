import Vibra.Script.Printing

/-! # The grammar of statements

Programs as they are written, with their separators, and what the parser makes of them.
-/

namespace Vibra.Script

open Lib (Outcome)

inductive Separator where
  | newline
  | semicolon

def Separator.token : Separator → Token
  | newline => .newline
  | semicolon => .semicolon

/-- An expression that `expr` reads as it stands. -/
structure Written where
  layout : Layout
  conforms : layout.Conforms

namespace Written

def tokens (e : Written) : List Token := e.layout.tokens

def expr (e : Written) : Expr := e.layout.expr

end Written

/-- With commas between them. -/
def argTokens : List Written → List Token
  | [] => []
  | [e] => e.tokens
  | e :: es => e.tokens ++ .comma :: argTokens es

mutual

inductive Source where
  | varDecl (name : Text) (e : Written)
  | assign (name : Text) (e : Written)
  | print (args : List Written)
  | beep (e : Written)
  | sleep (e : Written)
  | exit
  | «if» (cond : Written) (thenBody : Body)
  | ifElse (cond : Written) (thenBody elseBody : Body)
  | «while» (cond : Written) (body : Body)
  | block (body : Body)

/-- Statements with separators. Only the last statement may be without one behind it. -/
inductive Body where
  | nil
  | sep (t : Separator) (rest : Body)
  | last (s : Source)
  | stmt (s : Source) (t : Separator) (rest : Body)

end

mutual

def Source.tokens : Source → List Token
  | .varDecl name e => .var :: .ident name :: .assign :: e.tokens
  | .assign name e => .ident name :: .assign :: e.tokens
  | .print args => .print :: argTokens args
  | .beep e => .beep :: e.tokens
  | .sleep e => .sleep :: e.tokens
  | .exit => [.exit]
  | .if cond thenBody => .if :: (cond.tokens ++ .lBrace :: (thenBody.tokens ++ [.rBrace]))
  | .ifElse cond thenBody elseBody =>
    .if :: (cond.tokens ++ .lBrace :: (thenBody.tokens ++
      .rBrace :: .else :: .lBrace :: (elseBody.tokens ++ [.rBrace])))
  | .while cond body => .while :: (cond.tokens ++ .lBrace :: (body.tokens ++ [.rBrace]))
  | .block body => .lBrace :: (body.tokens ++ [.rBrace])

def Body.tokens : Body → List Token
  | .nil => []
  | .sep t rest => t.token :: rest.tokens
  | .last s => s.tokens
  | .stmt s t rest => s.tokens ++ t.token :: rest.tokens

end

mutual

/-- The statements to be executed: those of a block stand in its place. -/
def Source.flat : Source → List Stmt
  | .varDecl name e => [.varDecl name e.expr]
  | .assign name e => [.assign name e.expr]
  | .print args => [.print (args.map Written.expr)]
  | .beep e => [.beep e.expr]
  | .sleep e => [.sleep e.expr]
  | .exit => [.exit]
  | .if cond thenBody => [.if cond.expr thenBody.flat []]
  | .ifElse cond thenBody elseBody => [.if cond.expr thenBody.flat elseBody.flat]
  | .while cond body => [.while cond.expr body.flat]
  | .block body => body.flat

def Body.flat : Body → List Stmt
  | .nil => []
  | .sep _ rest => rest.flat
  | .last s => s.flat
  | .stmt s _ rest => s.flat ++ rest.flat

end

mutual

/-- The statements of a parsed program, without what stands for a dropped block. -/
def Stmt.contents : Stmt → List Stmt
  | .if cond thenBody elseBody => [.if cond (contentsAll thenBody) (contentsAll elseBody)]
  | .while cond body => [.while cond (contentsAll body)]
  | .expr (.number 0) => []
  | s => [s]

def contentsAll : List Stmt → List Stmt
  | [] => []
  | s :: ss => s.contents ++ contentsAll ss

end

def Source.isPrint : Source → Bool
  | .print _ => true
  | _ => false

namespace Body

def hasStatement : Body → Bool
  | .nil => false
  | .sep _ rest => rest.hasStatement
  | .last _ => true
  | .stmt _ _ _ => true

/-- The last statement is a `print` with no separator behind it. -/
def EndsInPrint : Body → Prop
  | .nil => False
  | .sep _ rest => rest.EndsInPrint
  | .last s => s.isPrint = true
  | .stmt _ _ rest => rest.EndsInPrint

/-- A semicolon is among the separators behind the last statement. -/
def EndsInSemicolon : Body → Prop
  | .nil => False
  | .sep t rest => rest.EndsInSemicolon ∨ t = .semicolon ∧ rest.hasStatement = false
  | .last _ => False
  | .stmt _ t rest => rest.EndsInSemicolon ∨ t = .semicolon ∧ rest.hasStatement = false

end Body

mutual

def Source.Accepted : Source → Prop
  | .if _ thenBody =>
    thenBody.Accepted ∧ ¬ thenBody.EndsInPrint ∧ ¬ thenBody.EndsInSemicolon
  | .ifElse _ thenBody elseBody =>
    (thenBody.Accepted ∧ ¬ thenBody.EndsInPrint ∧ ¬ thenBody.EndsInSemicolon) ∧
      elseBody.Accepted ∧ ¬ elseBody.EndsInPrint ∧ ¬ elseBody.EndsInSemicolon
  | .while _ body => body.Accepted ∧ ¬ body.EndsInPrint
  | .block body => body.Accepted ∧ ¬ body.EndsInPrint ∧ ¬ body.EndsInSemicolon
  | _ => True

def Body.Accepted : Body → Prop
  | .nil => True
  | .sep _ rest => rest.Accepted
  | .last s => s.Accepted
  | .stmt s _ rest => s.Accepted ∧ rest.Accepted

end

mutual

def Source.Kept : Source → Prop
  | .if _ thenBody => thenBody.Kept
  | .ifElse _ thenBody elseBody => thenBody.Kept ∧ elseBody.Kept
  | .while _ body => body.Kept
  | .block body => body.flat = []
  | _ => True

def Body.Kept : Body → Prop
  | .nil => True
  | .sep _ rest => rest.Kept
  | .last s => s.Kept
  | .stmt s _ rest => s.Kept ∧ rest.Kept

end

mutual

def Source.result : Source → Stmt
  | .varDecl name e => .varDecl name e.expr
  | .assign name e => .assign name e.expr
  | .print args => .print (args.map Written.expr)
  | .beep e => .beep e.expr
  | .sleep e => .sleep e.expr
  | .exit => .exit
  | .if cond thenBody => .if cond.expr thenBody.result []
  | .ifElse cond thenBody elseBody => .if cond.expr thenBody.result elseBody.result
  | .while cond body => .while cond.expr body.result
  | .block _ => .expr (.number 0)

def Body.result : Body → List Stmt
  | .nil => []
  | .sep _ rest => rest.result
  | .last s => [s.result]
  | .stmt s _ rest => s.result :: rest.result

end

attribute [local simp] Source.tokens Body.tokens Source.flat Body.flat Stmt.contents contentsAll
  Source.Accepted Body.Accepted Source.Kept Body.Kept Source.result Body.result

/-- The program returns `a` if `p` holds, and an error otherwise. -/
structure Yields {ε α : Type} (x : Outcome ε α) (p : Prop) (a : α) : Prop where
  ok : p → x = .ok a
  err : ¬ p → ∃ e, x = .err e

section Yields

variable {ε α β : Type} {x : Outcome ε α} {f : α → Outcome ε β} {p q : Prop} {a : α} {b : β}

theorem Yields.bind (h : Yields x p a) (hf : p → Yields (f a) q b) :
    Yields (x >>= f) (p ∧ q) b := by
  by_cases hp : p
  · have hx := h.ok hp
    refine ⟨fun hpq => ?_, fun hpq => ?_⟩
    · rw [hx, Outcome.ok_bind, (hf hp).ok hpq.2]
    · obtain ⟨e, he⟩ := (hf hp).err fun hq => hpq ⟨hp, hq⟩
      exact ⟨e, by rw [hx, Outcome.ok_bind, he]⟩
  · obtain ⟨e, he⟩ := h.err hp
    exact ⟨fun hpq => absurd hpq.1 hp, fun _ => ⟨e, by rw [he, Outcome.err_bind]⟩⟩

theorem Yields.andThen (h : Yields x p a) (hf : f a = .ok b) : Yields (x >>= f) p b := by
  refine ⟨fun hp => ?_, fun hp => ?_⟩
  · rw [h.ok hp, Outcome.ok_bind, hf]
  · obtain ⟨e, he⟩ := h.err hp
    exact ⟨e, by rw [he, Outcome.err_bind]⟩

theorem Yields.congr (h : Yields x p a) (hpq : p ↔ q) : Yields x q a :=
  ⟨fun hq => h.ok (hpq.mpr hq), fun hq => h.err fun hp => hq (hpq.mp hp)⟩

end Yields

namespace Parser

variable {rest : List Token} {fuel n : Nat}

def Follows (rest : List Token) : Prop :=
  peek rest = .newline ∨ peek rest = .semicolon ∨ peek rest = .eof ∨ peek rest = .rBrace

theorem stops_of_peek {t : Token} (h : peek rest = t)
    (ht : t ∈ [.newline, .semicolon, .eof, .rBrace, .lBrace, .comma]) : Stops 1 rest := by
  intro op _ heq
  rw [h] at heq
  rw [heq] at ht
  cases op <;> revert ht <;> decide

theorem Follows.stops (h : Follows rest) : Stops 1 rest := by
  rcases h with h | h | h | h <;> exact stops_of_peek h (by decide)

theorem expr_written (e : Written) (h : Stops 1 rest) :
    expr (e.tokens ++ rest) = .ok (e.expr, rest) :=
  exprFor_complete _ e.layout e.conforms e.layout.layer_pos
    (Nat.le_succ_of_le (by rw [List.length_append]; exact Nat.le_add_right _ _)) rest h

theorem exists_head (e : Layout) : ∃ t tokens, e.tokens = t :: tokens ∧
    t ≠ .newline ∧ t ≠ .eof ∧ t ≠ .semicolon := by
  induction e with
  | number n => exact ⟨_, _, rfl, by simp⟩
  | str s => exact ⟨_, _, rfl, by simp⟩
  | var name => exact ⟨_, _, rfl, by simp⟩
  | binOp l op r ihl _ =>
    obtain ⟨t, tokens, htokens, ht⟩ := ihl
    exact ⟨t, tokens ++ op.token :: r.tokens, by rw [Layout.tokens, htokens]; rfl, ht⟩
  | unaryOp op e _ => cases op <;> exact ⟨_, _, rfl, by decide⟩
  | paren e _ => exact ⟨_, _, rfl, by simp⟩

theorem printArgs_succ (e : Written) {tokens : List Token} (h : Stops 1 tokens) :
    printArgs (fuel + 1) (e.tokens ++ tokens) = (do
      let (es, tokens) ← printArgs fuel
        (if peek tokens = .comma then advance tokens else tokens)
      return (e.expr :: es, tokens)) := by
  obtain ⟨t, tail, htokens, hnewline, heof, hsemicolon⟩ := exists_head e.layout
  have hpeek : peek (e.tokens ++ tokens) = t := by
    rw [Written.tokens, htokens]
    rfl
  rw [printArgs]
  dsimp only
  rw [hpeek, if_neg (by simp [*]), expr_written e h, Outcome.ok_bind]

theorem printArgs_args (args : List Written) (hrest : Follows rest) (h : args.length < fuel) :
    Yields (printArgs fuel (argTokens args ++ rest)) (peek rest ≠ .rBrace)
      (args.map Written.expr, rest) := by
  induction args generalizing fuel with
  | nil =>
    obtain ⟨fuel, rfl⟩ : ∃ n, fuel = n + 1 := Nat.exists_eq_succ_of_ne_zero (Nat.ne_of_gt h)
    refine ⟨fun hne => ?_, fun hbrace => ?_⟩
    · have hend : peek rest = .newline ∨ peek rest = .eof ∨ peek rest = .semicolon := by
        rcases hrest with h | h | h | h
        · exact Or.inl h
        · exact Or.inr (Or.inr h)
        · exact Or.inr (Or.inl h)
        · exact absurd h hne
      exact if_pos hend
    · rw [eq_cons_of_peek (not_not.mp hbrace) nofun]
      exact ⟨_, rfl⟩
  | cons e es ih =>
    obtain ⟨fuel, rfl⟩ : ∃ n, fuel = n + 1 :=
      Nat.exists_eq_succ_of_ne_zero (Nat.ne_of_gt (Nat.zero_lt_of_lt h))
    obtain ⟨tail, htail, hstops, hbehind⟩ : ∃ tail,
        argTokens (e :: es) ++ rest = e.tokens ++ tail ∧ Stops 1 tail ∧
          (if peek tail = .comma then advance tail else tail) = argTokens es ++ rest := by
      cases es with
      | nil =>
        have hcomma : peek rest ≠ .comma := by
          rcases hrest with h | h | h | h <;> rw [h] <;> nofun
        exact ⟨rest, rfl, hrest.stops, if_neg hcomma⟩
      | cons e' es =>
        refine ⟨.comma :: (argTokens (e' :: es) ++ rest), ?_,
          stops_of_peek (t := .comma) rfl (by decide), if_pos rfl⟩
        rw [argTokens, List.append_assoc, List.cons_append]
        exact nofun
    rw [htail, printArgs_succ e hstops, hbehind]
    exact (ih (Nat.lt_of_succ_lt_succ h)).andThen rfl

/-! ## Bodies -/

def bodyTurn (skip : Token → Bool) (stmt : Parser Stmt) (n : Nat) : Parser (List Stmt) :=
  fun tokens => do
    let (s, tokens) ← stmt tokens
    let (ss, tokens) ← body skip stmt n tokens
    return (s :: ss, tokens)

theorem body_succ (skip : Token → Bool) (stmt : Parser Stmt) (n : Nat) (tokens : List Token) :
    body skip stmt (n + 1) tokens =
      if peek tokens = .rBrace ∨ peek tokens = .eof then .ok ([], advance tokens)
      else if skip (peek tokens) then body skip stmt n (advance tokens)
      else bodyTurn skip stmt n tokens := rfl

theorem stmtFor_separator (t : Separator) (tokens : List Token) :
    stmtFor fuel (t.token :: tokens) = stmtFor fuel tokens := by
  cases fuel with
  | zero => rfl
  | succ fuel =>
    have hskip : skipEnds (t.token :: tokens) = skipEnds tokens := by
      cases t <;> rfl
    simp only [stmtFor, hskip]

end Parser

def Body.Fine (skip : Token → Bool) (b : Body) : Prop :=
  b.Accepted ∧ ¬ b.EndsInPrint ∧ (skip .semicolon = false → ¬ b.EndsInSemicolon)

namespace Parser

variable {rest : List Token} {fuel n : Nat} {skip : Token → Bool}

def ReadsStatements (fuel : Nat) : Prop :=
  ∀ (s : Source) (rest : List Token), s.tokens.length ≤ fuel → Follows rest →
    Yields (stmtFor fuel (s.tokens ++ rest)) (s.Accepted ∧ (s.isPrint → peek rest ≠ .rBrace))
      (s.result, rest)

/-- The loop of a body on `b`, from its beginning and from a turn that reads a statement. -/
structure ReadsBody (skip : Token → Bool) (fuel : Nat) (b : Body) (rest : List Token) : Prop where
  loop : ∀ n, b.tokens.length < n →
    Yields (body skip (stmtFor fuel) n (b.tokens ++ .rBrace :: rest)) (b.Fine skip) (b.result, rest)
  turn : ∀ n, b.tokens.length ≤ n →
    Yields (bodyTurn skip (stmtFor fuel) n (b.tokens ++ .rBrace :: rest))
      (b.hasStatement = true ∧ b.Fine skip) (b.result, rest)

structure Skips (skip : Token → Bool) : Prop where
  newline : skip .newline = true
  only : ∀ t, skip t = true → t = .newline ∨ t = .semicolon

theorem skips_isNewline : Skips isNewline :=
  ⟨rfl, fun _ h => Or.inl (eq_of_beq h)⟩

theorem skips_isEnd : Skips isEnd := by
  refine ⟨rfl, fun t h => ?_⟩
  rw [isEnd, Bool.or_eq_true] at h
  exact h.imp eq_of_beq eq_of_beq

theorem source_head (s : Source) : ∃ t tail, s.tokens = t :: tail ∧
    t ≠ .newline ∧ t ≠ .semicolon ∧ t ≠ .eof ∧ t ≠ .rBrace := by
  cases s <;> exact ⟨_, _, rfl, nofun, nofun, nofun, nofun⟩

theorem fine_sep (t : Separator) (b : Body) : (Body.sep t b).Fine skip ↔
    b.Fine skip ∧ (skip .semicolon = false → ¬ (t = .semicolon ∧ b.hasStatement = false)) := by
  rw [Body.Fine, Body.Fine, Body.Accepted, Body.EndsInPrint, Body.EndsInSemicolon]
  tauto

theorem fine_stmt (s : Source) (t : Separator) (b : Body) :
    (Body.stmt s t b).Fine skip ↔ s.Accepted ∧ (Body.sep t b).Fine skip := by
  rw [Body.Fine, Body.Fine, Body.Accepted, Body.EndsInPrint, Body.EndsInSemicolon, Body.Accepted,
    Body.EndsInPrint, Body.EndsInSemicolon]
  tauto

theorem fine_last (s : Source) : (Body.last s).Fine skip ↔ s.Accepted ∧ ¬ s.isPrint = true := by
  rw [Body.Fine, Body.Accepted, Body.EndsInPrint, Body.EndsInSemicolon]
  tauto

theorem fine_nil : Body.nil.Fine skip ↔ True := by
  rw [Body.Fine, Body.Accepted, Body.EndsInPrint, Body.EndsInSemicolon]
  tauto

theorem readsBody_of_turn (hskip : Skips skip) {b : Body} {s : Source} {tail : List Token}
    (hhead : b.tokens = s.tokens ++ tail) (hstmt : b.hasStatement = true)
    (hturn : ∀ n, b.tokens.length ≤ n →
      Yields (bodyTurn skip (stmtFor fuel) n (b.tokens ++ .rBrace :: rest)) (b.Fine skip)
        (b.result, rest)) :
    ReadsBody skip fuel b rest where
  turn n hn := (hturn n hn).congr (and_iff_right hstmt).symm
  loop n hn := by
    obtain ⟨n, rfl⟩ : ∃ k, n = k + 1 :=
      Nat.exists_eq_succ_of_ne_zero (Nat.ne_of_gt (Nat.zero_lt_of_lt hn))
    obtain ⟨t, ts, hs, hnewline, hsemicolon, heof, hbrace⟩ := source_head s
    have hpeek : peek (b.tokens ++ .rBrace :: rest) = t := by
      rw [hhead, hs]
      rfl
    have hno : ¬ skip t = true := fun h => (hskip.only t h).elim hnewline hsemicolon
    rw [body_succ, hpeek, if_neg (not_or_intro hbrace heof), if_neg hno]
    exact hturn n (Nat.le_of_lt_succ hn)

theorem readsBody_nil (hfuel : 0 < fuel) : ReadsBody skip fuel .nil rest where
  loop n hn := by
    obtain ⟨n, rfl⟩ : ∃ k, n = k + 1 := Nat.exists_eq_succ_of_ne_zero (Nat.ne_of_gt hn)
    exact ⟨fun _ => rfl, fun h => absurd (fine_nil.mpr trivial) h⟩
  turn n hn := by
    obtain ⟨fuel, rfl⟩ : ∃ k, fuel = k + 1 := Nat.exists_eq_succ_of_ne_zero (Nat.ne_of_gt hfuel)
    exact ⟨fun h => Bool.noConfusion h.1, fun _ => ⟨.unexpected .rBrace, rfl⟩⟩

theorem readsBody_sep (hskip : Skips skip) (t : Separator) {b : Body}
    (h : ReadsBody skip fuel b rest) : ReadsBody skip fuel (.sep t b) rest := by
  have hturn (n : Nat) : bodyTurn skip (stmtFor fuel) n ((Body.sep t b).tokens ++ .rBrace :: rest) =
      bodyTurn skip (stmtFor fuel) n (b.tokens ++ .rBrace :: rest) := by
    rw [Body.tokens, List.cons_append, bodyTurn, bodyTurn, stmtFor_separator]
  refine ⟨fun n hn => ?_, fun n hn => ?_⟩
  · obtain ⟨n, rfl⟩ : ∃ k, n = k + 1 :=
      Nat.exists_eq_succ_of_ne_zero (Nat.ne_of_gt (Nat.zero_lt_of_lt hn))
    have hlength : b.tokens.length < n := Nat.lt_of_succ_lt_succ hn
    have hpeek : peek ((Body.sep t b).tokens ++ .rBrace :: rest) = t.token := rfl
    have hopen : ¬ (t.token = .rBrace ∨ t.token = .eof) := by cases t <;> exact nofun
    rw [body_succ, hpeek, if_neg hopen]
    by_cases hpass : skip t.token = true
    · rw [if_pos hpass]
      refine (h.loop n hlength).congr ?_
      rw [fine_sep]
      refine (and_iff_left fun hsemicolon hlast => ?_).symm
      rw [hlast.1] at hpass
      exact Bool.noConfusion (hsemicolon.symm.trans hpass)
    · rw [if_neg hpass, hturn]
      refine (h.turn n (Nat.le_of_lt hlength)).congr ?_
      have hsemicolon : t = .semicolon := by
        cases t with
        | newline => exact absurd hskip.newline hpass
        | semicolon => rfl
      subst hsemicolon
      rw [Bool.not_eq_true] at hpass
      rw [fine_sep]
      simp only [Separator.token] at hpass
      simp only [hpass, true_implies, true_and, Bool.not_eq_false]
      exact and_comm
  · rw [hturn]
    refine (h.turn n (Nat.le_of_succ_le hn)).congr ?_
    rw [fine_sep]
    constructor
    · intro ⟨hstmt, hfine⟩
      refine ⟨hstmt, hfine, fun _ hlast => ?_⟩
      exact Bool.noConfusion (hlast.2.symm.trans hstmt)
    · intro ⟨hstmt, hfine, _⟩
      exact ⟨hstmt, hfine⟩

theorem readsBody_stmt (hread : ReadsStatements fuel) (hskip : Skips skip) {s : Source}
    (hs : s.tokens.length ≤ fuel) {t : Separator} {b : Body}
    (h : ReadsBody skip fuel (.sep t b) rest) : ReadsBody skip fuel (.stmt s t b) rest := by
  refine readsBody_of_turn hskip rfl rfl fun n hn => ?_
  have hfollows : Follows (t.token :: (b.tokens ++ .rBrace :: rest)) := by
    cases t with
    | newline => exact Or.inl rfl
    | semicolon => exact Or.inr (Or.inl rfl)
  have hopen : t.token ≠ .rBrace := by cases t <;> exact nofun
  have hlength : (Body.sep t b).tokens.length < n := by
    obtain ⟨_, _, htokens, _⟩ := source_head s
    rw [Body.tokens, htokens] at hn
    rw [Body.tokens]
    simp only [List.length_append, List.length_cons] at hn ⊢
    omega
  have hfirst := hread s _ hs hfollows
  have hrest : Yields (do
      let (ss, tokens) ← body skip (stmtFor fuel) n (t.token :: (b.tokens ++ .rBrace :: rest))
      return (s.result :: ss, tokens)) ((Body.sep t b).Fine skip)
        ((Body.stmt s t b).result, rest) :=
    (h.loop n hlength).andThen rfl
  rw [Body.tokens, List.append_assoc]
  refine (hfirst.bind fun _ => hrest).congr ?_
  rw [fine_stmt]
  exact and_congr_left fun _ => and_iff_left fun _ => hopen

theorem readsBody_last (hread : ReadsStatements fuel) (hskip : Skips skip) {s : Source}
    (hs : s.tokens.length ≤ fuel) : ReadsBody skip fuel (.last s) rest := by
  refine readsBody_of_turn hskip (List.append_nil _).symm rfl fun n hn => ?_
  have hfirst := hread s (.rBrace :: rest) hs (Or.inr (Or.inr (Or.inr rfl)))
  have hend : body skip (stmtFor fuel) n (.rBrace :: rest) = .ok ([], rest) := by
    obtain ⟨t, ts, htokens, _⟩ := source_head s
    rw [Body.tokens, htokens] at hn
    obtain ⟨n, rfl⟩ : ∃ k, n = k + 1 :=
      Nat.exists_eq_succ_of_ne_zero (Nat.ne_of_gt (Nat.lt_of_lt_of_le (Nat.succ_pos _) hn))
    rfl
  rw [Body.tokens]
  refine (hfirst.andThen (b := ([s.result], rest)) ?_).congr ?_
  · show (body skip (stmtFor fuel) n (.rBrace :: rest) >>= _) = _
    rw [hend]
    rfl
  · rw [fine_last]
    exact and_congr_right fun _ => forall_congr' fun _ => iff_false_intro (not_not_intro rfl)

theorem readsBody (hread : ReadsStatements fuel) (hfuel : 0 < fuel) (hskip : Skips skip) :
    ∀ b : Body, b.tokens.length ≤ fuel → ReadsBody skip fuel b rest
  | .nil, _ => readsBody_nil hfuel
  | .sep t b, h => readsBody_sep hskip t (readsBody hread hfuel hskip b (Nat.le_of_succ_le h))
  | .last s, h => readsBody_last hread hskip h
  | .stmt s t b, h => by
      rw [Body.tokens, List.length_append, List.length_cons] at h
      have hb := readsBody hread hfuel hskip b (by omega)
      exact readsBody_stmt hread hskip (by omega) (readsBody_sep hskip t hb)

theorem block_body (hread : ReadsStatements fuel) (hskip : Skips skip) (b : Body)
    (rest : List Token) (hfuel : b.tokens.length < fuel) :
    Yields (block skip (stmtFor fuel) (b.tokens ++ .rBrace :: rest)) (b.Fine skip)
      (b.result, rest) := by
  refine (readsBody hread (Nat.zero_lt_of_lt hfuel) hskip b (Nat.le_of_lt hfuel)).loop _ ?_
  rw [List.length_append]
  omega

theorem fine_isNewline (b : Body) :
    b.Fine isNewline ↔ b.Accepted ∧ ¬ b.EndsInPrint ∧ ¬ b.EndsInSemicolon :=
  and_congr_right fun _ => and_congr_right fun _ => forall_prop_of_true rfl

theorem fine_isEnd (b : Body) : b.Fine isEnd ↔ b.Accepted ∧ ¬ b.EndsInPrint :=
  and_congr_right fun _ => and_iff_left fun h => Bool.noConfusion h

/-! ## Statements -/

theorem yields_ok {ε α : Type} {x : Outcome ε α} {p : Prop} {a : α} (hx : x = .ok a) (hp : p) :
    Yields x p a :=
  ⟨fun _ => hx, fun h => absurd hp h⟩

theorem expr_bind {α : Type} (e : Written) {rest : List Token} (hrest : Follows rest)
    (f : Expr × List Token → Outcome ScriptError α) :
    (expr (e.tokens ++ rest) >>= f) = f (e.expr, rest) := by
  rw [expr_written e hrest.stops]
  rfl

theorem written_lBrace (e : Written) (tokens : List Token) :
    expr (e.tokens ++ .lBrace :: tokens) = .ok (e.expr, .lBrace :: tokens) :=
  expr_written e (stops_of_peek (t := .lBrace) rfl (by decide))

theorem length_args (args : List Written) : args.length ≤ (argTokens args).length := by
  induction args with
  | nil => exact Nat.le_refl 0
  | cons e es ih =>
    have hpos : 0 < e.tokens.length := tokens_pos e.layout
    cases es with
    | nil => exact hpos
    | cons e' es =>
      rw [argTokens, List.length_append]
      · simp only [List.length_cons] at ih ⊢
        omega
      · exact nofun

theorem readsStatements (fuel : Nat) : ReadsStatements fuel := by
  induction fuel with
  | zero =>
    intro s rest hs _
    obtain ⟨t, tail, htokens, _⟩ := source_head s
    rw [htokens] at hs
    exact absurd hs (Nat.not_succ_le_zero _)
  | succ fuel ih =>
    intro s rest hs hrest
    cases s with
    | varDecl name e => exact yields_ok (expr_bind e hrest _) ⟨trivial, by simp [Source.isPrint]⟩
    | assign name e => exact yields_ok (expr_bind e hrest _) ⟨trivial, by simp [Source.isPrint]⟩
    | beep e => exact yields_ok (expr_bind e hrest _) ⟨trivial, by simp [Source.isPrint]⟩
    | sleep e => exact yields_ok (expr_bind e hrest _) ⟨trivial, by simp [Source.isPrint]⟩
    | exit => exact yields_ok rfl ⟨trivial, by simp [Source.isPrint]⟩
    | print args =>
      have hfuel : args.length < (argTokens args ++ rest).length + 2 := by
        have hlength := length_args args
        rw [List.length_append]
        omega
      have hargs := printArgs_args args hrest hfuel
      have hprint : Yields (stmtFor (fuel + 1) ((Source.print args).tokens ++ rest))
          (peek rest ≠ .rBrace) ((Source.print args).result, rest) := hargs.andThen rfl
      refine hprint.congr ⟨fun h => ⟨trivial, fun _ => h⟩, fun h => h.2 rfl⟩
    | «if» cond thenBody =>
      have helse : peek rest ≠ .else := by
        rcases hrest with h | h | h | h <;> rw [h] <;> decide
      have htokens : (Source.if cond thenBody).tokens ++ rest =
          .if :: (cond.tokens ++ .lBrace :: (thenBody.tokens ++ .rBrace :: rest)) := by
        simp
      have hthen := block_body ih skips_isNewline thenBody rest (by
        simp only [Source.tokens, List.length_cons, List.length_append] at hs
        omega)
      rw [htokens]
      have hif : Yields (parseIf (stmtFor fuel) (.if :: (cond.tokens ++ .lBrace ::
          (thenBody.tokens ++ .rBrace :: rest)))) (thenBody.Fine isNewline)
            ((Source.if cond thenBody).result, rest) := by
        rw [parseIf, advance, List.tail_cons, written_lBrace]
        exact hthen.andThen (if_neg helse)
      refine Yields.congr hif ?_
      rw [fine_isNewline, Source.Accepted]
      exact (and_iff_left (by simp [Source.isPrint])).symm
    | ifElse cond thenBody elseBody =>
      have htokens : (Source.ifElse cond thenBody elseBody).tokens ++ rest =
          .if :: (cond.tokens ++ .lBrace :: (thenBody.tokens ++ .rBrace ::
            (.else :: .lBrace :: (elseBody.tokens ++ .rBrace :: rest)))) := by
        simp
      simp only [Source.tokens, List.length_cons, List.length_append] at hs
      have hthen := block_body ih skips_isNewline thenBody
        (.else :: .lBrace :: (elseBody.tokens ++ .rBrace :: rest)) (by omega)
      have helse := block_body ih skips_isNewline elseBody rest (by omega)
      rw [htokens]
      have hif : Yields (parseIf (stmtFor fuel) (.if :: (cond.tokens ++ .lBrace ::
          (thenBody.tokens ++ .rBrace ::
            (.else :: .lBrace :: (elseBody.tokens ++ .rBrace :: rest))))))
          (thenBody.Fine isNewline ∧ elseBody.Fine isNewline)
          ((Source.ifElse cond thenBody elseBody).result, rest) := by
        rw [parseIf, advance, List.tail_cons, written_lBrace]
        exact hthen.bind fun _ => helse.andThen rfl
      refine Yields.congr hif ?_
      rw [fine_isNewline, fine_isNewline, Source.Accepted]
      exact (and_iff_left (by simp [Source.isPrint])).symm
    | «while» cond body =>
      have htokens : (Source.while cond body).tokens ++ rest =
          .while :: (cond.tokens ++ .lBrace :: (body.tokens ++ .rBrace :: rest)) := by
        simp
      have hbody := block_body ih skips_isEnd body rest (by
        simp only [Source.tokens, List.length_cons, List.length_append] at hs
        omega)
      rw [htokens]
      have hwhile : Yields (parseWhile (stmtFor fuel) (.while :: (cond.tokens ++ .lBrace ::
          (body.tokens ++ .rBrace :: rest)))) (body.Fine isEnd)
            ((Source.while cond body).result, rest) := by
        rw [parseWhile, advance, List.tail_cons, written_lBrace]
        exact hbody.andThen rfl
      refine Yields.congr hwhile ?_
      rw [fine_isEnd, Source.Accepted]
      exact (and_iff_left (by simp [Source.isPrint])).symm
    | block body =>
      have htokens : (Source.block body).tokens ++ rest =
          .lBrace :: (body.tokens ++ .rBrace :: rest) := by
        simp
      have hbody := block_body ih skips_isNewline body rest (by
        simp only [Source.tokens, List.length_cons, List.length_append] at hs
        omega)
      rw [htokens]
      have hblock : Yields (stmtFor (fuel + 1) (.lBrace :: (body.tokens ++ .rBrace :: rest)))
          (body.Fine isNewline) ((Source.block body).result, rest) := hbody.andThen rfl
      refine hblock.congr ?_
      rw [fine_isNewline, Source.Accepted]
      exact (and_iff_left (by simp [Source.isPrint])).symm

theorem stmt_source {s : Source} {rest : List Token} (hrest : Follows rest) :
    Yields (stmt (s.tokens ++ rest)) (s.Accepted ∧ (s.isPrint → peek rest ≠ .rBrace))
      (s.result, rest) :=
  readsStatements _ s rest (by rw [List.length_append]; omega) hrest

theorem statements_succ (n : Nat) {t : Token} (tokens : List Token) (ht : t ≠ .eof)
    (hnewline : t ≠ .newline) (hsemicolon : t ≠ .semicolon) :
    statements (n + 1) (t :: tokens) = (do
      let (s, rest) ← stmt (t :: tokens)
      let program ← statements n rest
      return s :: program) := by
  rw [statements, if_neg ht, if_neg (not_or_intro hnewline hsemicolon)]

theorem statements_separator (n : Nat) (t : Separator) (tokens : List Token) :
    statements (n + 1) (t.token :: tokens) = statements n tokens := by
  cases t <;> rfl

theorem statements_source {n : Nat} {s : Source} {rest : List Token} {p : Prop} {program : Program}
    (hrest : Follows rest) (hopen : peek rest ≠ .rBrace)
    (h : Yields (statements n rest) p program) :
    Yields (statements (n + 1) (s.tokens ++ rest)) (s.Accepted ∧ p) (s.result :: program) := by
  obtain ⟨t, tail, htokens, hnewline, hsemicolon, heof, _⟩ := source_head s
  have hfirst := stmt_source (s := s) hrest
  rw [htokens, List.cons_append] at hfirst ⊢
  rw [statements_succ n _ heof hnewline hsemicolon]
  have hprogram : Yields (do
      let program ← statements n rest
      return s.result :: program) p (s.result :: program) := h.andThen rfl
  exact (hfirst.bind fun _ => hprogram).congr
    (and_congr_left fun _ => and_iff_left fun _ => hopen)

theorem statements_body : ∀ (b : Body) (n : Nat), b.tokens.length < n →
    Yields (statements n (b.tokens ++ [.eof])) b.Accepted b.result
  | .nil, n, h => by
      obtain ⟨n, rfl⟩ : ∃ k, n = k + 1 := Nat.exists_eq_succ_of_ne_zero (Nat.ne_of_gt h)
      exact yields_ok rfl trivial
  | .sep t b, n, h => by
      obtain ⟨n, rfl⟩ : ∃ k, n = k + 1 :=
        Nat.exists_eq_succ_of_ne_zero (Nat.ne_of_gt (Nat.zero_lt_of_lt h))
      rw [Body.tokens, List.cons_append, statements_separator]
      exact statements_body b n (Nat.lt_of_succ_lt_succ h)
  | .last s, n, h => by
      obtain ⟨t, tail, htokens, _⟩ := source_head s
      rw [Body.tokens, htokens, List.length_cons] at h
      obtain ⟨n, rfl⟩ : ∃ k, n = k + 2 := ⟨n - 2, by omega⟩
      have hend : Yields (statements (n + 1) [.eof]) True [] := yields_ok rfl trivial
      rw [Body.tokens, Body.Accepted]
      have hopen : peek [.eof] ≠ .rBrace := (nofun : Token.eof ≠ .rBrace)
      exact (statements_source (Or.inr (Or.inr (Or.inl rfl))) hopen hend).congr
        (and_iff_left trivial)
  | .stmt s t b, n, h => by
      rw [Body.tokens, List.length_append, List.length_cons] at h
      obtain ⟨_, tail, htokens, _⟩ := source_head s
      rw [htokens, List.length_cons] at h
      obtain ⟨n, rfl⟩ : ∃ k, n = k + 2 := ⟨n - 2, by omega⟩
      have hrest := statements_body b n (by omega)
      rw [← statements_separator n t] at hrest
      have hfollows : Follows (t.token :: (b.tokens ++ [.eof])) := by
        cases t with
        | newline => exact Or.inl rfl
        | semicolon => exact Or.inr (Or.inl rfl)
      have hopen : t.token ≠ .rBrace := by cases t <;> exact nofun
      rw [Body.tokens, List.append_assoc, Body.Accepted]
      exact statements_source hfollows hopen hrest

end Parser

theorem parse_body (b : Body) : Yields (parse (b.tokens ++ [.eof])) b.Accepted b.result :=
  Parser.statements_body b _ (by rw [List.length_append]; exact Nat.lt_succ_self _)

theorem append_eq_iff {α : Type} {a b c d : List α} (hac : a.length ≤ c.length)
    (hbd : b.length ≤ d.length) : a ++ b = c ++ d ↔ a = c ∧ b = d := by
  constructor
  · intro h
    have hlength := congrArg List.length h
    rw [List.length_append, List.length_append] at hlength
    exact List.append_inj h (by omega)
  · rintro ⟨rfl, rfl⟩
    rfl

theorem Source.length_contents (s : Source) : s.result.contents.length ≤ s.flat.length := by
  cases s <;> first | exact Nat.le_refl 1 | exact Nat.zero_le _

theorem Body.length_contents : ∀ b : Body, (contentsAll b.result).length ≤ b.flat.length
  | .nil => Nat.le_refl 0
  | .sep _ b => b.length_contents
  | .last s => by
      rw [Body.result, contentsAll, contentsAll, List.append_nil, Body.flat]
      exact s.length_contents
  | .stmt s _ b => by
      rw [Body.result, contentsAll, Body.flat, List.length_append, List.length_append]
      exact Nat.add_le_add s.length_contents b.length_contents

mutual

theorem Source.contents_iff : ∀ s : Source, s.result.contents = s.flat ↔ s.Kept
  | .varDecl _ _ => iff_of_true rfl trivial
  | .assign _ _ => iff_of_true rfl trivial
  | .print _ => iff_of_true rfl trivial
  | .beep _ => iff_of_true rfl trivial
  | .sleep _ => iff_of_true rfl trivial
  | .exit => iff_of_true rfl trivial
  | .if cond thenBody => by
      rw [Source.result, Stmt.contents, Source.flat, Source.Kept, ← thenBody.contents_iff]
      simp
  | .ifElse cond thenBody elseBody => by
      rw [Source.result, Stmt.contents, Source.flat, Source.Kept, ← thenBody.contents_iff,
        ← elseBody.contents_iff]
      simp
  | .while cond body => by
      rw [Source.result, Stmt.contents, Source.flat, Source.Kept, ← body.contents_iff]
      simp
  | .block body => eq_comm

theorem Body.contents_iff : ∀ b : Body, contentsAll b.result = b.flat ↔ b.Kept
  | .nil => iff_of_true rfl trivial
  | .sep _ b => b.contents_iff
  | .last s => by
      rw [Body.result, contentsAll, contentsAll, List.append_nil, Body.flat, Body.Kept]
      exact s.contents_iff
  | .stmt s _ b => by
      rw [Body.result, contentsAll, Body.flat, Body.Kept, ← s.contents_iff, ← b.contents_iff]
      exact append_eq_iff s.length_contents b.length_contents

end

/-- The parser returns the statements of a program, those of blocks among them, exactly when no
`print` stands right in front of a closing brace, no semicolon stands behind the last statement of
the body of an `if` or of a block, and no block has statements in it. -/
theorem parse_grammar_iff (b : Body) :
    (∃ p, parse (b.tokens ++ [.eof]) = .ok p ∧ contentsAll p = b.flat) ↔ b.Accepted ∧ b.Kept := by
  have hparse := parse_body b
  constructor
  · intro ⟨p, hp, hflat⟩
    by_cases haccepted : b.Accepted
    · have hresult : b.result = p := Outcome.ok.inj ((hparse.ok haccepted).symm.trans hp)
      rw [← hresult] at hflat
      exact ⟨haccepted, b.contents_iff.mp hflat⟩
    · obtain ⟨e, he⟩ := hparse.err haccepted
      exact absurd (he.symm.trans hp) nofun
  · intro ⟨haccepted, hkept⟩
    exact ⟨b.result, hparse.ok haccepted, b.contents_iff.mpr hkept⟩

/-- `{ exit }` is read as an expression. -/
theorem block_dropped : ¬ ∀ b : Body,
    ∃ p, parse (b.tokens ++ [.eof]) = .ok p ∧ contentsAll p = b.flat := by
  intro h
  obtain ⟨p, hp, hcontents⟩ := h (.last (.block (.last .exit)))
  have hread : p = [.expr (.number 0)] := (Outcome.ok.inj hp).symm
  rw [hread] at hcontents
  have hempty : ([] : List Stmt) = [.exit] := hcontents
  cases hempty

end Vibra.Script
