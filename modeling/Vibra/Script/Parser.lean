import Vibra.Script.Lexer

/-! # The parser of scripts

A parser takes the tokens that are left. Behind the last token it sees `Eof`. Each loop has as
much fuel as there are tokens.
-/

namespace Vibra.Script

open Lib (Outcome)

inductive BinOp where
  | add
  | sub
  | mul
  | div
  | mod
  | eq
  | ne
  | lt
  | gt
  | le
  | ge

inductive UnOp where
  | not
  | neg

inductive Expr where
  | number (n : Int)
  | str (s : Text)
  | var (name : Text)
  | binOp (l : Expr) (op : BinOp) (r : Expr)
  | unaryOp (op : UnOp) (e : Expr)
  | call (name : Text) (args : List Expr)

inductive Stmt where
  | varDecl (name : Text) (e : Expr)
  | assign (name : Text) (e : Expr)
  | print (args : List Expr)
  | «if» (cond : Expr) (thenBody elseBody : List Stmt)
  | «while» (cond : Expr) (body : List Stmt)
  | beep (e : Expr)
  | sleep (e : Expr)
  | exit
  | expr (e : Expr)

abbrev Program := List Stmt

abbrev Parser (α : Type) := List Token → Outcome ScriptError (α × List Token)

namespace Parser

def peek (tokens : List Token) : Token := tokens.headD .eof

/-- `advance`: the place goes on behind the last token too. -/
def advance (tokens : List Token) : List Token := tokens.tail

def expect (t : Token) : Parser Unit := fun tokens =>
  if peek tokens = t then .ok ((), advance tokens) else .err (.expected t (peek tokens))

/-- The loop of `expr`, `term` and `factor`: operators of one level, from the left. -/
def operators (level : Token → Option BinOp) (operand : Parser Expr) : Nat → Expr → Parser Expr
  | 0, _ => fun _ => .diverge
  | fuel + 1, left => fun tokens =>
    match level (peek tokens) with
    | some op => do
        let (right, tokens) ← operand (advance tokens)
        operators level operand fuel (.binOp left op right) tokens
    | none => .ok (left, tokens)

def chain (level : Token → Option BinOp) (operand : Parser Expr) : Parser Expr := fun tokens => do
  let (left, rest) ← operand tokens
  operators level operand (rest.length + 1) left rest

def sumLevel : Token → Option BinOp
  | .plus => some .add
  | .minus => some .sub
  | _ => none

def productLevel : Token → Option BinOp
  | .star => some .mul
  | .slash => some .div
  | .percent => some .mod
  | _ => none

def comparisonLevel : Token → Option BinOp
  | .eq => some .eq
  | .ne => some .ne
  | .lt => some .lt
  | .gt => some .gt
  | .le => some .le
  | .ge => some .ge
  | _ => none

/-- `inner` reads the expression between parentheses. -/
def atom (inner : Parser Expr) : Parser Expr := fun tokens =>
  match peek tokens with
  | .number n => .ok (.number n, advance tokens)
  | .str s => .ok (.str s, advance tokens)
  | .ident name => .ok (.var name, advance tokens)
  | .lParen => do
      let (e, tokens) ← inner (advance tokens)
      let ((), tokens) ← expect .rParen tokens
      return (e, tokens)
  | t => .err (.unexpected t)

def unary (inner : Parser Expr) : Parser Expr := fun tokens =>
  match peek tokens with
  | .minus => do
      let (e, tokens) ← atom inner (advance tokens)
      return (.unaryOp .neg e, tokens)
  | .not => do
      let (e, tokens) ← atom inner (advance tokens)
      return (.unaryOp .not e, tokens)
  | _ => atom inner tokens

def factor (inner : Parser Expr) : Parser Expr := chain comparisonLevel (unary inner)

def term (inner : Parser Expr) : Parser Expr := chain productLevel (factor inner)

/-- `expr` with fuel for parentheses inside each other. -/
def exprFor : Nat → Parser Expr
  | 0 => fun _ => .diverge
  | fuel + 1 => chain sumLevel (term (exprFor fuel))

def expr : Parser Expr := fun tokens => exprFor (tokens.length + 1) tokens

/-- `Semicolon` and `Newline` are passed over. -/
def skipEnds (tokens : List Token) : List Token :=
  tokens.dropWhile fun t => t = .semicolon ∨ t = .newline

/-- The loop of a `print`. -/
def printArgs : Nat → Parser (List Expr)
  | 0 => fun _ => .diverge
  | fuel + 1 => fun tokens =>
    if peek tokens = .newline ∨ peek tokens = .eof ∨ peek tokens = .semicolon then
      .ok ([], tokens)
    else do
      let (e, tokens) ← expr tokens
      let tokens := if peek tokens = .comma then advance tokens else tokens
      let (es, tokens) ← printArgs fuel tokens
      return (e :: es, tokens)

/-- The loop of a body up to its closing brace. `stmt` reads a statement of it, `skip` says
which tokens are passed over between them. -/
def body (skip : Token → Bool) (stmt : Parser Stmt) : Nat → Parser (List Stmt)
  | 0 => fun _ => .diverge
  | fuel + 1 => fun tokens =>
    if peek tokens = .rBrace ∨ peek tokens = .eof then .ok ([], advance tokens)
    else if skip (peek tokens) then body skip stmt fuel (advance tokens)
    else do
      let (s, tokens) ← stmt tokens
      let (ss, tokens) ← body skip stmt fuel tokens
      return (s :: ss, tokens)

def block (skip : Token → Bool) (stmt : Parser Stmt) : Parser (List Stmt) := fun tokens =>
  body skip stmt (tokens.length + 1) tokens

def isNewline (t : Token) : Bool := t == .newline

def isEnd (t : Token) : Bool := t == .newline || t == .semicolon

def parseIf (stmt : Parser Stmt) : Parser Stmt := fun tokens => do
  let (cond, tokens) ← expr (advance tokens)
  let ((), tokens) ← expect .lBrace tokens
  let (thenBody, tokens) ← block isNewline stmt tokens
  if peek tokens = .else then
    let ((), tokens) ← expect .lBrace (advance tokens)
    let (elseBody, tokens) ← block isNewline stmt tokens
    return (.if cond thenBody elseBody, tokens)
  else return (.if cond thenBody [], tokens)

def parseWhile (stmt : Parser Stmt) : Parser Stmt := fun tokens => do
  let (cond, tokens) ← expr (advance tokens)
  let ((), tokens) ← expect .lBrace tokens
  let (loopBody, tokens) ← block isEnd stmt tokens
  return (.while cond loopBody, tokens)

/-- `stmt` with fuel for statements inside each other. A block alone is read and dropped. -/
def stmtFor : Nat → Parser Stmt
  | 0 => fun _ => .diverge
  | fuel + 1 => fun tokens =>
    let tokens := skipEnds tokens
    match peek tokens with
    | .var =>
      match peek (advance tokens) with
      | .ident name => do
          let ((), tokens) ← expect .assign (advance (advance tokens))
          let (e, tokens) ← expr tokens
          return (.varDecl name e, tokens)
      | t => .err (.expectedName t)
    | .if => parseIf (stmtFor fuel) tokens
    | .while => parseWhile (stmtFor fuel) tokens
    | .print => do
        let (args, tokens) ← printArgs (tokens.length + 1) (advance tokens)
        return (.print args, tokens)
    | .beep => do
        let (e, tokens) ← expr (advance tokens)
        return (.beep e, tokens)
    | .sleep => do
        let (e, tokens) ← expr (advance tokens)
        return (.sleep e, tokens)
    | .exit => .ok (.exit, advance tokens)
    | .lBrace => do
        let (_, tokens) ← block isNewline (stmtFor fuel) (advance tokens)
        return (.expr (.number 0), tokens)
    | .ident name =>
      if peek (advance tokens) = .assign then do
        let (e, tokens) ← expr (advance (advance tokens))
        return (.assign name e, tokens)
      else .ok (.expr (.var name), advance tokens)
    | .newline => stmtFor fuel (advance tokens)
    | _ => do
        let (e, tokens) ← expr tokens
        return (.expr e, tokens)

def stmt : Parser Stmt := fun tokens => stmtFor (tokens.length + 1) tokens

/-- The loop of `parse`. -/
def statements : Nat → List Token → Outcome ScriptError Program
  | _, [] => .ok []
  | 0, _ :: _ => .diverge
  | fuel + 1, t :: tokens =>
    if t = .eof then .ok []
    else if t = .newline ∨ t = .semicolon then statements fuel tokens
    else do
      let (s, rest) ← stmt (t :: tokens)
      let program ← statements fuel rest
      return s :: program

end Parser

def parse (tokens : List Token) : Outcome ScriptError Program :=
  Parser.statements tokens.length tokens

end Vibra.Script
