import Vibra.Lib.Exact

/-! # Tokens of a script

The lexer works over any carrier, since the numbers of a source are computed by checked operations.
-/

/-! ## Numbers of a script

Numbers of a script are `i64`, and the kernel is built with overflow checks.
-/

namespace Vibra.Script

open Lib (Operation)

abbrev Text := List Char

def i64Min : Int := -2 ^ 63

def i64Max : Int := 2 ^ 63 - 1

/-- The checked operations. `wake` is the sum of the scheduler's tick count and the ticks of a
`sleep`, both `u64`. -/
inductive Op where
  | add (a b : Int)
  | sub (a b : Int)
  | mul (a b : Int)
  | div (a b : Int)
  | rem (a b : Int)
  | neg (a : Int)
  | abs (a : Int)
  | wake (tickCount ticks : Int)

namespace Op

/-- The result as an integer. -/
def value : Op → Int
  | add a b => a + b
  | sub a b => a - b
  | mul a b => a * b
  | div a b => a.tdiv b
  | rem a b => a.tmod b
  | neg a => -a
  | abs a => a.natAbs
  | wake tickCount ticks => tickCount + ticks

/-- A quotient and a remainder also need a divisor. The remainder of the least number by -1 is
zero, and yet the processor cannot compute it. -/
def Fits : Op → Prop
  | div a b => b ≠ 0 ∧ ¬ (a = i64Min ∧ b = -1)
  | rem a b => b ≠ 0 ∧ ¬ (a = i64Min ∧ b = -1)
  | wake tickCount ticks => tickCount + ticks < 2 ^ 64
  | op => i64Min ≤ op.value ∧ op.value ≤ i64Max

/-- A result that is no `i64` is a panic. -/
def ranged (a : Int) : Option Int := if i64Min ≤ a ∧ a ≤ i64Max then some a else none

def machine : Op → Option Int
  | add a b => ranged (a + b)
  | sub a b => ranged (a - b)
  | mul a b => ranged (a * b)
  | div a b => if b = 0 then none else if a = i64Min ∧ b = -1 then none else some (a.tdiv b)
  | rem a b => if b = 0 then none else if a = i64Min ∧ b = -1 then none else some (a.tmod b)
  | neg a => ranged (-a)
  | abs a => ranged a.natAbs
  | wake tickCount ticks => if tickCount + ticks < 2 ^ 64 then some (tickCount + ticks) else none

theorem ranged_of {a : Int} (h : i64Min ≤ a ∧ a ≤ i64Max) : ranged a = some a := if_pos h

theorem machine_of_fits : ∀ op, Fits op → machine op = some (value op)
  | add _ _, h => ranged_of h
  | sub _ _, h => ranged_of h
  | mul _ _, h => ranged_of h
  | neg _, h => ranged_of h
  | abs _, h => ranged_of h
  | div _ _, h => (if_neg h.1).trans (if_neg h.2)
  | rem _ _, h => (if_neg h.1).trans (if_neg h.2)
  | wake _ _, h => if_pos h

theorem divisor {a b : Int} {x : Option Int} (h : ¬ (b ≠ 0 ∧ ¬ (a = i64Min ∧ b = -1))) :
    (if b = 0 then none else if a = i64Min ∧ b = -1 then none else x) = none := by
  by_cases hb : b = 0
  · rw [if_pos hb]
  · rw [if_neg hb, if_pos (Classical.byContradiction fun hmin => h ⟨hb, hmin⟩)]

theorem machine_of_not : ∀ op, ¬ Fits op → machine op = none
  | add _ _, h => if_neg h
  | sub _ _, h => if_neg h
  | mul _ _, h => if_neg h
  | neg _, h => if_neg h
  | abs _, h => if_neg h
  | div _ _, h => divisor h
  | rem _ _, h => divisor h
  | wake _ _, h => if_neg h

instance : Operation Op Int := ⟨value, Fits, machine, machine_of_fits, machine_of_not⟩

instance : DecidablePred Fits := fun op => by
  cases op <;> unfold Fits <;> infer_instance

end Op

inductive Value where
  | num (n : Int)
  | str (s : Text)
  | nil

/-- The number that the digits denote. -/
def decimal (s : Text) : Option Int :=
  if s ≠ [] ∧ s.all Char.isDigit then
    some (s.foldl (fun n c => n * 10 + (c.toNat - '0'.toNat : Nat)) 0)
  else none

/-- `str::parse::<i64>` -/
def parseI64 (s : Text) : Option Int :=
  match s with
  | '+' :: ds => (decimal ds).bind Op.ranged
  | '-' :: ds => (decimal ds).bind fun n => Op.ranged (-n)
  | ds => (decimal ds).bind Op.ranged

namespace Value

def toNum : Value → Int
  | num n => n
  | str s => (parseI64 s).getD 0
  | nil => 0

def toStr : Value → Text
  | num n => if n < 0 then '-' :: Nat.toDigits 10 n.natAbs else Nat.toDigits 10 n.natAbs
  | str s => s
  | nil => ['n', 'u', 'l', 'l']

end Value

end Vibra.Script

namespace Vibra.Script

open Lib (Carrier)

inductive Token where
  | number (n : Int)
  | str (s : Text)
  | ident (name : Text)
  | var
  | «if»
  | «else»
  | «while»
  | fn
  | «return»
  | exit
  | print
  | beep
  | sleep
  | exec
  | «let»
  | plus
  | minus
  | star
  | slash
  | percent
  | eq
  | ne
  | lt
  | gt
  | le
  | ge
  | assign
  | not
  | lParen
  | rParen
  | lBrace
  | rBrace
  | semicolon
  | comma
  | colon
  | newline
  | eof
deriving DecidableEq

/-- The texts that parsing and execution return as errors. -/
inductive ScriptError where
  | expected (want got : Token)
  | expectedName (got : Token)
  | unexpected (got : Token)
  | iterationLimit

/-- Questions that a script asks the kernel: whether it is cancelled, and the tick count of the
scheduler when that runs the current task. The answers come in any order. -/
structure World where
  cancelled : Nat → Bool
  tickCount : Nat → Option Nat

/-- The variables, what has been printed, the divisor of the tone, and how many questions have
been asked. -/
structure State where
  vars : Text → Option Value
  console : Text
  speaker : Option Nat
  asked : Nat

variable {m : Type → Type} [Carrier m State ScriptError Op Int]

/-- The loop of a number over its digits. -/
def number : Int → List Char → m Int
  | num, [] => pure num
  | num, c :: cs => do
      let tens ← Carrier.op (.mul num 10)
      let num ← Carrier.op (.add tens (c.toNat - '0'.toNat : Nat))
      number num cs

def isWordChar (c : Char) : Bool := c.isAlphanum || c == '_'

def keyword (ident : Text) : Token :=
  if ident ∈ [['v', 'a', 'r'], ['l', 'e', 't']] then .var
  else if ident = ['i', 'f'] then .if
  else if ident = ['e', 'l', 's', 'e'] then .else
  else if ident = ['w', 'h', 'i', 'l', 'e'] then .while
  else if ident = ['f', 'n'] then .fn
  else if ident ∈ [['r', 'e', 't', 'u', 'r', 'n'], ['r', 'e', 't']] then .return
  else if ident ∈ [['e', 'x', 'i', 't'], ['q', 'u', 'i', 't']] then .exit
  else if ident ∈ [['p', 'r', 'i', 'n', 't'], ['e', 'c', 'h', 'o']] then .print
  else if ident ∈ [['b', 'e', 'e', 'p'], ['s', 'o', 'u', 'n', 'd']] then .beep
  else if ident ∈ [['s', 'l', 'e', 'e', 'p'], ['w', 'a', 'i', 't']] then .sleep
  else if ident ∈ [['e', 'x', 'e', 'c'], ['r', 'u', 'n']] then .exec
  else if ident = ['l', 'e', 't'] then .let
  else if ident = ['t', 'r', 'u', 'e'] then .number 1
  else if ident = ['f', 'a', 'l', 's', 'e'] then .number 0
  else if ident ∈ [['n', 'u', 'l', 'l'], ['n', 'i', 'l']] then .number 0
  else .ident ident

/-- What an escaped character stands for. -/
def escape (c : Char) : Text :=
  match c with
  | 'n' => ['\n']
  | 't' => ['\t']
  | '\x5c' => ['\x5c']
  | '\x22' => ['\x22']
  | '\x27' => ['\x27']
  | c => ['\x5c', c]

/-- The loop of a string, and what is behind the closing quote. -/
def quoted (quote : Char) : List Char → Text × List Char
  | [] => ([], [])
  | [c] => if c = quote then ([], []) else ([c], [])
  | c :: e :: cs =>
    if c = quote then ([], e :: cs)
    else if c = '\x5c' then (escape e ++ (quoted quote cs).1, (quoted quote cs).2)
    else (c :: (quoted quote (e :: cs)).1, (quoted quote (e :: cs)).2)

/-- An operator or a delimiter, and what is behind it. Any other character is skipped. -/
def symbol (c : Char) (cs : List Char) : Option Token × List Char :=
  let orEqual (long short : Token) : Option Token × List Char :=
    match cs with
    | '=' :: rest => (some long, rest)
    | _ => (some short, cs)
  match c with
  | '+' => (some .plus, cs)
  | '-' => (some .minus, cs)
  | '*' => (some .star, cs)
  | '/' => (some .slash, cs)
  | '%' => (some .percent, cs)
  | '(' => (some .lParen, cs)
  | ')' => (some .rParen, cs)
  | '\x7b' => (some .lBrace, cs)
  | '\x7d' => (some .rBrace, cs)
  | ';' => (some .semicolon, cs)
  | ',' => (some .comma, cs)
  | ':' => (some .colon, cs)
  | '!' => orEqual .ne .not
  | '=' => orEqual .eq .assign
  | '<' => orEqual .le .lt
  | '>' => orEqual .ge .gt
  | _ => (none, cs)

/-- The loop of `tokenize`. -/
def tokenizeFrom : Nat → List Char → m (List Token)
  | _, [] => pure [.eof]
  | 0, _ :: _ => Carrier.lift .diverge
  | fuel + 1, c :: cs =>
    if c = ' ' ∨ c = '\t' ∨ c = '\r' then tokenizeFrom fuel cs
    else if c = '#' then tokenizeFrom fuel (cs.dropWhile (· ≠ '\n'))
    else if c = '\n' then do
      let tokens ← tokenizeFrom fuel cs
      pure (.newline :: tokens)
    else if c.isDigit then do
      let num ← number 0 ((c :: cs).takeWhile Char.isDigit)
      let tokens ← tokenizeFrom fuel ((c :: cs).dropWhile Char.isDigit)
      pure (.number num :: tokens)
    else if c.isAlpha ∨ c = '_' then do
      let tokens ← tokenizeFrom fuel ((c :: cs).dropWhile isWordChar)
      pure (keyword ((c :: cs).takeWhile isWordChar) :: tokens)
    else if c = '\x22' ∨ c = '\x27' then do
      let tokens ← tokenizeFrom fuel (quoted c cs).2
      pure (.str (quoted c cs).1 :: tokens)
    else do
      let tokens ← tokenizeFrom fuel (symbol c cs).2
      pure ((symbol c cs).1.toList ++ tokens)

def tokenize (source : Text) : m (List Token) := tokenizeFrom source.length source

end Vibra.Script
