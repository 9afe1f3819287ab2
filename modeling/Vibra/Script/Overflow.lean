import Vibra.Script.Totality

/-! # Scripts that stop the kernel

A script runs on the kernel as it does with exact integers as long as every operation of the exact
run fits the machine.
-/

/-! ## Execution of scripts

The virtual machine works over any carrier. What it asks the kernel is answered by a `World`.
-/

namespace Vibra.Script

open Lib (Carrier)

variable {m : Type → Type} [Carrier m State ScriptError Op Int]

def getVar (name : Text) : m Value := do
  let s ← Carrier.get
  pure ((s.vars name).getD .nil)

def setVar (name : Text) (v : Value) : m Unit := do
  let s ← Carrier.get
  Carrier.set { s with vars := Function.update s.vars name (some v) }

def print (t : Text) : m Unit := do
  let s ← Carrier.get
  Carrier.set { s with console := s.console ++ t }

def println (t : Text) : m Unit := print (t ++ ['\n'])

/-- The answer to the next question. -/
def ask {α : Type} (answers : Nat → α) : m α := do
  let s ← Carrier.get
  Carrier.set { s with asked := s.asked + 1 }
  pure (answers s.asked)

def truth (p : Prop) [Decidable p] : Value := .num (if p then 1 else 0)

/-- The arm of a binary operator in `eval`. -/
def evalBinOp (op : BinOp) (lv rv : Value) : m Value :=
  match op with
  | .add =>
    match lv, rv with
    | .str a, .str b => pure (.str (a ++ b))
    | lv, rv => do
        let n ← Carrier.op (.add lv.toNum rv.toNum)
        pure (.num n)
  | .sub => do
      let n ← Carrier.op (.sub lv.toNum rv.toNum)
      pure (.num n)
  | .mul => do
      let n ← Carrier.op (.mul lv.toNum rv.toNum)
      pure (.num n)
  | .div =>
    if rv.toNum = 0 then pure (.num 0)
    else do
      let n ← Carrier.op (.div lv.toNum rv.toNum)
      pure (.num n)
  | .mod => do
      let n ← Carrier.op (.rem lv.toNum rv.toNum)
      pure (.num n)
  | .eq => pure (truth (lv.toNum = rv.toNum))
  | .ne => pure (truth (lv.toNum ≠ rv.toNum))
  | .lt => pure (truth (lv.toNum < rv.toNum))
  | .gt => pure (truth (lv.toNum > rv.toNum))
  | .le => pure (truth (lv.toNum ≤ rv.toNum))
  | .ge => pure (truth (lv.toNum ≥ rv.toNum))

def evalUnaryOp (op : UnOp) (v : Value) : m Value :=
  match op with
  | .not => pure (truth (v.toNum = 0))
  | .neg => do
      let n ← Carrier.op (.neg v.toNum)
      pure (.num n)

def unknownFunction : Text :=
  ['U', 'n', 'k', 'n', 'o', 'w', 'n', ' ', 'f', 'u', 'n', 'c', 't', 'i', 'o', 'n', ':', ' ']

def callFn (name : Text) (args : List Value) : m Value :=
  if name = ['l', 'e', 'n'] then
    match args.head? with
    | some (.str s) => pure (.num (s.map Char.utf8Size).sum)
    | _ => pure (.num 0)
  else if name = ['a', 'b', 's'] then
    match args.head? with
    | some v => do
        let n ← Carrier.op (.abs v.toNum)
        pure (.num n)
    | none => pure (.num 0)
  else do
    println (unknownFunction ++ name)
    pure .nil

mutual

def eval : Expr → m Value
  | .number n => pure (.num n)
  | .str s => pure (.str s)
  | .var name => getVar name
  | .binOp l op r => do
      let lv ← eval l
      let rv ← eval r
      evalBinOp op lv rv
  | .unaryOp op e => do
      let v ← eval e
      evalUnaryOp op v
  | .call name args => do
      let vals ← evalAll args
      callFn name vals

def evalAll : List Expr → m (List Value)
  | [] => pure []
  | e :: es => do
      let v ← eval e
      let vs ← evalAll es
      pure (v :: vs)

end

/-- The texts of a `print`, with blanks between them. -/
def joined : List Value → Text
  | [] => []
  | [v] => v.toStr
  | v :: vs => v.toStr ++ ' ' :: joined vs

/-- `pc_speaker::beep`: the divisor of the timer, or silence. -/
def tone (frequency : Nat) : Option Nat :=
  if frequency = 0 then none
  else some (max 1 (min 65535 (1193180 / max 20 (min 20000 frequency))))

def beep (frequency : Nat) : m Unit := do
  let s ← Carrier.get
  Carrier.set { s with speaker := tone frequency }

/-- `sleep_task` of the current task. -/
def sleep (w : World) (ticks : Int) : m Unit := do
  match ← ask w.tickCount with
  | some tickCount => do
      let _ ← Carrier.op (.wake tickCount ticks)
      pure ()
  | none => pure ()

def cancelText : Text :=
  ['\n', '[', 'S', 'c', 'r', 'i', 'p', 't', ']', ' ', 'C', 'a', 'n', 'c', 'e', 'l', 'l', 'e', 'd',
    ' ', 'b', 'y', ' ', 'u', 's', 'e', 'r']

def maxIterations : Nat := 10000000

/-- The loop of a `while`, with the turns that are left. -/
def whileLoop (w : World) (cond : m Value) (body : m Unit) : Nat → m Unit
  | 0 => do
      let v ← cond
      if v.toNum = 0 then pure ()
      else if ← ask w.cancelled then println cancelText
      else Carrier.lift (.err .iterationLimit)
  | turns + 1 => do
      let v ← cond
      if v.toNum = 0 then pure ()
      else if ← ask w.cancelled then println cancelText
      else do
        body
        whileLoop w cond body turns

mutual

def exec (w : World) : Stmt → m Unit
  | .varDecl name e => do
      let v ← eval e
      setVar name v
  | .assign name e => do
      let v ← eval e
      setVar name v
  | .print args => do
      let vals ← evalAll args
      println (joined vals)
  | .if cond thenBody elseBody => do
      let v ← eval cond
      if v.toNum ≠ 0 then execAll w thenBody else execAll w elseBody
  | .while cond body => whileLoop w (eval cond) (execAll w body) maxIterations
  | .beep e => do
      let v ← eval e
      beep (v.toNum % 2 ^ 32).toNat
  | .sleep e => do
      let v ← eval e
      sleep w (v.toNum % 2 ^ 64)
  | .exit => pure ()
  | .expr e => do
      let _ ← eval e
      pure ()

def execAll (w : World) : List Stmt → m Unit
  | [] => pure ()
  | s :: ss => do
      exec w s
      execAll w ss

end

def run (w : World) : Program → m Unit
  | [] => pure ()
  | s :: program => do
      if ← ask w.cancelled then
        println (cancelText ++ [' ', '(', 'C', 't', 'r', 'l', '+', 'Z', ')'])
      else do
        exec w s
        run w program

def runScript (w : World) (source : Text) : m Unit := do
  let tokens ← tokenize source
  let program ← Carrier.lift (parse tokens)
  run w program

end Vibra.Script

namespace Vibra.Script

open Lib (Agrees)

abbrev Machine := Lib.Checked State ScriptError Op

abbrev Exact := Lib.Traced State ScriptError Op

theorem agrees_number (num : Int) (cs : List Char) :
    Agrees (number num cs : Machine Int) (number num cs : Exact Int) := by
  induction cs generalizing num with
  | nil => exact .pure num
  | cons c cs ih => exact .bind (.op _) fun tens => .bind (.op _) fun num => ih num

theorem quoted_le (quote : Char) (cs : List Char) : (quoted quote cs).2.length ≤ cs.length := by
  induction cs using quoted.induct quote with
  | case1 => exact le_rfl
  | case2 => rw [quoted, if_pos rfl]; exact Nat.zero_le _
  | case3 c h => rw [quoted, if_neg h]; exact Nat.zero_le _
  | case4 e cs => rw [quoted, if_pos rfl]; exact Nat.le_succ _
  | case5 e cs h ih =>
    rw [quoted, if_neg h, if_pos rfl]
    exact ih.trans (Nat.le_add_right _ 2)
  | case6 c e cs h h' ih =>
    rw [quoted, if_neg h, if_neg h']
    exact ih.trans (Nat.le_succ _)

theorem symbol_le (c : Char) (cs : List Char) : (symbol c cs).2.length ≤ cs.length := by
  unfold symbol
  dsimp only
  split <;> first | exact le_rfl | (split <;> first | exact le_rfl | exact Nat.le_succ _)

theorem dropWhile_lt {p : Char → Bool} {c : Char} (hc : p c = true) (cs : List Char) :
    ((c :: cs).dropWhile p).length ≤ cs.length := by
  rw [List.dropWhile_cons_of_pos hc]
  exact (List.dropWhile_sublist _).length_le

theorem agrees_tokenizeFrom (fuel : Nat) (cs : List Char) (hfuel : cs.length ≤ fuel) :
    Agrees (tokenizeFrom fuel cs : Machine (List Token)) (tokenizeFrom fuel cs) := by
  induction fuel generalizing cs with
  | zero =>
    rw [List.length_eq_zero_iff.mp (Nat.le_zero.mp hfuel)]
    exact .pure _
  | succ fuel ih =>
    cases cs with
    | nil => exact .pure _
    | cons c cs =>
      have hlen : cs.length ≤ fuel := Nat.le_of_succ_le_succ hfuel
      rw [tokenizeFrom, tokenizeFrom]
      split
      case isTrue => exact ih cs hlen
      case isFalse =>
      split
      case isTrue => exact ih _ ((List.dropWhile_sublist _).length_le.trans hlen)
      case isFalse =>
      split
      case isTrue => exact .bind (ih cs hlen) fun _ => .pure _
      case isFalse =>
      split
      case isTrue hdigit =>
          exact .bind (agrees_number 0 _) fun num =>
            .bind (ih _ ((dropWhile_lt hdigit cs).trans hlen)) fun _ => .pure _
      case isFalse =>
      split
      case isTrue hword =>
          have hfirst : isWordChar c = true := by
            rcases hword with h | h
            · rw [isWordChar, Char.isAlphanum, h, Bool.true_or, Bool.true_or]
            · rw [h]
              decide
          exact .bind (ih _ ((dropWhile_lt hfirst cs).trans hlen)) fun _ => .pure _
      case isFalse =>
      split
      case isTrue => exact .bind (ih _ ((quoted_le c cs).trans hlen)) fun _ => .pure _
      case isFalse => exact .bind (ih _ ((symbol_le c cs).trans hlen)) fun _ => .pure _

theorem agrees_tokenize (source : Text) :
    Agrees (tokenize source : Machine (List Token)) (tokenize source) :=
  agrees_tokenizeFrom source.length source le_rfl

theorem agrees_getVar (name : Text) : Agrees (getVar name : Machine Value) (getVar name) :=
  .bind .get fun _ => .pure _

theorem agrees_setVar (name : Text) (v : Value) :
    Agrees (setVar name v : Machine Unit) (setVar name v) :=
  .bind .get fun _ => .set _

theorem agrees_println (t : Text) : Agrees (println t : Machine Unit) (println t) :=
  .bind .get fun _ => .set _

theorem agrees_ask {α : Type} (answers : Nat → α) :
    Agrees (ask answers : Machine α) (ask answers) :=
  .bind .get fun _ => .bind (.set _) fun _ => .pure _

theorem agrees_num (op : Op) :
    Agrees (do let n ← Lib.Carrier.op op; pure (.num n) : Machine Value)
      (do let n ← Lib.Carrier.op op; pure (.num n)) :=
  .bind (.op op) fun _ => .pure _

theorem agrees_evalBinOp (op : BinOp) (lv rv : Value) :
    Agrees (evalBinOp op lv rv : Machine Value) (evalBinOp op lv rv) := by
  cases op with
  | add =>
    unfold evalBinOp
    dsimp only
    split
    · exact .pure _
    · exact agrees_num _
  | div =>
    rw [evalBinOp, evalBinOp]
    split
    · exact .pure _
    · exact agrees_num _
  | sub => exact agrees_num _
  | mul => exact agrees_num _
  | mod => exact agrees_num _
  | eq => exact .pure _
  | ne => exact .pure _
  | lt => exact .pure _
  | gt => exact .pure _
  | le => exact .pure _
  | ge => exact .pure _

theorem agrees_evalUnaryOp (op : UnOp) (v : Value) :
    Agrees (evalUnaryOp op v : Machine Value) (evalUnaryOp op v) := by
  cases op with
  | not => exact .pure _
  | neg => exact agrees_num _

theorem agrees_callFn (name : Text) (args : List Value) :
    Agrees (callFn name args : Machine Value) (callFn name args) := by
  rw [callFn, callFn]
  split
  · split <;> exact .pure _
  · split
    · split
      · exact agrees_num _
      · exact .pure _
    · exact .bind (agrees_println _) fun _ => .pure _

mutual

theorem agrees_eval : ∀ e : Expr, Agrees (eval e : Machine Value) (eval e)
  | .number _ => .pure _
  | .str _ => .pure _
  | .var name => agrees_getVar name
  | .binOp l op r =>
    .bind (agrees_eval l) fun lv => .bind (agrees_eval r) fun rv => agrees_evalBinOp op lv rv
  | .unaryOp op e => .bind (agrees_eval e) fun v => agrees_evalUnaryOp op v
  | .call name args => .bind (agrees_evalAll args) fun vals => agrees_callFn name vals

theorem agrees_evalAll : ∀ es : List Expr, Agrees (evalAll es : Machine (List Value)) (evalAll es)
  | [] => .pure _
  | e :: es => .bind (agrees_eval e) fun _ => .bind (agrees_evalAll es) fun _ => .pure _

end

theorem agrees_sleep (w : World) (ticks : Int) :
    Agrees (sleep w ticks : Machine Unit) (sleep w ticks) :=
  .bind (agrees_ask _) fun tickCount => by
    cases tickCount with
    | none => exact .pure _
    | some tickCount => exact .bind (.op _) fun _ => .pure _

theorem agrees_whileLoop (w : World) {cond : Machine Value} {cond' : Exact Value}
    {body : Machine Unit} {body' : Exact Unit} (hcond : Agrees cond cond')
    (hbody : Agrees body body') (turns : Nat) :
    Agrees (whileLoop w cond body turns) (whileLoop w cond' body' turns) := by
  induction turns with
  | zero =>
    refine .bind hcond fun v => ?_
    split
    · exact .pure _
    · refine .bind (agrees_ask _) fun cancelled => ?_
      split
      · exact agrees_println _
      · exact .lift trivial
  | succ turns ih =>
    refine .bind hcond fun v => ?_
    split
    · exact .pure _
    · refine .bind (agrees_ask _) fun cancelled => ?_
      split
      · exact agrees_println _
      · exact .bind hbody fun _ => ih

mutual

theorem agrees_exec (w : World) : ∀ s : Stmt, Agrees (exec w s : Machine Unit) (exec w s)
  | .varDecl name e => .bind (agrees_eval e) fun v => agrees_setVar name v
  | .assign name e => .bind (agrees_eval e) fun v => agrees_setVar name v
  | .print args => .bind (agrees_evalAll args) fun vals => agrees_println _
  | .if cond thenBody elseBody => .bind (agrees_eval cond) fun v => by
      split
      · exact agrees_execAll w thenBody
      · exact agrees_execAll w elseBody
  | .while cond body =>
    agrees_whileLoop w (agrees_eval cond) (agrees_execAll w body) maxIterations
  | .beep e => .bind (agrees_eval e) fun v => .bind .get fun _ => .set _
  | .sleep e => .bind (agrees_eval e) fun v => agrees_sleep w _
  | .exit => .pure _
  | .expr e => .bind (agrees_eval e) fun _ => .pure _

theorem agrees_execAll (w : World) :
    ∀ ss : List Stmt, Agrees (execAll w ss : Machine Unit) (execAll w ss)
  | [] => .pure _
  | s :: ss => .bind (agrees_exec w s) fun _ => agrees_execAll w ss

end

theorem agrees_run (w : World) (program : Program) :
    Agrees (run w program : Machine Unit) (run w program) := by
  induction program with
  | nil => exact .pure _
  | cons s program ih =>
    refine .bind (agrees_ask _) fun cancelled => ?_
    split
    · exact agrees_println _
    · exact .bind (agrees_exec w s) fun _ => ih

theorem agrees_runScript (w : World) (source : Text) :
    Agrees (runScript w source : Machine Unit) (runScript w source) :=
  .bind (agrees_tokenize source) fun tokens =>
    .bind (.lift (parse_safe tokens)) fun program => agrees_run w program

def operations (w : World) (source : Text) (s : State) : List Op :=
  ((runScript w source : Exact Unit) s).2

def State.new : State := ⟨fun _ => none, [], none, 0⟩

/-- A script returns from the kernel just when every operation of its exact run fits. -/
theorem runScript_safe_iff (w : World) (source : Text) (s : State) :
    ((runScript w source : Machine Unit) s).Safe ↔ ∀ op ∈ operations w source s, op.Fits :=
  (agrees_runScript w source).safe_iff s

/-- The script `1 % 0`. -/
theorem remainder_panics :
    ¬ ((runScript ⟨fun _ => false, fun _ => none⟩ ['1', '%', '0'] : Machine Unit) .new).Safe := by
  intro h
  exact h

end Vibra.Script
