import Logo.Operations

/-! Evaluation of expressions and execution of statements. The fuel bounds the depth of nested evaluations and the
number of turns of one loop; running out of it is told apart from every fault of a program. -/
namespace Logo

inductive Flow where
  | normal
  | output (value : Value)
  | stop

namespace Eval

def block (exec : Stmt → Eval Flow) : List Stmt → Eval Flow
  | [] => return .normal
  | s :: rest => do
    match ← exec s with
    | .normal => block exec rest
    | flow => return flow

def repeatFrom (body : Eval Flow) : (left i : Nat) → Eval Flow
  | 0, _ => return .normal
  | left + 1, i => do
    modifyWorkspace (·.setCount i)
    match ← body with
    | .normal => repeatFrom body left (i + 1)
    | flow => return flow

def repeatTimes (count : Nat) (body : Eval Flow) : Eval Flow :=
  within Workspace.startCount Workspace.endCount (repeatFrom body count 1)

def whileTrue (cond : Eval Bool) (body : Eval Flow) : (fuel : Nat) → Eval Flow
  | 0 => throw .outOfFuel
  | fuel + 1 => do
    if ← cond then
      match ← body with
      | .normal => whileTrue cond body fuel
      | flow => return flow
    else return .normal

def inRange (stop step i : Float) : Bool := (step > 0 && i ≤ stop) || (step < 0 && i ≥ stop)

/-- The turns from the value `i` on. What the body does to the variable does not change them. -/
def forFrom (var : String) (stop step : Float) (body : Eval Flow) : (fuel : Nat) → Float → Eval Flow
  | 0, _ => throw .outOfFuel
  | fuel + 1, i => do
    if inRange stop step i then
      modifyWorkspace (·.set var (.number i))
      match ← body with
      | .normal => forFrom var stop step body fuel (i + step)
      | flow => return flow
    else return .normal

/-- Runs a body in a new frame for the inputs of a procedure. Its value is what it outputs, or 0. -/
def framed (p : Procedure) (args : List Value) (body : Eval Flow) : Eval Value := do
  match ← within (·.enter (p.params.zip args)) Workspace.leave body with
  | .output v => return v
  | _ => return .number 0

def invoke (exec : Stmt → Eval Flow) (p : Procedure) (args : List Value) : Eval Value :=
  framed p args (block exec p.body)

/-- Looks a procedure up before its inputs are evaluated, and has it run on them. -/
def call (eval : Expr → Eval Value) (run : Procedure → List Value → Eval Value) (name : String) (args : List Expr)
    (unknown : Cause) : Eval Value := do
  match (← get).workspace.procedure? name with
  | none => raise unknown
  | some p =>
    if args.length ≠ p.arity then raise (.arity p.name p.arity args.length)
    else run p (← args.mapM eval)

def expectArity (p : Procedure) (supplied : Nat) : Eval Unit :=
  if p.arity = supplied then pure () else raise (.arity p.name p.arity supplied)

def keep (test : Value → Eval Bool) : List Value → Eval (List Value)
  | [] => return []
  | v :: rest => do
    let kept ← test v
    let others ← keep test rest
    return if kept then v :: others else others

def traverse (run : Procedure → List Value → Eval Value) (t : Traversal) (name : String) (list : Value) :
    Eval Value := do
  match (← get).workspace.procedure? name with
  | none => raise (.undefinedProcedure name)
  | some p =>
    let items ← ofExcept (list.toList t.name)
    match t with
    | .map =>
      expectArity p 1
      return .list (← items.mapM fun v => run p [v])
    | .filter =>
      expectArity p 1
      return .list (← keep (fun v => do ofExcept ((← run p [v]).toBool t.name)) items)
    | .reduce =>
      expectArity p 2
      match items with
      | [] => raise (.emptyList t.name)
      | v :: rest => rest.foldlM (fun acc item => run p [acc, item]) v
    | .apply =>
      expectArity p items.length
      run p items

def number (eval : Expr → Eval Value) (operation : String) (e : Expr) : Eval Float := do
  let v ← eval e
  locate e.span (ofExcept (v.toNumber operation))

def truth (eval : Expr → Eval Value) (operation : String) (e : Expr) : Eval Bool := do
  let v ← eval e
  locate e.span (ofExcept (v.toBool operation))

def command (eval : Expr → Eval Value) (c : Command) (args : List Expr) : Eval Unit := do
  if args.length ≠ c.arity then raise (.arity c.name c.arity args.length)
  else
    let values ← args.mapM eval
    match c.numbers (values.zip (args.map Expr.span)) with
    | .ok numbers => modify fun m => { m with turtle := c.act numbers m.turtle }
    | .error f => throw (.fault f)

def declare (name : String) : Eval Unit := do
  let workspace ← ofExcept ((← get).workspace.declare name)
  modifyWorkspace fun _ => workspace

def defaultStep (start stop : Float) : Float := if start ≤ stop then 1 else -1

def exprWith (eval : Expr → Eval Value) (run : Procedure → List Value → Eval Value) (e : Expr) : Eval Value :=
  locate e.span do
    match e with
    | .number _ value => return .number value
    | .list _ items => return .list (← items.mapM eval)
    | .thing _ name =>
      match (← get).workspace.get? name with
      | some v => return v
      | none => raise (.undefinedVariable name)
    | .binary _ .and left right =>
      if ← truth eval "AND" left then return .ofBool (← truth eval "AND" right)
      else return .ofBool false
    | .binary _ .or left right =>
      if ← truth eval "OR" left then return .ofBool true
      else return .ofBool (← truth eval "OR" right)
    | .binary _ op left right =>
      let a ← eval left
      let b ← eval right
      ofExcept (op.apply a b)
    | .unary _ op operand =>
      match op with
      | .neg => return .number (-(← number eval op.sign operand))
      | .plus => return .number (← number eval op.sign operand)
      | .not => return .ofBool !(← truth eval op.sign operand)
    | .operation _ op args => op.apply (← args.mapM eval)
    | .traverse _ t procedure list => traverse run t procedure (← eval list)
    | .query _ q => ofExcept (q.answer (← get))
    | .call _ name args => call eval run name args (.undefinedProcedure name)

/-- A statement, its parts evaluated by `eval` and executed by `exec`, and a procedure it calls by `run`; `turns`
bounds `WHILE` and `FOR`. -/
def stmtWith (eval : Expr → Eval Value) (exec : Stmt → Eval Flow) (run : Procedure → List Value → Eval Value)
    (turns : Nat) (s : Stmt) : Eval Flow :=
  locate s.span do
    match s with
    | .command _ c args =>
      command eval c args
      return .normal
    | .call _ name args =>
      discard (call eval run name args (.unknownCommand name))
      return .normal
    | .expression e =>
      discard (eval e)
      return .normal
    | .loop _ count body =>
      let times ← number eval "REPEAT" count
      repeatTimes (Number.clampNat (Nat.pow 2 64 - 1) times) (block exec body)
    | .ifThen _ cond body =>
      if ← truth eval "IF" cond then block exec body else return .normal
    | .ifElse _ cond yes no =>
      if ← truth eval "IFELSE" cond then block exec yes else block exec no
    | .whileTrue _ cond body => whileTrue (truth eval "WHILE" cond) (block exec body) turns
    | .forEach _ var low high step? body =>
      let start ← number eval "FOR" low
      let stop ← number eval "FOR" high
      let step ← match step? with
        | some e => number eval "FOR" e
        | none => pure (defaultStep start stop)
      if step == 0 then raise .zeroStep
      else forFrom var stop step (block exec body) turns start
    | .define _ name params body =>
      modifyWorkspace (·.define ⟨name, params, body⟩)
      return .normal
    | .make _ name value =>
      let v ← eval value
      modifyWorkspace (·.set name v)
      return .normal
    | .output _ value => return .output (← eval value)
    | .stop _ => return .stop
    | .print _ value =>
      let v ← eval value
      modify fun m => { m with printed := m.printed.push v }
      return .normal
    | .declare _ names =>
      names.forM declare
      return .normal

mutual

def expr : (fuel : Nat) → Expr → Eval Value
  | 0, _ => throw .outOfFuel
  | n + 1, e => exprWith (expr n) (invoke (stmt n)) e

def stmt : (fuel : Nat) → Stmt → Eval Flow
  | 0, _ => throw .outOfFuel
  | n + 1, s => stmtWith (expr n) (stmt n) (invoke (stmt n)) n s

end

/-- Runs a program. It gives the value of its last statement if that is an expression; `OUTPUT` and `STOP` outside
a procedure end it. -/
def program (fuel : Nat) : Program → Option Value → Eval (Option Value)
  | [], last? => return last?
  | .expression e :: rest, _ => do program fuel rest (some (← expr fuel e))
  | s :: rest, _ => do
    match ← stmt fuel s with
    | .normal => program fuel rest none
    | _ => return none

end Eval
end Logo
