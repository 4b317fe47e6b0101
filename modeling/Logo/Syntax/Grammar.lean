import Logo.Syntax
import Logo.Syntax.Arity
import Logo.Syntax.Reader

/-! The grammar. Operators bind, from loose to tight: `OR`, `AND`, `NOT`, one comparison, `+ -`, `* / MOD`, signs.
Inputs have no delimiters, so a call takes as many as its procedure is known to have; a call of an unknown
procedure takes all that follow. -/
namespace Logo.Grammar
open Parse

def endsInputs (t : Token) : Bool :=
  match t.kind with
  | .finish | .mark .rightBracket | .mark .rightParen => true
  | .word => isKeyword t.text || ((Command.ofWord? t.text).isSome && (Query.ofWord? t.text).isNone)
  | _ => false

def isInfix (t : Token) : Bool :=
  match t.kind with
  | .mark m =>
    match m with
    | .star | .slash | .equal | .notEqual | .less | .lessEqual | .greater | .greaterEqual => true
    | _ => false
  | .word => ["MOD", "AND", "OR"].contains (fold t.text)
  | _ => false

def comparison? (t : Token) : Option BinaryOp :=
  match t.kind with
  | .mark .equal => some .eq
  | .mark .notEqual => some .ne
  | .mark .less => some .lt
  | .mark .lessEqual => some .le
  | .mark .greater => some .gt
  | .mark .greaterEqual => some .ge
  | _ => none

def arithmetic? (t : Token) : Option (BinaryOp × Nat) :=
  match t.kind with
  | .mark .plus => some (.add, 1)
  | .mark .minus => some (.sub, 1)
  | .mark .star => some (.mul, 2)
  | .mark .slash => some (.div, 2)
  | _ => if t.isNamed "MOD" then some (.mod, 2) else none

def sign? (t : Token) : Option UnaryOp :=
  match t.kind with
  | .mark .minus => some .neg
  | .mark .plus => some .plus
  | _ => none

def input (expr : Parse Expr) (owner : String) : Parse Expr := do
  if endsInputs (← peek) then fail ("input to " ++ owner) else expr

/-- The inputs of a call: up to the known number, or all that are there. -/
def arguments (expr : Parse Expr) : Nat → Option Nat → Parse (List Expr)
  | 0, _ => throw .outOfFuel
  | fuel + 1, count? => do
    let t ← peek
    let wanted := match count? with
      | some count => 0 < count
      | none => !isInfix t
    if wanted && !endsInputs t then
      return (← expr) :: (← arguments expr fuel (count?.map (· - 1)))
    else return []

def chainTail (word : String) (op : BinaryOp) (operand : Parse Expr) : Nat → Expr → Parse Expr
  | 0, _ => throw .outOfFuel
  | fuel + 1, left => do
    if (← peek).isNamed word then
      discard advance
      chainTail word op operand fuel (left.join op (← operand))
    else return left

def chain (word : String) (op : BinaryOp) (operand : Parse Expr) (fuel : Nat) : Parse Expr := do
  chainTail word op operand fuel (← operand)

/-- One operand, or two with a comparison between. Comparisons do not chain. -/
def comparison (operand : Parse Expr) : Parse Expr := do
  let left ← operand
  match comparison? (← peek) with
  | some op =>
    discard advance
    return left.join op (← operand)
  | none => return left

/-- Further operands behind `left` whose operators bind at least as strongly as `least`. The operand behind an
operator holds only stronger ones. -/
def climbTail (operand : Nat → Parse Expr) (least : Nat) : Nat → Expr → Parse Expr
  | 0, _ => throw .outOfFuel
  | fuel + 1, left => do
    match arithmetic? (← peek) with
    | some (op, strength) =>
      if strength < least then return left
      else
        discard advance
        climbTail operand least fuel (left.join op (← operand (strength + 1)))
    | none => return left

def wordExpr (expr : Parse Expr) (fuel : Nat) (t : Token) : Parse Expr := do
  if let some operation := Operation.ofWord? t.text then
    discard advance
    let args ← (input expr operation.name).times operation.arity
    return .operation (← spanFrom t.span) operation args
  else if let some traversal := Traversal.ofWord? t.text then
    discard advance
    skipMark .quote
    let procedure ← expectWord "procedure name"
    let list ← input expr traversal.name
    return .traverse (← spanFrom t.span) traversal procedure list
  else if let some query := Query.ofWord? t.text then
    discard advance
    return .query t.span query
  else if isKeyword t.text || (Command.ofWord? t.text).isSome then fail "expression"
  else
    let count? := (← get).arities.find? t.text
    discard advance
    let args ← arguments expr fuel count?
    return .call (← spanFrom t.span) t.text args

mutual

def expr : Nat → Parse Expr
  | 0 => throw .outOfFuel
  | n + 1 => chain "OR" .or (chain "AND" .and (negation n) n) n

def negation : Nat → Parse Expr
  | 0 => throw .outOfFuel
  | n + 1 => do
    let t ← peek
    if t.isNamed "NOT" then
      discard advance
      let operand ← negation n
      return .unary (t.span.merge operand.span) .not operand
    else comparison (climb n 0)

def climb : Nat → Nat → Parse Expr
  | 0, _ => throw .outOfFuel
  | n + 1, least => do climbTail (fun strength => climb n strength) least n (← signed n)

def signed : Nat → Parse Expr
  | 0 => throw .outOfFuel
  | n + 1 => do
    let t ← peek
    match sign? t with
    | some op =>
      discard advance
      let operand ← signed n
      return .unary (t.span.merge operand.span) op operand
    | none => primary n

def primary : Nat → Parse Expr
  | 0 => throw .outOfFuel
  | n + 1 => do
    let t ← peek
    match t.kind with
    | .number value =>
      discard advance
      return .number t.span value
    | .mark .colon =>
      discard advance
      let name ← expectWord "variable name"
      return .thing (← spanFrom t.span) name
    | .mark .leftParen =>
      discard advance
      let e ← expr n
      expectMark .rightParen "`)`"
      return e
    | .mark .leftBracket =>
      discard advance
      let items ← (primary n).upTo (·.isMark .rightBracket) "`]`" n
      return .list (← spanFrom t.span) items
    | .word => wordExpr (expr n) n t
    | _ => fail "expression"

end

def parameters : Nat → List String → Parse (List String)
  | 0, _ => throw .outOfFuel
  | fuel + 1, read => do
    if (← peek).isMark .colon then
      discard advance
      let t ← advance
      if !t.isWord then reject "parameter name" t
      else if read.any (fold · == fold t.text) then reject "distinct parameter name" t
      else parameters fuel (read ++ [t.text])
    else return read

def bracketedNames : Nat → Parse (List String)
  | 0 => throw .outOfFuel
  | fuel + 1 => do
    if (← peek).isMark .rightBracket then
      discard advance
      return []
    else
      skipMark .quote
      return (← expectWord "variable name") :: (← bracketedNames fuel)

def quotedNames : Nat → Parse (List String)
  | 0 => throw .outOfFuel
  | fuel + 1 => do
    if (← peek).isMark .quote then
      discard advance
      return (← expectWord "variable name") :: (← quotedNames fuel)
    else return []

def block (stmt : Parse Stmt) (fuel : Nat) : Parse (List Stmt) := do
  expectMark .leftBracket "`[`"
  stmt.upTo (·.isMark .rightBracket) "`]`" fuel

def definition (stmt : Parse Stmt) (fuel : Nat) (start : Span) : Parse Stmt := do
  let t ← advance
  if !t.isWord || isKeyword t.text || isBuiltin t.text then reject "procedure name" t
  else
    let params ← parameters fuel []
    modify fun r => { r with arities := r.arities.insert t.text params.length }
    let body ← stmt.upTo (·.isNamed "END") "END" fuel
    return .define (← spanFrom start) t.text params body

def forLoop (expr : Parse Expr) (stmt : Parse Stmt) (fuel : Nat) (start : Span) : Parse Stmt := do
  expectMark .leftBracket "`[`"
  skipMark .quote
  let var ← expectWord "loop variable"
  let low ← input expr "FOR"
  let high ← input expr "FOR"
  let step? ← if (← peek).isMark .rightBracket then pure none else some <$> expr
  expectMark .rightBracket "`]`"
  let body ← block stmt fuel
  return .forEach (← spanFrom start) var low high step? body

def declaration (fuel : Nat) (start : Span) : Parse Stmt := do
  if (← peek).isMark .leftBracket then
    discard advance
    let names ← bracketedNames fuel
    return .declare (← spanFrom start) names
  else
    expectMark .quote "`\"` or `[` after LOCAL"
    let name ← expectWord "variable name"
    let names ← quotedNames fuel
    return .declare (← spanFrom start) (name :: names)

def keyworded (expr : Parse Expr) (stmt : Parse Stmt) (fuel : Nat) (start : Span) : Keyword → Parse Stmt
  | .define => definition stmt fuel start
  | .finish => fail "command"
  | .loop => do
    let count ← expr
    let body ← block stmt fuel
    return .loop (← spanFrom start) count body
  | .ifThen => do
    let cond ← expr
    let body ← block stmt fuel
    return .ifThen (← spanFrom start) cond body
  | .ifElse => do
    let cond ← expr
    let yes ← block stmt fuel
    let no ← block stmt fuel
    return .ifElse (← spanFrom start) cond yes no
  | .make => do
    expectMark .quote "`\"` before variable name"
    let name ← expectWord "variable name"
    let value ← expr
    return .make (← spanFrom start) name value
  | .output => do
    let value ← input expr "OUTPUT"
    return .output (← spanFrom start) value
  | .stop => return .stop start
  | .print => do
    let value ← input expr "PRINT"
    return .print (← spanFrom start) value
  | .whileTrue => do
    let cond ← expr
    let body ← block stmt fuel
    return .whileTrue (← spanFrom start) cond body
  | .forEach => forLoop expr stmt fuel start
  | .declare => declaration fuel start

def statement (expr : Parse Expr) (stmt : Parse Stmt) (fuel : Nat) : Parse Stmt := do
  let t ← peek
  if !t.isWord || t.isNamed "END" then fail "command"
  else if let some keyword := Keyword.ofWord? t.text then
    discard advance
    keyworded expr stmt fuel t.span keyword
  else if let some command := Command.ofWord? t.text then
    discard advance
    let args ← (input expr command.name).times command.arity
    return .command (← spanFrom t.span) command args
  else if (Operation.ofWord? t.text).isSome || (Traversal.ofWord? t.text).isSome ||
      (Query.ofWord? t.text).isSome then
    return .expression (← expr)
  else
    let count? := (← get).arities.find? t.text
    discard advance
    let args ← arguments expr fuel count?
    return .call (← spanFrom t.span) t.text args

def stmt : Nat → Parse Stmt
  | 0 => throw .outOfFuel
  | n + 1 => statement (expr n) (stmt n) n

def program : Nat → Parse Program
  | 0 => throw .outOfFuel
  | n + 1 => do
    if (← peek).isFinish then return []
    else return (← stmt n) :: (← program n)

def wholeExpr (fuel : Nat) : Parse Expr := do
  let e ← expr fuel
  if (← peek).isFinish then return e else fail "end of input"

/-- Enough for every token list: no step goes through sixteen levels without reading a token. -/
def fuelFor (tokens : List Token) : Nat := 16 * tokens.length + 32

end Logo.Grammar

namespace Logo

/-- A reader at the start of the tokens that knows the given procedures, whatever the case of their names, and those
the tokens announce. -/
def Reader.start (tokens : List Token) (seed : List (String × Nat)) : Reader :=
  .ofTokens tokens (Arity.collect tokens (.ofList seed))

def readProgram (tokens : List Token) (seed : List (String × Nat)) : EStateM.Result Halt Reader Program :=
  Grammar.program (Grammar.fuelFor tokens) (.start tokens seed)

def readExpr (tokens : List Token) (seed : List (String × Nat)) : EStateM.Result Halt Reader Expr :=
  Grammar.wholeExpr (Grammar.fuelFor tokens) (.start tokens seed)

end Logo
