import Logo.Eval
import Logo.Syntax.Grammar
import Logo.Token.Scan

/-! Programs given to one machine one after another. Later ones know the procedures that earlier ones defined. -/
namespace Logo

namespace Machine

def readProgram (m : Machine) (source : String) : Except Halt Program :=
  match Logo.readProgram (tokenize source) m.workspace.arities.entries with
  | .ok p _ => .ok p
  | .error e _ => .error e

def readExpr (m : Machine) (source : String) : Except Halt Expr :=
  match Logo.readExpr (tokenize source) m.workspace.arities.entries with
  | .ok e _ => .ok e
  | .error e _ => .error e

def reset (m : Machine) : Machine := { m with workspace := {} }

end Machine

namespace Session

/-- A depth that no run reaches before its memory ends. -/
def fuel : Nat := Nat.pow 2 62

def read (source : String) : Eval Program := do
  match (← get).readProgram source with
  | .ok p => return p
  | .error e => throw e

def enter (source : String) : Eval (Option Value) := do Eval.program fuel (← read source) none

def run (source : String) : Eval Unit := discard (enter source)

/-- The value of a single expression. Its tokens come on top of the depth, so that no expression nests too deep. -/
def evaluate (source : String) : Eval Value := do
  match (← get).readExpr source with
  | .ok e => Eval.expr (fuel + (tokenize source).length) e
  | .error e => throw e

end Session
end Logo
