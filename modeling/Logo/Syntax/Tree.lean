import Logo.Json
import Logo.Report
import Logo.Syntax

/-! Syntax trees as JSON. -/
namespace Logo

def tag (word : String) : String := word.map fun c => if c = '?' then 'P' else c

def BinaryOp.tag : BinaryOp → String
  | add => "Add"
  | sub => "Sub"
  | mul => "Mul"
  | div => "Div"
  | mod => "Mod"
  | eq => "Eq"
  | ne => "Ne"
  | lt => "Lt"
  | le => "Le"
  | gt => "Gt"
  | ge => "Ge"
  | and => "And"
  | or => "Or"

def UnaryOp.tag : UnaryOp → String
  | neg => "Neg"
  | plus => "Plus"
  | not => "Not"

def node (type : String) (span : Span) (fields : List (String × Json)) : Json :=
  .object (("type", .string type) :: ("span", span.toJson) :: fields)

def names (ns : List String) : Json := .array (ns.map .string)

mutual

def Expr.toJson : Expr → Json
  | .number span value => node "Number" span [("value", .number value)]
  | .list span items => node "List" span [("items", .array (Expr.toJsons items))]
  | .thing span name => node "Variable" span [("name", .string name)]
  | .binary span op left right =>
    node "Binary" span [("op", .string op.tag), ("left", left.toJson), ("right", right.toJson)]
  | .unary span op operand => node "Unary" span [("op", .string op.tag), ("operand", operand.toJson)]
  | .operation span op args =>
    node "FunctionCall" span [("function", .string (tag op.name)), ("args", .array (Expr.toJsons args))]
  | .traverse span t procedure items =>
    node "HigherOrder" span
      [("function", .string (tag t.name)), ("procedure", .string procedure), ("list", items.toJson)]
  | .query span q => node "Query" span [("query", .string (tag q.name))]
  | .call span name args => node "Call" span [("name", .string name), ("args", .array (Expr.toJsons args))]

def Expr.toJsons : List Expr → List Json
  | [] => []
  | e :: rest => e.toJson :: Expr.toJsons rest

end

mutual

def Stmt.toJson : Stmt → Json
  | .command span c args =>
    node "Command" span [("command", .string (tag c.name)), ("args", .array (Expr.toJsons args))]
  | .call span name args => node "Call" span [("name", .string name), ("args", .array (Expr.toJsons args))]
  | .expression e => .object [("type", .string "Expression"), ("expr", e.toJson)]
  | .loop span count body =>
    node "Repeat" span [("count", count.toJson), ("body", .array (Stmt.toJsons body))]
  | .ifThen span cond body => node "If" span [("cond", cond.toJson), ("body", .array (Stmt.toJsons body))]
  | .ifElse span cond yes no =>
    node "IfElse" span
      [("cond", cond.toJson), ("then_body", .array (Stmt.toJsons yes)), ("else_body", .array (Stmt.toJsons no))]
  | .whileTrue span cond body =>
    node "While" span [("cond", cond.toJson), ("body", .array (Stmt.toJsons body))]
  | .forEach span var low high step? body =>
    node "For" span
      [("var", .string var), ("start", low.toJson), ("end", high.toJson),
        ("step", match step? with
          | some step => step.toJson
          | none => .null),
        ("body", .array (Stmt.toJsons body))]
  | .define span name params body =>
    node "ProcedureDef" span
      [("name", .string name), ("params", names params), ("body", .array (Stmt.toJsons body))]
  | .make span name value => node "Make" span [("name", .string name), ("value", value.toJson)]
  | .output span value => node "Output" span [("value", value.toJson)]
  | .stop span => node "Stop" span []
  | .print span value => node "Print" span [("value", value.toJson)]
  | .declare span ns => node "Local" span [("names", names ns)]

def Stmt.toJsons : List Stmt → List Json
  | [] => []
  | s :: rest => s.toJson :: Stmt.toJsons rest

end

def Program.toJson (p : Program) : Json := .object [("statements", .array (Stmt.toJsons p))]

end Logo
