import Logo.Span
import Logo.Vocabulary

/-! Programs as trees. Every node keeps the span of source text it was read from; built-in words are
resolved, user procedures stay names. -/
namespace Logo

inductive BinaryOp where
  | add | sub | mul | div | mod | eq | ne | lt | le | gt | ge | and | or
  deriving DecidableEq, Repr

def BinaryOp.sign : BinaryOp → String
  | add => "+"
  | sub => "-"
  | mul => "*"
  | div => "/"
  | mod => "MOD"
  | eq => "="
  | ne => "<>"
  | lt => "<"
  | le => "<="
  | gt => ">"
  | ge => ">="
  | and => "AND"
  | or => "OR"

inductive UnaryOp where
  | neg | plus | not
  deriving DecidableEq, Repr

def UnaryOp.sign : UnaryOp → String
  | neg => "-"
  | plus => "+"
  | not => "NOT"

inductive Expr where
  | number (span : Span) (value : Float)
  | list (span : Span) (items : List Expr)
  | thing (span : Span) (name : String)
  | binary (span : Span) (op : BinaryOp) (left right : Expr)
  | unary (span : Span) (op : UnaryOp) (operand : Expr)
  | operation (span : Span) (operation : Operation) (args : List Expr)
  /-- `MAP name list` and the like; the name is not evaluated. -/
  | traverse (span : Span) (traversal : Traversal) (procedure : String) (list : Expr)
  | query (span : Span) (query : Query)
  | call (span : Span) (name : String) (args : List Expr)
  deriving Inhabited

def Expr.span : Expr → Span
  | number span _ | list span _ | thing span _ | binary span .. | unary span .. | operation span ..
  | traverse span .. | query span _ | call span .. => span

def Expr.join (op : BinaryOp) (left right : Expr) : Expr :=
  .binary (left.span.merge right.span) op left right

inductive Stmt where
  | command (span : Span) (command : Command) (args : List Expr)
  | call (span : Span) (name : String) (args : List Expr)
  /-- An operation or query in command position. -/
  | expression (expr : Expr)
  /-- `REPEAT count [body]` -/
  | loop (span : Span) (count : Expr) (body : List Stmt)
  | ifThen (span : Span) (cond : Expr) (body : List Stmt)
  | ifElse (span : Span) (cond : Expr) (yes no : List Stmt)
  | whileTrue (span : Span) (cond : Expr) (body : List Stmt)
  /-- `FOR [var start stop step?] [body]` -/
  | forEach (span : Span) (var : String) (start stop : Expr) (step? : Option Expr) (body : List Stmt)
  | define (span : Span) (name : String) (params : List String) (body : List Stmt)
  | make (span : Span) (name : String) (value : Expr)
  | output (span : Span) (value : Expr)
  | stop (span : Span)
  | print (span : Span) (value : Expr)
  | declare (span : Span) (names : List String)
  deriving Inhabited

def Stmt.span : Stmt → Span
  | command span .. | call span .. | loop span .. | ifThen span .. | ifElse span .. | whileTrue span ..
  | forEach span .. | define span .. | make span .. | output span _ | stop span | print span _
  | declare span _ => span
  | expression expr => expr.span

abbrev Program := List Stmt

end Logo
