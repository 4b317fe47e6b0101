import Logo.Number.Decimal
import Logo.Span

/-! What can go wrong with a program, where, and in which words it is told. -/
namespace Logo

inductive Cause where
  | unexpected (expected found : String)
  | unknownCommand (name : String)
  | arity (name : String) (expected got : Nat)
  | type (operation expected found : String)
  | divisionByZero
  | indexOutOfBounds (index : Float) (length : Nat)
  | emptyList (operation : String)
  | undefinedVariable (name : String)
  | undefinedProcedure (name : String)
  | misplaced (message : String)
  | zeroStep

namespace Cause

def message : Cause → String
  | unexpected expected found => s!"expected {expected}, found {found}"
  | unknownCommand name => s!"I don't know how to {name}"
  | arity name expected got => s!"{name} expects {expected} inputs, got {got}"
  | type operation expected found => s!"{operation} expected {expected}, got {found}"
  | divisionByZero => "division by zero"
  | indexOutOfBounds index length =>
    "index " ++ Number.plain.write index ++ s!" is out of bounds for a list of length {length}"
  | emptyList operation => s!"{operation} of an empty list"
  | undefinedVariable name => s!":{name} has no value"
  | undefinedProcedure name => s!"undefined procedure {name}"
  | misplaced message => message
  | zeroStep => "FOR step must not be zero"

def code : Cause → String
  | unexpected .. => "E0001"
  | unknownCommand _ => "E4001"
  | arity .. => "E4002"
  | type .. => "E4003"
  | divisionByZero => "E4004"
  | indexOutOfBounds .. => "E4005"
  | emptyList _ => "E4006"
  | undefinedVariable _ => "E4007"
  | undefinedProcedure _ => "E4008"
  | misplaced _ => "E4009"
  | zeroStep => "E4010"

def label : Cause → String
  | unexpected .. => "unexpected token"
  | unknownCommand _ => "unknown command"
  | arity .. => "wrong number of inputs"
  | type .. => "wrong type of input"
  | divisionByZero => "divided by zero here"
  | indexOutOfBounds .. => "index out of bounds"
  | emptyList _ => "empty list"
  | undefinedVariable _ => "undefined variable"
  | undefinedProcedure _ => "undefined procedure"
  | misplaced _ => "not allowed here"
  | zeroStep => "zero step"

def isSyntactic : Cause → Bool
  | unexpected .. => true
  | _ => false

end Cause

structure Fault where
  cause : Cause
  span? : Option Span := none

namespace Fault

def message (f : Fault) : String := f.cause.message

def code (f : Fault) : String := f.cause.code

def withSpan (f : Fault) (span : Span) : Fault := { f with span? := some span }

def orAt (f : Fault) (span : Span) : Fault := { f with span? := f.span?.or (some span) }

def offset? (f : Fault) : Option Nat := f.span?.map (·.start)

def labels (f : Fault) : List (String × Nat × Nat) :=
  f.span?.toList.map fun s => (f.cause.label, s.start, s.length)

end Fault

/-- Why a computation ends without a result. Running out of fuel says nothing about the program. -/
inductive Halt where
  | fault (fault : Fault)
  | outOfFuel

end Logo
