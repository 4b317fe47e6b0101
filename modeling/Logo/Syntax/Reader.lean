import Logo.Fault
import Logo.Token

/-! Reading a token list from left to right. -/
namespace Logo

structure Reader where
  rest : List Token
  /-- The end token. It is never read past. -/
  finish : Token
  last : Span
  arities : Table Nat

abbrev Parse := EStateM Halt Reader

namespace Reader

/-- A reader at the start of a token list. The first end token ends the text, and one is added where the last
token ends if there is none. -/
def ofTokens (tokens : List Token) (arities : Table Nat) : Reader :=
  let rest := tokens.takeWhile fun t => !t.isFinish
  let finish := (tokens.find? Token.isFinish).getD (.finishAt ((tokens.getLast?.map (·.span.stop)).getD 0))
  { rest, finish, last := finish.span, arities }

def head (r : Reader) : Token := r.rest.headD r.finish

def next (r : Reader) : Reader :=
  match r.rest with
  | [] => r
  | t :: rest => { r with rest, last := t.span }

end Reader

namespace Parse

def peek : Parse Token := return (← get).head

def advance : Parse Token := do
  let r ← get
  set r.next
  return r.head

def reject {α : Type} (expected : String) (found : Token) : Parse α :=
  throw (.fault ⟨.unexpected expected found.describe, some found.span⟩)

def fail {α : Type} (expected : String) : Parse α := do reject expected (← peek)

def expectMark (mark : Mark) (expected : String) : Parse Unit := do
  if (← peek).isMark mark then discard advance else fail expected

def expectWord (expected : String) : Parse String := do
  let t ← peek
  if t.isWord then
    discard advance
    return t.text
  else fail expected

def skipMark (mark : Mark) : Parse Unit := do
  if (← peek).isMark mark then discard advance

def spanFrom (start : Span) : Parse Span := return start.merge (← get).last

def times {α : Type} (p : Parse α) : Nat → Parse (List α)
  | 0 => return []
  | count + 1 => return (← p) :: (← times p count)

def upTo {α : Type} (closes : Token → Bool) (closing : String) (p : Parse α) : Nat → Parse (List α)
  | 0 => throw .outOfFuel
  | fuel + 1 => do
    let t ← peek
    if closes t then
      discard advance
      return []
    else if t.isFinish then fail closing
    else return (← p) :: (← upTo closes closing p fuel)

end Parse
end Logo
