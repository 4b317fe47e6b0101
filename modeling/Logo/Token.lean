import Logo.Span
import Logo.Table

/-! Tokens: the words, numerals and marks of a program text. -/
namespace Logo

inductive Mark where
  | leftBracket | rightBracket | leftParen | rightParen | colon | quote
  | plus | minus | star | slash
  | equal | notEqual | less | lessEqual | greater | greaterEqual
  deriving DecidableEq, Repr

inductive Kind where
  | number (value : Float)
  | word
  | mark (mark : Mark)
  | finish

structure Token where
  kind : Kind
  text : String
  span : Span

namespace Token

def isWord (t : Token) : Bool :=
  match t.kind with
  | .word => true
  | _ => false

def isMark (t : Token) (m : Mark) : Bool :=
  match t.kind with
  | .mark m' => m' = m
  | _ => false

def isFinish (t : Token) : Bool :=
  match t.kind with
  | .finish => true
  | _ => false

/-- The token is the given word, which is spelled in upper case. -/
def isNamed (t : Token) (word : String) : Bool := t.isWord && fold t.text == word

def describe (t : Token) : String :=
  if t.isFinish then "end of input" else "`" ++ t.text ++ "`"

def finishAt (offset : Nat) : Token := ⟨.finish, "", ⟨offset, offset⟩⟩

end Token
end Logo
