import Logo.Number.Decimal
import Logo.Text
import Logo.Token

/-! From text to tokens. Every text has tokens: characters that start none are passed over. -/
namespace Logo.Scan

def isBlank (c : Char) : Bool := c = ' ' || c = '\t' || c = '\r' || c = '\n' || c = '\x0c'

def startsWord (c : Char) : Bool := c.isAlpha || c = '_'

def continuesWord (c : Char) : Bool := c.isAlphanum || c = '_' || c = '?'

def startsDigits (cs : List Char) : Bool := cs.head?.any Char.isDigit

def fractionPart : List Char → List Char
  | '.' :: cs => '.' :: cs.takeWhile Char.isDigit
  | _ => []

def exponentPart : List Char → List Char
  | e :: cs =>
    if e = 'e' ∨ e = 'E' then
      if startsDigits cs then e :: cs.takeWhile Char.isDigit
      else
        match cs with
        | s :: ds =>
          if (s = '+' ∨ s = '-') ∧ startsDigits ds then e :: s :: ds.takeWhile Char.isDigit else []
        | [] => []
    else []
  | [] => []

def unsignedPart (cs : List Char) : List Char :=
  let whole := cs.takeWhile Char.isDigit
  let fraction := fractionPart (cs.drop whole.length)
  whole ++ fraction ++ exponentPart (cs.drop (whole ++ fraction).length)

def pointPart (cs : List Char) : List Char :=
  let fraction := fractionPart cs
  fraction ++ exponentPart (cs.drop fraction.length)

/-- The numeral at the head of a text. A sign belongs to it only if a digit follows at once. -/
def numeral (c : Char) (cs : List Char) : List Char :=
  if c.isDigit then unsignedPart (c :: cs)
  else if (c = '+' ∨ c = '-') ∧ startsDigits cs then c :: unsignedPart cs
  else if c = '.' ∧ startsDigits cs then pointPart (c :: cs)
  else []

def mark? : Char → List Char → Option (Mark × List Char)
  | '<', '=' :: _ => some (.lessEqual, ['<', '='])
  | '<', '>' :: _ => some (.notEqual, ['<', '>'])
  | '<', _ => some (.less, ['<'])
  | '>', '=' :: _ => some (.greaterEqual, ['>', '='])
  | '>', _ => some (.greater, ['>'])
  | '=', _ => some (.equal, ['='])
  | '[', _ => some (.leftBracket, ['['])
  | ']', _ => some (.rightBracket, [']'])
  | '(', _ => some (.leftParen, ['('])
  | ')', _ => some (.rightParen, [')'])
  | ':', _ => some (.colon, [':'])
  | '"', _ => some (.quote, ['"'])
  | '+', _ => some (.plus, ['+'])
  | '-', _ => some (.minus, ['-'])
  | '*', _ => some (.star, ['*'])
  | '/', _ => some (.slash, ['/'])
  | _, _ => none

structure Piece where
  kind? : Option Kind
  text : List Char

/-- The piece at the head of the text `c :: cs`. A comment runs from a semicolon to the end of its line. -/
def piece (c : Char) (cs : List Char) : Piece :=
  if isBlank c then ⟨none, c :: cs.takeWhile isBlank⟩
  else if c = ';' then ⟨none, c :: cs.takeWhile (· ≠ '\n')⟩
  else if startsWord c then ⟨some .word, c :: cs.takeWhile continuesWord⟩
  else
    match numeral c cs with
    | [] =>
      match mark? c cs with
      | some (m, text) => ⟨some (.mark m), text⟩
      | none => ⟨none, [c]⟩
    | text => ⟨some (.number (Number.read text)), text⟩

def tokensFrom (offset : Nat) : List Char → List Token
  | [] => [.finishAt offset]
  | c :: cs =>
    let p := piece c cs
    let stop := offset + Text.byteLength p.text
    let rest := tokensFrom stop (cs.drop (p.text.length - 1))
    match p.kind? with
    | some kind => ⟨kind, String.ofList p.text, ⟨offset, stop⟩⟩ :: rest
    | none => rest
termination_by cs => cs.length
decreasing_by simp only [List.length_drop, List.length_cons]; omega

structure Cursor where
  offset : Nat
  rest : List Char

namespace Cursor

def start (source : String) : Cursor := ⟨0, source.toList⟩

/-- The next token, and where the scanner stands behind it. At the end of the text it stays there. -/
def next : Cursor → Token × Cursor
  | ⟨offset, []⟩ => (.finishAt offset, ⟨offset, []⟩)
  | ⟨offset, c :: cs⟩ =>
    let p := piece c cs
    let stop := offset + Text.byteLength p.text
    let rest := cs.drop (p.text.length - 1)
    match p.kind? with
    | some kind => (⟨kind, String.ofList p.text, ⟨offset, stop⟩⟩, ⟨stop, rest⟩)
    | none => next ⟨stop, rest⟩
termination_by k => k.rest.length
decreasing_by simp only [List.length_drop, List.length_cons]; omega

def answers (k : Cursor) : Nat → List Token
  | 0 => []
  | n + 1 =>
    let step := k.next
    step.1 :: step.2.answers n

end Cursor
end Logo.Scan

namespace Logo

def tokenize (source : String) : List Token := Scan.tokensFrom 0 source.toList

end Logo
