import Logo.Text

/-! Named program texts, and the lines and columns of their bytes. -/
namespace Logo

structure Source where
  name : String
  content : String

namespace Source

def behindNewlines (offset : Nat) : List Char → List Nat
  | [] => []
  | c :: cs =>
    let next := offset + c.utf8Size
    if c = '\n' then next :: behindNewlines next cs else behindNewlines next cs

def lineStarts (s : Source) : List Nat := 0 :: behindNewlines 0 s.content.toList

/-- The first place from `low` on where the test fails, or `high`: a search by halves, in a list in which the test
holds up to some place and fails from there on. -/
def partitionPoint (test : Nat → Bool) (xs : List Nat) (low high : Nat) : Nat :=
  if low < high then
    let middle := low + (high - low) / 2
    if xs[middle]?.any test then partitionPoint test xs (middle + 1) high else partitionPoint test xs low middle
  else low
termination_by high - low

/-- Line and column of a byte, counted from 1. Columns count bytes; offsets past the end count on in the last line. -/
def position (s : Source) (offset : Nat) : Nat × Nat :=
  let line := partitionPoint (· ≤ offset) s.lineStarts 0 s.lineStarts.length - 1
  (line + 1, offset - s.lineStarts.getD line 0 + 1)

def line? (s : Source) (n : Nat) : Option String :=
  if n = 0 || s.lineStarts.length < n then none
  else
    let start := s.lineStarts.getD (n - 1) 0
    let stop := (s.lineStarts[n]?.map (· - 1)).getD s.content.utf8ByteSize
    String.fromUTF8? (s.content.toUTF8.extract start stop)

end Source
end Logo
