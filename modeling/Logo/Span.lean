/-! Byte ranges of a source text. -/
namespace Logo

/-- The bytes from `start` up to but not including `stop`. -/
structure Span where
  start : Nat
  stop : Nat
  deriving DecidableEq, Repr, Inhabited

namespace Span

def merge (s t : Span) : Span := ⟨min s.start t.start, max s.stop t.stop⟩

def length (s : Span) : Nat := s.stop - s.start

def isEmpty (s : Span) : Bool := s.length == 0

end Span
end Logo
