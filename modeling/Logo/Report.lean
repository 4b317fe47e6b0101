import Logo.Fault
import Logo.Json
import Logo.Source

/-! Faults as they are told: to tools as JSON, to people in words. -/
namespace Logo

def Span.toJson (s : Span) : Json := .object [("start", .nat s.start), ("end", .nat s.stop)]

structure Report where
  fault : Fault
  source : Source

namespace Report

def position? (r : Report) : Option (Nat × Nat) := r.fault.offset?.map r.source.position

def toJson (r : Report) : Json :=
  let always : List (String × Json) :=
    [("code", .string r.fault.code), ("message", .string r.fault.message), ("file", .string r.source.name)]
  let span := r.fault.span?.toList.map fun s => ("span", s.toJson)
  let place := r.position?.toList.flatMap fun (line, column) => [("line", .nat line), ("column", .nat column)]
  .object (always ++ span ++ place)

def brief (r : Report) : String :=
  let place := match r.position? with
    | some (line, column) => s!":{line}:{column}"
    | none => ""
  s!"error[{r.fault.code}]: {r.fault.message}\n  --> {r.source.name}{place}"

/-- The code, and below it the message, broken to the width of a page. A label that lies outside the text is told in
words. -/
def page (r : Report) : String :=
  let message := match Text.wrap 194 r.fault.message with
    | [] => []
    | first :: rest => ("  × " ++ first) :: rest.map ("  │ " ++ ·)
  let outside := r.fault.labels.filterMap fun (label, offset, length) =>
    if offset + length ≤ r.source.content.utf8ByteSize + 1 then none
    else some
      s!"  [Failed to read contents for label `{label}` (offset: {offset}, length: {length}): OutOfBounds]"
  "\n".intercalate (r.fault.code :: "" :: message ++ outside) ++ "\n"

end Report
end Logo
