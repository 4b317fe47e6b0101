import Logo.Drawing.Summary
import Logo.Report
import Logo.Session

/-! Interactive sessions. Lines are gathered into entries: an entry goes on as long as it has an open bracket or
an open definition. Between entries a line may also give a directive to the session itself. -/
namespace Logo.Repl

/-! ### Entries -/

def bracketWeight (t : Token) : Int :=
  if t.isMark .leftBracket then 1 else if t.isMark .rightBracket then -1 else 0

def definitionWeight (t : Token) : Int :=
  if t.isNamed "TO" then 1 else if t.isNamed "END" then -1 else 0

def openBrackets (tokens : List Token) : Int := (tokens.map bracketWeight).foldr (· + ·) 0

def openDefinitions (tokens : List Token) : Int := (tokens.map definitionWeight).foldr (· + ·) 0

def isIncomplete (source : String) : Bool :=
  let tokens := tokenize source
  0 < openDefinitions tokens || 0 < openBrackets tokens

inductive Directive where
  | quit | help | reset | clear | turtle
  deriving DecidableEq, Repr

def Directive.ofText? : String → Option Directive
  | ":quit" | ":q" => some .quit
  | ":help" | ":h" => some .help
  | ":reset" => some .reset
  | ":clear" => some .clear
  | ":turtle" => some .turtle
  | _ => none

inductive Line where
  | blank
  | directive (d : Directive)
  | more (pending : String)
  | entry (text : String)
  deriving DecidableEq, Repr

def gather (pending text : String) : Line :=
  let entry := pending ++ text ++ "\n"
  if isIncomplete entry then .more entry else .entry entry

/-- Blank lines and directives count only while nothing is pending. -/
def classify (pending line : String) : Line :=
  let text := Text.trim line
  if pending.isEmpty then
    if text.isEmpty then .blank
    else match Directive.ofText? text with
      | some d => .directive d
      | none => gather pending text
  else gather pending text

/-! ### The session -/

structure Dialogue where
  machine : Machine
  pending : String := ""

def banner : String := "Logo REPL v0.1.0\nUse :quit to exit, :help for help.\n\n"

def farewell : String := "Bye!\n"

def helpText : String :=
  "Commands:\n" ++
  "  :quit, :q    Exit the REPL\n" ++
  "  :help, :h    Show this help\n" ++
  "  :reset       Forget all variables and procedures\n" ++
  "  :clear       Clear the drawing and send the turtle home\n" ++
  "  :turtle      Show the turtle's position and drawing\n" ++
  "\n" ++
  "Enter Logo statements. A TO definition or an open [ continues on the\n" ++
  "next lines until it is closed. A line ending in an expression shows\n" ++
  "its value.\n"

def printedLines (l : Log Value) : String := String.join (l.toList.map fun v => v.text ++ "\n")

section
variable (page : Report → String)

/-- Runs an entry. The reply holds what it printed and then its value or the page of its fault. -/
def submit (m : Machine) (text : String) : Machine × String :=
  match Session.enter text { m with printed := {} } with
  | .ok v? m' => (m', printedLines m'.printed ++ printedLines ⟨v?.toList⟩)
  | .error (.fault f) m' => (m', printedLines m'.printed ++ page ⟨f, ⟨"<repl>", text⟩⟩ ++ "\n")
  | .error .outOfFuel m' => (m', printedLines m'.printed)

namespace Dialogue

def prompt (d : Dialogue) : String := if d.pending.isEmpty then "? " else "> "

def hear (d : Dialogue) (line : String) : Option (Dialogue × String) :=
  match classify d.pending line with
  | .blank => some (d, "")
  | .directive .quit => none
  | .directive .help => some (d, helpText)
  | .directive .reset => some ({ d with machine := d.machine.reset }, "Forgot all variables and procedures.\n")
  | .directive .clear =>
    some ({ d with machine := { d.machine with turtle := d.machine.turtle.clear } }, "Cleared.\n")
  | .directive .turtle => some (d, d.machine.turtle.summary ++ "\n")
  | .more pending => some ({ d with pending }, "")
  | .entry text =>
    let (machine, reply) := submit page d.machine text
    some ({ machine }, reply)

/-- Prompts and replies for the lines of an input, and whether it was read to its end or to a line that quits. A line
that is no text stops the reading. -/
def transcript (d : Dialogue) : List (Option String) → List String × Bool
  | [] => ([d.prompt], true)
  | none :: _ => ([d.prompt], false)
  | some line :: rest =>
    match d.hear page line with
    | none => ([d.prompt], true)
    | some (d', reply) =>
      let (replies, finished) := d'.transcript rest
      (d.prompt :: reply :: replies, finished)

end Dialogue
end
end Logo.Repl
