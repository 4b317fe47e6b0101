import Logo.CommandLine
import Logo.Repl
import Logo.Settings
import Logo.Syntax.Tree

/-! What an invocation does: it reads files and an input, and writes to two outputs. -/
namespace Logo.CommandLine

inductive Refusal where
  | missing
  | denied
  | notDirectory
  | directory
  | nameTooLong
  | nulInName
  | notText
  deriving DecidableEq, Repr

def Refusal.message : Refusal → String
  | .missing => "No such file or directory (os error 2)"
  | .denied => "Permission denied (os error 13)"
  | .notDirectory => "Not a directory (os error 20)"
  | .directory => "Is a directory (os error 21)"
  | .nameTooLong => "File name too long (os error 36)"
  | .nulInName => "file name contained an unexpected NUL byte"
  | .notText => "stream did not contain valid UTF-8"

structure World where
  files : String → Except Refusal ByteArray
  input : ByteArray
  clock : UInt64

structure Outcome where
  output : String := ""
  errors : String := ""
  failure? : Option String := none
  deriving DecidableEq, Repr

namespace Outcome

def status (o : Outcome) : Nat := if o.failure?.isSome then 1 else 0

def after (text : String) (o : Outcome) : Outcome := { o with output := text ++ o.output }

def afterError (text : String) (o : Outcome) : Outcome := { o with errors := text ++ o.errors }

end Outcome

namespace World

def text (w : World) (path : String) : Except Refusal String :=
  match w.files path with
  | .error r => .error r
  | .ok bytes =>
    match String.fromUTF8? bytes with
    | some s => .ok s
    | none => .error .notText

def source (w : World) (path : String) : Except String Source :=
  match w.text path with
  | .ok content => .ok ⟨path, content⟩
  | .error r => .error s!"failed to read {path}: {r.message}"

def load (w : World) (path : String) : Except String Settings :=
  match w.text path with
  | .error r => .error s!"cannot read {path}: {r.message}"
  | .ok text =>
    match Settings.read? text with
    | some s => .ok s
    | none => .error "invalid config"

def defaultConfig : String := "./logo.toml"

/-- Settings that are named have to be there; otherwise a missing file stands for the defaults. -/
def settings (w : World) : (config? : Option String) → Except String Settings
  | some path => w.load path
  | none =>
    match w.files defaultConfig with
    | .error .missing | .error .notDirectory | .error .directory => .ok {}
    | _ => w.load defaultConfig

end World

section
variable (page : Report → String)

/-! ### Running -/

def runSource (source : Source) (m : Machine) : Option Halt × Machine :=
  match Session.run source.content m with
  | .ok _ m' => (none, m')
  | .error h m' => (some h, m')

def haltPage (source : Source) : Halt → String
  | .fault f => page ⟨f, source⟩ ++ "\n"
  | .outOfFuel => ""

def haltFields (source : Source) : Halt → List (String × Json)
  | .fault f => [("error", (Report.mk f source).toJson)]
  | .outOfFuel => []

def runJson (source : Source) (halt? : Option Halt) (m : Machine) : Json :=
  .object ([("printed", .array (m.printed.toList.map fun v => .string v.text)), ("turtle", m.turtle.toJson),
    ("paths", .array (m.turtle.drawing.map Path.toJson))] ++ halt?.toList.flatMap (haltFields source))

def run (source : Source) (json : Bool) (m : Machine) : Outcome :=
  let (halt?, m) := runSource source m
  let failure? := halt?.map fun _ => s!"{source.name} failed"
  if json then { output := (runJson source halt? m).pretty "" ++ "\n", failure? }
  else {
    output := Repl.printedLines m.printed ++ m.turtle.summary ++ "\n"
    errors := String.join (halt?.toList.map (haltPage page source))
    failure? }

/-! ### Checking -/

def checkText (source : Source) (json ast : Bool) (p : Program) : String :=
  if ast then p.toJson.pretty "" ++ "\n"
  else if json then
    (Json.object [("file", .string source.name), ("ok", .bool true), ("statements", .nat p.length)]).compact ++
      "\n"
  else s!"{source.name}: ok ({p.length} statement(s))\n"

def checkHalt (source : Source) (json : Bool) : Halt → String
  | .fault f =>
    let report : Report := ⟨f, source⟩
    if json then report.toJson.compact ++ "\n" else page report ++ "\n"
  | .outOfFuel => ""

def checkSource (source : Source) : Except Halt Program := ({} : Machine).readProgram source.content

/-- Checks files in order up to one that cannot be opened. `found` counts the programs refused so far. -/
def check (w : World) (json ast : Bool) (found : Nat) : List String → Outcome
  | [] => { failure? := if found = 0 then none else some s!"found {found} error(s)" }
  | path :: rest =>
    match w.source path with
    | .error message => { failure? := some message }
    | .ok source =>
      match checkSource source with
      | .ok p => (check w json ast found rest).after (checkText source json ast p)
      | .error h =>
        let outcome := check w json ast (found + 1) rest
        if json then outcome.after (checkHalt page source json h)
        else outcome.afterError (checkHalt page source json h)

/-! ### Talking -/

def repl (w : World) (m : Machine) : Outcome :=
  let (texts, finished) := ({ machine := m } : Repl.Dialogue).transcript page (Text.inputLines w.input)
  let talk := Repl.banner ++ String.join texts
  if finished then { output := talk ++ Repl.farewell }
  else { output := talk, failure? := some Refusal.notText.message }

def Invocation.execute (i : Invocation) (w : World) : Outcome :=
  match w.settings i.config? with
  | .error message => { failure? := some message }
  | .ok settings =>
    match i.job with
    | .run file json =>
      match w.source file with
      | .ok source => run page source json (settings.machine w.clock)
      | .error message => { failure? := some message }
    | .check files json ast => check page w json ast 0 files
    | .repl => repl page w (settings.machine w.clock)

end

def Invocation.paths (i : Invocation) : List String :=
  i.config?.getD World.defaultConfig :: match i.job with
    | .run file _ => [file]
    | .check files _ _ => files
    | .repl => []

end Logo.CommandLine
