/-! The command line: what it asks for, and what may be wrong with it. -/
namespace Logo.CommandLine

inductive Job where
  | run (file : String) (json : Bool)
  | check (files : List String) (json ast : Bool)
  | repl
  deriving DecidableEq, Repr

structure Invocation where
  job : Job
  config? : Option String := none
  verbose : Bool := false
  deriving DecidableEq, Repr

inductive Usage where
  | help
  | version
  | empty
  | missingCommand
  | unknownCommand
  | unknownArgument
  | repeatedArgument
  | unwantedValue
  | missingValue
  | missingFile
  deriving DecidableEq, Repr

def Usage.status : Usage → Nat
  | .help | .version => 0
  | _ => 2

inductive Level where
  | top | run | check | repl
  deriving DecidableEq, Repr

inductive Switch where
  | verbose | json | ast | help | version
  deriving DecidableEq, Repr

inductive Long where
  | switch (s : Switch)
  | config
  deriving DecidableEq, Repr

namespace Level

def command? : Level → String → Option Level
  | .top, "run" => some .run
  | .top, "check" => some .check
  | .top, "repl" => some .repl
  | _, _ => none

def long? (level : Level) : String → Option Long
  | "verbose" => some (.switch .verbose)
  | "config" => some .config
  | "help" => some (.switch .help)
  | "version" => if level = .top then some (.switch .version) else none
  | "json" => if level = .run ∨ level = .check then some (.switch .json) else none
  | "ast" => if level = .check then some (.switch .ast) else none
  | _ => none

def short? (level : Level) : Char → Option Switch
  | 'v' => some .verbose
  | 'h' => some .help
  | 'V' => if level = .top then some .version else none
  | _ => none

def takes : Level → Nat → Bool
  | .run, n => n = 0
  | .check, _ => true
  | _, _ => false

end Level

inductive Pending where
  | config (value? : Option String)
  | files (names : List String)
  deriving DecidableEq, Repr

structure Reading where
  level : Level
  switches : List Switch := []
  config? : Option String := none
  files : List String := []
  pending? : Option Pending := none
  /-- Two dashes came by: all that follows is taken as it is. -/
  trailing : Bool := false
  deriving DecidableEq, Repr

namespace Reading

def awaiting (r : Reading) : Bool := r.pending? = some (.config none)

def settle (r : Reading) : Except Usage Reading :=
  match r.pending? with
  | none => .ok r
  | some (.config none) => .error .missingValue
  | some (.config (some value)) =>
    if r.config?.isSome then .error .repeatedArgument
    else if value.isEmpty then .error .missingValue
    else .ok { r with config? := some value, pending? := none }
  | some (.files names) =>
    if names.any String.isEmpty then .error .missingValue
    else .ok { r with files := r.files ++ names, pending? := none }

def fileCount (r : Reading) : Nat :=
  r.files.length + match r.pending? with
    | some (.files names) => names.length
    | _ => 0

def switch (r : Reading) (s : Switch) : Except Usage Reading := do
  let r ← r.settle
  match s with
  | .help => throw .help
  | .version => throw .version
  | s => if r.switches.contains s then throw .repeatedArgument else return { r with switches := s :: r.switches }

def long (r : Reading) (name : String) (value? : Option String) : Except Usage Reading := do
  match r.level.long? name, value? with
  | none, _ => throw .unknownArgument
  | some (.switch _), some _ => throw .unwantedValue
  | some (.switch s), none => r.switch s
  | some .config, some value => do
    let r ← r.settle
    settle { r with pending? := some (.config (some value)) }
  | some .config, none => do
    let r ← r.settle
    return { r with pending? := some (.config none) }

def short (r : Reading) : List Char → Except Usage Reading
  | [] => .ok r
  | c :: cs => do
    match r.level.short? c with
    | some s => (← r.switch s).short cs
    | none => throw .unknownArgument

def file (r : Reading) (name : String) : Except Usage Reading :=
  if r.level.takes r.fileCount then
    match r.pending? with
    | some (.files names) => .ok { r with pending? := some (.files (names ++ [name])) }
    | _ => do
      let r ← r.settle
      return { r with pending? := some (.files [name]) }
  else if r.level ≠ .top then .error .unknownArgument
  else if r.trailing ∧ (name = "help" ∨ (r.level.command? name).isSome) then .error .unknownArgument
  else .error .unknownCommand

def splitAtEqual (cs : List Char) : String × Option String :=
  let name := String.ofList (cs.takeWhile (· ≠ '='))
  match cs.dropWhile (· ≠ '=') with
  | [] => (name, none)
  | _ :: value => (name, some (String.ofList value))

def argument (r : Reading) (arg : String) : Except Usage Reading :=
  if r.trailing then r.file arg
  else match arg.toList with
    | ['-', '-'] => .ok { r with trailing := true }
    | '-' :: '-' :: cs => r.long (splitAtEqual cs).1 (splitAtEqual cs).2
    | '-' :: c :: cs => r.short (c :: cs)
    | _ =>
      if r.awaiting then .ok { r with pending? := some (.config (some arg)) }
      else r.file arg

def command? (r : Reading) (arg : String) : Option Level :=
  if r.trailing ∨ r.awaiting then none else r.level.command? arg

def helpOn : List String → Usage
  | [] => .help
  | [name] => if name = "help" ∨ (Level.top.command? name).isSome then .help else .unknownCommand
  | _ => .unknownCommand

/-- Reads up to the end or to a command, which stands before the rest. -/
def read (r : Reading) : List String → Except Usage (Reading × Option (Level × List String))
  | [] => .ok (r, none)
  | arg :: rest =>
    match r.command? arg with
    | some level => .ok (r, some (level, rest))
    | none =>
      if r.level = .top ∧ arg = "help" ∧ ¬ r.trailing ∧ ¬ r.awaiting then .error (helpOn rest)
      else do (← r.argument arg).read rest

def job (r : Reading) : Except Usage Job :=
  let json := r.switches.contains .json
  match r.level, r.files with
  | .run, file :: _ => .ok (.run file json)
  | .check, file :: files => .ok (.check (file :: files) json (r.switches.contains .ast))
  | .repl, _ => .ok .repl
  | .top, _ => .error .missingCommand
  | _, [] => .error .missingFile

def isEmpty (r : Reading) : Bool := r.switches.isEmpty && r.config?.isNone

end Reading

/-- Reads the arguments. Options of the program may also stand behind the command, where they win. -/
def parse (args : List String) : Except Usage Invocation := do
  let (top, command?) ← ({ level := .top } : Reading).read args
  match command? with
  | none => throw (if (← top.settle).isEmpty then .empty else .missingCommand)
  | some (level, rest) =>
    let (inner, _) ← ({ level } : Reading).read rest
    let inner ← inner.settle
    let job ← inner.job
    let top ← top.settle
    return {
      job
      config? := inner.config? <|> top.config?
      verbose := inner.switches.contains .verbose || top.switches.contains .verbose }

end Logo.CommandLine
