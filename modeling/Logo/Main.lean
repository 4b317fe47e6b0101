import Logo.CommandLine.Execute
import Logo.CommandLine.Help

/-! The program: reads the files that an invocation names, and prints what comes of it. -/
namespace Logo.CommandLine

def refusal : IO.Error → Refusal
  | .noFileOrDirectory .. => .missing
  | .permissionDenied .. => .denied
  | .invalidArgument _ code _ => if code = 22 then .nulInName else .nameTooLong
  | .inappropriateType _ code _ => if code = 21 then .directory else .notDirectory
  | _ => .denied

def readFile (path : String) : IO (Except Refusal ByteArray) := do
  try return .ok (← IO.FS.readBinFile path)
  catch e => return .error (refusal e)

def snapshot (paths : List String) : IO (String → Except Refusal ByteArray) := do
  let entries ← paths.mapM fun path => do return (path, ← readFile path)
  return fun path => (entries.lookup path).getD (.error .missing)

partial def readLine (bytes : ByteArray) : IO ByteArray := do
  let next ← (← IO.getStdin).read 1
  if next.isEmpty then return bytes
  else if next.data = #[10] then return bytes ++ next
  else readLine (bytes ++ next)

partial def converse (d : Repl.Dialogue) : IO Bool := do
  let output ← IO.getStdout
  output.putStr d.prompt
  output.flush
  match Text.inputLines (← readLine ByteArray.empty) with
  | [] => return true
  | none :: _ => return false
  | some line :: _ =>
    match d.hear Report.page line with
    | none => return true
    | some (d, reply) =>
      output.putStr reply
      converse d

def perform (i : Invocation) (w : World) : IO Outcome := do
  match i.job, w.settings i.config? with
  | .repl, .ok settings =>
    IO.print Repl.banner
    if ← converse { machine := settings.machine w.clock } then return { output := Repl.farewell }
    else return { failure? := some Refusal.notText.message }
  | _, _ => return i.execute Report.page w

def start (args : List String) : IO UInt32 := do
  match parse args with
  | .error u =>
    if u.status = 0 then IO.print u.message else IO.eprint u.message
    return u.status.toUInt32
  | .ok i =>
    if i.verbose then for path in i.paths do IO.eprintln s!"reading {path}"
    let clock := (← IO.monoNanosNow).toUInt64
    let outcome ← perform i ⟨← snapshot i.paths, ByteArray.empty, clock⟩
    IO.print outcome.output
    IO.eprint outcome.errors
    if let some message := outcome.failure? then IO.eprintln s!"Error: {message}"
    return outcome.status.toUInt32

end Logo.CommandLine

def main (args : List String) : IO UInt32 := Logo.CommandLine.start args
