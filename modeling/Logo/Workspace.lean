import Logo.Syntax
import Logo.Value

/-! The workspace: variables, procedures and the counters of running loops. Scoping is dynamic: a name unknown
in the innermost procedure is sought in its caller, then in the caller's caller, and last among the globals. -/
namespace Logo

structure Procedure where
  name : String
  params : List String
  body : List Stmt

def Procedure.arity (p : Procedure) : Nat := p.params.length

structure Workspace where
  globals : Table Value := {}
  /-- The variables of the running procedures, innermost first. -/
  frames : List (Table Value) := []
  procedures : Table Procedure := {}
  /-- The counters of the running `REPEAT` loops, innermost first. -/
  counters : List Nat := []

namespace Workspace

def depth (w : Workspace) : Nat := w.frames.length

def get? (w : Workspace) (name : String) : Option Value :=
  let key := fold name
  (w.frames.findSome? (·.get? key)).or (w.globals.get? key)

/-- Binds in the innermost frame, or globally if no procedure runs. -/
def set (w : Workspace) (name : String) (v : Value) : Workspace :=
  match w.frames with
  | [] => { w with globals := w.globals.insert name v }
  | frame :: outer => { w with frames := frame.insert name v :: outer }

def declare (w : Workspace) (name : String) : Except Cause Workspace :=
  match w.frames with
  | [] => .error (.misplaced "LOCAL outside a procedure")
  | frame :: outer => .ok { w with frames := frame.insert name (.number 0) :: outer }

def enter (w : Workspace) (bindings : List (String × Value)) : Workspace :=
  { w with frames := .ofList bindings :: w.frames }

def leave (w : Workspace) : Workspace := { w with frames := w.frames.tail }

def define (w : Workspace) (p : Procedure) : Workspace :=
  { w with procedures := w.procedures.insert p.name p }

def procedure? (w : Workspace) (name : String) : Option Procedure := w.procedures.find? name

def arities (w : Workspace) : Table Nat := w.procedures.map Procedure.arity

def startCount (w : Workspace) : Workspace := { w with counters := 0 :: w.counters }

def setCount (w : Workspace) (i : Nat) : Workspace :=
  match w.counters with
  | [] => w
  | _ :: outer => { w with counters := i :: outer }

def endCount (w : Workspace) : Workspace := { w with counters := w.counters.tail }

def count (w : Workspace) : Except Cause Nat :=
  match w.counters with
  | [] => .error (.misplaced "REPCOUNT outside a REPEAT")
  | i :: _ => .ok i

end Workspace
end Logo
