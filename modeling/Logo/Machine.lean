import Logo.Log
import Logo.Random
import Logo.Turtle
import Logo.Workspace

/-! The state that programs act on, and computations over it. -/
namespace Logo

structure Machine where
  workspace : Workspace := {}
  turtle : Turtle := {}
  printed : Log Value := {}
  random : Random := .ofSeed 1

/-- A computation on a machine. What was done before a failure stays done. -/
abbrev Eval := EStateM Halt Machine

namespace Eval
variable {α : Type}

def raise (c : Cause) : Eval α := throw (.fault ⟨c, none⟩)

def ofExcept : Except Cause α → Eval α
  | .ok a => pure a
  | .error c => raise c

def locate (span : Span) (x : Eval α) : Eval α := fun m =>
  match x m with
  | .ok a m' => .ok a m'
  | .error (.fault f) m' => .error (.fault (f.orAt span)) m'
  | .error .outOfFuel m' => .error .outOfFuel m'

/-- Brackets a computation between two changes of the workspace; the second is made after a failure too. -/
def within (enter leave : Workspace → Workspace) (x : Eval α) : Eval α := fun m =>
  match x { m with workspace := enter m.workspace } with
  | .ok a m' => .ok a { m' with workspace := leave m'.workspace }
  | .error e m' => .error e { m' with workspace := leave m'.workspace }

def modifyWorkspace (f : Workspace → Workspace) : Eval Unit :=
  modify fun m => { m with workspace := f m.workspace }

end Eval
end Logo
