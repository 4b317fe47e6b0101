import Logo.Machine
import Logo.Toml.Reader

/-! Settings of a run: the turtle's first style and the seed of its random numbers. -/
namespace Logo

structure Settings where
  penWidth : Float := 1
  penColor : Color := {}
  circleSteps : Nat := 36
  seed? : Option Nat := none

namespace Settings

/-- The named fields of a table, which has no others, or of an array that gives them in order. -/
def fields? (names : List String) : Toml → Option Toml.Entries
  | .table _ entries => if entries.all fun e => names.contains e.1 then some entries else none
  | .array items => some (names.zip items)
  | _ => none

def natural? : Toml → Option Nat
  | .integer (.ofNat n) => some n
  | _ => none

def number? : Toml → Option Float
  | .integer i => some (Number.ofInt i)
  | .float x => some x
  | _ => none

def channel? (v : Toml) : Option UInt8 := do
  let n ← natural? v
  if n < 256 then some n.toUInt8 else none

def color? : Toml → Option Color
  | .array (red :: green :: blue :: _) => do return ⟨← channel? red, ← channel? green, ← channel? blue⟩
  | _ => none

def orDefault {α : Type} (entries : Toml.Entries) (name : String) (read? : Toml → Option α) (default : α) :
    Option α :=
  match entries.lookup name with
  | some v => read? v
  | none => some default

def ofEntries? (entries : Toml.Entries) : Option Settings := do
  let sections ← fields? ["turtle", "run"] (.table .header entries)
  let turtle ← orDefault sections "turtle" (fields? ["pen_width", "pen_color", "circle_steps"]) []
  let run ← orDefault sections "run" (fields? ["seed"]) []
  let default : Settings := {}
  return {
    penWidth := ← orDefault turtle "pen_width" number? default.penWidth
    penColor := ← orDefault turtle "pen_color" color? default.penColor
    circleSteps := ← orDefault turtle "circle_steps" natural? default.circleSteps
    seed? := ← orDefault run "seed" (fun v => (natural? v).map some) default.seed? }

def read? (text : String) : Option Settings := do ofEntries? (← Toml.read? text)

def isDefault (s : Settings) : Bool :=
  let default : Settings := {}
  s.penWidth == default.penWidth && s.penColor = default.penColor && s.circleSteps = default.circleSteps &&
    s.seed? = default.seed?

def turtle (s : Settings) : Turtle := (Turtle.styled s.penWidth s.penColor).setCircleSteps s.circleSteps

/-- A fresh machine. Without a seed of its own it takes that of the clock. -/
def machine (s : Settings) (clock : UInt64) : Machine :=
  { turtle := s.turtle, random := .ofSeed ((s.seed?.map Nat.toUInt64).getD clock) }

end Settings
end Logo
