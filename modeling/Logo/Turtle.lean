import Logo.Drawing
import Logo.Log
import Logo.Number.Remainder

/-! The turtle. The y axis points up; headings are in degrees, 0 to the east and growing to the left. While
the pen is down the turtle extends a path; lifting the pen or changing its style closes it. -/
namespace Logo

structure Turtle where
  position : Point := {}
  heading : Float := 90
  penDown : Bool := true
  penWidth : Float := 1
  penColor : Color := {}
  visible : Bool := true
  circleSteps : Nat := 36
  paths : Log Path := {}
  /-- The points of the path being drawn; none while the pen is up. -/
  current : Log Point := ⟨[{}]⟩
  /-- The lines drawn since somebody began to listen, if somebody does. -/
  heard? : Option (Log Segment) := none

def north : Float := 90

def normalizeHeading (degrees : Float) : Float :=
  let h := Number.remainderUp degrees 360
  if h ≥ 360 then 0 else h

def pi : Float := 3.141592653589793

def radians (degrees : Float) : Float := degrees * (pi / 180)

/-- A sine or cosine without the rounding error of a right angle. -/
def snap (v : Float) : Float := if v.abs < 1e-12 then 0 else v

def clampWidth (w : Float) : Float := if w > 0 then w else 0

namespace Turtle

def styled (width : Float) (color : Color) : Turtle :=
  { penWidth := clampWidth width, penColor := color }

def setCircleSteps (t : Turtle) (steps : Nat) : Turtle := { t with circleSteps := max steps 1 }

def openPath? (t : Turtle) : Option Path :=
  if 2 ≤ t.current.size then some ⟨t.current.toList, t.penColor, t.penWidth⟩ else none

def drawing (t : Turtle) : List Path := t.paths.toList ++ t.openPath?.toList

def segments (t : Turtle) : List Segment := t.drawing.flatMap Path.segments

def moveTo (t : Turtle) (target : Point) : Turtle :=
  if t.penDown then
    { t with
      position := target
      current := t.current.push target
      heard? := t.heard?.map (·.push ⟨t.position, target, t.penColor, t.penWidth⟩) }
  else { t with position := target }

def forward (t : Turtle) (distance : Float) : Turtle :=
  let angle := radians t.heading
  t.moveTo ⟨t.position.x + distance * snap angle.cos, t.position.y + distance * snap angle.sin⟩

def backward (t : Turtle) (distance : Float) : Turtle := t.forward (-distance)

def setHeading (t : Turtle) (degrees : Float) : Turtle := { t with heading := normalizeHeading degrees }

def left (t : Turtle) (degrees : Float) : Turtle := t.setHeading (t.heading + degrees)

def right (t : Turtle) (degrees : Float) : Turtle := t.setHeading (t.heading - degrees)

def setXY (t : Turtle) (x y : Float) : Turtle := t.moveTo ⟨x, y⟩

def setX (t : Turtle) (x : Float) : Turtle := t.moveTo ⟨x, t.position.y⟩

def setY (t : Turtle) (y : Float) : Turtle := t.moveTo ⟨t.position.x, y⟩

def home (t : Turtle) : Turtle := (t.setXY 0 0).setHeading north

def arc (edge turn : Float) : Nat → Turtle → Turtle
  | 0, t => t
  | n + 1, t => arc edge turn n ((t.forward edge).left turn)

def circle (t : Turtle) (radius : Float) : Turtle :=
  let steps := Number.ofNat t.circleSteps
  t.arc (2 * pi * radius / steps) (360 / steps) t.circleSteps

def corner (t : Turtle) (width height : Float) : Turtle :=
  (((t.forward width).right 90).forward height).right 90

def box (t : Turtle) (width height : Float) : Turtle := (t.corner width height).corner width height

def square (t : Turtle) (size : Float) : Turtle := t.box size size

def closePath (t : Turtle) : Turtle :=
  { t with
    paths := match t.openPath? with
      | some p => t.paths.push p
      | none => t.paths
    current := {} }

def openPath (t : Turtle) : Turtle := { t with current := ⟨[t.position]⟩ }

def liftPen (t : Turtle) : Turtle := { t.closePath with penDown := false }

def lowerPen (t : Turtle) : Turtle :=
  if t.penDown then t else { t.openPath with penDown := true }

/-- Ends a path before its style changes, and starts the next. -/
def restyle (t : Turtle) : Turtle := if t.penDown then t.closePath.openPath else t

def setPenColor (t : Turtle) (color : Color) : Turtle :=
  if color = t.penColor then t else { t.restyle with penColor := color }

def setPenSize (t : Turtle) (width : Float) : Turtle :=
  if clampWidth width == t.penWidth then t else { t.restyle with penWidth := clampWidth width }

def hide (t : Turtle) : Turtle := { t with visible := false }

def unhide (t : Turtle) : Turtle := { t with visible := true }

/-- Back to the start with the pen down and nothing drawn. The style stays. -/
def clear (t : Turtle) : Turtle :=
  { t with position := {}, heading := north, penDown := true, paths := {}, current := ⟨[{}]⟩ }

def listen (t : Turtle) : Turtle := { t with heard? := some {} }

def ignore (t : Turtle) : Turtle := { t with heard? := none }

end Turtle
end Logo
