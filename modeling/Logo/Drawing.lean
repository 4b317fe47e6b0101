import Logo.Number.Distance
import Logo.Number.Whole

/-! Points, colors and the lines of a drawing. -/
namespace Logo

structure Point where
  x : Float := 0
  y : Float := 0

def Point.distance (p q : Point) : Float := Number.hypotenuse (p.x - q.x) (p.y - q.y)

structure Color where
  red : UInt8 := 0
  green : UInt8 := 0
  blue : UInt8 := 0
  deriving DecidableEq, Repr

namespace Color

def channel (v : Float) : UInt8 := (Number.clampNat 255 (Number.round .nearest v)).toUInt8

def ofNumbers (red green blue : Float) : Color := ⟨channel red, channel green, channel blue⟩

def hexDigits (b : UInt8) : List Char := [Nat.digitChar (b.toNat / 16), Nat.digitChar (b.toNat % 16)]

def hex (c : Color) : String :=
  String.ofList ('#' :: (hexDigits c.red ++ hexDigits c.green ++ hexDigits c.blue))

end Color

structure Segment where
  source : Point
  target : Point
  color : Color
  width : Float

structure Path where
  points : List Point
  color : Color
  width : Float

namespace Path

def lines (p : Path) : List (Point × Point) := p.points.zip p.points.tail

def segments (p : Path) : List Segment :=
  p.lines.map fun l => ⟨l.1, l.2, p.color, p.width⟩

def length (p : Path) : Float := p.lines.foldl (fun sum l => sum + l.1.distance l.2) 0

end Path
end Logo
