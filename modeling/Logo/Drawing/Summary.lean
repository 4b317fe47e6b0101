import Logo.Json
import Logo.Turtle
import Logo.Value

/-! The turtle and its drawing as they are told: in one line of words, or as JSON. -/
namespace Logo

def Point.toJson (p : Point) : Json := .object [("x", .number p.x), ("y", .number p.y)]

def Color.toJson (c : Color) : Json :=
  .object [("r", .nat c.red.toNat), ("g", .nat c.green.toNat), ("b", .nat c.blue.toNat)]

def Path.toJson (p : Path) : Json :=
  .object [("points", .array (p.points.map Point.toJson)), ("color", p.color.toJson), ("width", .number p.width)]

namespace Turtle

def toJson (t : Turtle) : Json :=
  .object [("x", .number t.position.x), ("y", .number t.position.y), ("heading", .number t.heading),
    ("pen_down", .bool t.penDown), ("pen_width", .number t.penWidth), ("pen_color", t.penColor.toJson),
    ("visible", .bool t.visible)]

def summary (t : Turtle) : String :=
  let x := Value.numberFormat.write t.position.x
  let y := Value.numberFormat.write t.position.y
  let heading := Value.numberFormat.write t.heading
  let pen := if t.penDown then "down" else "up"
  s!"{t.drawing.length} path(s), {t.segments.length} segment(s); " ++
    s!"turtle at [{x} {y}] heading {heading}, pen {pen}"

end Turtle
end Logo
