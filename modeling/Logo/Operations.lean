import Logo.Machine

/-! What the operators, operations, commands and queries do to values and to the turtle. Angles are in degrees. -/
namespace Logo

def degrees (radians : Float) : Float := radians * (180 / pi)

def BinaryOp.apply (op : BinaryOp) (a b : Value) : Except Cause Value := do
  match op with
  | .eq => return .ofBool (a.same b)
  | .ne => return .ofBool !(a.same b)
  | _ =>
    let x ← a.toNumber op.sign
    let y ← b.toNumber op.sign
    match op with
    | .add => return .number (x + y)
    | .sub => return .number (x - y)
    | .mul => return .number (x * y)
    | .div => if y == 0 then throw .divisionByZero else return .number (x / y)
    | .mod => if y == 0 then throw .divisionByZero else return .number (Number.remainder x y)
    | .lt => return .ofBool (x < y)
    | .le => return .ofBool (x ≤ y)
    | .gt => return .ofBool (x > y)
    | .ge => return .ofBool (x ≥ y)
    | .and => return .ofBool (x != 0 && y != 0)
    | .or => return .ofBool (x != 0 || y != 0)
    | .eq | .ne => return .ofBool (a.same b)

namespace Operation

def outsideDomain (op : Operation) (v : Value) : Cause := .type op.name "a number in its domain" v.text

def ofNumber (op : Operation) (v : Value) (f : Float → Float) : Except Cause Value := do
  return .number (f (← v.toNumber op.name))

def pick (op : Operation) (v : Value) (f : List Value → Option Value) : Except Cause Value := do
  match f (← v.toList op.name) with
  | some found => return found
  | none => throw (.emptyList op.name)

def apply₁ (op : Operation) (v : Value) : Except Cause Value := do
  match op with
  | .sqrt =>
    let n ← v.toNumber op.name
    if n < 0 then throw (op.outsideDomain v) else return .number n.sqrt
  | .sin => op.ofNumber v fun n => (radians n).sin
  | .cos => op.ofNumber v fun n => (radians n).cos
  | .tan => op.ofNumber v fun n => (radians n).tan
  | .arctan => op.ofNumber v fun n => degrees n.atan
  | .abs => op.ofNumber v Float.abs
  | .round => op.ofNumber v (Number.round .nearest)
  | .floor => op.ofNumber v (Number.round .down)
  | .ceiling => op.ofNumber v (Number.round .up)
  | .int => op.ofNumber v (Number.round .towardZero)
  | .ln =>
    let n ← v.toNumber op.name
    if n ≤ 0 then throw (op.outsideDomain v) else return .number n.log
  | .exp => op.ofNumber v Float.exp
  | .minus => op.ofNumber v (- ·)
  | .first => op.pick v List.head?
  | .last => op.pick v List.getLast?
  | .butFirst => return .list (← v.toList op.name).tail
  | .butLast => return .list (← v.toList op.name).dropLast
  | .count => return .number (Number.ofNat (← v.toList op.name).length)
  | .isEmpty => return .ofBool (← v.toList op.name).isEmpty
  | _ => throw (.arity op.name op.arity 1)

def itemAt (index : Float) (items : List Value) : Except Cause Value :=
  match Number.toInt? index with
  | some (.ofNat (i + 1)) =>
    match items[i]? with
    | some found => .ok found
    | none => .error (.indexOutOfBounds index items.length)
  | _ => .error (.indexOutOfBounds index items.length)

def positionOf (v : Value) (items : List Value) : Nat :=
  match items.findIdx? (·.same v) with
  | some i => i + 1
  | none => 0

def apply₂ (op : Operation) (a b : Value) : Except Cause Value := do
  match op with
  | .power => return .number ((← a.toNumber op.name).pow (← b.toNumber op.name))
  | .remainder =>
    let x ← a.toNumber op.name
    let y ← b.toNumber op.name
    if y == 0 then throw .divisionByZero else return .number (Number.remainder x y)
  | .item =>
    let index ← a.toNumber op.name
    itemAt index (← b.toList op.name)
  | .fput => return .list (a :: (← b.toList op.name))
  | .lput => return .list ((← b.toList op.name) ++ [a])
  | .isMember => return .ofBool ((← b.toList op.name).any (·.same a))
  | .position => return .number (Number.ofNat (positionOf a (← b.toList op.name)))
  | .sentence => return .list (a.items ++ b.items)
  | .list => return .list [a, b]
  | _ => throw (.arity op.name op.arity 2)

/-- A number from 0 up to but not including the whole part of `n`; 0 if that is less than 1. -/
def drawBelow (n : Float) : Eval Value := do
  let m ← get
  let bound := Number.clampNat (Nat.pow 2 63 - 1) n
  let (i, rest) := m.random.draw 0 (Int64.ofInt (bound - 1))
  set { m with random := rest }
  return .number (Number.ofInt i.toInt)

def apply (op : Operation) (args : List Value) : Eval Value := do
  if args.length ≠ op.arity then Eval.raise (.arity op.name op.arity args.length)
  else
    match op, args with
    | .random, [v] => drawBelow (← Eval.ofExcept (v.toNumber op.name))
    | _, [v] => Eval.ofExcept (op.apply₁ v)
    | _, [a, b] => Eval.ofExcept (op.apply₂ a b)
    | _, _ => Eval.raise (.arity op.name op.arity args.length)

end Operation

namespace Command

/-- The numbers that the inputs of a command hold, each input given with its place. The one input of `SETPOS` is a
list of two numbers. -/
def numbers (c : Command) (args : List (Value × Span)) : Except Fault (List Float) :=
  match c, args with
  | .setPos, [(v, span)] =>
    match v.toList c.name with
    | .error cause => .error ⟨cause, none⟩
    | .ok [x, y] => ([x, y].mapM (Value.toNumber c.name)).mapError (⟨·, none⟩)
    | .ok _ => .error ⟨.type c.name "a list of two numbers" v.text, some span⟩
  | _, _ => args.mapM fun (v, span) => (v.toNumber c.name).mapError (⟨·, some span⟩)

def act (c : Command) (numbers : List Float) (t : Turtle) : Turtle :=
  match c, numbers with
  | .forward, [d] => t.forward d
  | .backward, [d] => t.backward d
  | .left, [a] => t.left a
  | .right, [a] => t.right a
  | .setHeading, [a] => t.setHeading a
  | .setX, [x] => t.setX x
  | .setY, [y] => t.setY y
  | .setXY, [x, y] | .setPos, [x, y] => t.setXY x y
  | .home, _ => t.home
  | .penUp, _ => t.liftPen
  | .penDown, _ => t.lowerPen
  | .clear, _ | .clearScreen, _ => t.clear
  | .hideTurtle, _ => t.hide
  | .showTurtle, _ => t.unhide
  | .setPenSize, [w] => t.setPenSize w
  | .setPenColor, [r, g, b] | .setPenRGB, [r, g, b] => t.setPenColor (.ofNumbers r g b)
  | .circle, [r] => t.circle r
  | .square, [s] => t.square s
  | .box, [w, h] => t.box w h
  | _, _ => t

end Command

def Query.answer (q : Query) (m : Machine) : Except Cause Value :=
  match q with
  | .xCor => .ok (.number m.turtle.position.x)
  | .yCor => .ok (.number m.turtle.position.y)
  | .heading => .ok (.number m.turtle.heading)
  | .pos => .ok (.list [.number m.turtle.position.x, .number m.turtle.position.y])
  | .isPenDown => .ok (.ofBool m.turtle.penDown)
  | .penSize => .ok (.number m.turtle.penWidth)
  | .penColor =>
    let c := m.turtle.penColor
    .ok (.list ([c.red, c.green, c.blue].map fun b => .number b.toFloat))
  | .isShown => .ok (.ofBool m.turtle.visible)
  | .repCount => m.workspace.count.map fun i => .number (Number.ofNat i)

end Logo
