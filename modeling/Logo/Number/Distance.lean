import Logo.Number.Binary

/-! The length of a vector. The root of the sum of the squares carries their rounding errors, so one step of
Newton's method follows it. -/
namespace Logo.Number

/-- How much `h²` is over `a² + b²`, for `b ≤ a` and an `h` close to the root. Writing `h` as `b + d` or as `a + d`
makes the large squares cancel, so that little is lost to rounding. -/
def squareExcess (a b h : Float) : Float :=
  if h ≤ 2 * b then
    let d := h - b
    a * (2 * d - a) + (d - 2 * (a - b)) * d
  else
    let d := h - a
    2 * d * (a - 2 * b) + ((4 * d - b) * b + d * d)

def refinedRoot (a b : Float) : Float :=
  let h := (a * a + b * b).sqrt
  h - squareExcess a b h / (2 * h)

def twoPow (e : Int) : Float := encode false 1 e

/-- The length over two legs, for `b ≤ a`. A leg too short to show is added, and legs whose squares would leave the
range are brought into it by a power of two. -/
def legsLength (a b : Float) : Float :=
  if b * twoPow 54 ≤ a then a + b
  else if twoPow 511 < a then refinedRoot (a * twoPow (-600)) (b * twoPow (-600)) * twoPow 600
  else if b < twoPow (-459) then refinedRoot (a * twoPow 600) (b * twoPow 600) * twoPow (-600)
  else refinedRoot a b

/-- The length of the vector `(x, y)`. An infinite side outweighs one that is not a number. -/
def hypotenuse (x y : Float) : Float :=
  match decode x, decode y with
  | .infinite _, _ | _, .infinite _ => infinity
  | .finite .., .finite .. => if x.abs < y.abs then legsLength y.abs x.abs else legsLength x.abs y.abs
  | _, _ => nan

end Logo.Number
