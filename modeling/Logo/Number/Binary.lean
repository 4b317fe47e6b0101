/-! Doubles as exact binary fractions `±m · 2^q`, and the nearest double of any fraction. -/
namespace Logo.Number

inductive Decoded where
  | nan
  | infinite (negative : Bool)
  | finite (negative : Bool) (mantissa : Nat) (exponent : Int)
  deriving DecidableEq, Repr

def decode (x : Float) : Decoded :=
  let bits := x.toBits
  let negative := bits >>> 63 == 1
  let power := ((bits >>> 52) &&& 0x7ff).toNat
  let fraction := (bits &&& 0xfffffffffffff).toNat
  if power = 0x7ff then
    if fraction = 0 then .infinite negative else .nan
  else if power = 0 then .finite negative fraction (-1074)
  else .finite negative (Nat.pow 2 52 + fraction) (power - 1075)

def nan : Float := Float.ofBits 0x7ff8000000000000

def infinity : Float := Float.ofBits 0x7ff0000000000000

def divNearestEven (m d : Nat) : Nat :=
  let q := m / d
  let r := m % d
  if 2 * r < d then q
  else if d < 2 * r then q + 1
  else q + q % 2

/-- `n · 2^k`, where a negative `k` counts as 0. -/
def shift (n : Nat) (k : Int) : Nat := n * Nat.pow 2 k.toNat

/-- The exponent of the greatest power of two that is at most `n / d`. -/
def leadingPower (n d : Nat) : Int :=
  let power : Int := n.log2 - d.log2
  if shift n (-power) < shift d power then power - 1 else power

/-- The double nearest to `±n / d`, a half going to the even neighbour. Fifty-three bits are kept, fewer where the
last one would weigh less than `2^(-1074)`. The leading bit of the kept mantissa carries into the exponent field,
which also settles a mantissa that rounds up to `2^53`. -/
def nearest (negative : Bool) (n d : Nat) : Float :=
  let weight : Int := max (leadingPower n d - 52) (-1074)
  let mantissa := divNearestEven (shift n (-weight)) (shift d weight)
  let magnitude := (weight + 1074).toNat * Nat.pow 2 52 + mantissa
  let bits := if n = 0 then 0 else min magnitude 0x7ff0000000000000
  Float.ofBits (bits.toUInt64 ||| if negative then 0x8000000000000000 else 0)

def encode (negative : Bool) (m : Nat) (q : Int) : Float := nearest negative (shift m q) (shift 1 (-q))

end Logo.Number
