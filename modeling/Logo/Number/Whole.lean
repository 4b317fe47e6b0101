import Logo.Number.Binary

/-! Whole numbers among doubles: the four roundings, and the way to natural numbers. -/
namespace Logo.Number

inductive Rounding where
  | towardZero | down | up
  /-- A half goes away from zero. -/
  | nearest
  deriving DecidableEq, Repr

def Rounding.magnitude (r : Rounding) (negative : Bool) (m d : Nat) : Nat :=
  match r with
  | .towardZero => m / d
  | .down => if negative && m % d != 0 then m / d + 1 else m / d
  | .up => if !negative && m % d != 0 then m / d + 1 else m / d
  | .nearest => if d ≤ 2 * (m % d) then m / d + 1 else m / d

/-- Rounds to a whole number and keeps the sign, also that of a zero. -/
def round (r : Rounding) (x : Float) : Float :=
  match decode x with
  | .finite negative m q =>
    if 0 ≤ q then x else encode negative (r.magnitude negative m (Nat.pow 2 (-q).toNat)) 0
  | _ => x

def toInt? (x : Float) : Option Int :=
  match decode x with
  | .finite negative m q =>
    let magnitude? : Option Nat :=
      if 0 ≤ q then some (m <<< q.toNat)
      else if m % Nat.pow 2 (-q).toNat = 0 then some (m / Nat.pow 2 (-q).toNat) else none
    magnitude?.map fun k => if negative then -(k : Int) else k
  | _ => none

/-- The whole part of `x`, cut to the range from 0 to `top`; 0 for NaN. -/
def clampNat (top : Nat) (x : Float) : Nat := min top x.toUInt64.toNat

def ofNat (n : Nat) : Float := encode false n 0

def ofInt (i : Int) : Float := encode (i < 0) i.natAbs 0

end Logo.Number
