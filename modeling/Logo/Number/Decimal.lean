import Logo.Number.Binary

/-! Decimal texts of doubles: the fewest digits that read back, their layout, and reading. -/
namespace Logo.Number

inductive Tie where
  | up | even
  deriving DecidableEq, Repr

structure Decimal where
  digits : Nat
  exponent : Int
  deriving DecidableEq, Repr

namespace Decimal

/-- The reals that round to one double: from `low / unit` to `high / unit` around `value / unit`, with
the ends or without them. -/
structure Interval where
  low : Nat
  value : Nat
  high : Nat
  unit : Nat
  closed : Bool

/-- The interval of `m · 2^q`. Below a power of two the doubles lie twice as dense. -/
def Interval.around (m : Nat) (q : Int) : Interval :=
  let s := Nat.pow 2 q.toNat
  let below := if m = Nat.pow 2 52 ∧ -1074 < q then 1 else 2
  { low := (4 * m - below) * s
    value := 4 * m * s
    high := (4 * m + 2) * s
    unit := 4 * Nat.pow 2 (-q).toNat
    closed := m % 2 = 0 }

/-- The interval holds the fraction `c / (unit · r)`. -/
def Interval.holds (i : Interval) (c r : Nat) : Bool :=
  if i.closed then i.low * r ≤ c && c ≤ i.high * r else i.low * r < c && c < i.high * r

/-- The multiple of `10^e` next to the middle of the interval that lies in it, if there is one. -/
def Interval.pick? (i : Interval) (tie : Tie) (e : Int) : Option Nat :=
  let p := Nat.pow 10 e.toNat
  let r := Nat.pow 10 (-e).toNat
  let step := i.unit * p
  let floor := i.value * r / step
  let rest := i.value * r % step
  let below := i.holds (floor * step) r
  let above := i.holds ((floor + 1) * step) r
  let upward :=
    if 2 * rest < step then false
    else if step < 2 * rest then true
    else match tie with
      | .up => true
      | .even => floor % 2 = 1
  if below && above then some (if upward then floor + 1 else floor)
  else if below then some floor
  else if above then some (floor + 1)
  else none

/-- The least power of ten above `m · 2^q`, by its exponent. -/
def Interval.top (i : Interval) (m : Nat) (q : Int) : Int :=
  let k := (m.log2 + q) * 30103 / 100000 + 1
  if i.unit * Nat.pow 10 k.toNat ≤ i.value * Nat.pow 10 (-k).toNat then k + 1 else k

/-- The fewest digits that read back as `m · 2^q`, and of those the nearest ones. -/
def shortest (tie : Tie) (m : Nat) (q : Int) : Decimal :=
  let i := Interval.around m q
  let top := i.top m q
  let pick (n : Nat) : Option Decimal :=
    (i.pick? tie (top - n)).map fun d =>
      if d % 10 = 0 then ⟨d / 10, top - n + 1⟩ else ⟨d, top - n⟩
  ((List.range' 1 17).findSome? pick).getD ⟨0, 0⟩

def positional (wholeMark : String) (d : Decimal) : String :=
  let s := Nat.toDigits 10 d.digits
  let point := s.length + d.exponent
  if 0 ≤ d.exponent then
    String.ofList (s ++ List.replicate d.exponent.toNat '0') ++ wholeMark
  else if 0 < point then
    String.ofList (s.take point.toNat ++ '.' :: s.drop point.toNat)
  else
    String.ofList ('0' :: '.' :: (List.replicate (-point).toNat '0' ++ s))

def scientific (d : Decimal) : String :=
  let s := Nat.toDigits 10 d.digits
  let power := s.length + d.exponent - 1
  let tail := if s.length = 1 then [] else '.' :: s.drop 1
  let sign := if power < 0 then "e-" else "e+"
  String.ofList (s.take 1 ++ tail) ++ sign ++ toString power.natAbs

end Decimal

structure Format where
  tie : Tie
  signedZero : Bool
  wholeMark : String
  /-- The values written without an exponent, by the number of digits before the point. -/
  positional : Int → Bool
  nan : String
  infinity : Bool → String

namespace Format

def magnitude (f : Format) (m : Nat) (q : Int) : String :=
  if m = 0 then "0" ++ f.wholeMark
  else
    let d := Decimal.shortest f.tie m q
    if f.positional ((Nat.toDigits 10 d.digits).length + d.exponent) then d.positional f.wholeMark
    else d.scientific

def write (f : Format) (x : Float) : String :=
  match decode x with
  | .nan => f.nan
  | .infinite negative => f.infinity negative
  | .finite negative m q =>
    if negative && (m != 0 || f.signedZero) then "-" ++ f.magnitude m q else f.magnitude m q

end Format

def plain : Format where
  tie := .up
  signedZero := true
  wholeMark := ""
  positional _ := true
  nan := "NaN"
  infinity negative := if negative then "-inf" else "inf"

def digitsValue (cs : List Char) : Nat :=
  cs.foldl (fun v c => 10 * v + (c.toNat - '0'.toNat)) 0

/-- The double nearest to `d · 10^e`. Powers far outside the range of doubles are not computed. -/
def ofDecimal (d : Nat) (e : Int) : Float :=
  if d = 0 then 0
  else
    let top := e + (d.log2 * 30103 / 100000 : Nat)
    if 310 < top then infinity
    else if top < -330 then 0
    else nearest false (d * Nat.pow 10 e.toNat) (Nat.pow 10 (-e).toNat)

def readExponent : List Char → Int
  | [] => 0
  | mark :: cs =>
    if mark = 'e' ∨ mark = 'E' then
      match cs with
      | '-' :: ds => -(digitsValue (ds.takeWhile Char.isDigit) : Int)
      | '+' :: ds => digitsValue (ds.takeWhile Char.isDigit)
      | ds => digitsValue (ds.takeWhile Char.isDigit)
    else 0

def readMagnitude (cs : List Char) : Float :=
  let whole := cs.takeWhile Char.isDigit
  match cs.dropWhile Char.isDigit with
  | '.' :: rest =>
    let fraction := rest.takeWhile Char.isDigit
    ofDecimal (digitsValue (whole ++ fraction))
      (readExponent (rest.dropWhile Char.isDigit) - fraction.length)
  | rest => ofDecimal (digitsValue whole) (readExponent rest)

def read : List Char → Float
  | '-' :: cs => -readMagnitude cs
  | '+' :: cs => readMagnitude cs
  | cs => readMagnitude cs

end Logo.Number
