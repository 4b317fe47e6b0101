import Logo.Number.Binary

/-! Exact remainders. -/
namespace Logo.Number

def remainder (a b : Float) : Float :=
  match decode a, decode b with
  | .finite negative m q, .finite _ m' q' =>
    if m' = 0 then nan
    else
      let low := min q q'
      encode negative ((m <<< (q - low).toNat) % (m' <<< (q' - low).toNat)) low
  | .finite .., .infinite _ => a
  | _, _ => nan

/-- The remainder in the range from 0 to `b`, for positive `b`. A negative remainder too small to
tell `b` from the sum gives `b` itself. -/
def remainderUp (a b : Float) : Float :=
  let r := remainder a b
  if r < 0 then r + b else r

end Logo.Number
