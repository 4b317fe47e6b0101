/-! Random numbers from a seed, by shifts and exclusive ors of a word. -/
namespace Logo

structure Random where
  state : UInt64
  deriving DecidableEq, Repr

namespace Random

/-- The generator of a seed. The zero word would never change, so another stands for it. -/
def ofSeed (seed : UInt64) : Random := ⟨if seed = 0 then 0x9e3779b97f4a7c15 else seed⟩

def next (r : Random) : Random :=
  let x := r.state ^^^ (r.state <<< 13)
  let x := x ^^^ (x >>> 7)
  ⟨x ^^^ (x <<< 17)⟩

/-- A number from `low` to `high`. A range of one number or none takes nothing from the generator. -/
def draw (r : Random) (low high : Int64) : Int64 × Random :=
  if high ≤ low then (low, r)
  else
    let range := (high - low).toUInt64 + 1
    (low + (r.next.state % range).toInt64, r.next)

end Random
end Logo
