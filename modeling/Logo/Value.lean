import Logo.Fault
import Logo.Number.Decimal

/-! Values: numbers and nested lists of them. Zero is false, every other number is true. -/
namespace Logo

inductive Value where
  | number (n : Float)
  | list (items : List Value)
  deriving Inhabited

namespace Value

/-- What holds of numbers, and of lists if it holds of their items, holds of all values. -/
theorem induct {P : Value → Prop} (number : ∀ n, P (.number n)) (list : ∀ items, (∀ v ∈ items, P v) → P (.list items))
    (v : Value) : P v := by
  refine @Value.rec P (fun items => ∀ v ∈ items, P v) number list (by simp) ?_ v
  intro v vs hv hvs w hw
  rcases List.mem_cons.mp hw with rfl | hrest
  · exact hv
  · exact hvs w hrest

def ofBool (b : Bool) : Value := .number (if b then 1 else 0)

/-- Printed numbers are plain decimals; zero has no sign. -/
def numberFormat : Number.Format := { Number.plain with signedZero := false }

mutual

def text : Value → String
  | .number n => numberFormat.write n
  | .list items => "[" ++ " ".intercalate (texts items) ++ "]"

def texts : List Value → List String
  | [] => []
  | v :: vs => v.text :: texts vs

end

def tolerance : Float := 0.0001

mutual

def same : Value → Value → Bool
  | .number a, .number b => (a - b).abs < tolerance
  | .list as, .list bs => sameItems as bs
  | _, _ => false

def sameItems : List Value → List Value → Bool
  | [], [] => true
  | a :: as, b :: bs => a.same b && sameItems as bs
  | _, _ => false

end

def toNumber (operation : String) : Value → Except Cause Float
  | .number n => .ok n
  | v => .error (.type operation "a number" v.text)

def toList (operation : String) : Value → Except Cause (List Value)
  | .list items => .ok items
  | v => .error (.type operation "a list" v.text)

def toBool (operation : String) (v : Value) : Except Cause Bool := do
  return (← v.toNumber operation) != 0

def items : Value → List Value
  | .list items => items
  | v => [v]

end Value
end Logo
