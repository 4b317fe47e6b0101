import Logo.Number.Decimal
import Logo.Toml
import Logo.Toml.Quoted

/-! Values without parts: strings, numbers, truth values, and dates and times. -/
namespace Logo.Toml
open Read

/-! ### Numbers and words -/

def digits? (isDigit : Char → Bool) : List Char → Option (List Char)
  | [] => none
  | [c] => if isDigit c then some [c] else none
  | c :: '_' :: cs => if isDigit c then (digits? isDigit cs).map (c :: ·) else none
  | c :: cs => if isDigit c then (digits? isDigit cs).map (c :: ·) else none

def based? (base : Nat) (cs : List Char) : Option Nat := do
  let digit (c : Char) : Nat := (hexValue? [c]).getD base
  let ds ← digits? (digit · < base) cs
  return ds.foldl (fun n c => base * n + digit c) 0

def wholeNumber? (i : Int) : Option Toml :=
  if Int64.minValue.toInt ≤ i ∧ i ≤ Int64.maxValue.toInt then some (.integer i) else none

def splitSign : List Char → Bool × List Char
  | '-' :: cs => (true, cs)
  | '+' :: cs => (false, cs)
  | cs => (false, cs)

def wholePart? (cs : List Char) : Option (List Char) := do
  let ds ← digits? Char.isDigit cs
  if ds.length ≠ 1 ∧ ds.head? = some '0' then none else some ds

def exponent? : List Char → Option (List Char)
  | [] => some []
  | c :: cs => do
    guard (c = 'e' ∨ c = 'E')
    let (negative, cs) := splitSign cs
    let ds ← digits? Char.isDigit cs
    return if negative then 'e' :: '-' :: ds else 'e' :: ds

def float? (cs : List Char) : Option Toml :=
  let x := Number.read cs
  if x == Number.infinity then none else some (.float x)

def isDigitOrMark (c : Char) : Bool := c.isDigit || c = '_'

def decimal? (cs : List Char) : Option Toml := do
  let (negative, cs) := splitSign cs
  let sign := if negative then ['-'] else []
  let whole ← wholePart? (cs.takeWhile isDigitOrMark)
  match cs.dropWhile isDigitOrMark with
  | [] =>
    let n : Int := Number.digitsValue whole
    wholeNumber? (if negative then -n else n)
  | '.' :: rest =>
    let fraction ← digits? Char.isDigit (rest.takeWhile isDigitOrMark)
    float? (sign ++ whole ++ '.' :: fraction ++ (← exponent? (rest.dropWhile isDigitOrMark)))
  | rest => float? (sign ++ whole ++ (← exponent? rest))

def ofWord? (cs : List Char) : Option Toml :=
  match String.ofList cs with
  | "true" => some (.bool true)
  | "false" => some (.bool false)
  | "inf" | "+inf" => some (.float Number.infinity)
  | "-inf" => some (.float (-Number.infinity))
  | "nan" | "+nan" | "-nan" => some (.float Number.nan)
  | _ =>
    match cs with
    | '0' :: 'x' :: ds => do wholeNumber? (← based? 16 ds)
    | '0' :: 'o' :: ds => do wholeNumber? (← based? 8 ds)
    | '0' :: 'b' :: ds => do wholeNumber? (← based? 2 ds)
    | _ => decimal? cs

def word : Read Toml := do
  let cs ← takeWhile fun c => c.isAlphanum || c = '_' || c = '+' || c = '-' || c = '.'
  match ofWord? cs with
  | some v => return v
  | none => failure

/-! ### Dates and times -/

def fixedDigits (count : Nat) : Read Nat := do
  let cs ← get
  let ds := cs.take count
  if ds.length = count ∧ ds.all Char.isDigit then
    set (cs.drop count)
    return Number.digitsValue ds
  else failure

def twoDigits (low high : Nat) : Read Nat := do
  let n ← fixedDigits 2
  if low ≤ n ∧ n ≤ high then return n else failure

def daysIn (year month : Nat) : Nat :=
  if month = 2 then
    if year % 4 = 0 ∧ (year % 100 ≠ 0 ∨ year % 400 = 0) then 29 else 28
  else if [4, 6, 9, 11].contains month then 30
  else 31

def date : Read Unit := do
  let year ← fixedDigits 4
  expect "-"
  let month ← twoDigits 1 12
  expect "-"
  let _ ← twoDigits 1 (daysIn year month)

def hourAndMinute : Read Unit := do
  let _ ← twoDigits 0 23
  expect ":"
  let _ ← twoDigits 0 59

/-- A time of day. A minute may have a leap second. -/
def timeOfDay : Read Unit := do
  hourAndMinute
  expect ":"
  let _ ← twoDigits 0 60
  if ← accept "." then
    if (← takeWhile Char.isDigit).isEmpty then failure

def zone : Read Unit := do
  match ← peek? with
  | some 'Z' | some 'z' => let _ ← next
  | some '+' | some '-' =>
    let _ ← next
    hourAndMinute
  | _ => return

def timeAfterDate : Read Unit := do
  let c ← next
  unless c = 'T' ∨ c = 't' ∨ c = ' ' do failure
  timeOfDay
  zone

def dateOrTime : Read Toml := do
  (do date; timeAfterDate <|> return) <|> timeOfDay
  return .moment

def scalar : Read Toml := do
  match ← peek? with
  | some '"' | some '\'' => return .string (← anyQuoted)
  | _ => dateOrTime <|> word

end Logo.Toml
