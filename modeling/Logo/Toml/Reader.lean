import Logo.Toml.Scalar

/-! Reads settings files. Whatever is not well formed is refused as a whole. -/
namespace Logo.Toml
open Read

def isBare (c : Char) : Bool := c.isAlphanum || c = '_' || c = '-'

def simpleKey : Read String := do
  match ← peek? with
  | some '"' | some '\'' => quoted
  | _ =>
    let cs ← takeWhile isBare
    if cs.isEmpty then failure else return String.ofList cs

def dottedKey : (fuel : Nat) → Read (List String)
  | 0 => failure
  | fuel + 1 => do
    blanks
    let k ← simpleKey
    blanks
    if ← accept "." then return k :: (← dottedKey fuel) else return [k]

/-- Arrays and tables are nested less than this deep, and keys have fewer parts. -/
def maxDepth : Nat := 80

def key : Read (List String) := do
  let parts ← dottedKey ((← get).length + 1)
  if parts.length < maxDepth then return parts else failure

def value : (depth : Nat) → Read Toml
  | 0 => scalar
  | depth + 1 => do
    let size := (← get).length + 1
    match ← peek? with
    | some '[' => do
      let _ ← next
      gaps size
      if ← accept "]" then return .array []
      return .array (← items (gaps size) (value depth) true "]" size)
    | some '{' => do
      let _ ← next
      blanks
      if ← accept "\x7d" then return .table .inline []
      let entry : Read (List String × Toml) := do
        let k ← key
        expect "="
        blanks
        return (k, ← value depth)
      let entries ← items blanks entry false "\x7d" size
      match entries.foldlM (fun es (k, v) => assign v k es) [] with
      | some es => return .table .inline es
      | none => failure
    | _ => scalar

def finishLine : Read Unit := do
  blanks
  comment
  unless ← lineEnd do unless (← get).isEmpty do failure

def lines : (fuel : Nat) → (header : List String) → Entries → Read Entries
  | 0, _, _ => failure
  | fuel + 1, header, entries => do
    blanks
    match ← peek? with
    | none => return entries
    | some '#' | some '\r' | some '\n' =>
      finishLine
      lines fuel header entries
    | some '[' =>
      expect "["
      let path ← key
      expect "]"
      finishLine
      match openTable path entries with
      | some entries => lines fuel path entries
      | none => failure
    | some _ =>
      let path ← key
      expect "="
      blanks
      let v ← value (maxDepth - 1)
      finishLine
      match inTable (assign v path) header entries with
      | some entries => lines fuel header entries
      | none => failure

def read? (text : String) : Option Entries :=
  let cs := match text.toList with
    | '\ufeff' :: cs => cs
    | cs => cs
  (lines (cs.length + 1) [] []).run' cs

end Logo.Toml
