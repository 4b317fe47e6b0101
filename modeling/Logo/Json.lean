import Logo.Number.Decimal

/-! JSON documents and their two written forms. -/
namespace Logo

inductive Json where
  | null
  | bool (b : Bool)
  | nat (n : Nat)
  | number (x : Float)
  | string (s : String)
  | array (items : List Json)
  | object (fields : List (String × Json))

namespace Json

/-- Whole numbers keep a fraction of one zero; very small and very large numbers have an exponent; there are no
infinities. -/
def numberFormat : Number.Format where
  tie := .even
  signedZero := true
  wholeMark := ".0"
  positional digits := -4 ≤ digits && digits ≤ 16
  nan := "null"
  infinity _ := "null"

def escape (c : Char) : List Char :=
  match c with
  | '"' => ['\\', '"']
  | '\\' => ['\\', '\\']
  | '\x08' => ['\\', 'b']
  | '\x0c' => ['\\', 'f']
  | '\n' => ['\\', 'n']
  | '\r' => ['\\', 'r']
  | '\t' => ['\\', 't']
  | c =>
    if c.toNat < 0x20 then
      ['\\', 'u', '0', '0', Nat.digitChar (c.toNat / 16), Nat.digitChar (c.toNat % 16)]
    else [c]

def quote (s : String) : String := "\"" ++ String.ofList (s.toList.flatMap escape) ++ "\""

mutual

def compact : Json → String
  | .null => "null"
  | .bool b => if b then "true" else "false"
  | .nat n => toString n
  | .number x => numberFormat.write x
  | .string s => quote s
  | .array items => "[" ++ ",".intercalate (compactItems items) ++ "]"
  | .object fields => "\x7b" ++ ",".intercalate (compactFields fields) ++ "\x7d"

def compactItems : List Json → List String
  | [] => []
  | j :: rest => j.compact :: compactItems rest

def compactFields : List (String × Json) → List String
  | [] => []
  | (name, j) :: rest => (quote name ++ ":" ++ j.compact) :: compactFields rest

end

def bracketed (opening closing indent : String) (entries : List String) : String :=
  if entries.isEmpty then opening ++ closing
  else
    let inner := indent ++ "  "
    opening ++ "\n" ++ inner ++ (",\n" ++ inner).intercalate entries ++ "\n" ++ indent ++ closing

mutual

def pretty (indent : String) : Json → String
  | .array items => bracketed "[" "]" indent (prettyItems (indent ++ "  ") items)
  | .object fields => bracketed "\x7b" "\x7d" indent (prettyFields (indent ++ "  ") fields)
  | .null => "null"
  | .bool b => if b then "true" else "false"
  | .nat n => toString n
  | .number x => numberFormat.write x
  | .string s => quote s

def prettyItems (indent : String) : List Json → List String
  | [] => []
  | j :: rest => j.pretty indent :: prettyItems indent rest

def prettyFields (indent : String) : List (String × Json) → List String
  | [] => []
  | (name, j) :: rest => (quote name ++ ": " ++ j.pretty indent) :: prettyFields indent rest

end

end Json
end Logo
