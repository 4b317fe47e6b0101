import Logo.Toml.Read

/-! Strings, on one line or on several. Only those in double quotes know escapes. -/
namespace Logo.Toml
open Read

def hexValue? (cs : List Char) : Option Nat :=
  cs.foldlM
    (fun n c =>
      if c.isDigit then some (16 * n + (c.toNat - '0'.toNat))
      else if 'a' ≤ c ∧ c ≤ 'f' then some (16 * n + 10 + (c.toNat - 'a'.toNat))
      else if 'A' ≤ c ∧ c ≤ 'F' then some (16 * n + 10 + (c.toNat - 'A'.toNat))
      else none)
    0

def codePoint (digits : Nat) : Read Char := do
  let cs ← get
  set (cs.drop digits)
  match hexValue? (cs.take digits) with
  | some n => if digits ≤ cs.length ∧ n.isValidChar then return Char.ofNat n else failure
  | none => failure

def escaped : Read Char := do
  match ← next with
  | 'b' => return '\x08'
  | 't' => return '\t'
  | 'n' => return '\n'
  | 'f' => return '\x0c'
  | 'r' => return '\r'
  | '"' => return '"'
  | '\\' => return '\\'
  | 'u' => codePoint 4
  | 'U' => codePoint 8
  | _ => failure

def stringRest (quote : Char) : (fuel : Nat) → Read (List Char)
  | 0 => failure
  | fuel + 1 => do
    let c ← next
    if c = quote then return []
    if c = '\\' ∧ quote = '"' then
      let d ← escaped
      return d :: (← stringRest quote fuel)
    if isPlain c then return c :: (← stringRest quote fuel)
    failure

def quoted : Read String := do
  let quote ← next
  unless quote = '"' ∨ quote = '\'' do failure
  return String.ofList (← stringRest quote (← get).length)

/-- What follows a backslash at the end of a line: the blanks and line ends up to the next text. -/
def continued : Read Unit := do
  blanks
  unless ← lineEnd do failure
  emptyLines ((← get).length + 1)

/-- The rest of a string on several lines. Three quotes close it, after at most two more that are text. -/
def linesRest (quote : Char) : (fuel : Nat) → Read (List Char)
  | 0 => failure
  | fuel + 1 => do
    let quotes ← takeWhile (· = quote)
    if 3 ≤ quotes.length then
      if quotes.length ≤ 5 then return quotes.drop 3 else failure
    else if ← lineEnd then
      return quotes ++ '\n' :: (← linesRest quote fuel)
    else
      let c ← next
      if c = '\\' ∧ quote = '"' then
        let d ← (do continued; return []) <|> (do return [← escaped])
        return quotes ++ d ++ (← linesRest quote fuel)
      else if isPlain c then return quotes ++ c :: (← linesRest quote fuel)
      else failure

def quotedLines (quote : Char) : Read String := do
  let _ ← lineEnd
  return String.ofList (← linesRest quote ((← get).length + 1))

def anyQuoted : Read String := do
  if ← accept "\"\"\"" then quotedLines '"'
  else if ← accept "'''" then quotedLines '\''
  else quoted

end Logo.Toml
