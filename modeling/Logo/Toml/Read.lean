/-! Reading a text from its front: single characters, blanks, comments and line ends. -/
namespace Logo.Toml

abbrev Read := StateT (List Char) Option

namespace Read

def peek? : Read (Option Char) := do return (← get).head?

def next : Read Char := do
  match ← get with
  | c :: cs => set cs; return c
  | [] => failure

def accept (word : String) : Read Bool := do
  let cs ← get
  if word.toList.isPrefixOf cs then set (cs.drop word.length); return true else return false

def expect (word : String) : Read Unit := do unless ← accept word do failure

def takeWhile (p : Char → Bool) : Read (List Char) := do
  let cs ← get
  set (cs.dropWhile p)
  return cs.takeWhile p

/-- Items up to a closing mark, with a comma between two. `around` is skipped on both sides of an item; `trailing`
tells whether the last one may have a comma too. -/
def items {α : Type} (around : Read Unit) (item : Read α) (trailing : Bool) (closing : String) :
    (fuel : Nat) → Read (List α)
  | 0 => failure
  | fuel + 1 => do
    around
    let a ← item
    around
    if ← accept closing then return [a]
    expect ","
    if trailing then
      around
      if ← accept closing then return [a]
    return a :: (← items around item trailing closing fuel)

end Read

open Read

/-! ### Blanks -/

def isBlank (c : Char) : Bool := c = ' ' || c = '\t'

def blanks : Read Unit := do let _ ← takeWhile isBlank

def isPlain (c : Char) : Bool := c = '\t' || 0x20 ≤ c.toNat && c.toNat ≠ 0x7f

def comment : Read Unit := do if ← accept "#" then let _ ← takeWhile isPlain

def lineEnd : Read Bool := do
  if ← accept "\n" then return true
  accept "\r\n"

def gaps : (fuel : Nat) → Read Unit
  | 0 => failure
  | fuel + 1 => do
    blanks
    comment
    if ← lineEnd then gaps fuel

def emptyLines : (fuel : Nat) → Read Unit
  | 0 => failure
  | fuel + 1 => do
    blanks
    if ← lineEnd then emptyLines fuel

end Logo.Toml
