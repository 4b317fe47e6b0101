/-! Characters, bytes and lines of texts. -/
namespace Logo.Text

def byteLength (cs : List Char) : Nat := cs.foldl (fun n c => n + c.utf8Size) 0

def split {α : Type} [DecidableEq α] (separator : α) (xs : List α) : List (List α) :=
  xs.foldr
    (fun x pieces =>
      if x = separator then [] :: pieces
      else match pieces with
        | piece :: rest => (x :: piece) :: rest
        | [] => [[x]])
    [[]]

def splitLines (cs : List Char) : List (List Char) := split '\n' cs

/-- The lines of an input, each without its newline. A line that is no text in UTF-8 is `none`. -/
def inputLines (input : ByteArray) : List (Option String) :=
  let pieces := split 10 input.toList
  let lines := if pieces.getLast? = some [] then pieces.dropLast else pieces
  lines.map fun bytes => String.fromUTF8? ⟨bytes.toArray⟩

def isBlank (c : Char) : Bool :=
  let n := c.toNat
  (9 ≤ n && n ≤ 13) || n = 0x20 || n = 0x85 || n = 0xa0 || n = 0x1680 || (0x2000 ≤ n && n ≤ 0x200a) ||
    n = 0x2028 || n = 0x2029 || n = 0x202f || n = 0x205f || n = 0x3000

def trim (s : String) : String :=
  String.ofList ((s.toList.dropWhile isBlank).reverse.dropWhile isBlank).reverse

/-- A part of a line that is not divided, and the blanks behind it. -/
structure Chunk where
  word : List Char
  gap : Nat

def isClosing (c : Char) : Bool := "!?,.:;/)]\x7d\"'-|".toList.contains c

/-- Whether a line may end between `left` and `right`, two characters of a word with `before` in front of them: behind
a hyphen inside a word, a question mark, or a slash that divides no number. The text is in ASCII. -/
def mayDivide (before left right : Char) : Bool :=
  match left with
  | '-' => before.isAlphanum && right.isAlphanum
  | '?' => !isClosing right
  | '/' => !isClosing right && !right.isDigit
  | _ => false

def chunks (before : Char) : List Char → List Chunk
  | [] => []
  | c :: cs =>
    let rest := chunks c cs
    if c = ' ' then
      match rest with
      | ⟨[], gap⟩ :: more => ⟨[], gap + 1⟩ :: more
      | _ => ⟨[], 1⟩ :: rest
    else
      match rest, cs with
      | ⟨word, gap⟩ :: more, d :: _ =>
        if d ≠ ' ' && mayDivide before c d then ⟨[c], 0⟩ :: rest else ⟨c :: word, gap⟩ :: more
      | _, _ => ⟨[c], 0⟩ :: rest

def cut (width : Nat) : (fuel : Nat) → List Char → List (List Char)
  | 0, cs => [cs]
  | fuel + 1, cs => if cs.length ≤ width then [cs] else cs.take width :: cut width fuel (cs.drop width)

def cutChunk (width : Nat) (c : Chunk) : List Chunk :=
  let pieces := cut width c.word.length c.word
  pieces.dropLast.map (⟨·, 0⟩) ++ (pieces.getLast?.map (⟨·, c.gap⟩)).toList

/-- The lines that take as many chunks as fit, from a line already begun. The blanks at the end of a line are
dropped. -/
def fillLines (width : Nat) : (line : List Char) → (gap : Nat) → List Chunk → List (List Char)
  | line, _, [] => [line]
  | line, gap, c :: rest =>
    if line.length + gap + c.word.length ≤ width then
      fillLines width (line ++ List.replicate gap ' ' ++ c.word) c.gap rest
    else line :: fillLines width c.word c.gap rest

def wrap (width : Nat) (s : String) : List String :=
  (fillLines width [] 0 ((chunks ' ' s.toList).flatMap (cutChunk width))).map String.ofList

end Logo.Text
