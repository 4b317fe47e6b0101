import Logo.Token

/-! The numbers of inputs that a program's definitions announce, found before the program is read: a
procedure may be called above its definition. -/
namespace Logo.Arity

def parameters : List Token → Nat
  | c :: w :: rest => if c.isMark .colon && w.isWord then parameters rest + 1 else 0
  | _ => 0

def announced : List Token → List (String × Nat)
  | [] => []
  | t :: rest =>
    match rest with
    | w :: more =>
      if t.isNamed "TO" && w.isWord then (w.text, parameters more) :: announced rest else announced rest
    | [] => []

/-- The known procedures, overridden by the announced ones. Of two announcements the first counts. -/
def collect (tokens : List Token) (known : Table Nat) : Table Nat :=
  (announced tokens).foldr (fun p t => t.insert p.1 p.2) known

end Logo.Arity
