import Logo.Syntax.Grammar

/-! More fuel does not change what a parser does. A parser with less fuel does the same as one with more, or it runs
out; so with enough fuel the amount is of no account. -/
namespace Logo

def Approximates {α : Type} (x y : Parse α) : Prop := ∀ r, x r = y r ∨ ∃ r', x r = .error .outOfFuel r'

namespace Approximates
variable {α β : Type} {x y : Parse α} {f g : α → Parse β}

theorem refl (x : Parse α) : Approximates x x := fun _ => .inl rfl

theorem outOfFuel (y : Parse α) : Approximates (throw .outOfFuel) y := fun r => .inr ⟨r, rfl⟩

/-- The rest matters only after a result of the first part. -/
theorem bindAt {r : Reader} (hx : x r = y r ∨ ∃ r', x r = .error .outOfFuel r')
    (hf : ∀ a r', y r = .ok a r' → f a r' = g a r' ∨ ∃ r'', f a r' = .error .outOfFuel r'') :
    (x >>= f) r = (y >>= g) r ∨ ∃ r', (x >>= f) r = .error .outOfFuel r' := by
  simp only [Bind.bind, EStateM.bind]
  rcases hx with heq | ⟨r', hout⟩
  · rw [heq]
    cases hy : y r with
    | ok a r' => exact hf a r' hy
    | error e r' => exact .inl rfl
  · exact .inr ⟨r', by rw [hout]⟩

theorem bind (hx : Approximates x y) (hf : ∀ a, Approximates (f a) (g a)) : Approximates (x >>= f) (y >>= g) :=
  fun r => bindAt (hx r) fun a r' _ => hf a r'

/-- Both parsers start in the same way. -/
theorem andThen (x : Parse α) (hf : ∀ a, Approximates (f a) (g a)) : Approximates (x >>= f) (x >>= g) :=
  (refl x).bind hf

/-- Both parsers end in the same way. -/
theorem before (hx : Approximates x y) (f : α → Parse β) : Approximates (x >>= f) (y >>= f) :=
  hx.bind fun a => refl (f a)

theorem ite {p : Prop} [Decidable p] {x' y' : Parse α} (hx : Approximates x y) (hx' : Approximates x' y') :
    Approximates (if p then x else x') (if p then y else y') := by
  by_cases hp : p <;> simpa [hp]

theorem times (hx : Approximates x y) (count : Nat) : Approximates (x.times count) (y.times count) := by
  induction count with
  | zero => exact refl _
  | succ count ih => exact hx.bind fun a => ih.before _

theorem upTo {closes : Token → Bool} {closing : String} (hx : Approximates x y) {n m : Nat} (hnm : n ≤ m) :
    Approximates (x.upTo closes closing n) (y.upTo closes closing m) := by
  induction n generalizing m with
  | zero => exact outOfFuel _
  | succ n ih =>
    obtain ⟨m, rfl⟩ : ∃ k, m = k + 1 := ⟨m - 1, by omega⟩
    refine andThen _ fun t => .ite (refl _) (.ite (refl _) ?_)
    exact hx.bind fun a => (ih (by omega)).before _

end Approximates

namespace Grammar
open Parse
variable {x y : Parse Expr} {n m : Nat}

section
variable (hxy : Approximates x y)
include hxy

theorem input_approximates (owner : String) : Approximates (input x owner) (input y owner) :=
  .andThen _ fun _ => .ite (.refl _) hxy

theorem arguments_approximate (hnm : n ≤ m) (count? : Option Nat) :
    Approximates (arguments x n count?) (arguments y m count?) := by
  induction n generalizing m count? with
  | zero => exact .outOfFuel _
  | succ n ih =>
    obtain ⟨m, rfl⟩ : ∃ k, m = k + 1 := ⟨m - 1, by omega⟩
    exact .andThen _ fun t => .ite (hxy.bind fun e => (ih (by omega) _).before _) (.refl _)

theorem chainTail_approximates (hnm : n ≤ m) (word : String) (op : BinaryOp) (left : Expr) :
    Approximates (chainTail word op x n left) (chainTail word op y m left) := by
  induction n generalizing m left with
  | zero => exact .outOfFuel _
  | succ n ih =>
    obtain ⟨m, rfl⟩ : ∃ k, m = k + 1 := ⟨m - 1, by omega⟩
    exact .andThen _ fun t => .ite (.andThen _ fun _ => hxy.bind fun right => ih (by omega) _) (.refl _)

theorem chain_approximates (hnm : n ≤ m) (word : String) (op : BinaryOp) :
    Approximates (chain word op x n) (chain word op y m) :=
  hxy.bind fun left => chainTail_approximates hxy hnm word op left

theorem comparison_approximates : Approximates (comparison x) (comparison y) := by
  refine hxy.bind fun left => .andThen _ fun t => ?_
  cases comparison? t with
  | none => exact .refl _
  | some op => exact .andThen _ fun _ => hxy.before _

theorem wordExpr_approximates (hnm : n ≤ m) (t : Token) : Approximates (wordExpr x n t) (wordExpr y m t) := by
  unfold wordExpr
  cases Operation.ofWord? t.text with
  | some operation => exact .andThen _ fun _ => ((input_approximates hxy _).times _).before _
  | none =>
    cases Traversal.ofWord? t.text with
    | some traversal =>
      exact .andThen _ fun _ => .andThen _ fun _ => .andThen _ fun _ => (input_approximates hxy _).before _
    | none =>
      cases Query.ofWord? t.text with
      | some query => exact .refl _
      | none => exact .ite (.refl _) (.andThen _ fun r =>
        .andThen _ fun _ => (arguments_approximate hxy hnm _).before _)

end

theorem climbTail_approximates {p q : Nat → Parse Expr} (hpq : ∀ strength, Approximates (p strength) (q strength))
    (hnm : n ≤ m) (least : Nat) (left : Expr) : Approximates (climbTail p least n left) (climbTail q least m left) := by
  induction n generalizing m left with
  | zero => exact .outOfFuel _
  | succ n ih =>
    obtain ⟨m, rfl⟩ : ∃ k, m = k + 1 := ⟨m - 1, by omega⟩
    refine .andThen _ fun t => ?_
    cases arithmetic? t with
    | none => exact .refl _
    | some found =>
      exact .ite (.refl _) (.andThen _ fun _ => (hpq _).bind fun right => ih (by omega) _)

/-- Every level of the expression grammar, by induction on the fuel that all levels share. -/
theorem levels_approximate (n : Nat) : ∀ m, n ≤ m →
    Approximates (expr n) (expr m) ∧ Approximates (negation n) (negation m) ∧
      (∀ least, Approximates (climb n least) (climb m least)) ∧ Approximates (signed n) (signed m) ∧
      Approximates (primary n) (primary m) := by
  induction n with
  | zero => exact fun m _ => ⟨.outOfFuel _, .outOfFuel _, fun _ => .outOfFuel _, .outOfFuel _, .outOfFuel _⟩
  | succ n ih =>
    intro m hnm
    obtain ⟨m, rfl⟩ : ∃ k, m = k + 1 := ⟨m - 1, by omega⟩
    have hle : n ≤ m := by omega
    obtain ⟨hexpr, hnegation, hclimb, hsigned, hprimary⟩ := ih m hle
    refine ⟨?_, ?_, fun least => ?_, ?_, ?_⟩
    · exact chain_approximates (chain_approximates hnegation hle _ _) hle _ _
    · exact .andThen _ fun t => .ite (.andThen _ fun _ => hnegation.before _) (comparison_approximates (hclimb 0))
    · exact hsigned.bind fun left => climbTail_approximates hclimb hle least left
    · refine .andThen _ fun t => ?_
      cases sign? t with
      | none => exact hprimary
      | some op => exact .andThen _ fun _ => hsigned.before _
    · refine .andThen _ fun t => ?_
      cases t.kind with
      | number value => exact .refl _
      | word => exact wordExpr_approximates hexpr hle t
      | finish => exact .refl _
      | mark mark =>
        cases mark
        case leftParen => exact .andThen _ fun _ => hexpr.before _
        case leftBracket => exact .andThen _ fun _ => (hprimary.upTo hle).before _
        all_goals exact .refl _

theorem signed_approximates (hnm : n ≤ m) : Approximates (signed n) (signed m) := (levels_approximate n m hnm).2.2.2.1

end Grammar
end Logo
