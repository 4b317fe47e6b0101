import Logo.Proofs.ParserFuel
import Logo.Proofs.Progress

/-! Sums and products by layers. A sum is a row of products, a product a row of signed operands, and both are folded to
the left. The grammar reads them in one loop that climbs from operator to operator by their strengths; it does the same,
with the same result, the same reader behind it and the same failure. -/
namespace Logo

namespace Parse
variable {α β : Type} {x y : Parse α} {f : α → Parse β} {r r' : Reader}

theorem bind_of_ok {a : α} (h : x r = .ok a r') : (x >>= f) r = f a r' := by
  simp only [Bind.bind, EStateM.bind, h]

theorem bind_of_eq (h : x r = y r') : (x >>= f) r = (y >>= f) r' := by
  simp only [Bind.bind, EStateM.bind, h]

end Parse

namespace Grammar
open Parse

def additive? (t : Token) : Option BinaryOp :=
  match t.kind with
  | .mark .plus => some .add
  | .mark .minus => some .sub
  | _ => none

def multiplicative? (t : Token) : Option BinaryOp :=
  match t.kind with
  | .mark .star => some .mul
  | .mark .slash => some .div
  | _ => if t.isNamed "MOD" then some .mod else none

def layerTail (operator? : Token → Option BinaryOp) (operand : Parse Expr) : Nat → Expr → Parse Expr
  | 0, _ => throw .outOfFuel
  | fuel + 1, left => do
    match operator? (← peek) with
    | some op =>
      discard advance
      layerTail operator? operand fuel (left.join op (← operand))
    | none => return left

def layer (operator? : Token → Option BinaryOp) (operand : Parse Expr) (fuel : Nat) : Parse Expr := do
  layerTail operator? operand fuel (← operand)

def product (n : Nat) : Parse Expr := layer multiplicative? (signed n) n

def sum (n : Nat) : Parse Expr := layer additive? (product n) n

section
variable {operator? : Token → Option BinaryOp} {operand : Parse Expr} {left : Expr} {op : BinaryOp} {r : Reader}

theorem layerTail_some (h : operator? r.head = some op) (n : Nat) : layerTail operator? operand (n + 1) left r =
    (operand >>= fun right => layerTail operator? operand n (left.join op right)) r.next := by
  simp only [layerTail, run_peek, h]
  rfl

theorem layerTail_none (h : operator? r.head = none) (n : Nat) :
    layerTail operator? operand (n + 1) left r = .ok left r := by
  simp only [layerTail, run_peek, h]
  rfl

/-- Behind a layer there is none of its operators. -/
theorem layerTail_stop {n : Nat} {e : Expr} {r' : Reader} (h : layerTail operator? operand n left r = .ok e r') :
    operator? r'.head = none := by
  induction n generalizing left r with
  | zero => cases h
  | succ n ih =>
    cases hop : operator? r.head with
    | none =>
      rw [layerTail_none hop] at h
      cases h
      exact hop
    | some op =>
      rw [layerTail_some hop] at h
      obtain ⟨right, r₁, -, hrest⟩ := exists_of_bind_ok h
      exact ih hrest

theorem layer_stop {n : Nat} {e : Expr} {r' : Reader} (h : layer operator? operand n r = .ok e r') :
    operator? r'.head = none := by
  obtain ⟨left, r₁, -, hrest⟩ := exists_of_bind_ok h
  exact layerTail_stop hrest

end

section
variable {operand : Nat → Parse Expr} {least : Nat} {left : Expr} {op : BinaryOp} {strength : Nat} {r : Reader}

theorem climbTail_none (h : arithmetic? r.head = none) (n : Nat) :
    climbTail operand least (n + 1) left r = .ok left r := by
  simp only [climbTail, run_peek, h]
  rfl

theorem climbTail_weaker (h : arithmetic? r.head = some (op, strength)) (hleast : strength < least) (n : Nat) :
    climbTail operand least (n + 1) left r = .ok left r := by
  simp only [climbTail, run_peek, h, if_pos hleast]
  rfl

theorem climbTail_stronger (h : arithmetic? r.head = some (op, strength)) (hleast : ¬strength < least) (n : Nat) :
    climbTail operand least (n + 1) left r =
      (operand (strength + 1) >>= fun right => climbTail operand least n (left.join op right)) r.next := by
  simp only [climbTail, run_peek, h, if_neg hleast]
  rfl

end

/-- The operators that the climbing loop knows are those of the two layers. -/
theorem arithmetic?_cases (t : Token) :
    (arithmetic? t = none ∧ additive? t = none ∧ multiplicative? t = none) ∨
    (∃ op, arithmetic? t = some (op, 1) ∧ additive? t = some op ∧ multiplicative? t = none) ∨
    ∃ op, arithmetic? t = some (op, 2) ∧ multiplicative? t = some op ∧ additive? t = none := by
  unfold arithmetic? additive? multiplicative?
  cases hkind : t.kind with
  | mark m =>
    have hmod : t.isNamed "MOD" = false := by simp [Token.isNamed, Token.isWord, hkind]
    cases m <;> simp [hmod]
  | _ => by_cases hmod : t.isNamed "MOD" = true <;> simp [hmod]

section
variable {k n : Nat}

/-- Behind an operator of a product the climbing loop reads one operand. -/
theorem climb_factor (hk : k ≤ n + 1) : Approximates (climb k 3) (signed n) := by
  cases k with
  | zero => exact .outOfFuel _
  | succ k =>
    have htail : ∀ left, Approximates (climbTail (fun strength => climb k strength) 3 k left) (pure left) := by
      intro left r
      cases k with
      | zero => exact .inr ⟨r, rfl⟩
      | succ k =>
        left
        rcases arithmetic?_cases r.head with ⟨hnone, -⟩ | ⟨op, hsome, -⟩ | ⟨op, hsome, -⟩
        · exact climbTail_none hnone k
        · exact climbTail_weaker hsome (by omega) k
        · exact climbTail_weaker hsome (by omega) k
    have hclimb := (signed_approximates (n := k) (m := n) (by omega)).bind htail
    rwa [bind_pure] at hclimb

theorem climbTail_product (hfactor : Approximates (climb k 3) (signed n)) {j i : Nat} (hji : j ≤ i) (left : Expr) :
    Approximates (climbTail (fun strength => climb k strength) 2 j left)
      (layerTail multiplicative? (signed n) i left) := by
  induction j generalizing i left with
  | zero => exact .outOfFuel _
  | succ j ih =>
    obtain ⟨i, rfl⟩ : ∃ l, i = l + 1 := ⟨i - 1, by omega⟩
    intro r
    rcases arithmetic?_cases r.head with ⟨hnone, -, hproduct⟩ | ⟨op, hsome, -, hproduct⟩ | ⟨op, hsome, hproduct, -⟩
    · rw [climbTail_none hnone, layerTail_none hproduct]
      exact .inl rfl
    · rw [climbTail_weaker hsome (by omega), layerTail_none hproduct]
      exact .inl rfl
    · rw [climbTail_stronger hsome (by omega), layerTail_some hproduct]
      exact hfactor.bind (fun right => ih (by omega) (left.join op right)) r.next

/-- Behind an operator of a sum the climbing loop reads one product. -/
theorem climb_product (hk : k ≤ n + 1) : Approximates (climb k 2) (product n) := by
  cases k with
  | zero => exact .outOfFuel _
  | succ k =>
    exact (signed_approximates (by omega)).bind fun left => climbTail_product (climb_factor (by omega)) (by omega) left

/-- The loop goes on with the product at hand and then with the sum. -/
theorem climbTail_sum (hfactor : Approximates (climb k 3) (signed n)) (hproduct : Approximates (climb k 2) (product n))
    {j i i' : Nat} (hi : j ≤ i) (hi' : j ≤ i') (left : Expr) :
    Approximates (climbTail (fun strength => climb k strength) 0 j left)
      (layerTail multiplicative? (signed n) i left >>= layerTail additive? (product n) i') := by
  induction j generalizing i i' left with
  | zero => exact .outOfFuel _
  | succ j ih =>
    obtain ⟨i, rfl⟩ : ∃ l, i = l + 1 := ⟨i - 1, by omega⟩
    obtain ⟨i', rfl⟩ : ∃ l, i' = l + 1 := ⟨i' - 1, by omega⟩
    intro r
    rcases arithmetic?_cases r.head with ⟨hnone, hadd, hmul⟩ | ⟨op, hsome, hadd, hmul⟩ | ⟨op, hsome, hmul, hadd⟩
    · rw [climbTail_none hnone, bind_of_ok (layerTail_none hmul i), layerTail_none hadd]
      exact .inl rfl
    · rw [climbTail_stronger hsome (by omega), bind_of_ok (layerTail_none hmul i), layerTail_some hadd]
      refine Approximates.bindAt (hproduct r.next) fun right r' hright => ?_
      -- The product is read to its end, so that the loop can only go on with the sum.
      have hloop := ih (Nat.le_succ j) (show j ≤ i' by omega) (left.join op right) r'
      rwa [bind_of_ok (layerTail_none (layer_stop hright) j)] at hloop
    · rw [climbTail_stronger hsome (by omega), bind_of_eq (layerTail_some hmul i), bind_assoc]
      exact hfactor.bind (fun right => ih (by omega) (by omega) (left.join op right)) r.next

theorem climb_approximates_sum (n : Nat) : Approximates (climb n 0) (sum n) := by
  cases n with
  | zero => exact .outOfFuel _
  | succ n =>
    have hlayers : sum (n + 1) = signed (n + 1) >>= fun left =>
        layerTail multiplicative? (signed (n + 1)) (n + 1) left >>= layerTail additive? (product (n + 1)) (n + 1) := by
      simp only [sum, layer, product, bind_assoc]
    rw [hlayers]
    refine (signed_approximates (by omega)).bind fun left => ?_
    exact climbTail_sum (climb_factor (by omega)) (climb_product (by omega)) (by omega) (by omega) left

end

theorem climb_ended {r : Reader} (hfinish : r.finish.isFinish = true) {n : Nat} (hn : 5 * r.rest.length + 3 ≤ n) :
    Ended r 1 (climb n 0 r) :=
  (levels_end n r.rest.length).2.2.1 0 hn r hfinish (Nat.le_refl _)

/-- With enough fuel for the tokens to come, climbing is reading by layers. -/
theorem climb_eq_sum {r : Reader} (hfinish : r.finish.isFinish = true) {n : Nat} (hn : 5 * r.rest.length + 3 ≤ n) :
    climb n 0 r = sum n r := by
  have hended := climb_ended hfinish hn
  rcases climb_approximates_sum n r with heq | ⟨r', hout⟩
  · exact heq
  · rw [hout] at hended
    cases hended

end Grammar
end Logo
