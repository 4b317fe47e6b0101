import Logo.Proofs.Operands
import Mathlib

/-! Chains of operands. An expression without parentheses is a chain of operands with operators between them, and the
grammar groups it by the strengths of the operators: read from left to right the tree is the chain again, what stands
left of an operator binds at least as tightly as it, and what stands right of it more tightly. -/
namespace Logo

def BinaryOp.strength : BinaryOp → Nat
  | or => 1
  | and => 2
  | eq | ne | lt | le | gt | ge => 3
  | add | sub => 4
  | mul | div | mod => 5

def BinaryOp.isComparison (op : BinaryOp) : Bool := op.strength == 3

theorem BinaryOp.strength_le (op : BinaryOp) : op.strength ≤ 5 := by
  cases op <;> simp [strength]

theorem BinaryOp.strength_pos (op : BinaryOp) : 0 < op.strength := by
  cases op <;> simp [strength]

namespace Expr

def strength : Expr → Nat
  | .binary _ op _ _ => op.strength
  | _ => 6

/-- A tree read from left to right: the first operand, and the others behind their operators. -/
def inOrder : Expr → Expr × List (BinaryOp × Expr)
  | .binary _ op left right => (left.inOrder.1, left.inOrder.2 ++ (op, right.inOrder.1) :: right.inOrder.2)
  | e => (e, [])

/-- What stands left of an operator binds at least as tightly as it, what stands right of it more tightly. -/
def Grouped : Expr → Prop
  | .binary _ op left right =>
    op.strength ≤ left.strength ∧ op.strength < right.strength ∧ left.Grouped ∧ right.Grouped
  | _ => True

end Expr

structure Link where
  sign : Token
  op : BinaryOp
  tokens : List Token
  operand : Expr

namespace Link

def spelled (links : List Link) : List Token := links.flatMap fun l => l.sign :: l.tokens

@[simp] theorem spelled_nil : spelled [] = [] := rfl

@[simp] theorem spelled_cons (l : Link) (links : List Link) :
    spelled (l :: links) = l.sign :: (l.tokens ++ spelled links) := rfl

@[simp] theorem spelled_append (links more : List Link) : spelled (links ++ more) = spelled links ++ spelled more :=
  List.flatMap_append

def pair (l : Link) : BinaryOp × Expr := (l.op, l.operand)

end Link

/-- Where neither `AND` nor `OR` is between, there is one comparison at most. -/
def ComparesOnce (ops : List BinaryOp) : Prop :=
  ∀ run, run <:+: ops → (∀ op ∈ run, op ≠ .and ∧ op ≠ .or) → run.countP BinaryOp.isComparison ≤ 1

/-- Operands behind operators that bind at least as tightly as `k`, in front of a token that is none of these. -/
structure Chained (known : Table Nat) (finish : Token) (k : Nat) (links : List Link) (more : List Token) : Prop where
  joins : ∀ l ∈ links, l.sign.Joins l.op
  atoms : ∀ l ∈ links, Atom known l.tokens l.operand
  bound : ∀ l ∈ links, k ≤ l.op.strength
  once : ComparesOnce (links.map Link.op)
  stop : ∀ op, (more.headD finish).Joins op → op.strength < k

theorem ComparesOnce.within {ops run : List BinaryOp} (h : ComparesOnce ops) (hrun : run <:+: ops) : ComparesOnce run :=
  fun run' hrun' hops => h run' (hrun'.trans hrun) hops

theorem Token.Joins.unique {t : Token} {op op' : BinaryOp} (h : t.Joins op) (h' : t.Joins op') : op = op' := by
  cases hkind : t.kind with
  | mark m => cases m <;> simp_all [Joins, Grammar.arithmetic?, Grammar.comparison?, isNamed, isWord]
  | word =>
    simp [Joins, Grammar.arithmetic?, Grammar.comparison?, isNamed, isWord, hkind] at h h'
    grind
  | _ => simp [Joins, Grammar.arithmetic?, Grammar.comparison?, isNamed, isWord, hkind] at h

namespace Chained
variable {known : Table Nat} {finish : Token} {k : Nat} {l : Link} {links : List Link} {more : List Token}

theorem tail (h : Chained known finish k (l :: links) more) : Chained known finish k links more where
  joins l' hl' := h.joins l' (List.mem_cons_of_mem l hl')
  atoms l' hl' := h.atoms l' (List.mem_cons_of_mem l hl')
  bound l' hl' := h.bound l' (List.mem_cons_of_mem l hl')
  once := h.once.within (by simpa using (List.suffix_cons _ _).isInfix)
  stop := h.stop

/-- A chain begins with the operators that bind more tightly than its loosest may. -/
theorem split (h : Chained known finish k links more) : ∃ inner outer, links = inner ++ outer ∧
    Chained known finish (k + 1) inner (Link.spelled outer ++ more) ∧ Chained known finish k outer more ∧
    ∀ l ∈ outer.head?, l.op.strength = k := by
  induction links with
  | nil =>
    refine ⟨[], [], rfl, ⟨by simp, by simp, by simp, h.once, fun op hop => ?_⟩, h, by simp⟩
    exact Nat.lt_succ_of_lt (h.stop op hop)
  | cons l links ih =>
    by_cases hl : l.op.strength = k
    · refine ⟨[], l :: links, rfl, ⟨by simp, by simp, by simp, ?_, fun op hop => ?_⟩, h, by simpa using hl⟩
      · exact h.once.within List.nil_infix
      · rw [hop.unique (h.joins l List.mem_cons_self), hl]
        exact Nat.lt_succ_self k
    · obtain ⟨inner, outer, rfl, hinner, houter, hhead⟩ := ih h.tail
      have hbound := h.bound l List.mem_cons_self
      refine ⟨l :: inner, outer, rfl, ⟨?_, ?_, ?_, ?_, hinner.stop⟩, houter, hhead⟩
      · simpa using ⟨h.joins l List.mem_cons_self, hinner.joins⟩
      · simpa using ⟨h.atoms l List.mem_cons_self, hinner.atoms⟩
      · simpa using ⟨by omega, hinner.bound⟩
      · refine h.once.within ?_
        rw [← List.cons_append, List.map_append]
        exact (List.prefix_append _ _).isInfix

/-- Behind a comparison there is no other, as no word `AND` or `OR` comes between. -/
theorem behind_comparison (h : Chained known finish 3 (l :: links) more) (hl : l.op.strength = 3) :
    Chained known finish 4 links more := by
  have hplain : ∀ l' ∈ l :: links, l'.op ≠ .and ∧ l'.op ≠ .or := by
    intro l' hl'
    have hbound := h.bound l' hl'
    constructor <;> intro heq <;> simp [heq, BinaryOp.strength] at hbound
  have honce := h.once _ (List.infix_refl _) (by simpa using hplain)
  have hzero : (links.map Link.op).countP BinaryOp.isComparison = 0 := by
    simpa [BinaryOp.isComparison, hl] using honce
  refine ⟨h.tail.joins, h.tail.atoms, fun l' hl' => ?_, h.tail.once, fun op hop => Nat.lt_succ_of_lt (h.stop op hop)⟩
  have hother : l'.op.strength ≠ 3 := by
    simpa [BinaryOp.isComparison] using List.countP_eq_zero.mp hzero l'.op (List.mem_map_of_mem hl')
  have hbound := h.tail.bound l' hl'
  omega

end Chained

/-! ### Reading chains -/

/-- From `r` on a grouped tree has been read whose operands and operators are these, up to `more`. -/
structure Built (k : Nat) (r : Reader) (more : List Token) (reading : Expr × List (BinaryOp × Expr)) (tree : Expr)
    (r' : Reader) : Prop where
  reaches : r.Reaches more r'
  inOrder : tree.inOrder = reading
  grouped : tree.Grouped
  strength : k ≤ tree.strength

/-- The parser reads a chain of operators that bind at least as tightly as `k`, and nothing behind it. Each level of
the grammar does so for its own strength if the next does for the next one. -/
def ReadsChains (k : Nat) (x : Parse Expr) : Prop :=
  ∀ (r : Reader) (ts : List Token) (e : Expr) (links : List Link) (more : List Token), Atom r.arities ts e →
    Chained r.arities r.finish k links more → r.rest = ts ++ (Link.spelled links ++ more) →
    Yields (Built k r more (e, links.map Link.pair)) (x r)

theorem Atom.inOrder {known : Table Nat} {ts : List Token} {e : Expr} (h : Atom known ts e) :
    e.inOrder = (e, []) ∧ e.Grouped ∧ e.strength = 6 := by
  cases h <;> simp [Expr.inOrder, Expr.Grouped, Expr.strength]

theorem Chained.reach {r r' : Reader} {k : Nat} {links : List Link} {ts more : List Token}
    (h : Chained r.arities r.finish k links more) (hr : r.Reaches ts r') :
    Chained r'.arities r'.finish k links more := by
  rwa [hr.arities, hr.finish]

theorem Built.weaken {k k' : Nat} {r r' : Reader} {more : List Token} {reading : Expr × List (BinaryOp × Expr)}
    {tree : Expr} (h : Built k r more reading tree r') (hk : k' ≤ k) : Built k' r more reading tree r' :=
  ⟨h.reaches, h.inOrder, h.grouped, Nat.le_trans hk h.strength⟩

/-- Two trees that were read with an operator between them. -/
theorem Built.join {k k' m : Nat} {r r₁ r₂ r₃ : Reader} {ts us more : List Token} {left right first e : Expr}
    {done inner : List (BinaryOp × Expr)} {op : BinaryOp} (hleft : Built k r ts (first, done) left r₁)
    (hsign : r₁.Reaches us r₂) (hright : Built m r₂ more (e, inner) right r₃) (hk' : k' ≤ op.strength)
    (hk : op.strength ≤ k) (hm : op.strength < m) :
    Built k' r more (first, done ++ (op, e) :: inner) (left.join op right) r₃ where
  reaches := (hleft.reaches.trans hsign).trans hright.reaches
  inOrder := by simp [Expr.join, Expr.inOrder, hleft.inOrder, hright.inOrder]
  grouped := ⟨Nat.le_trans hk hleft.strength, Nat.lt_of_lt_of_le hm hright.strength, hleft.grouped, hright.grouped⟩
  strength := hk'

def Selects (operator? : Token → Option BinaryOp) (k : Nat) : Prop :=
  ∀ t op, operator? t = some op ↔ t.Joins op ∧ op.strength = k

namespace Selects
variable {operator? : Token → Option BinaryOp} {known : Table Nat} {k : Nat} {l : Link} {links : List Link}
  {more : List Token} {r : Reader} (hop : Selects operator? k)
include hop

theorem none_ahead (h : Chained known r.finish k [] more) (hrest : r.rest = Link.spelled [] ++ more) :
    operator? r.head = none := by
  refine Option.eq_none_iff_forall_ne_some.mpr fun op hsome => ?_
  obtain ⟨hjoins, hstrength⟩ := (hop _ _).mp hsome
  have hhead : r.head = more.headD r.finish := by simp [Reader.head, hrest]
  have hlt := h.stop op (hhead ▸ hjoins)
  omega

theorem some_ahead (h : Chained known r.finish k (l :: links) more) (hl : l.op.strength = k)
    (hrest : r.rest = Link.spelled (l :: links) ++ more) : operator? r.head = some l.op := by
  have hhead : r.head = l.sign := r.head_eq hrest
  rw [hhead]
  exact (hop _ _).mpr ⟨h.joins l List.mem_cons_self, hl⟩

end Selects

namespace Grammar
open Parse
variable {k : Nat} {operator? : Token → Option BinaryOp} {x : Parse Expr}

def named? (word : String) (op : BinaryOp) (t : Token) : Option BinaryOp := if t.isNamed word then some op else none

theorem layers_select : Selects (named? "OR" .or) 1 ∧ Selects (named? "AND" .and) 2 ∧ Selects comparison? 3 ∧
    Selects additive? 4 ∧ Selects multiplicative? 5 := by
  simp only [Selects, ← forall_and]
  intro t op
  cases hkind : t.kind with
  | mark m =>
    cases m <;> cases op <;> simp [named?, multiplicative?, additive?, Token.Joins, arithmetic?, comparison?,
      Token.isNamed, Token.isWord, BinaryOp.strength, hkind]
  | _ =>
    cases op <;> simp [named?, multiplicative?, additive?, Token.Joins, arithmetic?, comparison?, Token.isNamed,
      Token.isWord, BinaryOp.strength, hkind]

theorem signed_readsChains (n : Nat) : ReadsChains 6 (signed n) := by
  intro r ts e links more hatom hchained hrest
  have hlinks : links = [] := by
    refine List.eq_nil_iff_forall_not_mem.mpr fun l hl => ?_
    have hbound := hchained.bound l hl
    have hle := l.op.strength_le
    omega
  subst hlinks
  obtain ⟨hinOrder, hgrouped, hstrength⟩ := hatom.inOrder
  refine (signed_reads hatom n r more rfl hrest).mono ?_
  rintro _ r' ⟨rfl, hr⟩
  exact ⟨hr, hinOrder, hgrouped, Nat.le_of_eq hstrength.symm⟩

/-- The operand behind an operator, with what binds more tightly than it. -/
theorem operand_reads (hx : ReadsChains k x) {l : Link} {inner : List Link} {more : List Token} {r₀ r : Reader}
    (hr : r₀.Reaches (l.sign :: (l.tokens ++ (Link.spelled inner ++ more))) r)
    (hatom : Atom r₀.arities l.tokens l.operand) (hinner : Chained r₀.arities r₀.finish k inner more) :
    Yields (Built k r.next more (l.operand, inner.map Link.pair)) (x r.next) := by
  have hnext := r.reaches_next hr.rest
  have hr' := hr.trans hnext
  exact hx r.next l.tokens l.operand inner more (hr'.arities ▸ hatom) (hinner.reach hr') hnext.rest

theorem layerTail_reads (hop : Selects operator? k) (hx : ReadsChains (k + 1) x) (fuel : Nat) {left first : Expr}
    {done : List (BinaryOp × Expr)} {links : List Link} {more : List Token} {r r₀ : Reader}
    (hleft : Built k r₀ (Link.spelled links ++ more) (first, done) left r)
    (hchained : Chained r₀.arities r₀.finish k links more) (hhead : ∀ l ∈ links.head?, l.op.strength = k) :
    Yields (Built k r₀ more (first, done ++ links.map Link.pair)) (layerTail operator? x fuel left r) := by
  induction fuel generalizing left done links r with
  | zero => exact .outOfFuel
  | succ fuel ih =>
    have hahead := hchained.reach hleft.reaches
    cases links with
    | nil =>
      rw [layerTail_none (hop.none_ahead hahead hleft.reaches.rest)]
      simpa using Yields.ok hleft
    | cons l links =>
      have hstrength : l.op.strength = k := by simpa using hhead
      rw [layerTail_some (hop.some_ahead hahead hstrength hleft.reaches.rest)]
      -- What binds more tightly belongs to the operand; the loop goes on behind it.
      obtain ⟨inner, outer, rfl, hinner, houter, hhead'⟩ := hchained.tail.split
      have hr : r₀.Reaches (l.sign :: (l.tokens ++ (Link.spelled inner ++ (Link.spelled outer ++ more)))) r := by
        simpa using hleft.reaches
      refine (operand_reads hx hr (hchained.atoms l List.mem_cons_self) hinner).bind fun right r₁ hright => ?_
      have hjoin := hleft.join (r.reaches_next hr.rest) hright hstrength.ge hstrength.le (by omega)
      simpa [Link.pair] using ih hjoin houter hhead'

theorem layer_reads (hop : Selects operator? k) (hx : ReadsChains (k + 1) x) (fuel : Nat) :
    ReadsChains k (layer operator? x fuel) := by
  intro r ts e links more hatom hchained hrest
  obtain ⟨inner, outer, rfl, hinner, houter, hhead⟩ := hchained.split
  refine (hx r ts e inner _ hatom hinner (by simpa using hrest)).bind fun left r₁ hleft => ?_
  simpa using layerTail_reads hop hx fuel (hleft.weaken (Nat.le_succ k)) houter hhead

theorem comparison_reads (hx : ReadsChains 4 x) : ReadsChains 3 (comparison x) := by
  intro r ts e links more hatom hchained hrest
  have hop : Selects comparison? 3 := layers_select.2.2.1
  obtain ⟨inner, outer, rfl, hinner, houter, hhead⟩ := hchained.split
  refine (hx r ts e inner _ hatom hinner (by simpa using hrest)).bind fun left r₁ hleft => ?_
  have hahead := houter.reach hleft.reaches
  simp only [run_peek]
  cases outer with
  | nil =>
    simp only [hop.none_ahead hahead hleft.reaches.rest]
    exact .ok (by simpa using hleft.weaken (Nat.le_succ 3))
  | cons l outer =>
    have hstrength : l.op.strength = 3 := by simpa using hhead
    simp only [hop.some_ahead hahead hstrength hleft.reaches.rest]
    have hr : r.Reaches (l.sign :: (l.tokens ++ (Link.spelled outer ++ more))) r₁ := by
      simpa using hleft.reaches
    -- There is no loop here, so all that is left must belong to the right operand.
    have hlast := houter.behind_comparison hstrength
    have hread : Yields (Built 3 r more (e, (inner ++ l :: outer).map Link.pair))
        ((x >>= fun right => pure (left.join l.op right)) r₁.next) := by
      refine (operand_reads hx hr (houter.atoms l List.mem_cons_self) hlast).bind fun right r₂ hright => .ok ?_
      simpa [Link.pair] using hleft.join (r₁.reaches_next hr.rest) hright hstrength.ge (by omega) (by omega)
    exact hread

theorem chainTail_eq_layerTail (word : String) (op : BinaryOp) (operand : Parse Expr) (fuel : Nat) :
    chainTail word op operand fuel = layerTail (named? word op) operand fuel := by
  induction fuel with
  | zero => rfl
  | succ fuel ih =>
    funext left r
    by_cases hword : r.head.isNamed word = true
    · rw [layerTail_some (if_pos hword)]
      simp only [chainTail, run_peek, hword, ih]
      rfl
    · rw [layerTail_none (if_neg hword)]
      simp only [chainTail, run_peek, hword]
      rfl

/-- Operands with a word between them are a layer, too. -/
theorem chain_eq_layer (word : String) (op : BinaryOp) (operand : Parse Expr) (fuel : Nat) :
    chain word op operand fuel = layer (named? word op) operand fuel := by
  simp only [chain, layer, chainTail_eq_layerTail]

theorem climb_readsChains (n : Nat) : ReadsChains 4 (climb n 0) := by
  obtain ⟨-, -, -, hadditive, hmultiplicative⟩ := layers_select
  have hproduct : ReadsChains 5 (product n) := layer_reads hmultiplicative (signed_readsChains n) n
  have hsum : ReadsChains 4 (sum n) := layer_reads hadditive hproduct n
  intro r ts e links more hatom hchained hrest
  exact .of_approximates (climb_approximates_sum n) (hsum r ts e links more hatom hchained hrest)

theorem negation_readsChains (n : Nat) : ReadsChains 3 (negation n) := by
  intro r ts e links more hatom hchained hrest
  cases n with
  | zero => exact .outOfFuel
  | succ n =>
    obtain ⟨t, us, rfl, -, hnot, -⟩ := hatom.starts
    have hhead : r.head = t := r.head_eq hrest
    have hread : negation (n + 1) r = comparison (climb n 0) r := by
      simp only [negation, run_peek, hhead, hnot]
      rfl
    rw [hread]
    exact comparison_reads (climb_readsChains n) r _ e links more hatom hchained hrest

theorem expr_readsChains (n : Nat) : ReadsChains 1 (expr n) := by
  intro r ts e links more hatom hchained hrest
  cases n with
  | zero => exact .outOfFuel
  | succ n =>
    have hand : ReadsChains 2 (chain "AND" .and (negation n) n) := by
      rw [chain_eq_layer]
      exact layer_reads layers_select.2.1 (negation_readsChains n) n
    have hor : ReadsChains 1 (chain "OR" .or (chain "AND" .and (negation n) n) n) := by
      rw [chain_eq_layer]
      exact layer_reads layers_select.1 hand n
    exact hor r ts e links more hatom hchained hrest

end Grammar

/-- Climbing reads a sum of products of signed operands, and so a chain of operands is grouped by the strengths of its
operators: the tree has all operands and operators in their order, and with equal strengths the left ones go first. -/
theorem operators_group_by_strength :
    (∀ (r : Reader) (n : Nat), r.finish.isFinish = true → 5 * r.rest.length + 3 ≤ n →
      Grammar.climb n 0 r = Grammar.sum n r ∧ ∀ r', Grammar.climb n 0 r ≠ .error .outOfFuel r') ∧
    ∀ (r : Reader) (n : Nat) (ts : List Token) (first : Expr) (links : List Link) (more : List Token),
      r.finish.isFinish = true → 5 * r.rest.length + 5 ≤ n →
      Atom r.arities ts first → (∀ l ∈ links, l.sign.Joins l.op ∧ Atom r.arities l.tokens l.operand) →
      ComparesOnce (links.map Link.op) → r.rest = ts ++ (Link.spelled links ++ more) →
      (∀ op, ¬(more.headD r.finish).Joins op) →
      ∃ tree r', Grammar.expr n r = .ok tree r' ∧ r'.rest = more ∧
        tree.inOrder = (first, links.map fun l => (l.op, l.operand)) ∧ tree.Grouped := by
  constructor
  · intro r n hfinish hn
    refine ⟨Grammar.climb_eq_sum hfinish hn, fun r' hout => ?_⟩
    have hended := Grammar.climb_ended hfinish hn
    rw [hout] at hended
    cases hended
  · intro r n ts first links more hfinish hn hfirst hlinks honce hrest hstop
    have hchained : Chained r.arities r.finish 1 links more :=
      ⟨fun l hl => (hlinks l hl).1, fun l hl => (hlinks l hl).2, fun l _ => l.op.strength_pos, honce,
        fun op hop => absurd hop (hstop op)⟩
    have hread := Grammar.expr_readsChains n r ts first links more hfirst hchained hrest
    have hended := Grammar.expr_ends hn r hfinish (Nat.le_refl _)
    generalize Grammar.expr n r = result at hread hended
    cases hread with
    | outOfFuel => cases hended
    | ok hbuilt => exact ⟨_, _, rfl, hbuilt.reaches.rest, hbuilt.inOrder, hbuilt.grouped⟩

theorem operators_group_by_strength_mixed :
    Grammar.climb 60 0 (.start (tokenize ":a - XCOR * YCOR < HEADING AND POS") []) =
        Grammar.sum 60 (.start (tokenize ":a - XCOR * YCOR < HEADING AND POS") []) ∧
      ∃ tree r', Grammar.expr 60 (.start (tokenize ":a - XCOR * YCOR < HEADING AND POS") []) = .ok tree r' ∧
        r'.rest = [] ∧ tree.Grouped ∧
        tree.inOrder = (.thing ⟨0, 2⟩ "a", [(.sub, .query ⟨5, 9⟩ .xCor), (.mul, .query ⟨12, 16⟩ .yCor),
          (.lt, .query ⟨19, 26⟩ .heading), (.and, .query ⟨31, 34⟩ .pos)]) := by
  let links : List Link :=
    [⟨⟨.mark .minus, "-", ⟨3, 4⟩⟩, .sub, [⟨.word, "XCOR", ⟨5, 9⟩⟩], .query ⟨5, 9⟩ .xCor⟩,
      ⟨⟨.mark .star, "*", ⟨10, 11⟩⟩, .mul, [⟨.word, "YCOR", ⟨12, 16⟩⟩], .query ⟨12, 16⟩ .yCor⟩,
      ⟨⟨.mark .less, "<", ⟨17, 18⟩⟩, .lt, [⟨.word, "HEADING", ⟨19, 26⟩⟩], .query ⟨19, 26⟩ .heading⟩,
      ⟨⟨.word, "AND", ⟨27, 30⟩⟩, .and, [⟨.word, "POS", ⟨31, 34⟩⟩], .query ⟨31, 34⟩ .pos⟩]
  let r : Reader :=
    ⟨[⟨.mark .colon, ":", ⟨0, 1⟩⟩, ⟨.word, "a", ⟨1, 2⟩⟩] ++ (Link.spelled links ++ []), .finishAt 34, ⟨34, 34⟩, {}⟩
  have hstart : Reader.start (tokenize ":a - XCOR * YCOR < HEADING AND POS") [] = r := by cbv
  have hlinks : ∀ l ∈ links, l.sign.Joins l.op ∧ Atom {} l.tokens l.operand := by
    simp only [links, List.forall_mem_cons]
    refine ⟨⟨.inl ⟨_, rfl⟩, .query rfl ?_⟩, ⟨.inl ⟨_, rfl⟩, .query rfl ?_⟩, ⟨.inr (.inl rfl), .query rfl ?_⟩,
      ⟨.inr (.inr (.inl ⟨?_, rfl⟩)), .query rfl ?_⟩, by simp⟩ <;> cbv
  have honce : ComparesOnce (links.map Link.op) := fun run hrun _ => hrun.sublist.countP_le
  have hstop : ∀ op, ¬(Token.finishAt 34).Joins op :=
    fun op hop => absurd (Token.isFinish_of_joins hop) (by simp [Token.finishAt, Token.isFinish])
  rw [hstart]
  obtain ⟨tree, r', hread, hrest, hreading, hgrouped⟩ := operators_group_by_strength.2 r 60 _ _ links [] rfl
    (by simp [r, links]) (.thing rfl rfl) hlinks honce rfl hstop
  have hclimb := (operators_group_by_strength.1 r 60 rfl (by simp [r, links])).1
  exact ⟨hclimb, tree, r', hread, hrest, hgrouped, hreading⟩

end Logo
