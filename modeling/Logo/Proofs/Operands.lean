import Logo.Proofs.Layers

/-! Reading operands. A number, a variable, a query, a call without inputs and a list of these end where they end,
whatever comes behind them; so the parser reads each of them alone, unless it runs out of fuel. -/
namespace Logo

/-- An operand that holds no further expression but the items of a list: a number, a variable, a query, a call
without inputs or a list of such. -/
inductive Atom (known : Table Nat) : List Token → Expr → Prop where
  | number {t v} : t.kind = .number v → Atom known [t] (.number t.span v)
  | thing {c w} : c.isMark .colon = true → w.isWord = true → Atom known [c, w] (.thing (c.cover [w]) w.text)
  | query {t q} : t.isWord = true → Query.ofWord? t.text = some q → Atom known [t] (.query t.span q)
  | call {t} : t.Calls → t.isNamed "NOT" = false → known.find? t.text = some 0 →
    Atom known [t] (.call (t.cover []) t.text [])
  | list {l r} {items : List (List Token × Expr)} : l.isMark .leftBracket = true → r.isMark .rightBracket = true →
    (∀ item ∈ items, Atom known item.1 item.2) →
    Atom known (l :: (items.flatMap Prod.fst ++ [r]))
      (.list (l.cover (items.flatMap Prod.fst ++ [r])) (items.map Prod.snd))

/-- The parser succeeds with what `Q` says, or it runs out of fuel. -/
inductive Yields {α : Type} (Q : α → Reader → Prop) : EStateM.Result Halt Reader α → Prop where
  | ok {a r} : Q a r → Yields Q (.ok a r)
  | outOfFuel {r} : Yields Q (.error .outOfFuel r)

theorem Yields.bind {α β : Type} {x : Parse α} {f : α → Parse β} {Q : α → Reader → Prop} {P : β → Reader → Prop}
    {r : Reader} (hx : Yields Q (x r)) (hf : ∀ a r', Q a r' → Yields P (f a r')) : Yields P ((x >>= f) r) := by
  simp only [Bind.bind, EStateM.bind]
  generalize x r = result at hx
  cases hx with
  | ok hQ => exact hf _ _ hQ
  | outOfFuel => exact .outOfFuel

theorem Yields.mono {α : Type} {Q P : α → Reader → Prop} {result : EStateM.Result Halt Reader α} (h : Yields Q result)
    (hQ : ∀ a r, Q a r → P a r) : Yields P result := by
  cases h with
  | ok h => exact .ok (hQ _ _ h)
  | outOfFuel => exact .outOfFuel

theorem Yields.of_approximates {α : Type} {x y : Parse α} {Q : α → Reader → Prop} {r : Reader}
    (hxy : Approximates x y) (hy : Yields Q (y r)) : Yields Q (x r) := by
  rcases hxy r with heq | ⟨r', hout⟩
  · rwa [heq]
  · rw [hout]
    exact .outOfFuel

namespace Reader
variable {r r' r'' : Reader} {t : Token} {ts more : List Token}

structure Reaches (r : Reader) (more : List Token) (r' : Reader) : Prop where
  rest : r'.rest = more
  finish : r'.finish = r.finish
  arities : r'.arities = r.arities

theorem Reaches.trans (h : r.Reaches ts r') (h' : r'.Reaches more r'') : r.Reaches more r'' :=
  ⟨h'.rest, h'.finish.trans h.finish, h'.arities.trans h.arities⟩

theorem head_eq (h : r.rest = t :: ts) : r.head = t := by
  simp [head, h]

theorem reaches_next (h : r.rest = t :: ts) : r.Reaches ts r.next := by
  constructor <;> simp [next, h]

theorem last_next (h : r.rest = t :: ts) : r.next.last = t.span := by
  simp [next, h]

end Reader

/-- The words of queries stand for nothing else. -/
theorem Query.only_query {word : String} {q : Query} (h : Query.ofWord? word = some q) :
    Operation.ofWord? word = none ∧ Traversal.ofWord? word = none ∧ fold word ≠ "NOT" := by
  have hword := List.find?_some h
  simp only [Bool.or_eq_true, beq_iff_eq, List.contains_iff_mem] at hword
  unfold Operation.ofWord? Traversal.ofWord?
  generalize fold word = text at hword
  cases q <;> simp [Query.name, Query.aliases] at hword <;> rcases hword with rfl | rfl <;> decide

namespace Token
variable {t : Token}

theorem kind_of_isMark {m : Mark} (h : t.isMark m = true) : t.kind = .mark m := by
  cases hkind : t.kind <;> simp [isMark, hkind] at h ⊢
  exact h

theorem kind_of_isWord (h : t.isWord = true) : t.kind = .word := by
  cases hkind : t.kind <;> simp [isWord, hkind] at h ⊢

end Token

namespace Atom
variable {known : Table Nat} {ts : List Token} {e : Expr}

/-- An operand starts with a token that is neither a sign nor a negation and closes nothing. -/
theorem starts (h : Atom known ts e) : ∃ t us, ts = t :: us ∧ Grammar.sign? t = none ∧ t.isNamed "NOT" = false ∧
    t.isMark .rightBracket = false ∧ t.isFinish = false := by
  cases h with
  | @number t v hkind =>
    exact ⟨t, _, rfl, by simp [Grammar.sign?, Token.isNamed, Token.isWord, Token.isMark, Token.isFinish, hkind]⟩
  | @thing c w hc hw =>
    have hkind : c.kind = .mark .colon := Token.kind_of_isMark hc
    exact ⟨c, _, rfl, by simp [Grammar.sign?, Token.isNamed, Token.isWord, Token.isMark, Token.isFinish, hkind]⟩
  | @query t q hw hq =>
    have hkind : t.kind = .word := Token.kind_of_isWord hw
    have hnot := (Query.only_query hq).2.2
    exact ⟨t, _, rfl, by simp [Grammar.sign?, Token.isNamed, Token.isMark, Token.isFinish, hkind, hnot]⟩
  | @call t ht hnot hcount =>
    have hkind : t.kind = .word := Token.kind_of_isWord ht.1
    exact ⟨t, _, rfl, by simp [Grammar.sign?, Token.isMark, Token.isFinish, hkind, hnot]⟩
  | @list l r items hl hr hitems =>
    have hkind : l.kind = .mark .leftBracket := Token.kind_of_isMark hl
    exact ⟨l, _, rfl, by simp [Grammar.sign?, Token.isNamed, Token.isWord, Token.isMark, Token.isFinish, hkind]⟩

end Atom

namespace Grammar
open Parse
variable {known : Table Nat}

def ReadsOperand (x : Parse Expr) (known : Table Nat) (ts : List Token) (e : Expr) : Prop :=
  ∀ (r : Reader) (more : List Token), r.arities = known → r.rest = ts ++ more →
    Yields (fun e' r' => e' = e ∧ r.Reaches more r') (x r)

theorem items_read {x : Parse Expr} {close : Token} (hclose : close.isMark .rightBracket = true)
    (items : List (List Token × Expr)) (hatoms : ∀ item ∈ items, Atom known item.1 item.2)
    (hitems : ∀ item ∈ items, ReadsOperand x known item.1 item.2) (fuel : Nat) {r : Reader} {more : List Token}
    (hknown : r.arities = known) (hrest : r.rest = items.flatMap Prod.fst ++ close :: more) :
    Yields (fun es r' => es = items.map Prod.snd ∧ r.Reaches more r' ∧ r'.last = close.span)
      (x.upTo (·.isMark .rightBracket) "`]`" fuel r) := by
  induction fuel generalizing items r with
  | zero => exact .outOfFuel
  | succ fuel ih =>
    cases items with
    | nil =>
      have hrest : r.rest = close :: more := by simpa using hrest
      have hread : x.upTo (·.isMark .rightBracket) "`]`" (fuel + 1) r = .ok [] r.next := by
        simp only [Parse.upTo, run_peek, r.head_eq hrest, hclose]
        rfl
      rw [hread]
      exact .ok ⟨rfl, r.reaches_next hrest, r.last_next hrest⟩
    | cons item items =>
      simp only [List.forall_mem_cons] at hatoms hitems
      obtain ⟨t, us, htokens, -, -, hopen, hfinish⟩ := hatoms.1.starts
      have hrest : r.rest = item.1 ++ (items.flatMap Prod.fst ++ close :: more) := by simpa using hrest
      have hhead : r.head = t := by simp [Reader.head, hrest, htokens]
      have hread : x.upTo (·.isMark .rightBracket) "`]`" (fuel + 1) r =
          (x >>= fun e => x.upTo (·.isMark .rightBracket) "`]`" fuel >>= fun es => pure (e :: es)) r := by
        simp only [Parse.upTo, run_peek, hhead, hopen, hfinish]
        rfl
      rw [hread]
      refine (hitems.1 r _ hknown hrest).bind ?_
      rintro e r₁ ⟨rfl, hr₁⟩
      refine (ih items hatoms.2 hitems.2 (hr₁.arities.trans hknown) hr₁.rest).bind ?_
      rintro es r₂ ⟨rfl, hr₂, hlast⟩
      exact .ok ⟨rfl, hr₁.trans hr₂, hlast⟩

theorem expectWord_of_word {w : Token} {us : List Token} {expected : String} {r : Reader} (hrest : r.rest = w :: us)
    (hw : w.isWord = true) : expectWord expected r = .ok w.text r.next := by
  simp only [expectWord, run_peek, r.head_eq hrest, hw]
  rfl

theorem wordExpr_of_calls {t : Token} (ht : t.Calls) (x : Parse Expr) (n : Nat) (r : Reader) :
    wordExpr x n t r = (arguments x n (r.arities.find? t.text) >>= fun args =>
      spanFrom t.span >>= fun span => pure (.call span t.text args)) r.next := by
  obtain ⟨-, hkeyword, hbuiltin⟩ := ht
  simp only [isBuiltin, Bool.or_eq_false_iff, Option.isSome_eq_false_iff, Option.isNone_iff_eq_none] at hbuiltin
  obtain ⟨⟨⟨hcommand, hoperation⟩, htraversal⟩, hquery⟩ := hbuiltin
  simp only [wordExpr, hoperation, htraversal, hquery, hkeyword, hcommand]
  rfl

theorem no_arguments (x : Parse Expr) (n : Nat) (r : Reader) :
    Yields (fun args r' => args = [] ∧ r' = r) (arguments x n (some 0) r) := by
  cases n with
  | zero => exact .outOfFuel
  | succ n =>
    simp only [arguments, run_peek]
    exact .ok ⟨rfl, rfl⟩

section
variable {t c w l close : Token} {n : Nat}

theorem number_reads {v : Float} (hkind : t.kind = .number v) :
    ReadsOperand (primary (n + 1)) known [t] (.number t.span v) := by
  intro r more hknown hrest
  have hread : primary (n + 1) r = .ok (.number t.span v) r.next := by
    simp only [primary, run_peek, r.head_eq hrest, hkind]
    rfl
  rw [hread]
  exact .ok ⟨rfl, r.reaches_next hrest⟩

theorem thing_reads (hc : c.isMark .colon = true) (hw : w.isWord = true) :
    ReadsOperand (primary (n + 1)) known [c, w] (.thing (c.cover [w]) w.text) := by
  intro r more hknown hrest
  have hnext := r.reaches_next hrest
  have hread : primary (n + 1) r = .ok (.thing (c.span.merge r.next.next.last) w.text) r.next.next := by
    simp only [primary, run_peek, r.head_eq hrest, Token.kind_of_isMark hc]
    exact bind_of_ok (expectWord_of_word hnext.rest hw)
  rw [hread, r.next.last_next hnext.rest]
  exact .ok ⟨rfl, hnext.trans (r.next.reaches_next hnext.rest)⟩

theorem query_reads {q : Query} (hw : t.isWord = true) (hq : Query.ofWord? t.text = some q) :
    ReadsOperand (primary (n + 1)) known [t] (.query t.span q) := by
  intro r more hknown hrest
  obtain ⟨hoperation, htraversal, -⟩ := Query.only_query hq
  have hread : primary (n + 1) r = .ok (.query t.span q) r.next := by
    simp only [primary, run_peek, r.head_eq hrest, Token.kind_of_isWord hw, wordExpr, hoperation, htraversal, hq]
    rfl
  rw [hread]
  exact .ok ⟨rfl, r.reaches_next hrest⟩

theorem call_reads (ht : t.Calls) (hcount : known.find? t.text = some 0) :
    ReadsOperand (primary (n + 1)) known [t] (.call (t.cover []) t.text []) := by
  intro r more hknown hrest
  have hread : primary (n + 1) r = wordExpr (expr n) n t r := by
    simp only [primary, run_peek, r.head_eq hrest, Token.kind_of_isWord ht.1]
  have hspan : t.cover [] = t.span.merge r.next.last := by
    rw [r.last_next hrest]
    rfl
  rw [hread, wordExpr_of_calls ht, hknown, hcount, hspan]
  refine (no_arguments (expr n) n r.next).bind ?_
  rintro _ _ ⟨rfl, rfl⟩
  exact .ok ⟨rfl, r.reaches_next hrest⟩

theorem list_reads {items : List (List Token × Expr)} (hl : l.isMark .leftBracket = true)
    (hclose : close.isMark .rightBracket = true) (hatoms : ∀ item ∈ items, Atom known item.1 item.2)
    (hitems : ∀ item ∈ items, ReadsOperand (primary n) known item.1 item.2) :
    ReadsOperand (primary (n + 1)) known (l :: (items.flatMap Prod.fst ++ [close]))
      (.list (l.cover (items.flatMap Prod.fst ++ [close])) (items.map Prod.snd)) := by
  intro r more hknown hrest
  have hrest : r.rest = l :: (items.flatMap Prod.fst ++ close :: more) := by simpa using hrest
  have hnext := r.reaches_next hrest
  have hread : primary (n + 1) r = ((primary n).upTo (·.isMark .rightBracket) "`]`" n >>= fun items =>
      spanFrom l.span >>= fun span => pure (.list span items)) r.next := by
    simp only [primary, run_peek, r.head_eq hrest, Token.kind_of_isMark hl]
    rfl
  rw [hread]
  refine (items_read hclose items hatoms hitems n (hnext.arities.trans hknown) hnext.rest).bind ?_
  rintro es r₁ ⟨rfl, hr₁, hlast⟩
  have hspan : l.cover (items.flatMap Prod.fst ++ [close]) = l.span.merge r₁.last := by
    rw [hlast, Token.cover, Token.lastSpan_append]
    rfl
  rw [hspan]
  exact .ok ⟨rfl, hnext.trans hr₁⟩

end

section
variable {ts : List Token} {e : Expr} (h : Atom known ts e)
include h

theorem primary_reads (n : Nat) : ReadsOperand (primary n) known ts e := by
  induction n generalizing ts e with
  | zero => exact fun r more _ _ => .outOfFuel
  | succ n ih =>
    cases h with
    | number hkind => exact number_reads hkind
    | thing hc hw => exact thing_reads hc hw
    | query hw hq => exact query_reads hw hq
    | call ht _ hcount => exact call_reads ht hcount
    | list hl hclose hatoms => exact list_reads hl hclose hatoms fun item hitem => ih (hatoms item hitem)

theorem signed_reads (n : Nat) : ReadsOperand (signed n) known ts e := by
  cases n with
  | zero => exact fun r more _ _ => .outOfFuel
  | succ n =>
    intro r more hknown hrest
    obtain ⟨t, us, rfl, hsign, -⟩ := h.starts
    have hhead : r.head = t := r.head_eq hrest
    have hread : signed (n + 1) r = primary n r := by
      simp only [signed, run_peek, hhead, hsign]
    rw [hread]
    exact primary_reads h n r more hknown hrest

end
end Grammar

end Logo
