import Logo.Proofs.Print
import Logo.Proofs.Reads
import Logo.Proofs.Renaming.Grammar

/-! Written expressions are read back. At each level of the grammar operands in parentheses are read up to the token
behind them; from the levels follows what is read of each form of expression. -/
namespace Logo

def Renaming.placeless : Renaming where
  span _ := .none
  name := id
  description := id
  span_merge _ _ := rfl
  fold_name _ := rfl
  name_folded _ _ := rfl
  description_finish := rfl
  description_text _ := rfl

/-! The words of the vocabulary are found under their names, and nowhere else. -/

theorem Operation.ofWord?_self (op : Operation) : Operation.ofWord? op.name = some op := by
  rw [ofWord?, op.fold_name]
  cases op <;> rfl

theorem Traversal.ofWord?_self (t : Traversal) : Traversal.ofWord? t.name = some t := by
  rw [ofWord?, t.fold_name]
  cases t <;> rfl

theorem Query.ofWord?_self (q : Query) : Query.ofWord? q.name = some q := by
  rw [ofWord?, q.fold_name]
  cases q <;> rfl

theorem Command.ofWord?_self (c : Command) : Command.ofWord? c.name = some c := by
  rw [ofWord?, c.fold_name]
  cases c <;> rfl

theorem Keyword.ofWord?_self (k : Keyword) : Keyword.ofWord? k.name = some k := by
  rw [ofWord?, k.fold_name]
  cases k <;> rfl

theorem Command.not_keyword (c : Command) : Keyword.ofWord? c.name = none := by
  rw [Keyword.ofWord?, c.fold_name]
  cases c <;> rfl

theorem Operation.not_keyword (op : Operation) : Keyword.ofWord? op.name = none := by
  rw [Keyword.ofWord?, op.fold_name]
  cases op <;> rfl

theorem Operation.not_command (op : Operation) : Command.ofWord? op.name = none := by
  rw [Command.ofWord?, op.fold_name]
  cases op <;> rfl

theorem Traversal.not_keyword (t : Traversal) : Keyword.ofWord? t.name = none := by
  rw [Keyword.ofWord?, t.fold_name]
  cases t <;> rfl

theorem Traversal.not_command (t : Traversal) : Command.ofWord? t.name = none := by
  rw [Command.ofWord?, t.fold_name]
  cases t <;> rfl

theorem Query.not_keyword (q : Query) : Keyword.ofWord? q.name = none := by
  rw [Keyword.ofWord?, q.fold_name]
  cases q <;> rfl

theorem Query.not_command {q : Query} (hq : q ≠ .penSize) : Command.ofWord? q.name = none := by
  rw [Command.ofWord?, q.fold_name]
  cases q
  case penSize => exact absurd rfl hq
  all_goals rfl

theorem Traversal.not_operation (t : Traversal) : Operation.ofWord? t.name = none := by
  rw [Operation.ofWord?, t.fold_name]
  cases t <;> rfl

theorem Query.not_operation (q : Query) : Operation.ofWord? q.name = none := by
  rw [Operation.ofWord?, q.fold_name]
  cases q <;> rfl

theorem Query.not_traversal (q : Query) : Traversal.ofWord? q.name = none := by
  rw [Traversal.ofWord?, q.fold_name]
  cases q <;> rfl

theorem Callable.none {name : String} (h : Callable name) :
    Keyword.ofWord? (Token.word name).text = .none ∧ Command.ofWord? (Token.word name).text = .none ∧
      Operation.ofWord? (Token.word name).text = .none ∧ Traversal.ofWord? (Token.word name).text = .none ∧
      Query.ofWord? (Token.word name).text = .none := by
  have hkeyword := h.not_keyword
  have hbuiltin := h.not_builtin
  simp only [isKeyword, isBuiltin, Bool.or_eq_false_iff, Option.isSome_eq_false_iff, Option.isNone_iff_eq_none]
    at hkeyword hbuiltin
  obtain ⟨⟨⟨hcommand, hoperation⟩, htraversal⟩, hquery⟩ := hbuiltin
  exact ⟨hkeyword, hcommand, hoperation, htraversal, hquery⟩

theorem Expr.writtenAll_eq_flatMap (l : Layout) (es : List Expr) :
    Expr.writtenAll l es = es.flatMap fun e => l.parens (e.written l) := by
  induction es with
  | nil => rfl
  | cons e rest ih => rw [Expr.writtenAll, ih, List.flatMap_cons]

theorem Stmt.writtenAll_eq_flatMap (l : Layout) (body : List Stmt) :
    Stmt.writtenAll l body = body.flatMap fun s => s.written l := by
  induction body with
  | nil => rfl
  | cons s rest ih => rw [Stmt.writtenAll, ih, List.flatMap_cons]

@[simp] theorem Layout.length_parens (l : Layout) (ts : List Token) : (l.parens ts).length = ts.length + 2 := by
  simp [parens]

@[simp] theorem Layout.length_brackets (l : Layout) (ts : List Token) : (l.brackets ts).length = ts.length + 2 := by
  simp [brackets]

theorem Expr.length_written_of_mem (l : Layout) {e : Expr} {es : List Expr} (h : e ∈ es) :
    (e.written l).length + 2 ≤ (Expr.writtenAll l es).length := by
  induction es with
  | nil => cases h
  | cons d rest ih =>
    rw [Expr.writtenAll, List.length_append, Layout.length_parens]
    rcases List.mem_cons.mp h with rfl | hrest
    · omega
    · have hle := ih hrest
      omega

theorem Expr.length_le_writtenAll (l : Layout) (es : List Expr) : es.length ≤ (Expr.writtenAll l es).length := by
  induction es with
  | nil => exact Nat.le_refl _
  | cons e rest ih =>
    rw [Expr.writtenAll, List.length_append, Layout.length_parens, List.length_cons]
    omega

theorem Expr.rename_binary (span : Span) (op : BinaryOp) (left right : Expr) :
    (Expr.binary span op left right).rename .placeless =
      (left.rename .placeless).join op (right.rename .placeless) := by
  rw [join, span_rename, span_rename]
  rfl

namespace Grammar
open Parse

structure Stops (t : Token) : Prop where
  arithmetic : arithmetic? t = none
  comparison : comparison? t = none
  conjunction : t.isNamed "AND" = false
  disjunction : t.isNamed "OR" = false

theorem stops_mark {m : Mark} {text : String} {span : Span} (harith : arithmetic? ⟨.mark m, text, span⟩ = none)
    (hcomp : comparison? ⟨.mark m, text, span⟩ = none) : Stops ⟨.mark m, text, span⟩ :=
  ⟨harith, hcomp, rfl, rfl⟩

theorem arithmetic?_word {name : String} (h : fold name ≠ "MOD") : arithmetic? (.word name) = none :=
  if_neg (by simpa [Token.isNamed, Token.isWord, Token.word] using h)

theorem stops_word {name : String} (h : fold name ∉ ["AND", "OR", "NOT", "MOD"]) : Stops (.word name) := by
  simp only [List.mem_cons, List.not_mem_nil, or_false, not_or] at h
  obtain ⟨hand, hor, hnot, hmod⟩ := h
  exact ⟨arithmetic?_word hmod, rfl, beq_eq_false_iff_ne.mpr hand, beq_eq_false_iff_ne.mpr hor⟩

theorem stops_finish {t : Token} (h : t.isFinish = true) : Stops t := by
  obtain ⟨kind, text, span⟩ := t
  cases kind with
  | finish => exact ⟨rfl, rfl, rfl, rfl⟩
  | _ => cases h

section
variable {finish : Token} {known : Table Nat} {ts us : List Token} {a b : Expr} {t : Token} {fit fit' : Token → Prop}
  {n : Nat}

theorem input_reads {p : Parse Expr} {owner : String} (ht : endsInputs t = false)
    (h : Reads finish known p (t :: ts) a fit) : Reads finish known (input p owner) (t :: ts) a fit := by
  refine .peek ?_
  rw [ht]
  exact h

theorem arguments_read {p : Parse Expr} {written : Expr → List Token} {value : Expr → Expr} {args : List Expr}
    (h : Reads.Each finish known p written value fit args)
    (hopen : ∀ e ∈ args, ∀ t ts, written e = t :: ts → endsInputs t = false) (hn : args.length < n) :
    Reads finish known (arguments p n (some args.length)) (args.flatMap written) (args.map value) fit := by
  induction args generalizing n with
  | nil =>
    obtain ⟨n, rfl⟩ : ∃ k, n = k + 1 := ⟨n - 1, by simp at hn; omega⟩
    exact .peekEnd fun t _ => rfl
  | cons e rest ih =>
    obtain ⟨n, rfl⟩ : ∃ k, n = k + 1 := ⟨n - 1, by simp at hn; omega⟩
    obtain ⟨he, u, us, hwritten, _⟩ := h e (by simp)
    have hu := hopen e (by simp) u us hwritten
    have hrest := ih h.tail (fun d hd => hopen d (by simp [hd])) (n := n) (by simpa using hn)
    have hboth : Reads finish known (do return (← p) :: (← arguments p n (some rest.length)))
        (written e ++ rest.flatMap written) (value e :: rest.map value) fit :=
      he.bind (.bindLast hrest .pure) fun more hmore => h.tail.next more hmore
    rw [List.flatMap_cons]
    rw [hwritten] at hboth ⊢
    refine .peek ?_
    rw [hu]
    exact hboth

theorem chain_single {word : String} {op : BinaryOp} {operand : Parse Expr} (h : Reads finish known operand ts a fit)
    (hfit : ∀ t, fit t → t.isNamed word = false) : Reads finish known (chain word op operand (n + 1)) ts a fit :=
  h.bindLast (.peekEnd fun t ht => by rw [hfit t ht]; rfl)

theorem chain_pair {word : String} {op : BinaryOp} {operand : Parse Expr} (h : Reads finish known operand ts a fit)
    (h' : Reads finish known operand us b fit') (hspan : t.span = .none) (hword : t.isNamed word = true) (ht : fit t)
    (hfit : ∀ t, fit' t → t.isNamed word = false) :
    Reads finish known (chain word op operand (n + 2)) (ts ++ t :: us) (a.join op b) fit' := by
  refine h.bindCons (.peek ?_) ht
  rw [hword]
  exact (Reads.skip hspan).seq (h'.bindLast (.peekEnd fun t ht => by rw [hfit t ht]; rfl))

theorem comparison_single {operand : Parse Expr} (h : Reads finish known operand ts a fit)
    (hfit : ∀ t, fit t → comparison? t = none) : Reads finish known (comparison operand) ts a fit :=
  h.bindLast (.peekEnd fun t ht => by rw [hfit t ht])

theorem comparison_pair {op : BinaryOp} {operand : Parse Expr} (h : Reads finish known operand ts a fit)
    (h' : Reads finish known operand us b fit') (hspan : t.span = .none) (hop : comparison? t = some op) (ht : fit t) :
    Reads finish known (comparison operand) (ts ++ t :: us) (a.join op b) fit' := by
  refine h.bindCons (.peek ?_) ht
  rw [hop]
  exact (Reads.skip hspan).seq (h'.bindLast .pure)

theorem climb_of_signed (least : Nat) (h : Reads finish known (signed (n + 1)) ts a fit)
    (hfit : ∀ t, fit t → arithmetic? t = none) : Reads finish known (climb (n + 2) least) ts a fit :=
  h.bindLast (.peekEnd fun t ht => by rw [hfit t ht])

theorem climb_pair {op : BinaryOp} {strength : Nat} (h : Reads finish known (signed (n + 2)) ts a fun _ => True)
    (h' : Reads finish known (climb (n + 2) (strength + 1)) us b fit) (hspan : t.span = .none)
    (hop : arithmetic? t = some (op, strength)) (hfit : ∀ t, fit t → arithmetic? t = none) :
    Reads finish known (climb (n + 3) 0) (ts ++ t :: us) (a.join op b) fit := by
  refine h.seq (.peek ?_)
  rw [hop]
  exact (Reads.skip hspan).seq (h'.bindLast (.peekEnd fun t ht => by rw [hfit t ht]))

theorem signed_of_primary (hsign : sign? t = none) (h : Reads finish known (primary n) (t :: ts) a fit) :
    Reads finish known (signed (n + 1)) (t :: ts) a fit := by
  refine .peek ?_
  rw [hsign]
  exact h

theorem negation_of_climb (hnot : t.isNamed "NOT" = false)
    (h : Reads finish known (comparison (climb n 0)) (t :: ts) a fit) :
    Reads finish known (negation (n + 1)) (t :: ts) a fit := by
  refine .peek ?_
  rw [hnot]
  exact h

theorem expr_of_negation (h : Reads finish known (negation (n + 1)) ts a fit)
    (hand : ∀ t, fit t → t.isNamed "AND" = false) (hor : ∀ t, fit t → t.isNamed "OR" = false) :
    Reads finish known (expr (n + 2)) ts a fit :=
  chain_single (chain_single h hand) hor

theorem expr_of_primary (hsign : sign? t = none) (hnot : t.isNamed "NOT" = false)
    (h : Reads finish known (primary (n + 1)) (t :: ts) a Stops) :
    Reads finish known (expr (n + 5)) (t :: ts) a Stops :=
  have hclimb := climb_of_signed 0 (signed_of_primary hsign h) fun _ ht => ht.arithmetic
  expr_of_negation (negation_of_climb hnot (comparison_single hclimb fun _ ht => ht.comparison))
    (fun _ ht => ht.conjunction) fun _ ht => ht.disjunction

/-! What stands in parentheses can be followed by anything that the level of the grammar does not take. -/

section
variable (l : Layout) (h : Reads finish known (expr n) ts a Stops)
include h

theorem primary_parens : Reads finish known (primary (n + 1)) (l.parens ts) a fit :=
  .peek ((Reads.skip rfl).seq (h.bindCons ((Reads.expectMark rfl rfl).seq .pure) (stops_mark rfl rfl)))

theorem signed_parens : Reads finish known (signed (n + 2)) (l.parens ts) a fit :=
  signed_of_primary rfl (primary_parens l h)

theorem climb_parens (least : Nat) (harith : ∀ t, fit t → arithmetic? t = none) :
    Reads finish known (climb (n + 3) least) (l.parens ts) a fit :=
  climb_of_signed least (signed_parens l h) harith

theorem negation_parens (harith : ∀ t, fit t → arithmetic? t = none) (hcomp : ∀ t, fit t → comparison? t = none) :
    Reads finish known (negation (n + 4)) (l.parens ts) a fit :=
  negation_of_climb rfl (comparison_single (climb_parens l h 0 harith) hcomp)

theorem expr_parens : Reads finish known (expr (n + 5)) (l.parens ts) a Stops :=
  expr_of_primary rfl rfl (primary_parens l h)

end
/-! An expression that starts with a word. -/

section
variable {p : Parse Expr} {vals : List Expr}

theorem wordExpr_operation (op : Operation) (h : Reads finish known ((input p op.name).times op.arity) ts vals fit) :
    Reads finish known (wordExpr p n (.word op.name)) (.word op.name :: ts) (.operation .none op vals) fit := by
  have hword : Operation.ofWord? (Token.word op.name).text = some op := op.ofWord?_self
  unfold wordExpr
  rw [hword]
  exact (Reads.skip rfl).seq (h.bindLast (Reads.spanFrom.bindLast .pure))

theorem wordExpr_traverse (t : Traversal) (l : Layout) (name : String)
    (h : Reads finish known (input p t.name) ts a fit) :
    Reads finish known (wordExpr p n (.word t.name)) (.word t.name :: l.mark .quote :: .word name :: ts)
      (.traverse .none t name a) fit := by
  have hoperation : Operation.ofWord? (Token.word t.name).text = none := t.not_operation
  have hword : Traversal.ofWord? (Token.word t.name).text = some t := t.ofWord?_self
  unfold wordExpr
  rw [hoperation, hword]
  refine (Reads.skip rfl).seq ((Reads.skipMark (t := l.mark .quote) rfl rfl).seq ?_)
  exact (Reads.expectWord (t := .word name) rfl rfl).seq (h.bindLast (Reads.spanFrom.bindLast .pure))

theorem wordExpr_query (q : Query) :
    Reads finish known (wordExpr p n (.word q.name)) [.word q.name] (.query .none q) fit := by
  have hoperation : Operation.ofWord? (Token.word q.name).text = none := q.not_operation
  have htraversal : Traversal.ofWord? (Token.word q.name).text = none := q.not_traversal
  have hword : Query.ofWord? (Token.word q.name).text = some q := q.ofWord?_self
  unfold wordExpr
  rw [hoperation, htraversal, hword]
  exact (Reads.skip rfl).seq .pure

theorem wordExpr_call {name : String} {count : Nat} (hname : Callable name) (hcount : known.find? name = some count)
    (h : Reads finish known (arguments p n (some count)) ts vals fit) :
    Reads finish known (wordExpr p n (.word name)) (.word name :: ts) (.call .none name vals) fit := by
  obtain ⟨_, hcommand, hoperation, htraversal, hquery⟩ := hname.none
  have hkeyword : isKeyword (Token.word name).text = false := hname.not_keyword
  have hknown : known.find? (Token.word name).text = some count := hcount
  unfold wordExpr
  rw [hoperation, htraversal, hquery, hkeyword, hcommand]
  refine .get fun r hr => ?_
  rw [hr, hknown]
  exact (Reads.skip rfl).seq (h.bindLast (Reads.spanFrom.bindLast .pure))

end
/-! Operators between and before operands in parentheses. -/

section
variable (l : Layout) {op : BinaryOp}

theorem expr_arithmetic {strength : Nat} (hl : Reads finish known (expr (n + 1)) ts a Stops)
    (hr : Reads finish known (expr n) us b Stops) (hspan : t.span = .none)
    (hop : arithmetic? t = some (op, strength)) :
    Reads finish known (expr (n + 6)) (l.parens ts ++ t :: l.parens us) (a.join op b) Stops :=
  have hright := climb_parens l hr (strength + 1) fun _ ht => ht.arithmetic
  have hclimb := climb_pair (signed_parens l hl) hright hspan hop fun _ ht => ht.arithmetic
  expr_of_negation (negation_of_climb rfl (comparison_single hclimb fun _ ht => ht.comparison))
    (fun _ ht => ht.conjunction) fun _ ht => ht.disjunction

theorem expr_comparison (hl : Reads finish known (expr n) ts a Stops) (hr : Reads finish known (expr n) us b Stops)
    (hspan : t.span = .none) (hop : comparison? t = some op) (harith : arithmetic? t = none) :
    Reads finish known (expr (n + 5)) (l.parens ts ++ t :: l.parens us) (a.join op b) Stops :=
  have hleft := climb_parens l hl 0 fun _ ht => ht
  have hright := climb_parens l hr 0 fun _ ht => ht.arithmetic
  expr_of_negation (negation_of_climb rfl (comparison_pair hleft hright hspan hop harith))
    (fun _ ht => ht.conjunction) fun _ ht => ht.disjunction

theorem expr_conjunction (hl : Reads finish known (expr n) ts a Stops) (hr : Reads finish known (expr n) us b Stops) :
    Reads finish known (expr (n + 5)) (l.parens ts ++ .word "AND" :: l.parens us) (a.join .and b) Stops := by
  have hfold : fold "AND" = "AND" := BinaryOp.and.fold_sign
  have hleft : Reads finish known (negation (n + 4)) (l.parens ts) a
      fun t => arithmetic? t = none ∧ comparison? t = none :=
    negation_parens l hl (fun _ ht => ht.1) fun _ ht => ht.2
  have hright := negation_parens l hr (fun _ ht => Stops.arithmetic ht) fun _ ht => ht.comparison
  refine chain_single (chain_pair hleft hright rfl (beq_iff_eq.mpr hfold) ⟨arithmetic?_word ?_, rfl⟩ ?_) ?_
  · rw [hfold]
    decide
  · exact fun _ ht => ht.conjunction
  · exact fun _ ht => ht.disjunction

theorem expr_disjunction (hl : Reads finish known (expr n) ts a Stops) (hr : Reads finish known (expr n) us b Stops) :
    Reads finish known (expr (n + 5)) (l.parens ts ++ .word "OR" :: l.parens us) (a.join .or b) Stops := by
  have hfold : fold "OR" = "OR" := BinaryOp.or.fold_sign
  have hleft : Reads finish known (chain "AND" .and (negation (n + 4)) (n + 4)) (l.parens ts) a
      fun t => (arithmetic? t = none ∧ comparison? t = none) ∧ t.isNamed "AND" = false :=
    chain_single (negation_parens l hl (fun _ ht => ht.1.1) fun _ ht => ht.1.2) fun _ ht => ht.2
  have hright : Reads finish known (chain "AND" .and (negation (n + 4)) (n + 4)) (l.parens us) b Stops :=
    chain_single (negation_parens l hr (fun _ ht => ht.arithmetic) fun _ ht => ht.comparison) fun _ ht => ht.conjunction
  have hor : ∀ word, "OR" ≠ word → (Token.word "OR").isNamed word = false := fun word hne =>
    beq_eq_false_iff_ne.mpr (hfold.symm ▸ hne)
  refine chain_pair hleft hright rfl (beq_iff_eq.mpr hfold) ⟨⟨arithmetic?_word ?_, rfl⟩, hor "AND" (by decide)⟩ ?_
  · rw [hfold]
    decide
  · exact fun _ ht => ht.disjunction

theorem signed_unary {op : UnaryOp} (hspan : t.span = .none) (hop : sign? t = some op) (ha : a.span = .none)
    (h : Reads finish known (signed n) ts a fit) :
    Reads finish known (signed (n + 1)) (t :: ts) (.unary .none op a) fit := by
  have hmerge : t.span.merge a.span = .none := by rw [hspan, ha]; rfl
  refine .peek ?_
  rw [hop]
  refine (Reads.skip hspan).seq (h.bindLast ?_)
  rw [hmerge]
  exact .pure

theorem negation_not (hspan : t.span = .none) (hnot : t.isNamed "NOT" = true) (ha : a.span = .none)
    (h : Reads finish known (negation n) ts a fit) :
    Reads finish known (negation (n + 1)) (t :: ts) (.unary .none .not a) fit := by
  have hmerge : t.span.merge a.span = .none := by rw [hspan, ha]; rfl
  refine .peek ?_
  rw [hnot]
  refine (Reads.skip hspan).seq (h.bindLast ?_)
  rw [hmerge]
  exact .pure

end
end

section
variable (l : Layout) (finish : Token) (known : Table Nat)

/-- The written expression is read as it was. Each of its tokens pays for the levels of the grammar that lead to it. -/
def ReadsBack (e : Expr) : Prop :=
  ∀ n, 8 * (e.written l).length + 8 ≤ n → Reads finish known (expr n) (e.written l) (e.rename .placeless) Stops

end

section
variable {l : Layout} {finish : Token} {known : Table Nat} {n : Nat}

/-- The inputs of a call, each in parentheses. -/
theorem each_argument {args : List Expr} (h : ∀ e ∈ args, ReadsBack l finish known e)
    (hn : 8 * (Expr.writtenAll l args).length ≤ n + 8) :
    Reads.Each finish known (expr (n + 5)) (fun e => l.parens (e.written l)) (Expr.rename .placeless) Stops args := by
  intro e he
  have hlength := Expr.length_written_of_mem l he
  exact ⟨expr_parens l (h e he n (by omega)), _, _, rfl, stops_mark rfl rfl⟩

theorem each_item {items : List Expr} (h : ∀ e ∈ items, ReadsBack l finish known e)
    (hn : 8 * (Expr.writtenAll l items).length ≤ n + 8) :
    Reads.Each finish known (primary (n + 1)) (fun e => l.parens (e.written l)) (Expr.rename .placeless)
      (fun _ => True) items := by
  intro e he
  have hlength := Expr.length_written_of_mem l he
  exact ⟨primary_parens l (h e he n (by omega)), _, _, rfl, trivial⟩

theorem each_input (owner : String) {args : List Expr} (h : ∀ e ∈ args, ReadsBack l finish known e)
    (hn : 8 * (Expr.writtenAll l args).length ≤ n + 8) :
    Reads.Each finish known (input (expr (n + 5)) owner) (fun e => l.parens (e.written l)) (Expr.rename .placeless)
      Stops args :=
  fun e he => ⟨input_reads rfl (each_argument h hn e he).1, _, _, rfl, stops_mark rfl rfl⟩

theorem list_readsBack (span : Span) {items : List Expr} (h : ∀ e ∈ items, ReadsBack l finish known e) :
    ReadsBack l finish known (.list span items) := by
  intro n hn
  rw [Expr.written, Layout.length_brackets] at hn
  obtain ⟨n, rfl⟩ : ∃ k, n = k + 6 := ⟨n - 6, by omega⟩
  have hcount := Expr.length_le_writtenAll l items
  have hitems : Reads finish known ((primary (n + 1)).upTo (·.isMark .rightBracket) "`]`" (n + 1))
      (Expr.writtenAll l items ++ [l.mark .rightBracket]) (items.map (Expr.rename .placeless)) Stops := by
    rw [Expr.writtenAll_eq_flatMap]
    refine .upTo (each_item h (by omega)) (fun e _ t ts ht => ?_) rfl rfl trivial (by omega)
    exact (List.cons.inj ht).1 ▸ ⟨rfl, rfl⟩
  rw [Expr.rename, Expr.renameAll_eq_map]
  refine expr_of_primary rfl rfl (.peek ((Reads.skip rfl).seq (hitems.bindLast ?_)))
  exact Reads.spanFrom.bindLast .pure

theorem word_starts {name : String} (h : fold name ∉ ["AND", "OR", "NOT", "MOD"]) :
    (Token.word name).isNamed "NOT" = false := by
  refine beq_eq_false_iff_ne.mpr fun (hnot : fold name = "NOT") => h ?_
  rw [hnot]
  decide

theorem operation_readsBack (span : Span) {op : Operation} {args : List Expr} (hargs : args.length = op.arity)
    (h : ∀ e ∈ args, ReadsBack l finish known e) : ReadsBack l finish known (.operation span op args) := by
  intro n hn
  rw [Expr.written, List.length_cons] at hn
  obtain ⟨n, rfl⟩ : ∃ k, n = k + 10 := ⟨n - 10, by omega⟩
  have hinputs := Reads.times (each_input op.name h (n := n) (by omega))
  rw [hargs, ← Expr.writtenAll_eq_flatMap] at hinputs
  have hop : fold op.name ∉ ["AND", "OR", "NOT", "MOD"] := by
    rw [op.fold_name]
    cases op <;> decide
  rw [Expr.rename, Expr.renameAll_eq_map]
  exact expr_of_primary rfl (word_starts hop) (.peek (wordExpr_operation op hinputs))

theorem call_readsBack (span : Span) {name : String} {args : List Expr} (hname : Callable name)
    (hargs : known.find? name = some args.length) (h : ∀ e ∈ args, ReadsBack l finish known e) :
    ReadsBack l finish known (.call span name args) := by
  intro n hn
  rw [Expr.written, List.length_cons] at hn
  obtain ⟨n, rfl⟩ : ∃ k, n = k + 10 := ⟨n - 10, by omega⟩
  have hcount := Expr.length_le_writtenAll l args
  have hinputs := arguments_read (each_argument h (n := n) (by omega))
    (fun e _ t ts ht => (List.cons.inj ht).1 ▸ rfl) (n := n + 5) (by omega)
  rw [← Expr.writtenAll_eq_flatMap] at hinputs
  rw [Expr.rename, Expr.renameAll_eq_map]
  exact expr_of_primary rfl (word_starts hname.not_operator) (.peek (wordExpr_call hname hargs hinputs))

theorem traverse_readsBack (span : Span) (t : Traversal) (name : String) {items : Expr}
    (h : ReadsBack l finish known items) : ReadsBack l finish known (.traverse span t name items) := by
  intro n hn
  simp only [Expr.written, List.length_cons, Layout.length_parens] at hn
  obtain ⟨n, rfl⟩ : ∃ k, n = k + 10 := ⟨n - 10, by omega⟩
  have hlist := expr_parens l (h n (by omega))
  have ht : fold t.name ∉ ["AND", "OR", "NOT", "MOD"] := by
    rw [t.fold_name]
    cases t <;> decide
  exact expr_of_primary rfl (word_starts ht) (.peek (wordExpr_traverse t l name (input_reads rfl hlist)))

theorem query_readsBack (span : Span) (q : Query) : ReadsBack l finish known (.query span q) := by
  intro n hn
  obtain ⟨n, rfl⟩ : ∃ k, n = k + 6 := ⟨n - 6, by omega⟩
  have hq : fold q.name ∉ ["AND", "OR", "NOT", "MOD"] := by
    rw [q.fold_name]
    cases q <;> decide
  exact expr_of_primary rfl (word_starts hq) (.peek (wordExpr_query q))

theorem binary_readsBack (span : Span) (op : BinaryOp) {left right : Expr} (hleft : ReadsBack l finish known left)
    (hright : ReadsBack l finish known right) : ReadsBack l finish known (.binary span op left right) := by
  intro n hn
  rw [Expr.written, List.length_append, Layout.length_parens, List.length_cons, Layout.length_parens] at hn
  obtain ⟨n, rfl⟩ : ∃ k, n = k + 6 := ⟨n - 6, by omega⟩
  rw [Expr.written, Expr.rename_binary]
  have hl := hleft (n + 1) (by omega)
  -- The right side of an arithmetic operator is read one level further down than the others'.
  have hr := hright n (by omega)
  have hr' := hright (n + 1) (by omega)
  cases op
  case and => exact expr_conjunction l hl hr'
  case or => exact expr_disjunction l hl hr'
  case mod => exact expr_arithmetic l hl hr rfl (if_pos (beq_iff_eq.mpr BinaryOp.mod.fold_sign))
  case eq | ne | lt | le | gt | ge => exact expr_comparison l hl hr' rfl rfl rfl
  all_goals exact expr_arithmetic l hl hr rfl rfl

theorem unary_readsBack (span : Span) (op : UnaryOp) {operand : Expr} (h : ReadsBack l finish known operand) :
    ReadsBack l finish known (.unary span op operand) := by
  intro n hn
  rw [Expr.written, List.length_cons, Layout.length_parens] at hn
  obtain ⟨n, rfl⟩ : ∃ k, n = k + 6 := ⟨n - 6, by omega⟩
  have hoperand := h n (by omega)
  have hspan := operand.span_rename .placeless
  -- Signs bind more tightly than comparisons, and `NOT` less.
  have hsigned : ∀ {t : Token} {op : UnaryOp}, t.span = .none → sign? t = some op → t.isNamed "NOT" = false →
      Reads finish known (expr (n + 6)) (t :: l.parens (operand.written l))
        (.unary .none op (operand.rename .placeless)) Stops := by
    intro t op ht hop hnot
    have hclimb := climb_of_signed 0 (signed_unary ht hop hspan (signed_parens l hoperand))
      fun _ hu => Stops.arithmetic hu
    exact expr_of_negation (negation_of_climb hnot (comparison_single hclimb fun _ hu => hu.comparison))
      (fun _ hu => hu.conjunction) fun _ hu => hu.disjunction
  cases op with
  | neg => exact hsigned rfl rfl rfl
  | plus => exact hsigned rfl rfl rfl
  | not =>
    have hnegation := negation_parens l hoperand (fun _ hu => Stops.arithmetic hu) fun _ hu => hu.comparison
    exact expr_of_negation (negation_not rfl (beq_iff_eq.mpr UnaryOp.not.fold_sign) hspan hnegation)
      (fun _ hu => hu.conjunction) fun _ hu => hu.disjunction

mutual

theorem expr_readsBack : (e : Expr) → e.WellFormed known.find? → ReadsBack l finish known e
  | .number _ value, _ => by
    intro n hn
    obtain ⟨n, rfl⟩ : ∃ k, n = k + 5 := ⟨n - 5, by omega⟩
    exact expr_of_primary rfl rfl (.peek ((Reads.skip rfl).seq .pure))
  | .list span items, h => list_readsBack span (exprs_readBack items h)
  | .thing _ name, _ => by
    intro n hn
    obtain ⟨n, rfl⟩ : ∃ k, n = k + 5 := ⟨n - 5, by omega⟩
    refine expr_of_primary rfl rfl (.peek ((Reads.skip rfl).seq ?_))
    exact (Reads.expectWord (t := .word name) rfl rfl).seq (Reads.spanFrom.bindLast .pure)
  | .binary span op left right, h => binary_readsBack span op (expr_readsBack left h.1) (expr_readsBack right h.2)
  | .unary span op operand, h => unary_readsBack span op (expr_readsBack operand h)
  | .operation span op args, h => operation_readsBack span h.1 (exprs_readBack args h.2)
  | .traverse span t name items, h => traverse_readsBack span t name (expr_readsBack items h.2)
  | .query span q, _ => query_readsBack span q
  | .call span name args, h => call_readsBack span h.1 h.2.1 (exprs_readBack args h.2.2)

theorem exprs_readBack : (es : List Expr) → Expr.AllWellFormed known.find? es → ∀ e ∈ es, ReadsBack l finish known e
  | [], _ => List.forall_mem_nil _
  | e :: rest, h => List.forall_mem_cons.mpr ⟨expr_readsBack e h.1, exprs_readBack rest h.2⟩

end
end
end Grammar
end Logo
