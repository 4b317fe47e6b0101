import Logo.Proofs.Prescan
import Logo.Proofs.Progress

/-! Reading stays within the tokens. All that the grammar does with a token list is to look at the next token, to go
past it, to look back at the last one and to note procedures, and none of these leaves the tokens up to the first end
token, wherever that stands. Every statement, expression and primary goes past a token, so reading ends. -/
namespace Logo

def Token.closed (tokens : List Token) : List Token :=
  if tokens.getLast?.any Token.isFinish then tokens
  else tokens ++ [.finishAt ((tokens.getLast?.map (·.span.stop)).getD 0)]

def Token.endOf (all : List Token) : Nat := all.findIdx Token.isFinish

/-- The reader stands before the token at `pos`, which is not behind the first end token. -/
structure Reader.At (all : List Token) (pos : Nat) (r : Reader) : Prop where
  within : pos ≤ Token.endOf all
  rest : r.rest = (all.take (Token.endOf all)).drop pos
  finish : all[Token.endOf all]? = some r.finish
  last : 0 < pos → ∃ t, all[pos - 1]? = some t ∧ r.last = t.span

namespace Reader.At
variable {all : List Token} {pos : Nat} {r : Reader}

theorem endOf_lt (h : r.At all pos) : Token.endOf all < all.length := (List.getElem?_eq_some_iff.mp h.finish).1

theorem length_rest (h : r.At all pos) : r.rest.length + pos = Token.endOf all := by
  have hend := h.endOf_lt
  have hpos := h.within
  rw [h.rest, List.length_drop, List.length_take]
  omega

theorem finishes (h : r.At all pos) : r.finish.isFinish = true := by
  obtain ⟨hlt, hfinish⟩ := List.getElem?_eq_some_iff.mp h.finish
  rw [← hfinish]
  exact List.findIdx_getElem

theorem inner (h : r.At all pos) : ∀ t ∈ r.rest, t.isFinish = false := by
  intro t ht
  rw [h.rest] at ht
  exact List.false_of_mem_take_findIdx (List.mem_of_mem_drop ht)

/-- The next token is the one at this place. -/
theorem head (h : r.At all pos) : all[pos]? = some r.head := by
  rcases Nat.lt_or_eq_of_le h.within with hlt | heq
  · have hhead : r.rest[0]? = all[pos]? := by
      rw [h.rest, List.getElem?_drop, Nat.add_zero, List.getElem?_take_of_lt hlt]
    have hend := h.endOf_lt
    cases hrest : r.rest with
    | nil =>
      have hlength := h.length_rest
      simp [hrest] at hlength
      omega
    | cons t rest => simpa [hrest, Reader.head] using hhead.symm
  · have hnil : r.rest = [] := by
      have hlength := h.length_rest
      exact List.eq_nil_of_length_eq_zero (by omega)
    rw [heq, h.finish]
    simp [Reader.head, hnil]

/-- Going on leads to the next place, or nowhere from the end. -/
theorem next (h : r.At all pos) : r.next.At all (if r.head.isFinish then pos else pos + 1) := by
  have hhead := h.head
  have hrest := h.rest
  have hlength := h.length_rest
  cases hr : r.rest with
  | nil =>
    have hfinish : r.head.isFinish = true := by simp [Reader.head, hr, h.finishes]
    simpa [Reader.next, hr, hfinish] using h
  | cons t ts =>
    have ht : r.head = t := by simp [Reader.head, hr]
    have hinner : t.isFinish = false := h.inner t (by simp [hr])
    rw [hr, List.length_cons] at hlength
    rw [ht] at hhead
    simp only [Reader.next, hr, ht, hinner]
    refine ⟨by simp; omega, ?_, h.finish, fun _ => ⟨t, by simpa using hhead, rfl⟩⟩
    have htail := congrArg List.tail (hr.symm.trans hrest)
    simpa [List.tail_drop] using htail

theorem note (h : r.At all pos) (arities : Table Nat) : Reader.At all pos { r with arities } :=
  ⟨h.within, h.rest, h.finish, h.last⟩

end Reader.At

theorem Token.takeWhile_closed (tokens : List Token) :
    (closed tokens).takeWhile (fun t => !t.isFinish) = tokens.takeWhile fun t => !t.isFinish := by
  unfold closed
  split
  · rfl
  · rw [List.takeWhile_append]
    split
    · next hall =>
      rw [(List.takeWhile_prefix _).eq_of_length hall]
      simp [isFinish, finishAt]
    · rfl

theorem Token.find?_closed (tokens : List Token) : (closed tokens).find? isFinish =
    some ((tokens.find? isFinish).getD (.finishAt ((tokens.getLast?.map (·.span.stop)).getD 0))) := by
  unfold closed
  split
  · next hlast =>
    obtain ⟨t, ht, hfinish⟩ : ∃ t, tokens.getLast? = some t ∧ t.isFinish = true := by
      cases hlast' : tokens.getLast? with
      | none => simp [hlast'] at hlast
      | some t => exact ⟨t, rfl, by simpa [hlast'] using hlast⟩
    obtain ⟨u, hu⟩ := Option.isSome_iff_exists.mp (List.find?_isSome.mpr ⟨t, List.mem_of_getLast? ht, hfinish⟩)
    simp [hu]
  · cases htokens : tokens.find? isFinish <;> simp [List.find?_append, htokens, isFinish, finishAt]

theorem Reader.start_at (tokens : List Token) (known : List (String × Nat)) :
    (Reader.start tokens known).At (Token.closed tokens) 0 := by
  refine ⟨Nat.zero_le _, ?_, ?_, fun h => absurd h (Nat.lt_irrefl 0)⟩
  · have htake := Token.takeWhile_closed tokens
    rw [List.takeWhile_eq_take_findIdx_not] at htake
    simp only [Bool.not_not] at htake
    exact htake.symm
  · rw [Token.endOf, ← List.find?_eq_getElem?_findIdx, Token.find?_closed]
    rfl

/-- The parser is put together from steps that look at the next token, go past it, look back at the last one, look up
procedures or note one. -/
inductive Stepwise : {α : Type} → Parse α → Prop where
  | pure {α : Type} (a : α) : Stepwise (Pure.pure a)
  | throw {α : Type} (e : Halt) : Stepwise (throw e : Parse α)
  | peek : Stepwise Parse.peek
  | advance : Stepwise Parse.advance
  | spanFrom (start : Span) : Stepwise (Parse.spanFrom start)
  | known {α : Type} {f : Table Nat → Parse α} : (∀ arities, Stepwise (f arities)) →
    Stepwise (get >>= fun r => f r.arities)
  | note (name : String) (count : Nat) :
    Stepwise (modify fun r : Reader => { r with arities := r.arities.insert name count } : Parse PUnit)
  | bind {α β : Type} {x : Parse α} {f : α → Parse β} : Stepwise x → (∀ a, Stepwise (f a)) → Stepwise (x >>= f)

namespace Stepwise
variable {α β : Type} {x y : Parse α}

/-- However far a parser gets, its reader stands in the tokens, and not before the place where it started. -/
theorem stands (h : Stepwise x) {all : List Token} {pos : Nat} {r : Reader} (hr : r.At all pos) :
    ∃ pos', pos ≤ pos' ∧ (final (x r)).At all pos' := by
  induction h generalizing pos r with
  | pure | throw | peek | spanFrom => exact ⟨pos, Nat.le_refl _, hr⟩
  | advance =>
    refine ⟨_, ?_, hr.next⟩
    split <;> omega
  | known _ ih => exact ih r.arities hr
  | note name count => exact ⟨pos, Nat.le_refl _, hr.note _⟩
  | @bind _ _ x f _ _ ihx ihf =>
    obtain ⟨pos₁, hpos₁, hr₁⟩ := ihx hr
    simp only [Bind.bind, EStateM.bind]
    cases hx : x r with
    | error e r₁ =>
      rw [hx] at hr₁
      exact ⟨pos₁, hpos₁, hr₁⟩
    | ok a r₁ =>
      rw [hx] at hr₁
      obtain ⟨pos₂, hpos₂, hr₂⟩ := ihf a hr₁
      exact ⟨pos₂, Nat.le_trans hpos₁ hpos₂, hr₂⟩

theorem ite {p : Prop} [Decidable p] (hx : Stepwise x) (hy : Stepwise y) : Stepwise (if p then x else y) := by
  by_cases hp : p <;> simpa [hp]

theorem map (g : α → β) (hx : Stepwise x) : Stepwise (g <$> x) := hx.bind fun a => .pure (g a)

theorem discard (hx : Stepwise x) : Stepwise (Functor.discard x) := hx.map _

theorem reject (expected : String) (found : Token) : Stepwise (Parse.reject expected found : Parse α) := .throw _

theorem fail (expected : String) : Stepwise (Parse.fail expected : Parse α) := peek.bind fun t => reject expected t

theorem skip (hx : Stepwise x) : Stepwise (do Functor.discard Parse.advance; x) := advance.discard.bind fun _ => hx

theorem expectMark (mark : Mark) (expected : String) : Stepwise (Parse.expectMark mark expected) :=
  peek.bind fun _ => ite advance.discard (fail expected)

theorem expectWord (expected : String) : Stepwise (Parse.expectWord expected) :=
  peek.bind fun t => ite (skip (.pure t.text)) (fail expected)

theorem skipMark (mark : Mark) : Stepwise (Parse.skipMark mark) := peek.bind fun _ => ite advance.discard (.pure _)

/-- Something made from the span of what was read. -/
theorem spanned (start : Span) (make : Span → α) : Stepwise (do return make (← Parse.spanFrom start)) :=
  (spanFrom start).bind fun _ => .pure _

theorem times (hx : Stepwise x) (count : Nat) : Stepwise (x.times count) := by
  induction count with
  | zero => exact .pure _
  | succ count ih => exact hx.bind fun a => ih.bind fun as => .pure (a :: as)

theorem upTo (hx : Stepwise x) (closes : Token → Bool) (closing : String) (fuel : Nat) :
    Stepwise (x.upTo closes closing fuel) := by
  induction fuel with
  | zero => exact .throw _
  | succ fuel ih =>
    refine peek.bind fun t => ite (skip (.pure _)) (ite (fail closing) ?_)
    exact hx.bind fun a => ih.bind fun as => .pure (a :: as)

end Stepwise

namespace Grammar
open Parse

section
variable {expr : Parse Expr} (hexpr : Stepwise expr)
include hexpr

theorem input_stepwise (owner : String) : Stepwise (input expr owner) :=
  Stepwise.peek.bind fun _ => .ite (.fail _) hexpr

theorem arguments_stepwise (fuel : Nat) (count? : Option Nat) : Stepwise (arguments expr fuel count?) := by
  induction fuel generalizing count? with
  | zero => exact .throw _
  | succ fuel ih =>
    refine Stepwise.peek.bind fun t => .ite ?_ (.pure _)
    exact hexpr.bind fun e => (ih _).bind fun es => .pure (e :: es)

/-- A call, as an expression or as a statement. -/
theorem call_stepwise {γ : Type} (fuel : Nat) (t : Token) (make : Span → List Expr → γ) : Stepwise (do
    let count? := (← get).arities.find? t.text
    discard advance
    let args ← arguments expr fuel count?
    return make (← spanFrom t.span) args) := by
  refine .known (f := fun arities => do
    discard advance
    let args ← arguments expr fuel (arities.find? t.text)
    return make (← spanFrom t.span) args) fun arities => ?_
  exact .skip ((arguments_stepwise hexpr fuel _).bind fun args => .spanned ..)

theorem chain_stepwise (word : String) (op : BinaryOp) (fuel : Nat) : Stepwise (chain word op expr fuel) := by
  refine hexpr.bind fun left => ?_
  induction fuel generalizing left with
  | zero => exact .throw _
  | succ fuel ih => exact Stepwise.peek.bind fun t => .ite (.skip (hexpr.bind fun right => ih _)) (.pure left)

theorem comparison_stepwise : Stepwise (comparison expr) := by
  refine hexpr.bind fun left => Stepwise.peek.bind fun t => ?_
  cases comparison? t with
  | none => exact .pure left
  | some op => exact .skip (hexpr.bind fun right => .pure _)

theorem wordExpr_stepwise (fuel : Nat) (t : Token) : Stepwise (wordExpr expr fuel t) := by
  unfold wordExpr
  cases Operation.ofWord? t.text with
  | some operation => exact .skip (((input_stepwise hexpr _).times _).bind fun args => .spanned ..)
  | none =>
    cases Traversal.ofWord? t.text with
    | some traversal =>
      refine .skip ((Stepwise.skipMark _).bind fun _ => (Stepwise.expectWord _).bind fun procedure => ?_)
      exact (input_stepwise hexpr _).bind fun items => .spanned ..
    | none =>
      cases Query.ofWord? t.text with
      | some query => exact .skip (.pure _)
      | none => exact .ite (.fail _) (call_stepwise hexpr fuel t (Expr.call · t.text ·))

end

theorem climbTail_stepwise {operand : Nat → Parse Expr} (h : ∀ strength, Stepwise (operand strength)) (least fuel : Nat)
    (left : Expr) : Stepwise (climbTail operand least fuel left) := by
  induction fuel generalizing left with
  | zero => exact .throw _
  | succ fuel ih =>
    refine Stepwise.peek.bind fun t => ?_
    cases arithmetic? t with
    | none => exact .pure left
    | some found => exact .ite (.pure left) (.skip ((h _).bind fun right => ih _))

/-- Every level of the expression grammar, by induction on the fuel that all levels share. -/
theorem levels_stepwise (n : Nat) :
    Stepwise (expr n) ∧ Stepwise (negation n) ∧ (∀ least, Stepwise (climb n least)) ∧ Stepwise (signed n) ∧
      Stepwise (primary n) := by
  induction n with
  | zero => exact ⟨.throw _, .throw _, fun _ => .throw _, .throw _, .throw _⟩
  | succ n ih =>
    obtain ⟨hexpr, hnegation, hclimb, hsigned, hprimary⟩ := ih
    refine ⟨?_, ?_, fun least => ?_, ?_, ?_⟩
    · exact chain_stepwise (chain_stepwise hnegation _ _ _) _ _ _
    · exact Stepwise.peek.bind fun t => .ite (.skip (hnegation.bind fun _ => .pure _)) (comparison_stepwise (hclimb 0))
    · exact hsigned.bind fun left => climbTail_stepwise hclimb least n left
    · refine Stepwise.peek.bind fun t => ?_
      cases sign? t with
      | none => exact hprimary
      | some op => exact .skip (hsigned.bind fun _ => .pure _)
    · refine Stepwise.peek.bind fun t => ?_
      cases t.kind with
      | number value => exact .skip (.pure _)
      | word => exact wordExpr_stepwise hexpr n t
      | finish => exact .fail _
      | mark m =>
        cases m
        case colon => exact .skip ((Stepwise.expectWord _).bind fun name => .spanned ..)
        case leftParen => exact .skip (hexpr.bind fun e => (Stepwise.expectMark _ _).bind fun _ => .pure e)
        case leftBracket => exact .skip ((hprimary.upTo _ _ _).bind fun items => .spanned ..)
        all_goals exact .fail _

theorem expr_stepwise (n : Nat) : Stepwise (expr n) := (levels_stepwise n).1

theorem parameters_stepwise (fuel : Nat) (read : List String) : Stepwise (parameters fuel read) := by
  induction fuel generalizing read with
  | zero => exact .throw _
  | succ fuel ih =>
    refine Stepwise.peek.bind fun _ => .ite (.skip (Stepwise.advance.bind fun t => ?_)) (.pure read)
    exact .ite (.reject _ _) (.ite (.reject _ _) (ih _))

theorem bracketedNames_stepwise (fuel : Nat) : Stepwise (bracketedNames fuel) := by
  induction fuel with
  | zero => exact .throw _
  | succ fuel ih =>
    refine Stepwise.peek.bind fun _ => .ite (.skip (.pure _)) ((Stepwise.skipMark _).bind fun _ => ?_)
    exact (Stepwise.expectWord _).bind fun name => ih.bind fun names => .pure (name :: names)

theorem quotedNames_stepwise (fuel : Nat) : Stepwise (quotedNames fuel) := by
  induction fuel with
  | zero => exact .throw _
  | succ fuel ih =>
    refine Stepwise.peek.bind fun _ => .ite (.skip ((Stepwise.expectWord _).bind fun name => ?_)) (.pure _)
    exact ih.bind fun names => .pure (name :: names)

theorem declaration_stepwise (fuel : Nat) (start : Span) : Stepwise (declaration fuel start) := by
  refine Stepwise.peek.bind fun _ => .ite (.skip ((bracketedNames_stepwise fuel).bind fun _ => .spanned ..)) ?_
  refine (Stepwise.expectMark _ _).bind fun _ => (Stepwise.expectWord _).bind fun name => ?_
  exact (quotedNames_stepwise fuel).bind fun names => .spanned ..

section
variable {expr : Parse Expr} {stmt : Parse Stmt} (hexpr : Stepwise expr) (hstmt : Stepwise stmt)

include hstmt in
theorem block_stepwise (fuel : Nat) : Stepwise (block stmt fuel) :=
  (Stepwise.expectMark _ _).bind fun _ => hstmt.upTo _ _ _

include hstmt in
theorem definition_stepwise (fuel : Nat) (start : Span) : Stepwise (definition stmt fuel start) := by
  refine Stepwise.advance.bind fun t => .ite (.reject _ _) ((parameters_stepwise fuel []).bind fun params => ?_)
  exact (Stepwise.note _ _).bind fun _ => (hstmt.upTo _ _ _).bind fun body => .spanned ..

include hexpr hstmt

theorem forLoop_stepwise (fuel : Nat) (start : Span) : Stepwise (forLoop expr stmt fuel start) := by
  have hinput := input_stepwise hexpr "FOR"
  refine (Stepwise.expectMark _ _).bind fun _ => (Stepwise.skipMark _).bind fun _ => ?_
  refine (Stepwise.expectWord _).bind fun var => hinput.bind fun low => hinput.bind fun high => ?_
  have hrest : ∀ step?, Stepwise (do
      expectMark .rightBracket "`]`"
      let body ← block stmt fuel
      return Stmt.forEach (← spanFrom start) var low high step? body) := fun step? =>
    (Stepwise.expectMark _ _).bind fun _ => (block_stepwise hstmt fuel).bind fun body => .spanned ..
  exact Stepwise.peek.bind fun _ => .ite (hrest none) ((hexpr.map some).bind hrest)

theorem keyworded_stepwise (fuel : Nat) (start : Span) (keyword : Keyword) :
    Stepwise (keyworded expr stmt fuel start keyword) := by
  have hblock := block_stepwise hstmt fuel
  cases keyword with
  | define => exact definition_stepwise hstmt fuel start
  | finish => exact .fail _
  | loop | ifThen | whileTrue => exact hexpr.bind fun _ => hblock.bind fun _ => .spanned ..
  | ifElse => exact hexpr.bind fun _ => hblock.bind fun _ => hblock.bind fun _ => .spanned ..
  | make =>
    refine (Stepwise.expectMark _ _).bind fun _ => (Stepwise.expectWord _).bind fun name => ?_
    exact hexpr.bind fun value => .spanned ..
  | output | print => exact (input_stepwise hexpr _).bind fun value => .spanned ..
  | stop => exact .pure _
  | forEach => exact forLoop_stepwise hexpr hstmt fuel start
  | declare => exact declaration_stepwise fuel start

theorem statement_stepwise (fuel : Nat) : Stepwise (statement expr stmt fuel) := by
  refine Stepwise.peek.bind fun t => .ite (.fail _) ?_
  cases Keyword.ofWord? t.text with
  | some keyword => exact .skip (keyworded_stepwise hexpr hstmt fuel _ keyword)
  | none =>
    cases Command.ofWord? t.text with
    | some command => exact .skip (((input_stepwise hexpr _).times _).bind fun args => .spanned ..)
    | none =>
      exact .ite (hexpr.bind fun e => .pure _) (call_stepwise hexpr fuel t (Stmt.call · t.text ·))

end

theorem stmt_stepwise (n : Nat) : Stepwise (stmt n) := by
  induction n with
  | zero => exact .throw _
  | succ n ih => exact statement_stepwise (expr_stepwise n) ih n

theorem program_stepwise (n : Nat) : Stepwise (program n) := by
  induction n with
  | zero => exact .throw _
  | succ n ih =>
    refine Stepwise.peek.bind fun t => .ite (.pure _) ?_
    exact (stmt_stepwise n).bind fun s => ih.bind fun p => .pure (s :: p)

theorem wholeExpr_stepwise (n : Nat) : Stepwise (wholeExpr n) :=
  (expr_stepwise n).bind fun e => Stepwise.peek.bind fun _ => .ite (.pure e) (.fail _)

end Grammar

def Setting.until (finish : Token) (h : finish.isFinish = true) : Setting :=
  { Setting.free "" with finish := finish, finishes := h }

/-- Whatever the parser makes of the tokens, it has gone past at least one of them. -/
def Consumes (all : List Token) {α : Type} (x : Parse α) : Prop :=
  ∀ pos (r : Reader) a r', r.At all pos → x r = .ok a r' → ∃ pos', pos < pos' ∧ r'.At all pos'

/-- There is a result, or one of the tokens is blamed. -/
def Concludes (all : List Token) {α : Type} (result : EStateM.Result Halt Reader α) : Prop :=
  (∃ a r, result = .ok a r) ∨ ∃ expected, ∃ found ∈ all, ∃ r,
    result = .error (.fault ⟨.unexpected expected found.describe, some found.span⟩) r

section
variable {α : Type} {all : List Token} {pos : Nat} {r : Reader} {x : Parse α} {S : Setting → List Token → α → Prop}

theorem Reader.At.behind (h : r.At all pos) : r.Behind (.until r.finish h.finishes) r.last [] :=
  ⟨h.inner, trivial, rfl, rfl⟩

theorem Stepwise.consumes (h : Stepwise x) (hx : ∀ G, Takes G [] x (S G)) (hne : ∀ G ts a, S G ts a → ts ≠ []) :
    Consumes all x := by
  intro pos r a r' hr hresult
  have hstands := h.stands hr
  have htaken := hx _ r.last r hr.behind
  rw [hresult] at hstands htaken
  obtain ⟨pos', -, hr'⟩ := hstands
  -- What was read is missing from the rest, and the length of the rest tells the place.
  refine ⟨pos', ?_, hr'⟩
  cases htaken with
  | @ok read _ _ htext _ hS =>
    have hread := List.length_pos_iff.mpr (hne _ _ _ hS)
    have hlength := congrArg List.length htext
    have hbefore := hr.length_rest
    have hbehind : r'.rest.length + pos' = _ := hr'.length_rest
    simp only [List.length_append, List.nil_append] at hlength
    omega

theorem Ended.concludes {d : Nat} (h : Ended r d (x r)) (hr : r.At all pos) (hx : ∀ G, Takes G [] x (S G)) :
    Concludes all (x r) := by
  have htaken := hx _ r.last r hr.behind
  generalize x r = result at h htaken
  cases htaken with
  | ok => exact .inl ⟨_, _, rfl⟩
  | error htext _ hbreaks =>
    cases hbreaks with
    | outOfFuel => cases h
    | @fault expected found hfound _ =>
      refine .inr ⟨expected, found, ?_, _, rfl⟩
      rcases hfound with hfound | rfl
      · rw [htext, List.nil_append, hr.rest] at hfound
        exact List.mem_of_mem_take (List.mem_of_mem_drop hfound)
      · exact List.mem_of_getElem? hr.finish

end

/-- Reading a program or an expression from any tokens ends, with it or by blaming one of the tokens. All the while the
reader stands at one of the tokens and not behind the first end token: reading is put together from steps that go on by
one token at most, and not from the end, so this holds of every part of it. What is read as a statement, an expression
or a primary takes at least one token. -/
theorem reading_stays_within_tokens (tokens : List Token) (known : List (String × Nat)) :
    (Concludes (Token.closed tokens) (readProgram tokens known) ∧
      Concludes (Token.closed tokens) (readExpr tokens known)) ∧
    (Reader.start tokens known).At (Token.closed tokens) 0 ∧
    (∀ n, Stepwise (Grammar.program n) ∧ Stepwise (Grammar.wholeExpr n)) ∧
    (∀ (α : Type) (x : Parse α), Stepwise x → ∀ pos r, r.At (Token.closed tokens) pos →
      ∃ pos', pos ≤ pos' ∧ (final (x r)).At (Token.closed tokens) pos') ∧
    (∀ pos (r : Reader), r.At (Token.closed tokens) pos → (Token.closed tokens)[pos]? = some r.head) ∧
    (∀ n, Consumes (Token.closed tokens) (Grammar.stmt n) ∧ Consumes (Token.closed tokens) (Grammar.expr n) ∧
      Consumes (Token.closed tokens) (Grammar.primary n)) := by
  have hstart := Reader.start_at tokens known
  refine ⟨⟨?_, ?_⟩, hstart, fun n => ⟨Grammar.program_stepwise n, Grammar.wholeExpr_stepwise n⟩,
    fun α x hx pos r hr => hx.stands hr, fun pos r hr => hr.head, fun n => ⟨?_, ?_, ?_⟩⟩
  · exact (readProgram_ended tokens known).concludes hstart fun G => Grammar.program_takes _
  · exact (readExpr_ended tokens known).concludes hstart fun G => Grammar.wholeExpr_takes _
  · refine (Grammar.stmt_stepwise n).consumes (fun G => Grammar.stmt_takes n) fun G ts s hs => ?_
    obtain ⟨t, us, rfl, -⟩ := hs.stmt_head
    simp
  · exact (Grammar.expr_stepwise n).consumes (fun G => Grammar.expr_takes n) fun G ts e he => he.ne_nil
  · exact (Grammar.levels_stepwise n).2.2.2.2.consumes (fun G => (Grammar.levels_take n).2.2.2.2)
      fun G ts e he => he.ne_nil

theorem reading_stays_within_tokens_inner_end :
    ∃ s r, (Reader.start [⟨.word, "STOP", ⟨0, 4⟩⟩, .finishAt 4, ⟨.mark .colon, ":", ⟨5, 6⟩⟩] {}).At
        [⟨.word, "STOP", ⟨0, 4⟩⟩, .finishAt 4, ⟨.mark .colon, ":", ⟨5, 6⟩⟩, .finishAt 6] 0 ∧
      Grammar.stmt 1 (.start [⟨.word, "STOP", ⟨0, 4⟩⟩, .finishAt 4, ⟨.mark .colon, ":", ⟨5, 6⟩⟩] {}) = .ok s r ∧
      ∃ pos, 0 < pos ∧ r.At [⟨.word, "STOP", ⟨0, 4⟩⟩, .finishAt 4, ⟨.mark .colon, ":", ⟨5, 6⟩⟩, .finishAt 6] pos := by
  have hstmt : Grammar.stmt 1 (.start [⟨.word, "STOP", ⟨0, 4⟩⟩, .finishAt 4, ⟨.mark .colon, ":", ⟨5, 6⟩⟩] {}) =
      .ok (.stop ⟨0, 4⟩) ⟨[], .finishAt 4, ⟨0, 4⟩, {}⟩ := by cbv
  obtain ⟨-, hstart, -, -, -, hconsumes⟩ := reading_stays_within_tokens
    [⟨.word, "STOP", ⟨0, 4⟩⟩, .finishAt 4, ⟨.mark .colon, ":", ⟨5, 6⟩⟩] {}
  exact ⟨_, _, hstart, hstmt, (hconsumes 1).1 _ _ _ _ hstart hstmt⟩

end Logo
