import Logo.Proofs.Renaming

/-! Reading goes along with renaming: from renamed tokens the grammar reads the renamed tree, and where it fails it
fails at the renamed token. No step looks at a span, and every step looks at a word through its folded spelling. -/
namespace Logo
variable (ρ : Renaming)

abbrev Parse.Renames {α β : Type} (h : α → β) (x : Parse α) (y : Parse β) : Prop :=
  Follows (Reader.Renamed ρ) (Halt.rename ρ) h x y

namespace Reader.Renamed
variable {ρ} {r r' : Reader}

theorem head (h : Renamed ρ r r') : r'.head = r.head.rename ρ := by
  rw [Reader.head, h.rest, h.finish, Reader.head]
  cases r.rest <;> rfl

theorem next (h : Renamed ρ r r') : Renamed ρ r.next r'.next := by
  obtain ⟨rest, finish, last, arities⟩ := r
  obtain ⟨rest', finish', last', arities'⟩ := r'
  obtain ⟨hrest, hfinish, hlast, harities⟩ := h
  simp only at hrest hfinish hlast
  subst hrest
  cases rest with
  | nil => exact ⟨rfl, hfinish, hlast, harities⟩
  | cons t rest => exact ⟨rfl, hfinish, rfl, harities⟩

theorem known (h : Renamed ρ r r') (name : String) : r'.arities.find? (ρ.name name) = r.arities.find? name :=
  (h.arities.find? ρ name).trans Option.map_id'

end Reader.Renamed

namespace Parse
variable {α β : Type}

theorem peek_renames : Renames ρ (Token.rename ρ) peek peek :=
  .get fun _ _ h => .pure h.head.symm

theorem advance_renames : Renames ρ (Token.rename ρ) advance advance :=
  .get fun _ _ h => .bind (.set h.next) fun _ => .pure h.head.symm

theorem reject_renames {h : α → β} (expected : String) (t : Token) :
    Renames ρ h (reject expected t) (reject expected (t.rename ρ)) := by
  refine .throw ?_
  rw [Token.describe_rename]
  rfl

theorem fail_renames {h : α → β} (expected : String) : Renames ρ h (fail expected) (fail expected) :=
  .bind (peek_renames ρ) fun t => reject_renames ρ expected t

theorem expectMark_renames (mark : Mark) (expected : String) :
    Renames ρ id (expectMark mark expected) (expectMark mark expected) :=
  .bind (peek_renames ρ) fun _ => .ite Iff.rfl (advance_renames ρ).discard (fail_renames ρ expected)

theorem expectWord_renames (expected : String) : Renames ρ ρ.name (expectWord expected) (expectWord expected) :=
  .bind (peek_renames ρ) fun _ =>
    .ite Iff.rfl (.bind (advance_renames ρ).discard fun _ => .pure rfl) (fail_renames ρ expected)

theorem skipMark_renames (mark : Mark) : Renames ρ id (skipMark mark) (skipMark mark) :=
  .bind (peek_renames ρ) fun _ => .ite Iff.rfl (advance_renames ρ).discard (.pure rfl)

theorem spanFrom_renames (start : Span) : Renames ρ ρ.span (spanFrom start) (spanFrom (ρ.span start)) :=
  .get fun r _ h => .pure (by rw [ρ.span_merge, h.last])

variable {ρ} {h : α → β} {x : Parse α} {y : Parse β}

theorem times_renames (hx : Renames ρ h x y) (count : Nat) :
    Renames ρ (List.map h) (x.times count) (y.times count) := by
  induction count with
  | zero => exact .pure rfl
  | succ count ih => exact .bind hx fun _ => .bind ih fun _ => .pure rfl

theorem upTo_renames {closes : Token → Bool} (hc : ∀ t : Token, closes (t.rename ρ) = closes t) (closing : String)
    (hx : Renames ρ h x y) (fuel : Nat) :
    Renames ρ (List.map h) (x.upTo closes closing fuel) (y.upTo closes closing fuel) := by
  induction fuel with
  | zero => exact .throw rfl
  | succ fuel ih =>
    refine .bind (peek_renames ρ) fun t => .ite (by rw [hc]) ?_ (.ite Iff.rfl (fail_renames ρ closing) ?_)
    · exact .bind (advance_renames ρ).discard fun _ => .pure rfl
    · exact .bind hx fun _ => .bind ih fun _ => .pure rfl

end Parse

namespace Grammar
open Parse

theorem endsInputs_rename (t : Token) : endsInputs (t.rename ρ) = endsInputs t := by
  simp only [endsInputs, Token.rename, isKeyword_name, Command.ofWord?_name, Query.ofWord?_name]

theorem isInfix_rename (t : Token) : isInfix (t.rename ρ) = isInfix t := by
  simp only [isInfix, Token.rename, ρ.fold_name]

theorem arithmetic?_rename (t : Token) : arithmetic? (t.rename ρ) = arithmetic? t := by
  simp only [arithmetic?, Token.isNamed_rename, Token.kind_rename]

section
variable {ρ} {expr expr' : Parse Expr} (hexpr : Renames ρ (Expr.rename ρ) expr expr')
include hexpr

theorem input_renames (owner : String) : Renames ρ (Expr.rename ρ) (input expr owner) (input expr' owner) :=
  .bind (peek_renames ρ) fun t => .ite (by rw [endsInputs_rename]) (fail_renames ρ _) hexpr

theorem arguments_renames (fuel : Nat) (count? : Option Nat) :
    Renames ρ (List.map (Expr.rename ρ)) (arguments expr fuel count?) (arguments expr' fuel count?) := by
  induction fuel generalizing count? with
  | zero => exact .throw rfl
  | succ fuel ih =>
    refine .bind (peek_renames ρ) fun t => .ite ?_ (.bind hexpr fun e => .bind (ih _) fun _ => .pure rfl) (.pure rfl)
    cases count? <;> simp only [endsInputs_rename, isInfix_rename]

theorem chainTail_renames (word : String) (op : BinaryOp) (fuel : Nat) (left : Expr) :
    Renames ρ (Expr.rename ρ) (chainTail word op expr fuel left) (chainTail word op expr' fuel (left.rename ρ)) := by
  induction fuel generalizing left with
  | zero => exact .throw rfl
  | succ fuel ih =>
    refine .bind (peek_renames ρ) fun t => .ite (by rw [Token.isNamed_rename]) ?_ (.pure rfl)
    refine .bind (advance_renames ρ).discard fun _ => .bind hexpr fun e => ?_
    rw [← Expr.rename_join]
    exact ih _

theorem chain_renames (word : String) (op : BinaryOp) (fuel : Nat) :
    Renames ρ (Expr.rename ρ) (chain word op expr fuel) (chain word op expr' fuel) :=
  .bind hexpr fun left => chainTail_renames hexpr word op fuel left

theorem comparison_renames : Renames ρ (Expr.rename ρ) (comparison expr) (comparison expr') := by
  refine .bind hexpr fun left => .bind (peek_renames ρ) fun t => ?_
  have hsame : comparison? (t.rename ρ) = comparison? t := rfl
  rw [hsame]
  cases comparison? t with
  | some op =>
    refine .bind (advance_renames ρ).discard fun _ => .bind hexpr fun e => ?_
    exact .pure (Expr.rename_join ρ op left e)
  | none => exact .pure rfl

theorem wordExpr_renames (fuel : Nat) (t : Token) :
    Renames ρ (Expr.rename ρ) (wordExpr expr fuel t) (wordExpr expr' fuel (t.rename ρ)) := by
  have htext : (t.rename ρ).text = ρ.name t.text := rfl
  unfold wordExpr
  simp only [htext, Operation.ofWord?_name, Traversal.ofWord?_name, Query.ofWord?_name, Command.ofWord?_name,
    isKeyword_name]
  cases Operation.ofWord? t.text with
  | some operation =>
    refine .bind (advance_renames ρ).discard fun _ => .bind (times_renames (input_renames hexpr _) _) fun args => ?_
    refine .bind (spanFrom_renames ρ t.span) fun _ => .pure ?_
    rw [Expr.rename, Expr.renameAll_eq_map]
  | none =>
    cases Traversal.ofWord? t.text with
    | some traversal =>
      refine .bind (advance_renames ρ).discard fun _ => .bind (skipMark_renames ρ _) fun _ => ?_
      refine .bind (expectWord_renames ρ _) fun procedure => .bind (input_renames hexpr _) fun items => ?_
      exact .bind (spanFrom_renames ρ t.span) fun _ => .pure (by rw [Expr.rename])
    | none =>
      cases Query.ofWord? t.text with
      | some query => exact .bind (advance_renames ρ).discard fun _ => .pure (by rw [Expr.rename]; rfl)
      | none =>
        refine .ite Iff.rfl (fail_renames ρ _) (.get fun r r' h => .bind (advance_renames ρ).discard fun _ => ?_)
        rw [h.known]
        refine .bind (arguments_renames hexpr fuel _) fun args => .bind (spanFrom_renames ρ t.span) fun _ => .pure ?_
        rw [Expr.rename, Expr.renameAll_eq_map]

end

theorem climbTail_renames {operand operand' : Nat → Parse Expr}
    (h : ∀ strength, Renames ρ (Expr.rename ρ) (operand strength) (operand' strength))
    (least fuel : Nat) (left : Expr) :
    Renames ρ (Expr.rename ρ) (climbTail operand least fuel left) (climbTail operand' least fuel (left.rename ρ)) := by
  induction fuel generalizing left with
  | zero => exact .throw rfl
  | succ fuel ih =>
    refine .bind (peek_renames ρ) fun t => ?_
    rw [arithmetic?_rename]
    cases arithmetic? t with
    | none => exact .pure rfl
    | some found =>
      obtain ⟨op, strength⟩ := found
      refine .ite Iff.rfl (.pure rfl) (.bind (advance_renames ρ).discard fun _ => .bind (h _) fun e => ?_)
      rw [← Expr.rename_join]
      exact ih _

/-- Every level of the expression grammar goes along, by induction on the fuel that all levels share. -/
theorem levels_rename (n : Nat) :
    Renames ρ (Expr.rename ρ) (expr n) (expr n) ∧ Renames ρ (Expr.rename ρ) (negation n) (negation n) ∧
      (∀ least, Renames ρ (Expr.rename ρ) (climb n least) (climb n least)) ∧
      Renames ρ (Expr.rename ρ) (signed n) (signed n) ∧ Renames ρ (Expr.rename ρ) (primary n) (primary n) := by
  induction n with
  | zero => exact ⟨.throw rfl, .throw rfl, fun _ => .throw rfl, .throw rfl, .throw rfl⟩
  | succ n ih =>
    obtain ⟨hexpr, hnegation, hclimb, hsigned, hprimary⟩ := ih
    refine ⟨?_, ?_, fun least => ?_, ?_, ?_⟩
    · exact chain_renames (chain_renames hnegation "AND" .and n) "OR" .or n
    · refine .bind (peek_renames ρ) fun t => .ite (by rw [Token.isNamed_rename]) ?_ (comparison_renames (hclimb 0))
      refine .bind (advance_renames ρ).discard fun _ => .bind hnegation fun operand => .pure ?_
      rw [Expr.rename, ρ.span_merge, Expr.span_rename]
      rfl
    · exact .bind hsigned fun left => climbTail_renames ρ hclimb least n left
    · refine .bind (peek_renames ρ) fun t => ?_
      have hsame : sign? (t.rename ρ) = sign? t := rfl
      rw [hsame]
      cases sign? t with
      | none => exact hprimary
      | some op =>
        refine .bind (advance_renames ρ).discard fun _ => .bind hsigned fun operand => .pure ?_
        rw [Expr.rename, ρ.span_merge, Expr.span_rename]
        rfl
    · refine .bind (peek_renames ρ) fun t => ?_
      rw [Token.kind_rename]
      cases t.kind with
      | number value => exact .bind (advance_renames ρ).discard fun _ => .pure (by rw [Expr.rename]; rfl)
      | word => exact wordExpr_renames hexpr n t
      | finish => exact fail_renames ρ _
      | mark m =>
        cases m
        case colon =>
          refine .bind (advance_renames ρ).discard fun _ => .bind (expectWord_renames ρ _) fun name => ?_
          exact .bind (spanFrom_renames ρ t.span) fun _ => .pure (by rw [Expr.rename])
        case leftParen =>
          refine .bind (advance_renames ρ).discard fun _ => .bind hexpr fun e => ?_
          exact .bind (expectMark_renames ρ _ _) fun _ => .pure rfl
        case leftBracket =>
          refine .bind (advance_renames ρ).discard fun _ => ?_
          refine .bind (upTo_renames (fun _ => rfl) _ hprimary n) fun es => ?_
          exact .bind (spanFrom_renames ρ t.span) fun _ => .pure (by rw [Expr.rename, Expr.renameAll_eq_map])
        all_goals exact fail_renames ρ _

theorem parameters_renames (fuel : Nat) (read : List String) :
    Renames ρ (List.map ρ.name) (parameters fuel read) (parameters fuel (read.map ρ.name)) := by
  induction fuel generalizing read with
  | zero => exact .throw rfl
  | succ fuel ih =>
    refine .bind (peek_renames ρ) fun _ => .ite Iff.rfl ?_ (.pure rfl)
    refine .bind (advance_renames ρ).discard fun _ => .bind (advance_renames ρ) fun t => ?_
    have hread : (read.map ρ.name).any (fold · == fold (t.rename ρ).text) = read.any (fold · == fold t.text) := by
      simp only [List.any_map, Function.comp_def, Token.rename, ρ.fold_name]
    refine .ite Iff.rfl (reject_renames ρ _ t) (.ite (by rw [hread]) (reject_renames ρ _ t) ?_)
    have hmore : read.map ρ.name ++ [(t.rename ρ).text] = (read ++ [t.text]).map ρ.name := by
      rw [List.map_append]
      rfl
    rw [hmore]
    exact ih _

theorem bracketedNames_renames (fuel : Nat) :
    Renames ρ (List.map ρ.name) (bracketedNames fuel) (bracketedNames fuel) := by
  induction fuel with
  | zero => exact .throw rfl
  | succ fuel ih =>
    refine .bind (peek_renames ρ) fun _ => .ite Iff.rfl (.bind (advance_renames ρ).discard fun _ => .pure rfl) ?_
    exact .bind (skipMark_renames ρ _) fun _ => .bind (expectWord_renames ρ _) fun _ => .bind ih fun _ => .pure rfl

theorem quotedNames_renames (fuel : Nat) : Renames ρ (List.map ρ.name) (quotedNames fuel) (quotedNames fuel) := by
  induction fuel with
  | zero => exact .throw rfl
  | succ fuel ih =>
    refine .bind (peek_renames ρ) fun _ => .ite Iff.rfl ?_ (.pure rfl)
    exact .bind (advance_renames ρ).discard fun _ => .bind (expectWord_renames ρ _) fun _ => .bind ih fun _ => .pure rfl

theorem declaration_renames (fuel : Nat) (start : Span) :
    Renames ρ (Stmt.rename ρ) (declaration fuel start) (declaration fuel (ρ.span start)) := by
  refine .bind (peek_renames ρ) fun _ => .ite Iff.rfl ?_ ?_
  · refine .bind (advance_renames ρ).discard fun _ => .bind (bracketedNames_renames ρ fuel) fun _ => ?_
    exact .bind (spanFrom_renames ρ start) fun _ => .pure (by rw [Stmt.rename])
  · refine .bind (expectMark_renames ρ _ _) fun _ => .bind (expectWord_renames ρ _) fun _ => ?_
    refine .bind (quotedNames_renames ρ fuel) fun _ => .bind (spanFrom_renames ρ start) fun _ => .pure ?_
    rw [Stmt.rename, List.map_cons]

section
variable {ρ} {expr expr' : Parse Expr} {stmt stmt' : Parse Stmt}

theorem block_renames (hstmt : Renames ρ (Stmt.rename ρ) stmt stmt') (fuel : Nat) :
    Renames ρ (List.map (Stmt.rename ρ)) (block stmt fuel) (block stmt' fuel) :=
  .bind (expectMark_renames ρ _ _) fun _ => upTo_renames (fun _ => rfl) _ hstmt fuel

theorem definition_renames (hstmt : Renames ρ (Stmt.rename ρ) stmt stmt') (fuel : Nat) (start : Span) :
    Renames ρ (Stmt.rename ρ) (definition stmt fuel start) (definition stmt' fuel (ρ.span start)) := by
  refine .bind (advance_renames ρ) fun t => .ite ?_ (reject_renames ρ _ t) ?_
  · simp only [Token.rename, Token.isWord, isKeyword_name, isBuiltin_name]
  · refine .bind (parameters_renames ρ fuel []) fun params => .bind (.modify fun r r' h => ?_) fun _ => ?_
    · rw [List.length_map]
      exact { h with arities := h.arities.insert ρ t.text params.length }
    · refine .bind (upTo_renames (fun t => t.isNamed_rename ρ _) _ hstmt fuel) fun body => ?_
      refine .bind (spanFrom_renames ρ start) fun _ => .pure ?_
      rw [Stmt.rename, Stmt.renameAll_eq_map]
      rfl

theorem forLoop_renames (hexpr : Renames ρ (Expr.rename ρ) expr expr') (hstmt : Renames ρ (Stmt.rename ρ) stmt stmt')
    (fuel : Nat) (start : Span) :
    Renames ρ (Stmt.rename ρ) (forLoop expr stmt fuel start) (forLoop expr' stmt' fuel (ρ.span start)) := by
  refine .bind (expectMark_renames ρ _ _) fun _ => .bind (skipMark_renames ρ _) fun _ => ?_
  refine .bind (expectWord_renames ρ _) fun var => .bind (input_renames hexpr _) fun low => ?_
  refine .bind (input_renames hexpr _) fun high => .bind (peek_renames ρ) fun t => ?_
  -- What follows the bounds is the same whether or not there is a step.
  have hrest : ∀ step? : Option Expr, Renames ρ (Stmt.rename ρ)
      (do
        expectMark .rightBracket "`]`"
        let body ← block stmt fuel
        return .forEach (← spanFrom start) var low high step? body)
      (do
        expectMark .rightBracket "`]`"
        let body ← block stmt' fuel
        return .forEach (← spanFrom (ρ.span start)) (ρ.name var) (low.rename ρ) (high.rename ρ)
          (step?.map (Expr.rename ρ)) body) := by
    intro step?
    refine .bind (expectMark_renames ρ _ _) fun _ => .bind (block_renames hstmt fuel) fun body => ?_
    exact .bind (spanFrom_renames ρ start) fun _ => .pure (by rw [Stmt.rename, Stmt.renameAll_eq_map])
  refine .ite Iff.rfl (.bind (.pure rfl) hrest) (.bind (.map hexpr fun e => ?_) hrest)
  rfl

theorem keyworded_renames (hexpr : Renames ρ (Expr.rename ρ) expr expr') (hstmt : Renames ρ (Stmt.rename ρ) stmt stmt')
    (fuel : Nat) (start : Span) (k : Keyword) :
    Renames ρ (Stmt.rename ρ) (keyworded expr stmt fuel start k) (keyworded expr' stmt' fuel (ρ.span start) k) := by
  have hspan := spanFrom_renames ρ start
  have hblock := block_renames hstmt fuel
  cases k with
  | define => exact definition_renames hstmt fuel start
  | finish => exact fail_renames ρ _
  | loop =>
    refine .bind hexpr fun count => .bind hblock fun body => .bind hspan fun _ => .pure ?_
    rw [Stmt.rename, Stmt.renameAll_eq_map]
  | ifThen =>
    refine .bind hexpr fun cond => .bind hblock fun body => .bind hspan fun _ => .pure ?_
    rw [Stmt.rename, Stmt.renameAll_eq_map]
  | ifElse =>
    refine .bind hexpr fun cond => .bind hblock fun yes => .bind hblock fun no => .bind hspan fun _ => .pure ?_
    rw [Stmt.rename, Stmt.renameAll_eq_map, Stmt.renameAll_eq_map]
  | make =>
    refine .bind (expectMark_renames ρ _ _) fun _ => .bind (expectWord_renames ρ _) fun name => ?_
    exact .bind hexpr fun value => .bind hspan fun _ => .pure (by rw [Stmt.rename])
  | output => exact .bind (input_renames hexpr _) fun value => .bind hspan fun _ => .pure (by rw [Stmt.rename])
  | stop => exact .pure (by rw [Stmt.rename])
  | print => exact .bind (input_renames hexpr _) fun value => .bind hspan fun _ => .pure (by rw [Stmt.rename])
  | whileTrue =>
    refine .bind hexpr fun cond => .bind hblock fun body => .bind hspan fun _ => .pure ?_
    rw [Stmt.rename, Stmt.renameAll_eq_map]
  | forEach => exact forLoop_renames hexpr hstmt fuel start
  | declare => exact declaration_renames ρ fuel start

theorem statement_renames (hexpr : Renames ρ (Expr.rename ρ) expr expr') (hstmt : Renames ρ (Stmt.rename ρ) stmt stmt')
    (fuel : Nat) : Renames ρ (Stmt.rename ρ) (statement expr stmt fuel) (statement expr' stmt' fuel) := by
  refine .bind (peek_renames ρ) fun t => ?_
  have htext : (t.rename ρ).text = ρ.name t.text := rfl
  simp only [htext, Token.isWord_rename, Token.isNamed_rename, Keyword.ofWord?_name, Command.ofWord?_name,
    Operation.ofWord?_name, Traversal.ofWord?_name, Query.ofWord?_name]
  refine .ite Iff.rfl (fail_renames ρ _) ?_
  cases Keyword.ofWord? t.text with
  | some keyword =>
    exact .bind (advance_renames ρ).discard fun _ => keyworded_renames hexpr hstmt fuel t.span keyword
  | none =>
    cases Command.ofWord? t.text with
    | some command =>
      refine .bind (advance_renames ρ).discard fun _ => .bind (times_renames (input_renames hexpr _) _) fun args => ?_
      exact .bind (spanFrom_renames ρ t.span) fun _ => .pure (by rw [Stmt.rename])
    | none =>
      refine .ite Iff.rfl (.bind hexpr fun e => .pure (by rw [Stmt.rename])) (.get fun r r' h => ?_)
      refine .bind (advance_renames ρ).discard fun _ => ?_
      rw [h.known]
      refine .bind (arguments_renames hexpr fuel _) fun args => .bind (spanFrom_renames ρ t.span) fun _ => .pure ?_
      rw [Stmt.rename]

end

theorem stmt_renames (n : Nat) : Renames ρ (Stmt.rename ρ) (stmt n) (stmt n) := by
  induction n with
  | zero => exact .throw rfl
  | succ n ih => exact statement_renames (levels_rename ρ n).1 ih n

theorem program_renames (n : Nat) : Renames ρ (List.map (Stmt.rename ρ)) (program n) (program n) := by
  induction n with
  | zero => exact .throw rfl
  | succ n ih =>
    refine .bind (peek_renames ρ) fun _ => .ite Iff.rfl (.pure rfl) ?_
    exact .bind (stmt_renames ρ n) fun _ => .bind ih fun _ => .pure rfl

theorem wholeExpr_renames (n : Nat) : Renames ρ (Expr.rename ρ) (wholeExpr n) (wholeExpr n) := by
  refine .bind (levels_rename ρ n).1 fun e => .bind (peek_renames ρ) fun _ => ?_
  exact .ite Iff.rfl (.pure rfl) (fail_renames ρ _)

end Grammar

namespace Arity

theorem parameters_rename (tokens : List Token) : parameters (tokens.map (Token.rename ρ)) = parameters tokens := by
  fun_induction parameters tokens with
  | case1 c w rest h ih =>
    rw [List.map_cons, List.map_cons, parameters, ih]
    exact if_pos h
  | case2 c w rest h =>
    rw [List.map_cons, List.map_cons, parameters]
    exact if_neg h
  | case3 tokens h =>
    rcases tokens with _ | ⟨c, _ | ⟨w, rest⟩⟩
    · rfl
    · rfl
    · exact absurd rfl (h c w rest)

theorem announced_rename (tokens : List Token) :
    announced (tokens.map (Token.rename ρ)) = (announced tokens).map fun p => (ρ.name p.1, p.2) := by
  fun_induction announced tokens with
  | case1 => rfl
  | case2 t w more h ih =>
    rw [List.map_cons, List.map_cons, announced, Token.isNamed_rename, Token.isWord_rename, if_pos h,
      List.map_cons, parameters_rename, ← ih]
    rfl
  | case3 t w more h ih =>
    rw [List.map_cons, List.map_cons, announced, Token.isNamed_rename, Token.isWord_rename, if_neg h, ← ih]
    rfl
  | case4 t => rfl

theorem collect_rename (tokens : List Token) {known known' : Table Nat} (h : known.Same id known') :
    (collect tokens known).Same id (collect (tokens.map (Token.rename ρ)) known') := by
  rw [collect, collect, announced_rename, List.foldr_map]
  induction announced tokens with
  | nil => exact h
  | cons p rest ih => exact ih.insert ρ p.1 p.2

end Arity

/-- The place of the end token is changed as those of the others are, if the text has one. -/
theorem Reader.finish_rename {tokens : List Token} (h : tokens.any Token.isFinish) :
    (ofTokens (tokens.map (Token.rename ρ)) {}).finish = (ofTokens tokens {}).finish.rename ρ := by
  obtain ⟨t, ht⟩ := Option.isSome_iff_exists.mp (List.find?_isSome.mpr (List.any_eq_true.mp h))
  have hfinish : (tokens.map (Token.rename ρ)).find? Token.isFinish = some (t.rename ρ) := by
    rw [List.find?_map]
    exact congrArg (Option.map _) ht
  rw [ofTokens, ofTokens, hfinish, ht]
  rfl

section
variable {known known' : List (String × Nat)} (hknown : (Table.ofList known).Same id (Table.ofList known'))
  {tokens : List Token}
  (h : (Reader.ofTokens (tokens.map (Token.rename ρ)) {}).finish = (Reader.ofTokens tokens {}).finish.rename ρ)
include hknown h

theorem Reader.start_renamed :
    Reader.Renamed ρ (Reader.start tokens known) (Reader.start (tokens.map (Token.rename ρ)) known') :=
  ⟨List.takeWhile_map .., h, congrArg Token.span h, Arity.collect_rename ρ tokens hknown⟩

/-- The program read from renamed tokens is the renamed program. -/
theorem readProgram_renames :
    Matches (Reader.Renamed ρ) (Halt.rename ρ) (List.map (Stmt.rename ρ)) (readProgram tokens known)
      (readProgram (tokens.map (Token.rename ρ)) known') := by
  rw [readProgram, readProgram, Grammar.fuelFor, Grammar.fuelFor, List.length_map]
  exact Grammar.program_renames ρ _ _ _ (Reader.start_renamed ρ hknown h)

theorem readExpr_renames :
    Matches (Reader.Renamed ρ) (Halt.rename ρ) (Expr.rename ρ) (readExpr tokens known)
      (readExpr (tokens.map (Token.rename ρ)) known') := by
  rw [readExpr, readExpr, Grammar.fuelFor, Grammar.fuelFor, List.length_map]
  exact Grammar.wholeExpr_renames ρ _ _ _ (Reader.start_renamed ρ hknown h)

end
end Logo
