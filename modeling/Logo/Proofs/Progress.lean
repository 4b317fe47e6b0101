import Logo.Proofs.Takes

/-! Parsers make progress. Every loop of the grammar takes a token in each of its turns, and no chain of levels is
longer than six without one. So the fuel that comes with a token list is enough for it: reading ends with a result or
blames a token. -/
namespace Logo

inductive Ended (r : Reader) (d : Nat) {α : Type} : EStateM.Result Halt Reader α → Prop where
  | ok {a r'} : r'.finish = r.finish → r'.rest.length + d ≤ r.rest.length → Ended r d (.ok a r')
  | fault {f r'} : Ended r d (.error (.fault f) r')

/-- With at most `k` tokens to come the parser ends; for a result it takes at least `d` of them. -/
def Ends (k d : Nat) {α : Type} (x : Parse α) : Prop :=
  ∀ r : Reader, r.finish.isFinish = true → r.rest.length ≤ k → Ended r d (x r)

def EndsNext (k d : Nat) (t : Token) {α : Type} (x : Parse α) : Prop :=
  ∀ r : Reader, r.finish.isFinish = true → r.rest.length ≤ k → r.head = t → Ended r d (x r)

theorem Reader.length_next (r : Reader) : r.next.rest.length ≤ r.rest.length := by
  cases hrest : r.rest <;> simp [next, hrest]

theorem Reader.finish_next (r : Reader) : r.next.finish = r.finish := by
  cases hrest : r.rest <;> simp [next, hrest]

theorem Reader.length_next_lt {r : Reader} (hfinish : r.finish.isFinish = true) (hhead : r.head.isFinish = false) :
    r.next.rest.length + 1 ≤ r.rest.length := by
  cases hrest : r.rest with
  | nil => simp [head, hrest, hfinish] at hhead
  | cons t rest => simp [next, hrest]

section
variable {α β : Type} {k j d : Nat} {t : Token} {x : Parse α} {f : α → Parse β}

theorem Ended.weaken {r : Reader} {result : EStateM.Result Halt Reader α} (h : Ended r 1 result) :
    Ended r 0 result := by
  cases h with
  | ok hfinish hlength => exact .ok hfinish (by omega)
  | fault => exact .fault

/-- The tokens taken first and those taken then. -/
theorem Ended.after {r r' : Reader} {result : EStateM.Result Halt Reader α} (hsame : r'.finish = r.finish)
    (htaken : r'.rest.length + j ≤ r.rest.length) (h : Ended r' d result) : Ended r (d + j) result := by
  cases h with
  | ok hsame' htaken' => exact .ok (hsame'.trans hsame) (by omega)
  | fault => exact .fault

namespace Ends

theorem weaken (h : Ends k 1 x) : Ends k 0 x := fun r hfinish hlength => (h r hfinish hlength).weaken

theorem mono (h : Ends k d x) (hj : j ≤ k) : Ends j d x := fun r hfinish hlength => h r hfinish (by omega)

theorem next (h : Ends k d x) : EndsNext k d t x := fun r hfinish hlength _ => h r hfinish hlength

theorem pure (a : α) : Ends k 0 (Pure.pure a) := fun _ _ _ => .ok rfl (by omega)

theorem reject (expected : String) (found : Token) : Ends k d (Parse.reject expected found : Parse α) :=
  fun _ _ _ => .fault

theorem ite {p : Prop} [Decidable p] {y : Parse α} (hx : Ends k d x) (hy : Ends k d y) :
    Ends k d (if p then x else y) := by
  by_cases hp : p <;> simpa [hp]

theorem peek {f : Token → Parse α} (h : ∀ t, EndsNext k d t (f t)) : Ends k d (Parse.peek >>= f) :=
  fun r hfinish hlength => h r.head r hfinish hlength rfl

/-- Behind a token taken for sure there are fewer to come. -/
theorem first (hx : Ends k 1 x) (hf : ∀ a, ∀ j < k, Ends j 0 (f a)) : Ends k 1 (x >>= f) := by
  intro r hfinish hlength
  have h := hx r hfinish hlength
  simp only [Bind.bind, EStateM.bind]
  generalize x r = result at h
  cases h with
  | @ok a r' hsame htaken =>
    have hrest := hf a r'.rest.length (by omega) r' (by rw [hsame, hfinish]) (Nat.le_refl _)
    exact hrest.after hsame htaken
  | fault => exact .fault

theorem bind (hx : Ends k 0 x) (hf : ∀ a, Ends k d (f a)) : Ends k d (x >>= f) := by
  intro r hfinish hlength
  have h := hx r hfinish hlength
  simp only [Bind.bind, EStateM.bind]
  generalize x r = result at h
  cases h with
  | @ok a r' hsame htaken =>
    have hrest := hf a r' (by rw [hsame, hfinish]) (by omega)
    exact hrest.after hsame htaken
  | fault => exact .fault

theorem map (g : α → β) (hx : Ends k 1 x) : Ends k 1 (g <$> x) := hx.first fun a _ _ => pure (g a)

theorem advance : Ends k 0 Parse.advance := fun r _ _ => .ok r.finish_next r.length_next

theorem spanFrom (start : Span) : Ends k 0 (Parse.spanFrom start) := fun _ _ _ => .ok rfl (Nat.le_refl _)

theorem define (name : String) (count : Nat) :
    Ends k 0 (modify fun r : Reader => { r with arities := r.arities.insert name count } : Parse PUnit) :=
  fun _ _ _ => .ok rfl (Nat.le_refl _)

end Ends

namespace EndsNext

theorem weaken (h : EndsNext k 1 t x) : EndsNext k 0 t x :=
  fun r hfinish hlength ht => (h r hfinish hlength ht).weaken

theorem fail (expected : String) : EndsNext k d t (Parse.fail expected : Parse α) := fun _ _ _ _ => .fault

theorem ite {p : Prop} [Decidable p] {y : Parse α} (hx : p → EndsNext k d t x) (hy : ¬p → EndsNext k d t y) :
    EndsNext k d t (if p then x else y) := by
  by_cases hp : p
  · simpa [hp] using hx hp
  · simpa [hp] using hy hp

theorem get {f : Reader → Parse α} (h : ∀ r, EndsNext k d t (f r)) : EndsNext k d t (MonadState.get >>= f) :=
  fun r hfinish hlength ht => h r r hfinish hlength ht

/-- Every token but the end is taken when the parser goes on. -/
theorem skip (ht : t.isFinish = false) (hx : ∀ j < k, Ends j 0 x) :
    EndsNext k 1 t (discard Parse.advance >>= fun _ => x) := by
  rintro r hfinish hlength rfl
  have htaken := Reader.length_next_lt hfinish ht
  have hrest := hx r.next.rest.length (by omega) r.next (by rw [r.finish_next, hfinish]) (Nat.le_refl _)
  exact hrest.after r.finish_next htaken

end EndsNext

namespace Ends

theorem expectMark (mark : Mark) (expected : String) : Ends k 1 (Parse.expectMark mark expected) := by
  refine .peek fun t => .ite (fun ht => ?_) fun _ => .fail expected
  exact .skip (Token.isFinish_of_isMark ht) fun _ _ => .pure ()

theorem expectWord (expected : String) : Ends k 1 (Parse.expectWord expected) := by
  refine .peek fun t => .ite (fun ht => ?_) fun _ => .fail expected
  exact .skip (Token.isFinish_of_isWord ht) fun _ _ => .pure t.text

theorem skipMark (mark : Mark) : Ends k 0 (Parse.skipMark mark) := by
  refine .peek fun t => .ite (fun ht => ?_) fun _ => (pure ()).next
  exact (EndsNext.skip (Token.isFinish_of_isMark ht) fun _ _ => .pure ()).weaken

theorem times (hx : Ends k 0 x) (count : Nat) : Ends k 0 (x.times count) := by
  induction count with
  | zero => exact .pure []
  | succ count ih => exact hx.bind fun a => ih.bind fun as => .pure (a :: as)

/-- Each turn takes a token, so one turn more than there are tokens is enough. -/
theorem upTo {closes : Token → Bool} (hcloses : ∀ t, closes t = true → t.isFinish = false) (closing : String)
    (hx : Ends k 1 x) {fuel : Nat} (hfuel : k < fuel) : Ends k 1 (x.upTo closes closing fuel) := by
  induction fuel generalizing k with
  | zero => omega
  | succ fuel ih =>
    refine .peek fun t => .ite (fun ht => ?_) fun _ => .ite (fun _ => .fail closing) fun _ => Ends.next ?_
    · exact .skip (hcloses t ht) fun _ _ => .pure []
    · exact hx.first fun a j hj => (ih (hx.mono (Nat.le_of_lt hj)) (by omega)).weaken.bind fun as => .pure (a :: as)

end Ends
end

namespace Grammar
open Parse
variable {k fuel : Nat}

section
variable {expr : Parse Expr} (hexpr : Ends k 1 expr)
include hexpr

theorem input_ends (owner : String) : Ends k 1 (input expr owner) :=
  .peek fun _ => .ite (fun _ => .fail _) fun _ => hexpr.next

theorem arguments_end (hfuel : k < fuel) (count? : Option Nat) : Ends k 0 (arguments expr fuel count?) := by
  induction fuel generalizing k count? with
  | zero => omega
  | succ fuel ih =>
    refine .peek fun t => .ite (fun _ => Ends.next (Ends.weaken ?_)) fun _ => (Ends.pure []).next
    exact hexpr.first fun e j hj => (ih (hexpr.mono (Nat.le_of_lt hj)) (by omega) _).bind fun es => .pure (e :: es)

theorem chainTail_ends (hfuel : k < fuel) (word : String) (op : BinaryOp) (left : Expr) :
    Ends k 0 (chainTail word op expr fuel left) := by
  induction fuel generalizing k left with
  | zero => omega
  | succ fuel ih =>
    refine .peek fun t => .ite (fun ht => EndsNext.weaken ?_) fun _ => (Ends.pure left).next
    refine .skip (Token.isFinish_of_isWord (Token.isWord_of_isNamed ht)) fun j hj => ?_
    exact (hexpr.mono (Nat.le_of_lt hj)).weaken.bind fun right => ih (hexpr.mono (Nat.le_of_lt hj)) (by omega) _

theorem chain_ends (hfuel : k ≤ fuel) (word : String) (op : BinaryOp) : Ends k 1 (chain word op expr fuel) :=
  hexpr.first fun left _ hj => chainTail_ends (hexpr.mono (Nat.le_of_lt hj)) (by omega) word op left

theorem comparison_ends : Ends k 1 (comparison expr) := by
  refine hexpr.first fun left j hj => .peek fun t => ?_
  cases hop : comparison? t with
  | none => exact (Ends.pure left).next
  | some op =>
    refine (EndsNext.skip (Token.isFinish_of_joins (.inr (.inl hop))) fun i hi => ?_).weaken
    exact (hexpr.mono (by omega)).weaken.bind fun right => .pure _

end

theorem climbTail_ends {operand : Nat → Parse Expr} (hoperand : ∀ strength, Ends k 1 (operand strength))
    (hfuel : k < fuel) (least : Nat) (left : Expr) : Ends k 0 (climbTail operand least fuel left) := by
  induction fuel generalizing k left with
  | zero => omega
  | succ fuel ih =>
    refine .peek fun t => ?_
    cases hop : arithmetic? t with
    | none => exact (Ends.pure left).next
    | some found =>
      obtain ⟨op, strength⟩ := found
      refine .ite (fun _ => (Ends.pure left).next) fun _ => EndsNext.weaken ?_
      refine .skip (Token.isFinish_of_joins (.inl ⟨strength, hop⟩)) fun j hj => ?_
      have hsmall : ∀ strength, Ends j 1 (operand strength) := fun strength =>
        (hoperand strength).mono (Nat.le_of_lt hj)
      exact (hsmall _).weaken.bind fun right => ih hsmall (by omega) _

/-- An expression behind the sign of an operator. -/
theorem unary_ends {expr : Parse Expr} {t : Token} {op : UnaryOp} (hop : t.Precedes op)
    (hexpr : ∀ j < k, Ends j 1 expr) :
    EndsNext k 1 t (do
      discard advance
      let operand ← expr
      return Expr.unary (t.span.merge operand.span) op operand) :=
  .skip (Token.isFinish_of_precedes hop) fun j hj => (hexpr j hj).weaken.bind fun _ => .pure _

theorem wordExpr_ends {expr : Parse Expr} (hexpr : ∀ j < k, Ends j 1 expr) (hfuel : k ≤ fuel) {t : Token}
    (ht : t.isWord = true) : EndsNext k 1 t (wordExpr expr fuel t) := by
  have hinner := Token.isFinish_of_isWord ht
  unfold wordExpr
  cases Operation.ofWord? t.text with
  | some operation =>
    refine .skip hinner fun j hj => (Ends.times (input_ends (hexpr j hj) _).weaken _).bind fun args => ?_
    exact (Ends.spanFrom _).bind fun _ => .pure _
  | none =>
    cases Traversal.ofWord? t.text with
    | some traversal =>
      refine .skip hinner fun j hj => (Ends.skipMark _).bind fun _ => (Ends.expectWord _).weaken.bind fun _ => ?_
      exact (input_ends (hexpr j hj) _).weaken.bind fun _ => (Ends.spanFrom _).bind fun _ => .pure _
    | none =>
      cases Query.ofWord? t.text with
      | some query => exact .skip hinner fun _ _ => .pure _
      | none =>
        refine .ite (fun _ => .fail _) fun _ => .get fun r => .skip hinner fun j hj => ?_
        exact (arguments_end (hexpr j hj) (by omega) _).bind fun _ => (Ends.spanFrom _).bind fun _ => .pure _

/-- Every level of the expression grammar, by induction on the fuel that all levels share. A level needs one more than
the next one, and five are needed for each token. -/
theorem levels_end (n : Nat) :
    ∀ k, (5 * k + 5 ≤ n → Ends k 1 (expr n)) ∧ (5 * k + 4 ≤ n → Ends k 1 (negation n)) ∧
      (∀ least, 5 * k + 3 ≤ n → Ends k 1 (climb n least)) ∧ (5 * k + 2 ≤ n → Ends k 1 (signed n)) ∧
      (5 * k + 1 ≤ n → Ends k 1 (primary n)) := by
  induction n with
  | zero => exact fun k => ⟨by omega, by omega, by omega, by omega, by omega⟩
  | succ n ih =>
    intro k
    refine ⟨fun hn => ?_, fun hn => ?_, fun least hn => ?_, fun hn => ?_, fun hn => ?_⟩
    · have hand : Ends k 1 (chain "AND" .and (negation n) n) := chain_ends ((ih k).2.1 (by omega)) (by omega) _ _
      exact chain_ends hand (by omega) _ _
    · refine .peek fun t => .ite (fun ht => ?_) fun _ => (comparison_ends ((ih k).2.2.1 0 (by omega))).next
      exact unary_ends (.inr ⟨ht, rfl⟩) fun j hj => (ih j).2.1 (by omega)
    · refine Ends.first ((ih k).2.2.2.1 (by omega)) fun left j hj => ?_
      exact climbTail_ends (fun strength => (ih j).2.2.1 strength (by omega)) (by omega) least left
    · refine .peek fun t => ?_
      cases hop : sign? t with
      | none => exact ((ih k).2.2.2.2 (by omega)).next
      | some op => exact unary_ends (.inl hop) fun j hj => (ih j).2.2.2.1 (by omega)
    · refine .peek fun t => ?_
      have hexpr : ∀ j < k, Ends j 1 (expr n) := fun j hj => (ih j).1 (by omega)
      cases hkind : t.kind with
      | number value => exact .skip (by simp [Token.isFinish, hkind]) fun _ _ => .pure _
      | word => exact wordExpr_ends hexpr (by omega) (by simp [Token.isWord, hkind])
      | finish => exact .fail _
      | mark m =>
        have hinner : t.isFinish = false := by simp [Token.isFinish, hkind]
        cases m
        case colon =>
          refine .skip hinner fun j hj => (Ends.expectWord _).weaken.bind fun _ => ?_
          exact (Ends.spanFrom _).bind fun _ => .pure _
        case leftParen =>
          refine .skip hinner fun j hj => (hexpr j hj).weaken.bind fun e => ?_
          exact (Ends.expectMark _ _).weaken.bind fun _ => .pure e
        case leftBracket =>
          refine .skip hinner fun j hj => ?_
          have hitems : Ends j 1 ((primary n).upTo (·.isMark .rightBracket) "`]`" n) :=
            .upTo (fun _ => Token.isFinish_of_isMark) _ ((ih j).2.2.2.2 (by omega)) (by omega)
          exact hitems.weaken.bind fun _ => (Ends.spanFrom _).bind fun _ => .pure _
        all_goals exact .fail _

theorem expr_ends {n : Nat} (hn : 5 * k + 5 ≤ n) : Ends k 1 (expr n) := (levels_end n k).1 hn

/-! ### Statements -/

theorem parameters_end (hfuel : k < fuel) (read : List String) : Ends k 0 (parameters fuel read) := by
  induction fuel generalizing k read with
  | zero => omega
  | succ fuel ih =>
    refine .peek fun t => .ite (fun ht => EndsNext.weaken ?_) fun _ => (Ends.pure read).next
    refine .skip (Token.isFinish_of_isMark ht) fun j hj => Ends.advance.bind fun w => ?_
    exact .ite (.reject _ _) (.ite (.reject _ _) (ih (by omega) _))

theorem bracketedNames_end (hfuel : k < fuel) : Ends k 1 (bracketedNames fuel) := by
  induction fuel generalizing k with
  | zero => omega
  | succ fuel ih =>
    refine .peek fun t => .ite (fun ht => ?_) fun _ => Ends.next ?_
    · exact .skip (Token.isFinish_of_isMark ht) fun _ _ => .pure []
    · refine (Ends.skipMark _).bind fun _ => (Ends.expectWord _).first fun name j hj => ?_
      exact (ih (by omega)).weaken.bind fun names => .pure (name :: names)

theorem quotedNames_end (hfuel : k < fuel) : Ends k 0 (quotedNames fuel) := by
  induction fuel generalizing k with
  | zero => omega
  | succ fuel ih =>
    refine .peek fun t => .ite (fun ht => EndsNext.weaken ?_) fun _ => (Ends.pure []).next
    refine .skip (Token.isFinish_of_isMark ht) fun j hj => (Ends.expectWord _).weaken.bind fun name => ?_
    exact (ih (by omega)).bind fun names => .pure (name :: names)

theorem declaration_ends (hfuel : k < fuel) (start : Span) : Ends k 0 (declaration fuel start) := by
  refine .peek fun t => .ite (fun ht => EndsNext.weaken ?_) fun _ => Ends.next ?_
  · refine .skip (Token.isFinish_of_isMark ht) fun j hj => (bracketedNames_end (by omega)).weaken.bind fun _ => ?_
    exact (Ends.spanFrom _).bind fun _ => .pure _
  · refine (Ends.expectMark _ _).weaken.bind fun _ => (Ends.expectWord _).weaken.bind fun _ => ?_
    exact (quotedNames_end hfuel).bind fun _ => (Ends.spanFrom _).bind fun _ => .pure _

section
variable {stmt : Parse Stmt} (hstmt : Ends k 1 stmt) (hfuel : k < fuel)
include hstmt hfuel

theorem block_ends : Ends k 0 (block stmt fuel) := by
  refine (Ends.expectMark _ _).weaken.bind fun _ => ?_
  exact (Ends.upTo (fun _ => Token.isFinish_of_isMark) _ hstmt hfuel).weaken

theorem definition_ends (start : Span) : Ends k 0 (definition stmt fuel start) := by
  refine Ends.advance.bind fun t => .ite (.reject _ _) ?_
  refine (parameters_end hfuel []).bind fun params => (Ends.define _ _).bind fun _ => ?_
  have hend : ∀ t : Token, t.isNamed "END" = true → t.isFinish = false :=
    fun t ht => Token.isFinish_of_isWord (Token.isWord_of_isNamed ht)
  exact (Ends.upTo hend _ hstmt hfuel).weaken.bind fun _ => (Ends.spanFrom _).bind fun _ => .pure _

variable {expr : Parse Expr} (hexpr : Ends k 1 expr)
include hexpr

/-- A keyword with an expression and a block. -/
theorem guarded_ends (start : Span) (make : Span → Expr → List Stmt → Stmt) :
    Ends k 0 (do
      let e ← expr
      let body ← block stmt fuel
      return make (← spanFrom start) e body) :=
  hexpr.weaken.bind fun _ => (block_ends hstmt hfuel).bind fun _ => (Ends.spanFrom _).bind fun _ => .pure _

theorem forLoop_ends (start : Span) : Ends k 0 (forLoop expr stmt fuel start) := by
  have hinput := (input_ends hexpr "FOR").weaken
  refine (Ends.expectMark _ _).weaken.bind fun _ => (Ends.skipMark _).bind fun _ => ?_
  refine (Ends.expectWord _).weaken.bind fun var => hinput.bind fun low => hinput.bind fun high => .peek fun t => ?_
  have hrest : ∀ step?, Ends k 0 (do
      expectMark .rightBracket "`]`"
      let body ← block stmt fuel
      return Stmt.forEach (← spanFrom start) var low high step? body) := fun step? =>
    (Ends.expectMark _ _).weaken.bind fun _ => (block_ends hstmt hfuel).bind fun _ =>
      (Ends.spanFrom _).bind fun _ => .pure _
  refine .ite (fun _ => ?_) fun _ => ((hexpr.map some).weaken.bind hrest).next
  simpa using (hrest none).next

theorem keyworded_ends (start : Span) (keyword : Keyword) : Ends k 0 (keyworded expr stmt fuel start keyword) := by
  cases keyword with
  | define => exact definition_ends hstmt hfuel start
  | finish => exact fun r hfinish hlength => EndsNext.fail _ r hfinish hlength rfl
  | loop => exact guarded_ends hstmt hfuel hexpr start .loop
  | ifThen => exact guarded_ends hstmt hfuel hexpr start .ifThen
  | whileTrue => exact guarded_ends hstmt hfuel hexpr start .whileTrue
  | ifElse =>
    have hblock := block_ends hstmt hfuel
    exact hexpr.weaken.bind fun _ => hblock.bind fun _ => hblock.bind fun _ => (Ends.spanFrom _).bind fun _ => .pure _
  | make =>
    refine (Ends.expectMark _ _).weaken.bind fun _ => (Ends.expectWord _).weaken.bind fun _ => ?_
    exact hexpr.weaken.bind fun _ => (Ends.spanFrom _).bind fun _ => .pure _
  | output | print => exact (input_ends hexpr _).weaken.bind fun _ => (Ends.spanFrom _).bind fun _ => .pure _
  | stop => exact .pure _
  | forEach => exact forLoop_ends hstmt hfuel hexpr start
  | declare => exact declaration_ends hfuel start

end

theorem statement_ends {expr : Parse Expr} {stmt : Parse Stmt} (hexpr : Ends k 1 expr)
    (hstmt : ∀ j < k, Ends j 1 stmt) (hfuel : k ≤ fuel) : Ends k 1 (statement expr stmt fuel) := by
  refine .peek fun t => .ite (fun _ => .fail _) fun hfirst => ?_
  have ht : t.isWord = true := by
    simp only [Bool.or_eq_true, not_or] at hfirst
    simpa using hfirst.1
  have hinner := Token.isFinish_of_isWord ht
  have hsmall : ∀ j < k, Ends j 1 expr := fun j hj => hexpr.mono (Nat.le_of_lt hj)
  cases Keyword.ofWord? t.text with
  | some keyword =>
    exact .skip hinner fun j hj => keyworded_ends (hstmt j hj) (by omega) (hsmall j hj) _ keyword
  | none =>
    cases Command.ofWord? t.text with
    | some command =>
      refine .skip hinner fun j hj => (Ends.times (input_ends (hsmall j hj) _).weaken _).bind fun args => ?_
      exact (Ends.spanFrom _).bind fun _ => .pure _
    | none =>
      refine .ite (fun _ => (hexpr.first fun _ _ _ => .pure _).next) fun _ => .get fun r => ?_
      refine .skip hinner fun j hj => (arguments_end (hsmall j hj) (by omega) _).bind fun _ => ?_
      exact (Ends.spanFrom _).bind fun _ => .pure _

theorem stmt_ends {n : Nat} (hn : 5 * k + 6 ≤ n) : Ends k 1 (stmt n) := by
  induction n generalizing k with
  | zero => omega
  | succ n ih => exact statement_ends (expr_ends (by omega)) (fun j hj => ih (by omega)) (by omega)

theorem program_ends {n : Nat} (hn : 5 * k + 7 ≤ n) : Ends k 0 (program n) := by
  induction n generalizing k with
  | zero => omega
  | succ n ih =>
    refine .peek fun t => .ite (fun _ => (Ends.pure []).next) fun _ => Ends.next (Ends.weaken ?_)
    exact (stmt_ends (by omega)).first fun s j hj => (ih (by omega)).bind fun p => .pure (s :: p)

theorem wholeExpr_ends {n : Nat} (hn : 5 * k + 5 ≤ n) : Ends k 1 (wholeExpr n) :=
  (expr_ends hn).first fun e _ _ => .peek fun _ => .ite (fun _ => (Ends.pure e).next) fun _ => .fail _

end Grammar

section
variable (tokens : List Token) (known : List (String × Nat))

theorem Reader.start_finishes : (Reader.start tokens known).finish.isFinish = true := by
  have hfound : ∀ t, tokens.find? Token.isFinish = some t → t.isFinish = true := fun t ht => List.find?_some ht
  cases h : tokens.find? Token.isFinish with
  | none => simp [start, ofTokens, h, Token.finishAt, Token.isFinish]
  | some t => simp [start, ofTokens, h, hfound t h]

theorem Reader.start_length : (Reader.start tokens known).rest.length ≤ tokens.length :=
  (List.takeWhile_sublist _).length_le

/-- Reading a program ends with the program or with a fault. -/
theorem readProgram_ended : Ended (.start tokens known) 0 (readProgram tokens known) := by
  refine Grammar.program_ends (k := tokens.length) ?_ _ (Reader.start_finishes ..) (Reader.start_length ..)
  unfold Grammar.fuelFor
  omega

theorem readExpr_ended : Ended (.start tokens known) 1 (readExpr tokens known) := by
  refine Grammar.wholeExpr_ends (k := tokens.length) ?_ _ (Reader.start_finishes ..) (Reader.start_length ..)
  unfold Grammar.fuelFor
  omega

end
end Logo
