import Logo.Proofs.Places
import Logo.Proofs.Takes

/-! The grammar takes only what spells its results, and where it fails at the end of the text, the tokens read so far
have left something open. -/
namespace Logo.Grammar
open Parse

/-- Nothing is closed by what is expected here. -/
theorem awaits_input (owner : String) (ts : List Token) : Awaits ts ("input to " ++ owner) := by
  refine .other (fun h => ?_) fun h => ?_ <;>
  · have hlist := congrArg String.toList h
    simp at hlist

section
variable {G : Setting}

def TakesExpr (G : Setting) (x : Parse Expr) : Prop := Takes G [] x fun ts e => Spells G.fits ts (.expr e)

def TakesStmt (G : Setting) (x : Parse Stmt) : Prop := Takes G [] x fun ts s => Spells G.fits ts (.stmt s)

def Extends (G : Setting) (x : Expr → Parse Expr) : Prop :=
  ∀ ts left, Spells G.fits ts (.expr left) → Takes G ts (x left) fun read e => Spells G.fits read (.expr e)

variable {expr : Parse Expr} {stmt : Parse Stmt}

section
variable (hexpr : TakesExpr G expr)
include hexpr

theorem input_takes (owner : String) : TakesExpr G (input expr owner) :=
  .peek fun _ => .ite (fun _ => .fail (awaits_input owner [])) fun _ => hexpr.next

theorem inputs_take (owner : String) (count : Nat) :
    Takes G [] ((input expr owner).times count) fun ts args => Spells G.fits ts (.exprs args) ∧ args.length = count :=
  .times (input_takes hexpr owner) (fun _ _ h => h.steady) .noExprs (fun _ _ _ _ => .moreExprs) count

/-- The items of a list behind its bracket. -/
theorem items_take {l : Token} (hl : l.isMark .leftBracket = true) (fuel : Nat) :
    Takes G [l] (expr.upTo (·.isMark .rightBracket) "`]`" fuel) fun read items =>
      ∃ ts t, Spells G.fits ts (.exprs items) ∧ t.isMark .rightBracket = true ∧ read = [l] ++ (ts ++ [t]) :=
  .upTo hexpr (fun _ _ h => h.steady) .noExprs (fun _ _ _ _ => .moreExprs) (fun _ => Token.isFinish_of_isMark)
    (.leftBracket .nil hl) fuel (.bracket hl)

theorem arguments_take (fuel : Nat) (count? : Option Nat) :
    Takes G [] (arguments expr fuel count?) fun ts args =>
      Spells G.fits ts (.exprs args) ∧ ∀ count, count? = some count → args.length ≤ count := by
  induction fuel generalizing count? with
  | zero => exact .outOfFuel
  | succ fuel ih =>
    refine .peek fun t => .ite (fun hmore => Takes.next ?_) fun _ => .pure ⟨.noExprs, by simp⟩
    refine Takes.bind hexpr fun ts e he => (ih (count?.map (· - 1))).part he.steady fun us es hes => .pure ?_
    refine ⟨.moreExprs he hes.1, ?_⟩
    rintro count rfl
    have hcount : 0 < count := by simpa using (Bool.and_eq_true_iff.mp hmore).1
    have hrest := hes.2 (count - 1) rfl
    simp only [List.length_cons]
    omega

theorem chainTail_extends {word : String} {op : BinaryOp} (hop : ∀ t : Token, t.isNamed word = true → t.Joins op)
    (fuel : Nat) : Extends G (chainTail word op expr fuel) := by
  induction fuel with
  | zero => exact fun _ _ _ => .outOfFuel
  | succ fuel ih =>
    intro ts left hleft
    refine .peek fun t => .ite (fun ht => ?_) fun _ => .pure hleft
    refine .skip (Token.isFinish_of_isWord (Token.isWord_of_isNamed ht)) ?_
    refine Takes.part hexpr (hleft.steady.append (.plain (.ofJoins (hop t ht)))) fun us right hright => ?_
    rw [List.append_assoc]
    exact ih _ _ (.binary (hop t ht) hleft hright)

theorem chain_takes {word : String} {op : BinaryOp} (hop : ∀ t : Token, t.isNamed word = true → t.Joins op)
    (fuel : Nat) : TakesExpr G (chain word op expr fuel) :=
  Takes.bind hexpr fun ts left hleft => chainTail_extends hexpr hop fuel ts left hleft

theorem comparison_takes : TakesExpr G (comparison expr) := by
  refine Takes.bind hexpr fun ts left hleft => .peek fun t => ?_
  cases hop : comparison? t with
  | none => exact .pure hleft
  | some op =>
    have hjoins : t.Joins op := .inr (.inl hop)
    refine .skip (Token.isFinish_of_joins hjoins) ?_
    refine Takes.part hexpr (hleft.steady.append (.plain (.ofJoins hjoins))) fun us right hright => .pure ?_
    rw [List.append_assoc]
    exact .binary hjoins hleft hright

end

theorem climbTail_extends {operand : Nat → Parse Expr} (hoperand : ∀ strength, TakesExpr G (operand strength))
    (least fuel : Nat) : Extends G (climbTail operand least fuel) := by
  induction fuel with
  | zero => exact fun _ _ _ => .outOfFuel
  | succ fuel ih =>
    intro ts left hleft
    refine .peek fun t => ?_
    cases hop : arithmetic? t with
    | none => exact .pure hleft
    | some found =>
      obtain ⟨op, strength⟩ := found
      have hjoins : t.Joins op := .inl ⟨strength, hop⟩
      refine .ite (fun _ => .pure hleft) fun _ => .skip (Token.isFinish_of_joins hjoins) ?_
      refine Takes.part (hoperand _) (hleft.steady.append (.plain (.ofJoins hjoins))) fun us right hright => ?_
      rw [List.append_assoc]
      exact ih _ _ (.binary hjoins hleft hright)

/-- An expression behind the sign of an operator. -/
theorem unary_takes {t : Token} {op : UnaryOp} (hop : t.Precedes op) (hexpr : TakesExpr G expr) :
    TakesNext G [] t
      (do
        discard advance
        let operand ← expr
        return .unary (t.span.merge operand.span) op operand)
      fun ts e => Spells G.fits ts (.expr e) := by
  refine .first (Token.isFinish_of_precedes hop) ?_
  exact Takes.part hexpr (.plain (.ofPrecedes hop)) fun us e he => .pure (.unary hop he)

theorem call_takes {γ : Type} {t : Token} (ht : t.Calls) (hexpr : TakesExpr G expr) (fuel : Nat) {known : Table Nat}
    (hknown : G.table known) {f : List Expr → Parse γ} {S : List Token → γ → Prop}
    (hf : ∀ ts args, G.fits t.text args.length → Spells G.fits ts (.exprs args) → Takes G (t :: ts) (f args) S) :
    TakesNext G [] t
      (do
        discard advance
        let args ← arguments expr fuel (known.find? t.text)
        f args) S := by
  refine .first (Token.isFinish_of_isWord ht.1) ?_
  refine (arguments_take hexpr fuel (known.find? t.text)).part (.plain (.ofCalls ht)) fun ts args hargs => ?_
  exact hf ts args ⟨known, hknown, hargs.2⟩ hargs.1

theorem wordExpr_takes (hexpr : TakesExpr G expr) (fuel : Nat) {t : Token} (ht : t.isWord = true) :
    TakesNext G [] t (wordExpr expr fuel t) fun ts e => Spells G.fits ts (.expr e) := by
  have hinner := Token.isFinish_of_isWord ht
  unfold wordExpr
  cases hoperation : Operation.ofWord? t.text with
  | some operation =>
    refine .first hinner ?_
    refine (inputs_take hexpr _ _).part (.plain (.ofOperation ht hoperation)) fun ts args hargs => .spanFrom (.pure ?_)
    exact .operation ht hoperation hargs.2 hargs.1
  | none =>
    cases htraversal : Traversal.ofWord? t.text with
    | some traversal =>
      have hsteady : Steady [t] := .plain (.ofTraversal ht htraversal)
      refine .first hinner (.name (fun _ => .other (by simp) (by simp)) fun ns name hns => ?_)
      refine (input_takes hexpr _).part (hsteady.single hns fun _ => .traversal ht htraversal) fun ts e he => ?_
      exact .spanFrom (.pure (.traverse ht htraversal hns he))
    | none =>
      cases hquery : Query.ofWord? t.text with
      | some query => exact .first hinner (.pure (.query ht hquery))
      | none =>
        refine .ite (fun _ => .fail (.other (by simp) (by simp))) fun hname => .get fun r hr => ?_
        have hcalls : t.Calls := by
          simp only [Bool.or_eq_true, not_or, Bool.not_eq_true] at hname
          refine ⟨ht, hname.1, ?_⟩
          simpa [isBuiltin, hoperation, htraversal, hquery] using hname.2
        exact call_takes hcalls hexpr fuel hr fun ts args hfits hargs => .spanFrom (.pure (.call hcalls hfits hargs))

/-- Every level of the expression grammar, by induction on the fuel that all levels share. -/
theorem levels_take (n : Nat) :
    TakesExpr G (Grammar.expr n) ∧ TakesExpr G (negation n) ∧ (∀ least, TakesExpr G (climb n least)) ∧
      TakesExpr G (signed n) ∧ TakesExpr G (primary n) := by
  induction n with
  | zero => exact ⟨.outOfFuel, .outOfFuel, fun _ => .outOfFuel, .outOfFuel, .outOfFuel⟩
  | succ n ih =>
    obtain ⟨hexpr, hnegation, hclimb, hsigned, hprimary⟩ := ih
    refine ⟨?_, ?_, fun least => ?_, ?_, ?_⟩
    · have hand := chain_takes hnegation (fun t ht => .inr (.inr (.inl ⟨ht, rfl⟩))) n
      exact chain_takes hand (fun t ht => .inr (.inr (.inr ⟨ht, rfl⟩))) n
    · exact .peek fun t => .ite (fun ht => unary_takes (.inr ⟨ht, rfl⟩) hnegation) fun _ =>
        (comparison_takes (hclimb 0)).next
    · exact Takes.bind hsigned fun ts left hleft => climbTail_extends hclimb least n ts left hleft
    · refine .peek fun t => ?_
      cases hop : sign? t with
      | none => exact hprimary.next
      | some op => exact unary_takes (.inl hop) hsigned
    · refine .peek fun t => ?_
      have hmark : ∀ m, t.kind = .mark m → t.isMark m = true := fun m hk => by simp [Token.isMark, hk]
      cases hkind : t.kind with
      | number value => exact .first (by simp [Token.isFinish, hkind]) (.pure (.number hkind))
      | word => exact wordExpr_takes hexpr n (by simp [Token.isWord, hkind])
      | finish => exact .fail (.other (by simp) (by simp))
      | mark m =>
        have ht := hmark m hkind
        have hinner := Token.isFinish_of_isMark ht
        cases m
        case colon =>
          refine .first hinner (.expectWord (.other (by simp) (by simp)) fun w hw => ?_)
          exact .spanFrom (.pure (.thing ht hw))
        case leftParen =>
          refine .first hinner (Takes.part hexpr (.plain (.ofMark ht (by simp) (by simp))) fun ts e he => ?_)
          refine .expectMark (.other (by simp) (by simp)) fun u hu => .pure ?_
          exact .parens ht hu he
        case leftBracket =>
          refine .first hinner ((items_take hprimary ht n).bind ?_)
          rintro _ items ⟨ts, u, hts, hu, rfl⟩
          exact .spanFrom (.pure (.list ht hu hts))
        all_goals exact .fail (.other (by simp) (by simp))

theorem expr_takes (n : Nat) : TakesExpr G (Grammar.expr n) := (levels_take n).1

/-! ### Names -/

/-- The parameters behind others, which are all distinct. -/
theorem parameters_take {before : List Token} (fuel : Nat) {read : List String} (hread : (read.map fold).Nodup) :
    Takes G before (parameters fuel read) fun all params =>
      ∃ ps ns, Params ps ns ∧ all = before ++ ps ∧ params = read ++ ns ∧ (params.map fold).Nodup := by
  induction fuel generalizing before read with
  | zero => exact .outOfFuel
  | succ fuel ih =>
    refine .peek fun c => .ite (fun hc => ?_) fun _ => .pure ⟨[], [], .nil, by simp, by simp, hread⟩
    refine .skip (Token.isFinish_of_isMark hc) (.advance (fun w hw => ?_) ?_)
    · refine .ite (fun _ => .reject hw) fun hword => .ite (fun _ => .reject hw) fun hnew => ?_
      have hword : w.isWord = true := by simpa using hword
      have hdistinct : ((read ++ [w.text]).map fold).Nodup := by
        simp only [List.any_eq_true, beq_iff_eq, not_exists, not_and] at hnew
        simp only [List.map_append, List.map_cons, List.map_nil, List.nodup_append, List.mem_map,
          List.mem_singleton]
        refine ⟨hread, by simp, ?_⟩
        rintro _ ⟨n, hn, rfl⟩ _ rfl
        exact hnew n hn
      refine (ih hdistinct).mono ?_
      rintro _ _ ⟨ps, ns, hps, rfl, rfl, hnodup⟩
      exact ⟨c :: w :: ps, w.text :: ns, .cons hc hword hps, by simp, by simp, hnodup⟩
    · refine .ite (fun _ => .reject (.other (by simp) (by simp))) fun hword => ?_
      simp [Token.isWord_of_isFinish G.finishes] at hword

/-- No further parameter comes behind the parameters. -/
theorem parameters_stop {fuel : Nat} {read params : List String} {r r' : Reader}
    (h : parameters fuel read r = .ok params r') : r'.head.isMark .colon = false := by
  induction fuel generalizing read r with
  | zero => cases h
  | succ fuel ih =>
    rw [parameters, run_peek] at h
    by_cases hc : r.head.isMark .colon = true
    · rw [if_pos hc] at h
      obtain ⟨_, r₁, -, hname⟩ := exists_of_bind_ok h
      rw [run_advance] at hname
      split at hname
      · cases hname
      · split at hname
        · cases hname
        · exact ih hname
    · rw [if_neg hc] at h
      cases h
      simpa using hc

theorem bracketedNames_take {before : List Token} (fuel : Nat) :
    Takes G before (bracketedNames fuel) fun read names =>
      ∃ ns t, Names true ns names ∧ t.isMark .rightBracket = true ∧ read = before ++ (ns ++ [t]) := by
  induction fuel generalizing before with
  | zero => exact .outOfFuel
  | succ fuel ih =>
    refine .peek fun t => .ite (fun ht => ?_) fun _ => Takes.next ?_
    · exact .skip (Token.isFinish_of_isMark ht) (.pure ⟨[], t, .nil, ht, rfl⟩)
    · refine .name (fun _ => .other (by simp) (by simp)) fun ns n hn => ih.map _ ?_
      rintro _ names ⟨ms, t, hms, ht, rfl⟩
      exact ⟨ns ++ ms, t, hn.append hms, ht, by simp⟩

theorem quotedNames_take {before : List Token} (fuel : Nat) :
    Takes G before (quotedNames fuel) fun read names => ∃ ns, Names false ns names ∧ read = before ++ ns := by
  induction fuel generalizing before with
  | zero => exact .outOfFuel
  | succ fuel ih =>
    refine .peek fun q => .ite (fun hq => ?_) fun _ => .pure ⟨[], .nil, by simp⟩
    refine .skip (Token.isFinish_of_isMark hq) (.expectWord (.other (by simp) (by simp)) fun w hw => ih.map _ ?_)
    rintro _ names ⟨ns, hns, rfl⟩
    exact ⟨q :: w :: ns, .quoted hq hw hns, by simp⟩

/-! ### Statements -/

theorem declaration_takes {t : Token} (ht : t.Starts .declare) (fuel : Nat) :
    Takes G [t] (declaration fuel t.span) fun ts s => Spells G.fits ts (.stmt s) := by
  refine .peek fun l => .ite (fun hl => ?_) fun _ => Takes.next ?_
  · refine .skip (Token.isFinish_of_isMark hl) ((bracketedNames_take fuel).bind ?_)
    rintro _ names ⟨ns, r, hns, hr, rfl⟩
    exact .spanFrom (.pure (.declareAll ht hl hns hr))
  · refine .expectMark (.other (by simp) (by simp)) fun q hq => ?_
    refine .expectWord (.other (by simp) (by simp)) fun w hw => (quotedNames_take fuel).bind ?_
    rintro _ names ⟨ns, hns, rfl⟩
    exact .spanFrom (.pure (.declare ht (.quoted hq hw hns)))

section
variable (hstmt : TakesStmt G stmt)
include hstmt

theorem body_takes {before : List Token} {closes : Token → Bool} {closing : String}
    (hcloses : ∀ t, closes t = true → t.isFinish = false) (hawaits : Awaits before closing) (fuel : Nat)
    (hbefore : Steady before) :
    Takes G before (stmt.upTo closes closing fuel) fun read body =>
      ∃ ts t, Spells G.fits ts (.stmts body) ∧ closes t = true ∧ read = before ++ (ts ++ [t]) :=
  .upTo hstmt (fun _ _ h => h.steady) .noStmts (fun _ _ _ _ => .moreStmts) hcloses hawaits fuel hbefore

theorem block_takes (fuel : Nat) : Takes G [] (block stmt fuel) fun ts body => Spells G.fits ts (.block body) := by
  refine .expectMark (.other (by simp) (by simp)) fun l hl => ?_
  refine (body_takes hstmt (fun _ => Token.isFinish_of_isMark) (.leftBracket .nil hl) fuel (.bracket hl)).mono ?_
  rintro _ body ⟨ts, r, hts, hr, rfl⟩
  exact .block hl hr hts

theorem definition_takes {t : Token} (ht : t.Starts .define) (fuel : Nat) :
    Takes G [t] (definition stmt fuel t.span) fun ts s => Spells G.fits ts (.stmt s) := by
  refine .advance (fun w hw => .ite (fun _ => .reject hw) fun hname => ?_) ?_
  · have hcalls : w.Calls := by simpa [Token.Calls, and_assoc] using hname
    have hheader : Steady [t, w] := .header ht (.ofCalls hcalls)
    refine (parameters_take fuel (by simp)).bindNext (Q := fun u => u.isMark .colon = false)
      (fun _ _ _ => parameters_stop) ?_
    rintro _ _ u ⟨ps, params, hps, rfl, rfl, hnodup⟩ hu
    refine .define ht.isNamed hcalls.1 hps hu ?_
    have hawaits : Awaits ([t, w] ++ ps) "END" := (Awaits.header ht (.ofCalls hcalls)).append (Steady.nil.params hps)
    have hend : ∀ e : Token, e.isNamed "END" = true → e.isFinish = false :=
      fun e he => Token.isFinish_of_isWord (Token.isWord_of_isNamed he)
    refine (body_takes hstmt hend hawaits fuel (hheader.params hps)).bind ?_
    rintro _ body ⟨ts, e, hts, he, rfl⟩
    refine .spanFrom (.pure ?_)
    have hspells := Spells.define ht hcalls hps hnodup hts he
    simpa using hspells
  · -- The end of the text is no name.
    refine .ite (fun _ => .reject (.other (by simp) (by simp))) fun hname => ?_
    simp [Token.isWord_of_isFinish G.finishes] at hname

variable (hexpr : TakesExpr G expr)
include hexpr

/-- A keyword with an expression and a block. -/
theorem guarded_takes {t : Token} (ht : Plain t) (fuel : Nat) {make : Span → Expr → List Stmt → Stmt}
    (hmake : ∀ {ts bs e body}, Spells G.fits ts (.expr e) → Spells G.fits bs (.block body) →
      Spells G.fits (t :: (ts ++ bs)) (.stmt (make (t.cover (ts ++ bs)) e body))) :
    Takes G [t]
      (do
        let e ← expr
        let body ← block stmt fuel
        return make (← spanFrom t.span) e body)
      fun ts s => Spells G.fits ts (.stmt s) := by
  refine Takes.part hexpr (.plain ht) fun ts e he => ?_
  refine (block_takes hstmt fuel).part ((Steady.plain ht).append he.steady) fun bs body hbody => ?_
  exact .spanFrom (.pure (hmake he hbody))

theorem forLoop_takes {t : Token} (ht : t.Starts .forEach) (fuel : Nat) :
    Takes G [t] (forLoop expr stmt fuel t.span) fun ts s => Spells G.fits ts (.stmt s) := by
  have hplain : Plain t := .ofStarts ht (by simp) (by simp)
  refine .expectMark (.other (by simp) (by simp)) fun l hl => ?_
  refine .name (fun _ => .other (by simp) (by simp)) fun ns var hns => ?_
  have hnames : Steady ([t] ++ [l] ++ ns) :=
    ((Steady.plain hplain).append (.bracket hl)).single hns fun _ => .loopVariable ht hl
  refine (input_takes hexpr _).part hnames fun ts low hlow => ?_
  refine (input_takes hexpr _).part (hnames.append hlow.steady) fun us high hhigh => ?_
  have hbounds := (hnames.append hlow.steady).append hhigh.steady
  -- What follows the bounds is the same whether or not there is a step.
  have hrest : ∀ vs step?, Spells G.fits vs (.exprs step?.toList) → Takes G ([t] ++ [l] ++ ns ++ ts ++ us ++ vs)
      (do
        expectMark .rightBracket "`]`"
        let body ← block stmt fuel
        return .forEach (← spanFrom t.span) var low high step? body)
      fun ts s => Spells G.fits ts (.stmt s) := by
    intro vs step? hstep
    have hrange := Spells.moreExprs hlow (.moreExprs hhigh hstep)
    have hopen : 0 < Repl.openBrackets ([t] ++ [l] ++ ns ++ ts ++ us ++ vs) := by
      have hbracket : Repl.bracketWeight l = 1 := by simp [Repl.bracketWeight, hl]
      simp [hplain.bracket, hbracket, (Tally.ofNames hns).brackets, hlow.tally.brackets, hhigh.tally.brackets,
        hstep.tally.brackets]
    refine .expectMark ⟨fun _ => hopen, by simp⟩ fun r hr => ?_
    have hbefore := (hbounds.append hstep.steady).close hopen hr
    refine (block_takes hstmt fuel).part hbefore fun bs body hbody => .spanFrom (.pure ?_)
    have hspells := Spells.forEach ht hl hns hrange hr hbody
    simpa using hspells
  have hstep : Takes G [] (some <$> expr) fun vs step? => Spells G.fits vs (.exprs step?.toList) :=
    .map some hexpr fun vs e he => by simpa using Spells.moreExprs he .noExprs
  refine .peek fun u => .ite (fun _ => ?_) fun _ => (hstep.part hbounds hrest).next
  simpa using (hrest [] none .noExprs).next

theorem keyworded_takes {t : Token} {k : Keyword} (ht : t.Starts k) (fuel : Nat) :
    Takes G [t] (keyworded expr stmt fuel t.span k) fun ts s => Spells G.fits ts (.stmt s) := by
  have hplain : k ≠ .define → k ≠ .finish → Plain t := fun hdefine hfinish => .ofStarts ht hdefine hfinish
  cases k with
  | define => exact definition_takes hstmt ht fuel
  | finish => exact fun s r hr => TakesNext.fail (.other (by simp) (by simp)) s r hr rfl
  | loop => exact guarded_takes hstmt hexpr (hplain (by simp) (by simp)) fuel (.loop ht)
  | ifThen => exact guarded_takes hstmt hexpr (hplain (by simp) (by simp)) fuel (.ifThen ht)
  | whileTrue => exact guarded_takes hstmt hexpr (hplain (by simp) (by simp)) fuel (.whileTrue ht)
  | ifElse =>
    have hsteady : Steady [t] := .plain (hplain (by simp) (by simp))
    refine Takes.part hexpr hsteady fun ts e he => ?_
    refine (block_takes hstmt fuel).part (hsteady.append he.steady) fun bs yes hyes => ?_
    refine (block_takes hstmt fuel).part ((hsteady.append he.steady).append hyes.steady) fun cs no hno => ?_
    refine .spanFrom (.pure ?_)
    have hspells := Spells.ifElse ht he hyes hno
    simpa using hspells
  | make =>
    refine .expectMark (.other (by simp) (by simp)) fun q hq => .expectWord (.other (by simp) (by simp)) fun w hw => ?_
    have hname : Names false [q, w] [w.text] := .quoted hq hw .nil
    have hsteady : Steady ([t] ++ [q, w]) := (Steady.plain (hplain (by simp) (by simp))).single hname (by simp)
    exact Takes.part hexpr hsteady fun ts e he => .spanFrom (.pure (.make ht hname he))
  | output =>
    refine (input_takes hexpr _).part (.plain (hplain (by simp) (by simp))) fun ts e he => ?_
    exact .spanFrom (.pure (.output ht he))
  | print =>
    refine (input_takes hexpr _).part (.plain (hplain (by simp) (by simp))) fun ts e he => ?_
    exact .spanFrom (.pure (.print ht he))
  | stop => exact .pure (.stop ht)
  | forEach => exact forLoop_takes hstmt hexpr ht fuel
  | declare => exact declaration_takes ht fuel

theorem statement_takes (fuel : Nat) : TakesStmt G (statement expr stmt fuel) := by
  refine .peek fun t => .ite (fun _ => .fail (.other (by simp) (by simp))) fun hfirst => ?_
  have ht : t.isWord = true := by
    simp only [Bool.or_eq_true, not_or] at hfirst
    simpa using hfirst.1
  have hinner := Token.isFinish_of_isWord ht
  cases hkeyword : Keyword.ofWord? t.text with
  | some k => exact .first hinner (keyworded_takes hstmt hexpr ⟨ht, hkeyword⟩ fuel)
  | none =>
    cases hcommand : Command.ofWord? t.text with
    | some c =>
      refine .first hinner ?_
      refine (inputs_take hexpr _ _).part (.plain (.ofCommand ht hcommand)) fun ts args hargs => .spanFrom (.pure ?_)
      exact .command ht hkeyword hcommand hargs.2 hargs.1
    | none =>
      refine .ite (fun _ => ?_) fun hname => .get fun r hr => ?_
      · refine (TakesNext.starts hexpr fun ts e he => he.ne_nil).bind ?_
        rintro _ e ⟨he, us, rfl⟩
        exact .pure (.expression ht he)
      · have hcalls : t.Calls := by
          refine ⟨ht, by simp [isKeyword, hkeyword], ?_⟩
          simpa [isBuiltin, hcommand, and_assoc] using hname
        exact call_takes hcalls hexpr fuel hr fun ts args hfits hargs =>
          .spanFrom (.pure (.callStmt hcalls hfits hargs))

end

theorem stmt_takes (n : Nat) : TakesStmt G (Grammar.stmt n) := by
  induction n with
  | zero => exact .outOfFuel
  | succ n ih => exact statement_takes ih (expr_takes n) n

theorem program_takes (n : Nat) : Takes G [] (program n) fun ts p => Spells G.fits ts (.stmts p) := by
  induction n with
  | zero => exact .outOfFuel
  | succ n ih =>
    refine .peek fun t => .ite (fun _ => .pure .noStmts) fun _ => Takes.next ?_
    exact Takes.bind (stmt_takes n) fun ts s hs => ih.part hs.steady fun us p hp => .pure (.moreStmts hs hp)

/-- A program goes to the end of the text. -/
theorem program_stop {n : Nat} {p : Program} {r r' : Reader} (h : program n r = .ok p r') :
    r'.head.isFinish = true := by
  induction n generalizing p r with
  | zero => cases h
  | succ n ih =>
    rw [program, run_peek] at h
    by_cases hfinish : r.head.isFinish = true
    · rw [if_pos hfinish] at h
      cases h
      exact hfinish
    · rw [if_neg hfinish] at h
      obtain ⟨s, r₁, -, hrest⟩ := exists_of_bind_ok h
      obtain ⟨rest, r₂, hp, hpure⟩ := exists_of_bind_ok hrest
      cases hpure
      exact ih hp

/-- A whole expression goes to the end of the text too. -/
theorem wholeExpr_takes (n : Nat) : TakesExpr G (wholeExpr n) := by
  refine Takes.bind (expr_takes n) fun ts e he => .peek fun t => .ite (fun _ => .pure he) fun _ => ?_
  exact .fail (.other (by simp) (by simp))

theorem wholeExpr_stop {n : Nat} {e : Expr} {r r' : Reader} (h : wholeExpr n r = .ok e r') :
    r'.head.isFinish = true := by
  obtain ⟨e', r₁, -, hend⟩ := exists_of_bind_ok h
  rw [run_peek] at hend
  by_cases hfinish : r₁.head.isFinish = true
  · rw [if_pos hfinish] at hend
    cases hend
    exact hfinish
  · rw [if_neg hfinish] at hend
    cases hend

end
end Logo.Grammar

namespace Logo

def Setting.free (source : String) : Setting where
  finish := .finishAt source.utf8ByteSize
  place ts := ∀ t ∈ ts, t.isFinish = false
  table _ := True
  finishes := rfl
  inner h := h
  tail h t ht := h t (List.mem_cons_of_mem _ ht)
  define _ _ _ _ := trivial

section
variable {G : Setting} {source : String} {known : List (String × Nat)}

theorem Reader.start_behind (hfinish : G.finish = .finishAt source.utf8ByteSize) (hplace : G.place (tokensIn source))
    (htable : G.table (Arity.collect (tokenize source) (.ofList known))) :
    (Reader.start (tokenize source) known).Behind G (Reader.start (tokenize source) known).last [] :=
  ⟨hplace, htable, (start_tokenize source known).2.trans hfinish.symm, rfl⟩

theorem Reader.start_behind_free (source : String) (known : List (String × Nat)) :
    (Reader.start (tokenize source) known).Behind (.free source) (Reader.start (tokenize source) known).last [] :=
  start_behind rfl (fun t ht => ((tokenize_eq source).2 t ht).1) trivial

variable {s : Span} (hstart : (Reader.start (tokenize source) known).Behind G s [])
include hstart

/-- What is read to the end of the text is spelled by all its tokens. -/
theorem spelled_of_end {α : Type} {x : Parse α} {a : α} {r : Reader} {S : List Token → α → Prop} (hx : Takes G [] x S)
    (h : x (.start (tokenize source) known) = .ok a r) (hend : r.head.isFinish = true) : S (tokensIn source) a := by
  have htaken := hx s _ hstart
  rw [h] at htaken
  cases htaken with
  | @ok read _ _ htext hbehind hspells =>
    have hrest := hbehind.rest_eq_nil hend
    have hread : read = tokensIn source := by simpa [hrest, Reader.start_tokenize] using htext
    exact hread ▸ hspells

/-- The tokens of an accepted text spell its program. -/
theorem spells_of_readProgram {p : Program} {r : Reader} (h : readProgram (tokenize source) known = .ok p r) :
    Spells G.fits (tokensIn source) (.stmts p) := by
  have hspelled := spelled_of_end hstart (Grammar.program_takes _) h (Grammar.program_stop h)
  exact hspelled

theorem spells_of_readExpr {e : Expr} {r : Reader} (h : readExpr (tokenize source) known = .ok e r) :
    Spells G.fits (tokensIn source) (.expr e) := by
  have hspelled := spelled_of_end hstart (Grammar.wholeExpr_takes _) h (Grammar.wholeExpr_stop h)
  exact hspelled

/-- Why a text is not accepted. -/
theorem breaks_of_error {α : Type} {x : Parse α} {S : List Token → α → Prop} (hx : Takes G [] x S) {e : Halt}
    {r : Reader} (h : x (.start (tokenize source) known) = .error e r) :
    ∃ read, read ++ r.rest = tokensIn source ∧ Breaks G read r.rest e := by
  have htaken := hx s _ hstart
  rw [h] at htaken
  cases htaken with
  | error htext _ hbreaks => exact ⟨_, htext, hbreaks⟩

theorem breaks_of_readProgram {e : Halt} {r : Reader} (h : readProgram (tokenize source) known = .error e r) :
    ∃ read, read ++ r.rest = tokensIn source ∧ Breaks G read r.rest e :=
  breaks_of_error hstart (Grammar.program_takes _) h

theorem breaks_of_readExpr {e : Halt} {r : Reader} (h : readExpr (tokenize source) known = .error e r) :
    ∃ read, read ++ r.rest = tokensIn source ∧ Breaks G read r.rest e :=
  breaks_of_error hstart (Grammar.wholeExpr_takes _) h

end
end Logo
