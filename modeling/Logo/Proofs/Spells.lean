import Logo.Proofs.Print
import Logo.Repl
import Mathlib.Tactic.ByContra

/-! Which tokens spell which trees. The relation follows the forms of expressions and statements and leaves the
binding strengths of operators open, so that what holds of all tokens that spell a tree can be shown by induction:
their brackets are closed, and the words `TO` and `END` occur once for each definition and once for each name that
is spelled like them. -/
namespace Logo

/-- A tree or several in a row. A block stands in brackets. -/
inductive Tree where
  | expr (e : Expr)
  | exprs (es : List Expr)
  | stmt (s : Stmt)
  | stmts (body : List Stmt)
  | block (body : List Stmt)

def Mark.isBracket : Mark → Bool
  | leftBracket | rightBracket | leftParen | rightParen => true
  | _ => false

def BinaryOp.isWord : BinaryOp → Bool
  | mod | and | or => true
  | _ => false

def UnaryOp.isWord : UnaryOp → Bool
  | not => true
  | _ => false

namespace Token

def lastSpan (s : Span) (ts : List Token) : Span := ts.foldl (fun _ t => t.span) s

def cover (t : Token) (ts : List Token) : Span := t.span.merge (lastSpan t.span ts)

def Starts (t : Token) (k : Keyword) : Prop := t.isWord = true ∧ Keyword.ofWord? t.text = some k

def Calls (t : Token) : Prop := t.isWord = true ∧ isKeyword t.text = false ∧ isBuiltin t.text = false

def Joins (t : Token) (op : BinaryOp) : Prop :=
  (∃ strength, Grammar.arithmetic? t = some (op, strength)) ∨ Grammar.comparison? t = some op ∨
    t.isNamed "AND" = true ∧ op = .and ∨ t.isNamed "OR" = true ∧ op = .or

def Precedes (t : Token) (op : UnaryOp) : Prop :=
  Grammar.sign? t = some op ∨ t.isNamed "NOT" = true ∧ op = .not

end Token

inductive Names (bare : Bool) : List Token → List String → Prop where
  | nil : Names bare [] []
  | plain {w ts ns} : bare = true → w.isWord = true → Names bare ts ns → Names bare (w :: ts) (w.text :: ns)
  | quoted {q w ts ns} : q.isMark .quote = true → w.isWord = true → Names bare ts ns →
    Names bare (q :: w :: ts) (w.text :: ns)

inductive Params : List Token → List String → Prop where
  | nil : Params [] []
  | cons {c w ts ns} : c.isMark .colon = true → w.isWord = true → Params ts ns →
    Params (c :: w :: ts) (w.text :: ns)

/-- The tokens spell the tree. What is known of the number of inputs of calls is left to `fits`. -/
inductive Spells (fits : String → Nat → Prop) : List Token → Tree → Prop where
  | number {t v} : t.kind = .number v → Spells fits [t] (.expr (.number t.span v))
  | thing {c w} : c.isMark .colon = true → w.isWord = true →
    Spells fits [c, w] (.expr (.thing (c.cover [w]) w.text))
  | parens {l r ts e} : l.isMark .leftParen = true → r.isMark .rightParen = true → Spells fits ts (.expr e) →
    Spells fits (l :: (ts ++ [r])) (.expr e)
  | list {l r ts items} : l.isMark .leftBracket = true → r.isMark .rightBracket = true →
    Spells fits ts (.exprs items) →
    Spells fits (l :: (ts ++ [r])) (.expr (.list (l.cover (ts ++ [r])) items))
  | binary {t op ts us left right} : t.Joins op → Spells fits ts (.expr left) → Spells fits us (.expr right) →
    Spells fits (ts ++ t :: us) (.expr (left.join op right))
  | unary {t op ts e} : t.Precedes op → Spells fits ts (.expr e) →
    Spells fits (t :: ts) (.expr (.unary (t.span.merge e.span) op e))
  | operation {t op ts args} : t.isWord = true → Operation.ofWord? t.text = some op → args.length = op.arity →
    Spells fits ts (.exprs args) → Spells fits (t :: ts) (.expr (.operation (t.cover ts) op args))
  | traverse {t v ns name ts items} : t.isWord = true → Traversal.ofWord? t.text = some v →
    Names true ns [name] → Spells fits ts (.expr items) →
    Spells fits (t :: (ns ++ ts)) (.expr (.traverse (t.cover (ns ++ ts)) v name items))
  | query {t q} : t.isWord = true → Query.ofWord? t.text = some q → Spells fits [t] (.expr (.query t.span q))
  | call {t ts args} : t.Calls → fits t.text args.length → Spells fits ts (.exprs args) →
    Spells fits (t :: ts) (.expr (.call (t.cover ts) t.text args))
  | noExprs : Spells fits [] (.exprs [])
  | moreExprs {ts us e es} : Spells fits ts (.expr e) → Spells fits us (.exprs es) →
    Spells fits (ts ++ us) (.exprs (e :: es))
  | noStmts : Spells fits [] (.stmts [])
  | moreStmts {ts us s body} : Spells fits ts (.stmt s) → Spells fits us (.stmts body) →
    Spells fits (ts ++ us) (.stmts (s :: body))
  | block {l r ts body} : l.isMark .leftBracket = true → r.isMark .rightBracket = true →
    Spells fits ts (.stmts body) → Spells fits (l :: (ts ++ [r])) (.block body)
  | command {t c ts args} : t.isWord = true → Keyword.ofWord? t.text = none → Command.ofWord? t.text = some c →
    args.length = c.arity → Spells fits ts (.exprs args) →
    Spells fits (t :: ts) (.stmt (.command (t.cover ts) c args))
  | callStmt {t ts args} : t.Calls → fits t.text args.length → Spells fits ts (.exprs args) →
    Spells fits (t :: ts) (.stmt (.call (t.cover ts) t.text args))
  | expression {t ts e} : t.isWord = true → Spells fits (t :: ts) (.expr e) →
    Spells fits (t :: ts) (.stmt (.expression e))
  | loop {t ts bs e body} : t.Starts .loop → Spells fits ts (.expr e) → Spells fits bs (.block body) →
    Spells fits (t :: (ts ++ bs)) (.stmt (.loop (t.cover (ts ++ bs)) e body))
  | ifThen {t ts bs e body} : t.Starts .ifThen → Spells fits ts (.expr e) → Spells fits bs (.block body) →
    Spells fits (t :: (ts ++ bs)) (.stmt (.ifThen (t.cover (ts ++ bs)) e body))
  | whileTrue {t ts bs e body} : t.Starts .whileTrue → Spells fits ts (.expr e) → Spells fits bs (.block body) →
    Spells fits (t :: (ts ++ bs)) (.stmt (.whileTrue (t.cover (ts ++ bs)) e body))
  | ifElse {t ts bs cs e yes no} : t.Starts .ifElse → Spells fits ts (.expr e) → Spells fits bs (.block yes) →
    Spells fits cs (.block no) →
    Spells fits (t :: (ts ++ (bs ++ cs))) (.stmt (.ifElse (t.cover (ts ++ (bs ++ cs))) e yes no))
  | forEach {t l r ns ts bs var low high step? body} : t.Starts .forEach → l.isMark .leftBracket = true →
    Names true ns [var] → Spells fits ts (.exprs (low :: high :: step?.toList)) → r.isMark .rightBracket = true →
    Spells fits bs (.block body) →
    Spells fits (t :: l :: (ns ++ (ts ++ r :: bs)))
      (.stmt (.forEach (t.cover (l :: (ns ++ (ts ++ r :: bs)))) var low high step? body))
  | define {t w e ps ts params body} : t.Starts .define → w.Calls → Params ps params → (params.map fold).Nodup →
    Spells fits ts (.stmts body) → e.isNamed "END" = true →
    Spells fits (t :: w :: (ps ++ (ts ++ [e])))
      (.stmt (.define (t.cover (w :: (ps ++ (ts ++ [e])))) w.text params body))
  | make {t ns ts name e} : t.Starts .make → Names false ns [name] → Spells fits ts (.expr e) →
    Spells fits (t :: (ns ++ ts)) (.stmt (.make (t.cover (ns ++ ts)) name e))
  | output {t ts e} : t.Starts .output → Spells fits ts (.expr e) →
    Spells fits (t :: ts) (.stmt (.output (t.cover ts) e))
  | print {t ts e} : t.Starts .print → Spells fits ts (.expr e) →
    Spells fits (t :: ts) (.stmt (.print (t.cover ts) e))
  | stop {t} : t.Starts .stop → Spells fits [t] (.stmt (.stop t.span))
  | declare {t ns names} : t.Starts .declare → Names false ns names →
    Spells fits (t :: ns) (.stmt (.declare (t.cover ns) names))
  | declareAll {t l r ns names} : t.Starts .declare → l.isMark .leftBracket = true → Names true ns names →
    r.isMark .rightBracket = true →
    Spells fits (t :: l :: (ns ++ [r])) (.stmt (.declare (t.cover (l :: (ns ++ [r]))) names))

theorem Spells.ne_nil {fits : String → Nat → Prop} {ts : List Token} {e : Expr} (h : Spells fits ts (.expr e)) :
    ts ≠ [] := by
  cases h <;> simp

mutual

/-- The names that an expression uses other than for calls: of variables, and of procedures given to traversals. -/
def Expr.names : Expr → List String
  | .number .. | .query .. => []
  | .thing _ name => [name]
  | .list _ items => Expr.allNames items
  | .binary _ _ left right => left.names ++ right.names
  | .unary _ _ operand => operand.names
  | .operation _ _ args | .call _ _ args => Expr.allNames args
  | .traverse _ _ procedure items => procedure :: items.names

def Expr.allNames : List Expr → List String
  | [] => []
  | e :: rest => e.names ++ Expr.allNames rest

end

mutual

def Stmt.names : Stmt → List String
  | .command _ _ args | .call _ _ args => Expr.allNames args
  | .expression e => e.names
  | .loop _ e body | .ifThen _ e body | .whileTrue _ e body => e.names ++ Stmt.allNames body
  | .ifElse _ cond yes no => cond.names ++ (Stmt.allNames yes ++ Stmt.allNames no)
  | .forEach _ var low high step? body =>
    var :: (Expr.allNames (low :: high :: step?.toList) ++ Stmt.allNames body)
  | .define _ _ params body => params ++ Stmt.allNames body
  | .make _ name value => name :: value.names
  | .output _ value | .print _ value => value.names
  | .stop _ => []
  | .declare _ names => names

def Stmt.allNames : List Stmt → List String
  | [] => []
  | s :: rest => s.names ++ Stmt.allNames rest

end

namespace Tree

def names : Tree → List String
  | expr e => e.names
  | exprs es => Expr.allNames es
  | stmt s => s.names
  | stmts body | block body => Stmt.allNames body

def definitions : Tree → List (String × Nat)
  | expr _ | exprs _ => []
  | stmt s => s.definitions
  | stmts body | block body => Stmt.allDefinitions body

end Tree

namespace Token
variable {t : Token}

theorem isWord_of_isMark {m : Mark} (h : t.isMark m = true) : t.isWord = false := by
  cases hk : t.kind <;> simp [isMark, isWord, hk] at h ⊢

theorem isMark_of_isWord (h : t.isWord = true) (m : Mark) : t.isMark m = false := by
  cases hk : t.kind <;> simp [isMark, isWord, hk] at h ⊢

theorem isMark_unique {m m' : Mark} (h : t.isMark m = true) (hm : m ≠ m') : t.isMark m' = false := by
  cases hk : t.kind <;> simp [isMark, hk] at h ⊢
  simpa [h] using hm

theorem isWord_of_isNamed {name : String} (h : t.isNamed name = true) : t.isWord = true := by
  simp only [isNamed, Bool.and_eq_true] at h
  exact h.1

theorem Starts.fold_text (h : t.Starts .define) : fold t.text = "TO" := by
  have hfound := List.find?_some h.2
  simp only [Keyword.name, Keyword.aliases, List.contains_nil, Bool.or_false, beq_iff_eq] at hfound
  exact hfound.symm

theorem Starts.isNamed (h : t.Starts .define) : t.isNamed "TO" = true := by
  simp [Token.isNamed, h.1, h.fold_text]

/-- The sign of an operator is its word or a mark that is no bracket. -/
theorem Joins.cases {op : BinaryOp} (h : t.Joins op) :
    t.isNamed op.sign = true ∧ op.isWord = true ∨ ∃ m, t.kind = .mark m ∧ m.isBracket = false ∧ op.isWord = false := by
  rcases h with ⟨strength, h⟩ | h | ⟨h, rfl⟩ | ⟨h, rfl⟩
  · unfold Grammar.arithmetic? at h
    split at h
    case h_5 =>
      split at h
      · next hmod =>
        cases h
        exact .inl ⟨hmod, rfl⟩
      · cases h
    all_goals
      next hk =>
        cases h
        exact .inr ⟨_, hk, rfl, rfl⟩
  · unfold Grammar.comparison? at h
    split at h
    case h_7 => cases h
    all_goals
      next hk =>
        cases h
        exact .inr ⟨_, hk, rfl, rfl⟩
  · exact .inl ⟨h, rfl⟩
  · exact .inl ⟨h, rfl⟩

theorem Precedes.cases {op : UnaryOp} (h : t.Precedes op) :
    t.isNamed op.sign = true ∧ op.isWord = true ∨ ∃ m, t.kind = .mark m ∧ m.isBracket = false ∧ op.isWord = false := by
  rcases h with h | ⟨h, rfl⟩
  · unfold Grammar.sign? at h
    split at h
    case h_3 => cases h
    all_goals
      next hk =>
        cases h
        exact .inr ⟨_, hk, rfl, rfl⟩
  · exact .inl ⟨h, rfl⟩

end Token

def Delimits (word : String) : Prop := word = "TO" ∨ word = "END"

structure Plain (t : Token) : Prop where
  bracket : Repl.bracketWeight t = 0
  unnamed : ∀ word, Delimits word → t.isNamed word = false

namespace Plain
variable {t : Token}

theorem bracketWeight_word (h : t.isWord = true) : Repl.bracketWeight t = 0 := by
  simp [Repl.bracketWeight, Token.isMark_of_isWord h]

theorem ofMark {m : Mark} (h : t.isMark m = true) (hl : m ≠ .leftBracket) (hr : m ≠ .rightBracket) : Plain t where
  bracket := by simp [Repl.bracketWeight, Token.isMark_unique h hl, Token.isMark_unique h hr]
  unnamed := by simp [Token.isNamed, Token.isWord_of_isMark h]

theorem ofKind {m : Mark} (h : t.kind = .mark m) (hl : m ≠ .leftBracket) (hr : m ≠ .rightBracket) : Plain t :=
  ofMark (by simp [Token.isMark, h]) hl hr

theorem ofNumber {v : Float} (h : t.kind = .number v) : Plain t where
  bracket := by simp [Repl.bracketWeight, Token.isMark, h]
  unnamed := by simp [Token.isNamed, Token.isWord, h]

theorem ofWord (hw : t.isWord = true) (h : ¬Delimits (fold t.text)) : Plain t where
  bracket := bracketWeight_word hw
  unnamed word hword := by
    have hne : fold t.text ≠ word := fun heq => h (heq ▸ hword)
    simp [Token.isNamed, hne]

/-- A word is plain if it is found where neither of the two words is. -/
theorem ofLookup {α : Type} {find : String → Option α} {a : α} (hw : t.isWord = true)
    (hfind : ∀ text, Delimits (fold text) → find text = none) (h : find t.text = some a) : Plain t := by
  refine ofWord hw fun hd => ?_
  simp [hfind t.text hd] at h

theorem ofOperation {op : Operation} (hw : t.isWord = true) (h : Operation.ofWord? t.text = some op) : Plain t := by
  refine ofLookup hw (fun text hd => ?_) h
  rcases hd with hd | hd <;> rw [Operation.ofWord?, hd] <;> decide

theorem ofTraversal {v : Traversal} (hw : t.isWord = true) (h : Traversal.ofWord? t.text = some v) : Plain t := by
  refine ofLookup hw (fun text hd => ?_) h
  rcases hd with hd | hd <;> rw [Traversal.ofWord?, hd] <;> decide

theorem ofQuery {q : Query} (hw : t.isWord = true) (h : Query.ofWord? t.text = some q) : Plain t := by
  refine ofLookup hw (fun text hd => ?_) h
  rcases hd with hd | hd <;> rw [Query.ofWord?, hd] <;> decide

theorem ofCommand {c : Command} (hw : t.isWord = true) (h : Command.ofWord? t.text = some c) : Plain t := by
  refine ofLookup hw (fun text hd => ?_) h
  rcases hd with hd | hd <;> rw [Command.ofWord?, hd] <;> decide

theorem ofNamed {name : String} (h : t.isNamed name = true) (hname : ¬Delimits name) : Plain t := by
  have hfold : fold t.text = name := by simpa [Token.isNamed, Token.isWord_of_isNamed h] using h
  exact ofWord (Token.isWord_of_isNamed h) (hfold ▸ hname)

theorem ofStarts {k : Keyword} (h : t.Starts k) (hdefine : k ≠ .define) (hfinish : k ≠ .finish) : Plain t := by
  obtain ⟨hw, hk⟩ := h
  refine ofWord hw fun hd => ?_
  rcases hd with hd | hd <;> rw [Keyword.ofWord?, hd] at hk
  · exact hdefine (Option.some.inj hk).symm
  · exact hfinish (Option.some.inj hk).symm

theorem ofCalls (h : t.Calls) : Plain t := by
  obtain ⟨hw, hk, -⟩ := h
  refine ofWord hw fun hd => ?_
  rcases hd with hd | hd <;> rw [isKeyword, Keyword.ofWord?, hd] at hk <;> cases hk

theorem ofOperator {m : Mark} (h : t.kind = .mark m) (hm : m.isBracket = false) : Plain t := by
  apply ofKind h <;> rintro rfl <;> cases hm

theorem ofJoins {op : BinaryOp} (h : t.Joins op) : Plain t := by
  rcases h.cases with ⟨hname, hword⟩ | ⟨m, hk, hm, -⟩
  · refine ofNamed hname ?_
    cases op <;> simp [BinaryOp.isWord] at hword <;> simp [BinaryOp.sign, Delimits]
  · exact ofOperator hk hm

theorem ofPrecedes {op : UnaryOp} (h : t.Precedes op) : Plain t := by
  rcases h.cases with ⟨hname, hword⟩ | ⟨m, hk, hm, -⟩
  · refine ofNamed hname ?_
    cases op <;> simp [UnaryOp.isWord] at hword
    simp [UnaryOp.sign, Delimits]
  · exact ofOperator hk hm

end Plain

section
open Repl

@[simp] theorem Repl.openBrackets_nil : openBrackets [] = 0 := rfl

@[simp] theorem Repl.openBrackets_cons (t : Token) (ts : List Token) :
    openBrackets (t :: ts) = bracketWeight t + openBrackets ts := rfl

@[simp] theorem Repl.openBrackets_append (ts us : List Token) :
    openBrackets (ts ++ us) = openBrackets ts + openBrackets us := by
  induction ts with
  | nil => simp
  | cons t ts ih => simp [ih, Int.add_assoc]

theorem Repl.openDefinitions_eq (ts : List Token) :
    openDefinitions ts = (ts.countP (·.isNamed "TO") : Int) - ts.countP (·.isNamed "END") := by
  induction ts with
  | nil => rfl
  | cons t ts ih =>
    have hcons : openDefinitions (t :: ts) = definitionWeight t + openDefinitions ts := rfl
    by_cases hto : t.isNamed "TO" = true
    · have hend : t.isNamed "END" = false := by
        simp only [Token.isNamed, Bool.and_eq_true, beq_iff_eq] at hto
        simp [Token.isNamed, hto.2]
      simp [hcons, ih, definitionWeight, hto, hend]
      omega
    · by_cases hend : t.isNamed "END" = true
      · simp [hcons, ih, definitionWeight, hto, hend]
        omega
      · simp [hcons, ih, definitionWeight, hto, hend]

/-- The brackets are closed, and each word around definitions occurs once for each definition and once for each
name that is spelled like it. -/
structure Tally (ts : List Token) (definitions : List (String × Nat)) (names : List String) : Prop where
  brackets : openBrackets ts = 0
  words : ∀ word, Delimits word → ts.countP (·.isNamed word) = definitions.length + (names.map fold).count word

namespace Tally
variable {t l r w : Token} {ts us : List Token} {ds ds' : List (String × Nat)} {ns ns' : List String}

theorem nil : Tally [] [] [] := ⟨rfl, by simp⟩

theorem words_of_unnamed (h : Tally ts ds ns) {word : String} (hword : Delimits word)
    (hns : ∀ name ∈ ns, fold name ≠ word) : ts.countP (·.isNamed word) = ds.length := by
  have hnone : (ns.map fold).count word = 0 := by
    rw [List.count_eq_zero, List.mem_map]
    rintro ⟨name, hname, hfold⟩
    exact hns name hname hfold
  rw [h.words word hword, hnone, Nat.add_zero]

theorem cons (h : Tally ts ds ns) (ht : Plain t) : Tally (t :: ts) ds ns :=
  ⟨by simp [ht.bracket, h.brackets], fun word hword => by simp [ht.unnamed word hword, h.words word hword]⟩

theorem append (h : Tally ts ds ns) (h' : Tally us ds' ns') : Tally (ts ++ us) (ds ++ ds') (ns ++ ns') := by
  refine ⟨by simp [h.brackets, h'.brackets], fun word hword => ?_⟩
  simp only [List.countP_append, h.words word hword, h'.words word hword, List.map_append, List.count_append,
    List.length_append]
  omega

theorem enclose (h : Tally ts ds ns) (hl : l.isMark .leftBracket = true) (hr : r.isMark .rightBracket = true) :
    Tally (l :: (ts ++ [r])) ds ns := by
  have hl' : bracketWeight l = 1 := by simp [bracketWeight, hl]
  have hr' : bracketWeight r = -1 := by simp [bracketWeight, hr, Token.isMark_unique hr]
  refine ⟨by simp [hl', hr', h.brackets], fun word hword => ?_⟩
  simp [Token.isNamed, Token.isWord_of_isMark hl, Token.isWord_of_isMark hr, ← h.words word hword]

theorem name (h : Tally ts ds ns) (hw : w.isWord = true) : Tally (w :: ts) ds (w.text :: ns) := by
  refine ⟨by simp [Plain.bracketWeight_word hw, h.brackets], fun word hword => ?_⟩
  have hname : w.isNamed word = (fold w.text == word) := by simp [Token.isNamed, hw]
  simp only [List.countP_cons, h.words word hword, List.map_cons, List.count_cons, hname]
  omega

theorem ofNames {bare : Bool} (h : Names bare ts ns) : Tally ts [] ns := by
  induction h with
  | nil => exact nil
  | plain _ hw _ ih => exact ih.name hw
  | quoted hq hw _ ih => exact (ih.name hw).cons (.ofMark hq (by simp) (by simp))

theorem ofParams (h : Params ts ns) : Tally ts [] ns := by
  induction h with
  | nil => exact nil
  | cons hc hw _ ih => exact (ih.name hw).cons (.ofMark hc (by simp) (by simp))

/-- A definition, given the tokens of its parameters and its body. -/
theorem define {e : Token} (h : Tally ts ds ns) (ht : t.Starts .define) (hw : Plain w) (he : e.isNamed "END" = true)
    (d : String × Nat) : Tally (t :: w :: (ts ++ [e])) (d :: ds) ns := by
  have hto := ht.fold_text
  have hend : e.isWord = true ∧ fold e.text = "END" := by simpa [Token.isNamed] using he
  refine ⟨?_, fun word hword => ?_⟩
  · simp [Plain.bracketWeight_word ht.1, Plain.bracketWeight_word hend.1, hw.bracket, h.brackets]
  · have hwords := h.words word hword
    have hname := hw.unnamed word hword
    simp only [List.countP_cons, List.countP_append, List.countP_nil, hwords, hname]
    rcases hword with rfl | rfl <;> simp [Token.isNamed, ht.1, hto, hend] <;> omega

end Tally

variable {fits : String → Nat → Prop} {ts : List Token} {tree : Tree}

theorem Spells.tally (h : Spells fits ts tree) : Tally ts tree.definitions tree.names := by
  induction h with
  | number hk => exact Tally.nil.cons (.ofNumber hk)
  | thing hc hw => exact (Tally.nil.name hw).cons (.ofMark hc (by simp) (by simp))
  | parens hl hr _ ih =>
    have hts := ih.append (Tally.nil.cons (.ofMark hr (by simp) (by simp)))
    simpa using hts.cons (.ofMark hl (by simp) (by simp))
  | list hl hr _ ih => exact ih.enclose hl hr
  | binary ht _ _ ih ih' => exact ih.append (ih'.cons (.ofJoins ht))
  | unary ht _ ih => exact ih.cons (.ofPrecedes ht)
  | operation hw hop _ _ ih => exact ih.cons (.ofOperation hw hop)
  | traverse hw hv hns _ ih => exact ((Tally.ofNames hns).append ih).cons (.ofTraversal hw hv)
  | query hw hq => exact Tally.nil.cons (.ofQuery hw hq)
  | call ht _ _ ih => exact ih.cons (.ofCalls ht)
  | noExprs => exact .nil
  | moreExprs _ _ ih ih' => exact ih.append ih'
  | noStmts => exact .nil
  | moreStmts _ _ ih ih' => exact ih.append ih'
  | block hl hr _ ih => exact ih.enclose hl hr
  | command hw _ hc _ _ ih => exact ih.cons (.ofCommand hw hc)
  | callStmt ht _ _ ih => exact ih.cons (.ofCalls ht)
  | expression _ _ ih => exact ih
  | loop ht _ _ ih ih' => exact (ih.append ih').cons (.ofStarts ht (by simp) (by simp))
  | ifThen ht _ _ ih ih' => exact (ih.append ih').cons (.ofStarts ht (by simp) (by simp))
  | whileTrue ht _ _ ih ih' => exact (ih.append ih').cons (.ofStarts ht (by simp) (by simp))
  | ifElse ht _ _ _ ih ih' ih'' => exact (ih.append (ih'.append ih'')).cons (.ofStarts ht (by simp) (by simp))
  | forEach ht hl hns _ hr _ ih ih' =>
    have hall := (((Tally.ofNames hns).append ih).enclose hl hr).append ih'
    simp only [List.cons_append, List.append_assoc, List.nil_append] at hall
    exact hall.cons (.ofStarts ht (by simp) (by simp))
  | define ht hw hps _ _ he ih =>
    have hdefine := ((Tally.ofParams hps).append ih).define ht (.ofCalls hw) he
    rw [List.append_assoc] at hdefine
    exact hdefine (_, _)
  | make ht hns _ ih => exact ((Tally.ofNames hns).append ih).cons (.ofStarts ht (by simp) (by simp))
  | output ht _ ih => exact ih.cons (.ofStarts ht (by simp) (by simp))
  | print ht _ ih => exact ih.cons (.ofStarts ht (by simp) (by simp))
  | stop ht => exact Tally.nil.cons (.ofStarts ht (by simp) (by simp))
  | declare ht hns => exact (Tally.ofNames hns).cons (.ofStarts ht (by simp) (by simp))
  | declareAll ht hl hns hr => exact ((Tally.ofNames hns).enclose hl hr).cons (.ofStarts ht (by simp) (by simp))

end

end Logo
