import Logo.Proofs.Renaming

/-! Programs written out as tokens. Inputs, operands and items of lists stand in parentheses, so that nothing rests on
the binding strengths of operators; blocks, lists and the names behind `LOCAL` stand in brackets. What the reader has
to know of procedures is the same as what the text announces before it is read. -/
namespace Logo

/-- What a printer is free to choose: whether the one input behind a keyword stands in parentheses too, and how
numerals and marks are written. -/
structure Layout where
  wrapInputs : Bool
  text : Kind → String

def Token.word (name : String) : Token := ⟨.word, name, ⟨0, 0⟩⟩

def BinaryOp.mark? : BinaryOp → Option Mark
  | add => some .plus
  | sub => some .minus
  | mul => some .star
  | div => some .slash
  | eq => some .equal
  | ne => some .notEqual
  | lt => some .less
  | le => some .lessEqual
  | gt => some .greater
  | ge => some .greaterEqual
  | mod | and | or => none

def UnaryOp.mark? : UnaryOp → Option Mark
  | neg => some .minus
  | plus => some .plus
  | not => none

namespace Layout
variable (l : Layout)

def token (kind : Kind) : Token := ⟨kind, l.text kind, ⟨0, 0⟩⟩

def mark (m : Mark) : Token := l.token (.mark m)

def sign (mark? : Option Mark) (word : String) : Token :=
  match mark? with
  | some m => l.mark m
  | none => .word word

def parens (tokens : List Token) : List Token := l.mark .leftParen :: (tokens ++ [l.mark .rightParen])

def brackets (tokens : List Token) : List Token := l.mark .leftBracket :: (tokens ++ [l.mark .rightBracket])

def input (tokens : List Token) : List Token := if l.wrapInputs then l.parens tokens else tokens

def params (names : List String) : List Token := names.flatMap fun name => [l.mark .colon, .word name]

end Layout

mutual

def Expr.written (l : Layout) : Expr → List Token
  | .number _ value => [l.token (.number value)]
  | .list _ items => l.brackets (Expr.writtenAll l items)
  | .thing _ name => [l.mark .colon, .word name]
  | .binary _ op left right => l.parens (left.written l) ++ l.sign op.mark? op.sign :: l.parens (right.written l)
  | .unary _ op operand => l.sign op.mark? op.sign :: l.parens (operand.written l)
  | .operation _ op args => .word op.name :: Expr.writtenAll l args
  | .traverse _ t procedure items => .word t.name :: l.mark .quote :: .word procedure :: l.parens (items.written l)
  | .query _ q => [.word q.name]
  | .call _ name args => .word name :: Expr.writtenAll l args

def Expr.writtenAll (l : Layout) : List Expr → List Token
  | [] => []
  | e :: rest => l.parens (e.written l) ++ Expr.writtenAll l rest

end

mutual

def Stmt.written (l : Layout) : Stmt → List Token
  | .command _ c args => .word c.name :: Expr.writtenAll l args
  | .call _ name args => .word name :: Expr.writtenAll l args
  | .expression e => e.written l
  | .loop _ count body => .word Keyword.loop.name :: (l.input (count.written l) ++ l.brackets (Stmt.writtenAll l body))
  | .ifThen _ cond body =>
    .word Keyword.ifThen.name :: (l.input (cond.written l) ++ l.brackets (Stmt.writtenAll l body))
  | .ifElse _ cond yes no =>
    .word Keyword.ifElse.name ::
      (l.input (cond.written l) ++ l.brackets (Stmt.writtenAll l yes) ++ l.brackets (Stmt.writtenAll l no))
  | .whileTrue _ cond body =>
    .word Keyword.whileTrue.name :: (l.input (cond.written l) ++ l.brackets (Stmt.writtenAll l body))
  | .forEach _ var low high step? body =>
    .word Keyword.forEach.name ::
      (l.brackets (.word var :: Expr.writtenAll l (low :: high :: step?.toList)) ++ l.brackets (Stmt.writtenAll l body))
  | .define _ name params body =>
    .word Keyword.define.name :: .word name ::
      (l.params params ++ Stmt.writtenAll l body ++ [.word Keyword.finish.name])
  | .make _ name value => .word Keyword.make.name :: l.mark .quote :: .word name :: l.input (value.written l)
  | .output _ value => .word Keyword.output.name :: l.input (value.written l)
  | .stop _ => [.word Keyword.stop.name]
  | .print _ value => .word Keyword.print.name :: l.input (value.written l)
  | .declare _ names => .word Keyword.declare.name :: l.brackets (names.map .word)

def Stmt.writtenAll (l : Layout) : List Stmt → List Token
  | [] => []
  | s :: rest => s.written l ++ Stmt.writtenAll l rest

end

def Program.written (l : Layout) (p : Program) : List Token := Stmt.writtenAll l p

mutual

/-- The procedures that a statement defines, at any depth, with their numbers of inputs. -/
def Stmt.definitions : Stmt → List (String × Nat)
  | .define _ name params body => (name, params.length) :: Stmt.allDefinitions body
  | .loop _ _ body | .ifThen _ _ body | .whileTrue _ _ body | .forEach _ _ _ _ _ body => Stmt.allDefinitions body
  | .ifElse _ _ yes no => Stmt.allDefinitions yes ++ Stmt.allDefinitions no
  | .command .. | .call .. | .expression _ | .make .. | .output .. | .stop _ | .print .. | .declare .. => []

def Stmt.allDefinitions : List Stmt → List (String × Nat)
  | [] => []
  | s :: rest => s.definitions ++ Stmt.allDefinitions rest

end

structure Callable (name : String) : Prop where
  not_keyword : isKeyword name = false
  not_builtin : isBuiltin name = false
  not_operator : fold name ∉ ["AND", "OR", "NOT", "MOD"]

def Harmless (name : String) : Prop := fold name ≠ Keyword.define.name

section
variable (known : String → Option Nat)

mutual

/-- Built-in operations and calls have as many inputs as they take. -/
def Expr.WellFormed : Expr → Prop
  | .number .. | .query .. => True
  | .list _ items => Expr.AllWellFormed items
  | .thing _ name => Harmless name
  | .binary _ _ left right => left.WellFormed ∧ right.WellFormed
  | .unary _ _ operand => operand.WellFormed
  | .operation _ op args => args.length = op.arity ∧ Expr.AllWellFormed args
  | .traverse _ _ procedure items => Harmless procedure ∧ items.WellFormed
  | .call _ name args => Callable name ∧ known name = some args.length ∧ Expr.AllWellFormed args

def Expr.AllWellFormed : List Expr → Prop
  | [] => True
  | e :: rest => e.WellFormed ∧ Expr.AllWellFormed rest

end

/-- The expressions that may stand as statements. `PENSIZE` is a command there. -/
def Expr.StandsAlone : Expr → Prop
  | .operation .. | .traverse .. => True
  | .query _ q => q ≠ .penSize
  | _ => False

mutual

def Stmt.WellFormed : Stmt → Prop
  | .command _ c args => args.length = c.arity ∧ Expr.AllWellFormed known args
  | .call _ name args => Callable name ∧ known name = some args.length ∧ Expr.AllWellFormed known args
  | .expression e => e.StandsAlone ∧ e.WellFormed known
  | .loop _ e body | .ifThen _ e body | .whileTrue _ e body => e.WellFormed known ∧ Stmt.AllWellFormed body
  | .ifElse _ cond yes no => cond.WellFormed known ∧ Stmt.AllWellFormed yes ∧ Stmt.AllWellFormed no
  | .forEach _ var low high step? body =>
    Harmless var ∧ Expr.AllWellFormed known (low :: high :: step?.toList) ∧ Stmt.AllWellFormed body
  | .define _ name params body =>
    Callable name ∧ (params.map fold).Nodup ∧ (∀ p ∈ params, Harmless p) ∧ Stmt.AllWellFormed body
  | .make _ name value => Harmless name ∧ value.WellFormed known
  | .output _ value | .print _ value => value.WellFormed known
  | .stop _ => True
  | .declare _ names => ∀ name ∈ names, Harmless name

def Stmt.AllWellFormed : List Stmt → Prop
  | [] => True
  | s :: rest => s.WellFormed ∧ Stmt.AllWellFormed rest

end
end

namespace Program

/-- The number of inputs of a procedure: that of its definition in the program, or else the one known before. -/
def arity? (p : Program) (seed : Table Nat) (name : String) : Option Nat :=
  (((Stmt.allDefinitions p).find? fun d => fold d.1 == fold name).map Prod.snd).or (seed.find? name)

structure WellFormed (seed : Table Nat) (p : Program) : Prop where
  distinct : ((Stmt.allDefinitions p).map fun d => fold d.1).Nodup
  statements : Stmt.AllWellFormed (p.arity? seed) p

end Program

theorem Harmless.of_folded {name : String} (h : fold name = name) (hname : name ≠ Keyword.define.name) :
    Harmless name := by
  rwa [Harmless, h]

theorem Callable.fold_ne {name : String} (h : Callable name) (k : Keyword) : fold name ≠ k.name := by
  intro hname
  have hkeyword := h.not_keyword
  rw [isKeyword, Keyword.ofWord?, hname] at hkeyword
  cases k <;> cases hkeyword

theorem Callable.harmless {name : String} (h : Callable name) : Harmless name := h.fold_ne .define

def Every (P : Token → Prop) (tokens : List Token) : Prop := ∀ t ∈ tokens, P t

/-- All numerals and marks of the layout have the property, and all words but the one that starts definitions. -/
structure Layout.Admits (l : Layout) (P : Token → Prop) : Prop where
  number : ∀ value, P (l.token (.number value))
  mark : ∀ m, P (l.mark m)
  word : ∀ name, Harmless name → P (.word name)

namespace Every
variable {P : Token → Prop} {l : Layout} {ts us : List Token} {t : Token} {name : String} {names : List String}

theorem nil : Every P [] := List.forall_mem_nil _

theorem cons (h : Every P ts) (ht : P t) : Every P (t :: ts) := List.forall_mem_cons.mpr ⟨ht, h⟩

theorem append (h : Every P ts) (h' : Every P us) : Every P (ts ++ us) := List.forall_mem_append.mpr ⟨h, h'⟩

theorem parens (h : Every P ts) (hP : l.Admits P) : Every P (l.parens ts) :=
  (h.append (nil.cons (hP.mark .rightParen))).cons (hP.mark .leftParen)

theorem brackets (h : Every P ts) (hP : l.Admits P) : Every P (l.brackets ts) :=
  (h.append (nil.cons (hP.mark .rightBracket))).cons (hP.mark .leftBracket)

theorem input (h : Every P ts) (hP : l.Admits P) : Every P (l.input ts) := by
  unfold Layout.input
  split
  · exact h.parens hP
  · exact h

theorem sign {mark? : Option Mark} (h : Every P ts) (hP : l.Admits P) (hname : Harmless name) :
    Every P (l.sign mark? name :: ts) := by
  cases mark? with
  | none => exact h.cons (hP.word name hname)
  | some m => exact h.cons (hP.mark m)

theorem words (hP : l.Admits P) (h : ∀ name ∈ names, Harmless name) : Every P (names.map .word) := by
  induction names with
  | nil => exact nil
  | cons name rest ih => exact (ih fun n hn => h n (by simp [hn])).cons (hP.word name (h name (by simp)))

theorem params (hP : l.Admits P) (h : ∀ name ∈ names, Harmless name) : Every P (l.params names) := by
  induction names with
  | nil => exact nil
  | cons name rest ih =>
    have hrest := ih fun n hn => h n (by simp [hn])
    exact (hrest.cons (hP.word name (h name (by simp)))).cons (hP.mark .colon)

end Every

theorem Operation.harmless_name (op : Operation) : Harmless op.name := .of_folded op.fold_name (by cases op <;> decide)

theorem Traversal.harmless_name (t : Traversal) : Harmless t.name := .of_folded t.fold_name (by cases t <;> decide)

theorem Query.harmless_name (q : Query) : Harmless q.name := .of_folded q.fold_name (by cases q <;> decide)

theorem Command.harmless_name (c : Command) : Harmless c.name := .of_folded c.fold_name (by cases c <;> decide)

theorem Keyword.harmless_name {k : Keyword} (hk : k ≠ .define) : Harmless k.name := by
  refine .of_folded k.fold_name ?_
  cases k
  case define => exact absurd rfl hk
  all_goals decide

theorem Every.keyword {l : Layout} {P : Token → Prop} (hP : l.Admits P) {k : Keyword} (hk : k ≠ .define)
    {tokens : List Token} (h : Every P tokens) : Every P (.word k.name :: tokens) :=
  h.cons (hP.word _ (Keyword.harmless_name hk))

theorem BinaryOp.harmless_sign (op : BinaryOp) : Harmless op.sign := .of_folded op.fold_sign (by cases op <;> decide)

theorem UnaryOp.harmless_sign (op : UnaryOp) : Harmless op.sign := .of_folded op.fold_sign (by cases op <;> decide)

section
variable {l : Layout} {P : Token → Prop} {known : String → Option Nat}

mutual

theorem Expr.every_written (hP : l.Admits P) : (e : Expr) → e.WellFormed known → Every P (e.written l)
  | .number _ value, _ => .cons .nil (hP.number value)
  | .list _ items, h => (Expr.every_writtenAll hP items h).brackets hP
  | .thing _ name, h => (Every.nil.cons (hP.word name h)).cons (hP.mark .colon)
  | .binary _ op left right, h =>
    ((left.every_written hP h.1).parens hP).append (((right.every_written hP h.2).parens hP).sign hP op.harmless_sign)
  | .unary _ op operand, h => ((operand.every_written hP h).parens hP).sign hP op.harmless_sign
  | .operation _ op args, h => (Expr.every_writtenAll hP args h.2).cons (hP.word _ op.harmless_name)
  | .traverse _ t procedure items, h =>
    ((((items.every_written hP h.2).parens hP).cons (hP.word procedure h.1)).cons (hP.mark .quote)).cons
      (hP.word _ t.harmless_name)
  | .query _ q, _ => .cons .nil (hP.word _ q.harmless_name)
  | .call _ name args, h => (Expr.every_writtenAll hP args h.2.2).cons (hP.word name h.1.harmless)

theorem Expr.every_writtenAll (hP : l.Admits P) :
    (es : List Expr) → Expr.AllWellFormed known es → Every P (Expr.writtenAll l es)
  | [], _ => .nil
  | e :: rest, h => ((e.every_written hP h.1).parens hP).append (Expr.every_writtenAll hP rest h.2)

end

mutual

theorem Stmt.every_written (hP : l.Admits P) (hdefine : P (.word Keyword.define.name)) :
    (s : Stmt) → s.WellFormed known → Every P (s.written l)
  | .command _ c args, h => (Expr.every_writtenAll hP args h.2).cons (hP.word _ c.harmless_name)
  | .call _ name args, h => (Expr.every_writtenAll hP args h.2.2).cons (hP.word name h.1.harmless)
  | .expression e, h => e.every_written hP h.2
  | .loop _ count body, h =>
    have hcount := (count.every_written hP h.1).input hP
    have hbody := (Stmt.every_writtenAll hP hdefine body h.2).brackets hP
    (hcount.append hbody).keyword hP (by decide)
  | .ifThen _ cond body, h =>
    have hcond := (cond.every_written hP h.1).input hP
    have hbody := (Stmt.every_writtenAll hP hdefine body h.2).brackets hP
    (hcond.append hbody).keyword hP (by decide)
  | .whileTrue _ cond body, h =>
    have hcond := (cond.every_written hP h.1).input hP
    have hbody := (Stmt.every_writtenAll hP hdefine body h.2).brackets hP
    (hcond.append hbody).keyword hP (by decide)
  | .ifElse _ cond yes no, h =>
    have hcond := (cond.every_written hP h.1).input hP
    have hyes := (Stmt.every_writtenAll hP hdefine yes h.2.1).brackets hP
    have hno := (Stmt.every_writtenAll hP hdefine no h.2.2).brackets hP
    ((hcond.append hyes).append hno).keyword hP (by decide)
  | .forEach _ var _ _ _ body, h =>
    have hbounds := ((Expr.every_writtenAll hP _ h.2.1).cons (hP.word var h.1)).brackets hP
    have hbody := (Stmt.every_writtenAll hP hdefine body h.2.2).brackets hP
    (hbounds.append hbody).keyword hP (by decide)
  | .define _ name _ body, h =>
    have hbody := (Every.params hP h.2.2.1).append (Stmt.every_writtenAll hP hdefine body h.2.2.2)
    have hend := Every.nil.keyword hP (k := .finish) (by decide)
    ((hbody.append hend).cons (hP.word name h.1.harmless)).cons hdefine
  | .make _ name value, h =>
    have hvalue := (value.every_written hP h.2).input hP
    ((hvalue.cons (hP.word name h.1)).cons (hP.mark .quote)).keyword hP (by decide)
  | .output _ value, h => ((value.every_written hP h).input hP).keyword hP (by decide)
  | .print _ value, h => ((value.every_written hP h).input hP).keyword hP (by decide)
  | .stop _, _ => .keyword hP (by decide) .nil
  | .declare _ _, h => ((Every.words hP h).brackets hP).keyword hP (by decide)

theorem Stmt.every_writtenAll (hP : l.Admits P) (hdefine : P (.word Keyword.define.name)) :
    (body : List Stmt) → Stmt.AllWellFormed known body → Every P (Stmt.writtenAll l body)
  | [], _ => .nil
  | s :: rest, h => (s.every_written hP hdefine h.1).append (Stmt.every_writtenAll hP hdefine rest h.2)

end
end

def Quiet (t : Token) : Prop := t.isNamed Keyword.define.name = false

theorem Quiet.word {name : String} (h : Harmless name) : Quiet (.word name) := beq_eq_false_iff_ne.mpr h

theorem Layout.quiet (l : Layout) : l.Admits Quiet := ⟨fun _ => rfl, fun _ => rfl, fun _ => .word⟩

namespace Arity

theorem announced_quiet {tokens : List Token} (h : Every Quiet tokens) (more : List Token) :
    announced (tokens ++ more) = announced more := by
  induction tokens with
  | nil => rfl
  | cons t rest ih =>
    have ht : t.isNamed "TO" = false := h t (by simp)
    rw [List.cons_append, ← ih fun u hu => h u (by simp [hu])]
    cases rest ++ more with
    | nil => rfl
    | cons w more => simp only [announced, ht, Bool.false_and, Bool.false_eq_true, if_false]

theorem announced_define (name : String) (more : List Token) :
    announced (.word Keyword.define.name :: .word name :: more) =
      (name, parameters more) :: announced (.word name :: more) := by
  have hdefine : (Token.word Keyword.define.name).isNamed "TO" = true := beq_iff_eq.mpr Keyword.define.fold_name
  rw [announced, hdefine]
  rfl

theorem announced_brackets (l : Layout) (tokens more : List Token) :
    announced (l.brackets tokens ++ more) = announced (tokens ++ l.mark .rightBracket :: more) := by
  rw [Layout.brackets, List.cons_append, List.append_assoc]
  exact announced_quiet (Every.nil.cons (l.quiet.mark .leftBracket)) _

/-- The parameters of a definition end where a word follows. -/
theorem parameters_params (l : Layout) (names : List String) (first : String) (rest : List Token) :
    parameters (l.params names ++ .word first :: rest) = names.length := by
  induction names with
  | nil => cases rest <;> rfl
  | cons name others ih =>
    change parameters (l.params others ++ .word first :: rest) + 1 = others.length + 1
    rw [ih]

end Arity

section
variable (l : Layout) {known : String → Option Nat}

/-- A word that can start a statement: it neither goes on with an expression nor ends a definition. -/
def Opens (name : String) : Prop := fold name ∉ ["AND", "OR", "NOT", "MOD", "END"]

theorem Opens.of_folded {name : String} (h : fold name = name) (hname : name ∉ ["AND", "OR", "NOT", "MOD", "END"]) :
    Opens name := by
  rwa [Opens, h]

theorem Callable.opens {name : String} (h : Callable name) : Opens name := by
  have hend : fold name ≠ "END" := h.fold_ne .finish
  have hoperator := h.not_operator
  simp only [Opens, List.mem_cons, List.not_mem_nil, or_false, not_or] at hoperator ⊢
  exact ⟨hoperator.1, hoperator.2.1, hoperator.2.2.1, hoperator.2.2.2, hend⟩

theorem Operation.opens (op : Operation) : Opens op.name := .of_folded op.fold_name (by cases op <;> decide)

theorem Traversal.opens (t : Traversal) : Opens t.name := .of_folded t.fold_name (by cases t <;> decide)

theorem Query.opens (q : Query) : Opens q.name := .of_folded q.fold_name (by cases q <;> decide)

theorem Command.opens (c : Command) : Opens c.name := .of_folded c.fold_name (by cases c <;> decide)

theorem Keyword.opens {k : Keyword} (hk : k ≠ .finish) : Opens k.name := by
  refine .of_folded k.fold_name ?_
  cases k
  case finish => exact absurd rfl hk
  all_goals decide

theorem Stmt.written_head {s : Stmt} (h : s.WellFormed known) :
    ∃ name rest, s.written l = .word name :: rest ∧ Opens name := by
  cases s with
  | command span c args => exact ⟨_, _, rfl, c.opens⟩
  | call span name args => exact ⟨_, _, rfl, h.1.opens⟩
  | expression e =>
    cases e with
    | operation span op args => exact ⟨_, _, rfl, op.opens⟩
    | traverse span t procedure items => exact ⟨_, _, rfl, t.opens⟩
    | query span q => exact ⟨_, _, rfl, q.opens⟩
    | _ => exact h.1.elim
  | _ => exact ⟨_, _, rfl, Keyword.opens (by decide)⟩

theorem Stmt.writtenAll_head {body : List Stmt} (h : Stmt.AllWellFormed known body) (name : String)
    (more : List Token) : ∃ first rest, Stmt.writtenAll l body ++ .word name :: more = .word first :: rest := by
  cases body with
  | nil => exact ⟨name, more, rfl⟩
  | cons s rest =>
    obtain ⟨first, ts, hs, _⟩ := Stmt.written_head l h.1
    rw [Stmt.writtenAll, hs]
    exact ⟨_, _, rfl⟩

/-- A block adds the definitions of its statements behind what comes before it. -/
theorem Stmt.announced_block {body : List Stmt}
    (h : ∀ more, Arity.announced (Stmt.writtenAll l body ++ more) = Stmt.allDefinitions body ++ Arity.announced more)
    {head : List Token} (hhead : Every Quiet head) (more : List Token) :
    Arity.announced (head ++ l.brackets (Stmt.writtenAll l body) ++ more) =
      Stmt.allDefinitions body ++ Arity.announced more := by
  have hclose := Arity.announced_quiet (Every.nil.cons (l.quiet.mark .rightBracket)) more
  rw [List.append_assoc, Arity.announced_quiet hhead, Arity.announced_brackets, h]
  exact congrArg _ hclose

/-- A keyword and the input behind it define nothing. -/
theorem Every.quiet_input {k : Keyword} (hk : k ≠ .define) {e : Expr} (he : e.WellFormed known) :
    Every Quiet (.word k.name :: l.input (e.written l)) :=
  ((e.every_written l.quiet he).input l.quiet).keyword l.quiet hk

mutual

/-- The text of a program announces its definitions, in the order of the text. -/
theorem Stmt.announced_written : (s : Stmt) → s.WellFormed known → (more : List Token) →
    Arity.announced (s.written l ++ more) = s.definitions ++ Arity.announced more
  | .command _ c args, h, more =>
    Arity.announced_quiet ((Expr.every_writtenAll l.quiet args h.2).cons (.word c.harmless_name)) more
  | .call _ name args, h, more =>
    Arity.announced_quiet ((Expr.every_writtenAll l.quiet args h.2.2).cons (.word h.1.harmless)) more
  | .expression e, h, more => Arity.announced_quiet (e.every_written l.quiet h.2) more
  | .loop _ count body, h, more =>
    Stmt.announced_block l (Stmt.announced_writtenAll body h.2)
      (Every.quiet_input l (k := .loop) (by decide) h.1) more
  | .ifThen _ cond body, h, more =>
    Stmt.announced_block l (Stmt.announced_writtenAll body h.2)
      (Every.quiet_input l (k := .ifThen) (by decide) h.1) more
  | .whileTrue _ cond body, h, more =>
    Stmt.announced_block l (Stmt.announced_writtenAll body h.2)
      (Every.quiet_input l (k := .whileTrue) (by decide) h.1) more
  | .ifElse _ cond yes no, h, more => by
    have hhead := Every.quiet_input l (k := .ifElse) (by decide) h.1
    have hyes := Stmt.announced_block l (Stmt.announced_writtenAll yes h.2.1) hhead
    have hno := Stmt.announced_block l (Stmt.announced_writtenAll no h.2.2) .nil more
    rw [Stmt.definitions, List.append_assoc]
    exact (congrArg Arity.announced (List.append_assoc ..)).trans ((hyes _).trans (congrArg _ hno))
  | .forEach _ var low high step? body, h, more => by
    have hbounds := (Expr.every_writtenAll l.quiet _ h.2.1).cons (.word h.1)
    have hhead := (hbounds.brackets l.quiet).keyword l.quiet (k := .forEach) (by decide)
    exact Stmt.announced_block l (Stmt.announced_writtenAll body h.2.2) hhead more
  | .define _ name params body, h, more => by
    have hbody := Stmt.announced_writtenAll body h.2.2.2
    have hclose := Arity.announced_quiet (Every.nil.keyword l.quiet (k := .finish) (by decide)) more
    -- Parameters are counted up to the first word of the body, or `END`.
    obtain ⟨first, rest, hfirst⟩ := Stmt.writtenAll_head l h.2.2.2 Keyword.finish.name more
    have hparams := Arity.parameters_params l params first rest
    have hhead := (Every.params l.quiet h.2.2.1).cons (.word h.1.harmless)
    rw [← hfirst] at hparams
    rw [Stmt.written, Stmt.definitions]
    simp only [List.cons_append, List.nil_append, List.append_assoc]
    rw [Arity.announced_define, hparams]
    refine congrArg _ ((Arity.announced_quiet hhead _).trans ?_)
    exact (hbody _).trans (congrArg _ hclose)
  | .make _ name value, h, more => by
    have hvalue := (value.every_written l.quiet h.2).input l.quiet
    have hname := (hvalue.cons (.word h.1)).cons (l.quiet.mark .quote)
    exact Arity.announced_quiet (hname.keyword l.quiet (k := .make) (by decide)) more
  | .output _ value, h, more => Arity.announced_quiet (Every.quiet_input l (k := .output) (by decide) h) more
  | .print _ value, h, more => Arity.announced_quiet (Every.quiet_input l (k := .print) (by decide) h) more
  | .stop _, _, more =>
    Arity.announced_quiet (Every.nil.keyword l.quiet (k := .stop) (by decide)) more
  | .declare _ names, h, more => by
    have hnames := (Every.words l.quiet h).brackets l.quiet
    exact Arity.announced_quiet (hnames.keyword l.quiet (k := .declare) (by decide)) more

theorem Stmt.announced_writtenAll : (body : List Stmt) → Stmt.AllWellFormed known body → (more : List Token) →
    Arity.announced (Stmt.writtenAll l body ++ more) = Stmt.allDefinitions body ++ Arity.announced more
  | [], _, _ => rfl
  | s :: rest, h, more => by
    rw [Stmt.writtenAll, Stmt.allDefinitions, List.append_assoc, List.append_assoc, s.announced_written h.1,
      Stmt.announced_writtenAll rest h.2]

end
end

/-- What is found among the collected procedures: the first announcement of the name, or else what was known. -/
theorem Arity.find?_foldr (announced : List (String × Nat)) (known : Table Nat) (name : String) :
    (announced.foldr (fun p t => t.insert p.1 p.2) known).find? name =
      ((announced.find? fun d => fold d.1 == fold name).map Prod.snd).or (known.find? name) :=
  Table.get?_foldr announced known (fold name)

namespace Program
variable (l : Layout) {seed : Table Nat} {p : Program}

/-- The reader of a written program knows the procedures that the program defines, and the others from before. -/
theorem find?_collect (h : p.WellFormed seed) {tail : List Token} (htail : Every Quiet tail) (name : String) :
    (Arity.collect (p.written l ++ tail) seed).find? name = p.arity? seed name := by
  have htail' : Arity.announced tail = [] := by
    have hnil := Arity.announced_quiet htail []
    rwa [List.append_nil] at hnil
  rw [Arity.collect, written, Stmt.announced_writtenAll l p h.statements, htail', List.append_nil, Arity.find?_foldr]
  rfl

/-- No other definition stands in the way of a definition. -/
theorem arity?_of_mem (h : p.WellFormed seed) {d : String × Nat} (hd : d ∈ Stmt.allDefinitions p) :
    p.arity? seed d.1 = some d.2 := by
  rw [arity?, Table.find?_of_mem h.distinct hd]
  rfl

end Program
end Logo
