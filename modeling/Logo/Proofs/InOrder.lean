import Logo.Proofs.Takes.Grammar
import Mathlib

/-! The numbers and words of a program, read off its tree from left to right. An accepted text has them in the same
order, each once: reading drops only marks, and built-in words keep their meaning but not their spelling. -/
namespace Logo

inductive Lexeme where
  | number (value : Float)
  | name (text : String)
  | builtin (name : String) (aliases : List String)

def Token.isLexical (t : Token) : Bool :=
  match t.kind with
  | .number _ | .word => true
  | _ => false

def Token.Carries (t : Token) : Lexeme → Prop
  | .number value => t.kind = .number value
  | .name text => t.isWord = true ∧ t.text = text
  | .builtin name aliases => t.isWord = true ∧ (fold t.text = name ∨ fold t.text ∈ aliases)

def Keyword.lexeme (k : Keyword) : Lexeme := .builtin k.name k.aliases

def BinaryOp.lexemes (op : BinaryOp) : List Lexeme := if op.isWord then [.builtin op.sign []] else []

def UnaryOp.lexemes (op : UnaryOp) : List Lexeme := if op.isWord then [.builtin op.sign []] else []

mutual

/-- Operators stand between their operands, all other words before their inputs. -/
def Expr.lexemes : Expr → List Lexeme
  | .number _ value => [.number value]
  | .list _ items => Expr.allLexemes items
  | .thing _ name => [.name name]
  | .binary _ op left right => left.lexemes ++ (op.lexemes ++ right.lexemes)
  | .unary _ op operand => op.lexemes ++ operand.lexemes
  | .operation _ op args => .builtin op.name op.aliases :: Expr.allLexemes args
  | .traverse _ t procedure items => .builtin t.name [] :: .name procedure :: items.lexemes
  | .query _ q => [.builtin q.name q.aliases]
  | .call _ name args => .name name :: Expr.allLexemes args

def Expr.allLexemes : List Expr → List Lexeme
  | [] => []
  | e :: rest => e.lexemes ++ Expr.allLexemes rest

end

mutual

def Stmt.lexemes : Stmt → List Lexeme
  | .command _ c args => .builtin c.name c.aliases :: Expr.allLexemes args
  | .call _ name args => .name name :: Expr.allLexemes args
  | .expression e => e.lexemes
  | .loop _ count body => Keyword.loop.lexeme :: (count.lexemes ++ Stmt.allLexemes body)
  | .ifThen _ cond body => Keyword.ifThen.lexeme :: (cond.lexemes ++ Stmt.allLexemes body)
  | .ifElse _ cond yes no =>
    Keyword.ifElse.lexeme :: (cond.lexemes ++ (Stmt.allLexemes yes ++ Stmt.allLexemes no))
  | .whileTrue _ cond body => Keyword.whileTrue.lexeme :: (cond.lexemes ++ Stmt.allLexemes body)
  | .forEach _ var low high step? body =>
    Keyword.forEach.lexeme :: .name var ::
      (Expr.allLexemes (low :: high :: step?.toList) ++ Stmt.allLexemes body)
  | .define _ name params body =>
    Keyword.define.lexeme :: .name name ::
      (params.map .name ++ (Stmt.allLexemes body ++ [Keyword.finish.lexeme]))
  | .make _ name value => Keyword.make.lexeme :: .name name :: value.lexemes
  | .output _ value => Keyword.output.lexeme :: value.lexemes
  | .stop _ => [Keyword.stop.lexeme]
  | .print _ value => Keyword.print.lexeme :: value.lexemes
  | .declare _ names => Keyword.declare.lexeme :: names.map .name

def Stmt.allLexemes : List Stmt → List Lexeme
  | [] => []
  | s :: rest => s.lexemes ++ Stmt.allLexemes rest

end

def Tree.lexemes : Tree → List Lexeme
  | expr e => e.lexemes
  | exprs es => Expr.allLexemes es
  | stmt s => s.lexemes
  | stmts body | block body => Stmt.allLexemes body

namespace Token
variable {t : Token}

theorem isLexical_of_isWord (h : t.isWord = true) : t.isLexical = true := by
  cases hk : t.kind <;> simp [isWord, isLexical, hk] at h ⊢

theorem isLexical_of_isMark {m : Mark} (h : t.isMark m = true) : t.isLexical = false := by
  cases hk : t.kind <;> simp [isMark, isLexical, hk] at h ⊢

theorem isLexical_of_kind {m : Mark} (h : t.kind = .mark m) : t.isLexical = false := by
  simp [isLexical, h]

/-- A word that is found in a vocabulary is one of the spellings of what is found. -/
theorem carries_of_find? {α : Type} {all : List α} {name : α → String} {aliases : α → List String} {a : α}
    (hw : t.isWord = true)
    (h : (all.find? fun b => name b == fold t.text || (aliases b).contains (fold t.text)) = some a) :
    t.Carries (.builtin (name a) (aliases a)) := by
  have hfound := List.find?_some h
  simp only [Bool.or_eq_true, beq_iff_eq, List.contains_iff_mem] at hfound
  exact ⟨hw, hfound.imp_left Eq.symm⟩

theorem carries_of_isNamed {name : String} (h : t.isNamed name = true) : t.Carries (.builtin name []) := by
  simpa [Carries, isNamed] using h

theorem Starts.carries {k : Keyword} (h : t.Starts k) : t.Carries k.lexeme := carries_of_find? h.1 h.2

theorem carries_of_traversal {v : Traversal} (hw : t.isWord = true) (h : Traversal.ofWord? t.text = some v) :
    t.Carries (.builtin v.name []) := by
  have hfound := List.find?_some h
  simp only [beq_iff_eq] at hfound
  exact ⟨hw, .inl hfound.symm⟩

end Token

def Bears (ts : List Token) (ls : List Lexeme) : Prop := List.Forall₂ Token.Carries (ts.filter Token.isLexical) ls

namespace Bears
variable {t w : Token} {ts us : List Token} {ls ks : List Lexeme} {l : Lexeme}

theorem nil : Bears [] [] := List.Forall₂.nil

theorem append (h : Bears ts ls) (h' : Bears us ks) : Bears (ts ++ us) (ls ++ ks) := by
  rw [Bears, List.filter_append]
  exact List.rel_append h h'

theorem skip (h : Bears ts ls) (ht : t.isLexical = false) : Bears (t :: ts) ls := by
  simpa [Bears, ht] using h

theorem cons (h : Bears ts ls) (ht : t.isLexical = true) (hl : t.Carries l) : Bears (t :: ts) (l :: ls) := by
  rw [Bears, List.filter_cons_of_pos ht]
  exact .cons hl h

theorem word (h : Bears ts ls) (ht : t.isWord = true) (hl : t.Carries l) : Bears (t :: ts) (l :: ls) :=
  h.cons (Token.isLexical_of_isWord ht) hl

theorem name (h : Bears ts ls) (hw : w.isWord = true) : Bears (w :: ts) (.name w.text :: ls) := h.word hw ⟨hw, rfl⟩

theorem keyword {k : Keyword} (h : Bears ts ls) (ht : t.Starts k) : Bears (t :: ts) (k.lexeme :: ls) :=
  h.word ht.1 ht.carries

/-- Marks around the tokens carry nothing. -/
theorem enclose {r : Token} (h : Bears ts ls) (ht : t.isLexical = false) (hr : r.isLexical = false) :
    Bears (t :: (ts ++ [r])) ls := by
  have hclosed := h.append (nil.skip hr)
  rw [List.append_nil] at hclosed
  exact hclosed.skip ht

theorem ofNames {bare : Bool} {ns : List String} (h : Names bare ts ns) : Bears ts (ns.map .name) := by
  induction h with
  | nil => exact nil
  | plain _ hw _ ih => exact ih.name hw
  | quoted hq hw _ ih => exact (ih.name hw).skip (Token.isLexical_of_isMark hq)

theorem ofParams {ns : List String} (h : Params ts ns) : Bears ts (ns.map .name) := by
  induction h with
  | nil => exact nil
  | cons hc hw _ ih => exact (ih.name hw).skip (Token.isLexical_of_isMark hc)

theorem ofNamed {name : String} (h : t.isNamed name = true) : Bears [t] [.builtin name []] :=
  nil.word (Token.isWord_of_isNamed h) (Token.carries_of_isNamed h)

theorem ofJoins {op : BinaryOp} (h : t.Joins op) : Bears [t] op.lexemes := by
  unfold BinaryOp.lexemes
  rcases h.cases with ⟨hname, hword⟩ | ⟨m, hk, -, hword⟩
  · simpa [hword] using ofNamed hname
  · simpa [hword] using nil.skip (Token.isLexical_of_kind hk)

theorem ofPrecedes {op : UnaryOp} (h : t.Precedes op) : Bears [t] op.lexemes := by
  unfold UnaryOp.lexemes
  rcases h.cases with ⟨hname, hword⟩ | ⟨m, hk, -, hword⟩
  · simpa [hword] using ofNamed hname
  · simpa [hword] using nil.skip (Token.isLexical_of_kind hk)

end Bears

variable {fits : String → Nat → Prop} {ts : List Token} {tree : Tree}

/-- Tokens that spell a tree have its numbers and words. -/
theorem Spells.bears (h : Spells fits ts tree) : Bears ts tree.lexemes := by
  induction h with
  | number hk => exact Bears.nil.cons (by simp [Token.isLexical, hk]) hk
  | thing hc hw => exact (Bears.nil.name hw).skip (Token.isLexical_of_isMark hc)
  | parens hl hr _ ih | list hl hr _ ih | block hl hr _ ih =>
    exact ih.enclose (Token.isLexical_of_isMark hl) (Token.isLexical_of_isMark hr)
  | binary ht _ _ ih ih' => exact ih.append ((Bears.ofJoins ht).append ih')
  | unary ht _ ih => exact (Bears.ofPrecedes ht).append ih
  | operation hw hop _ _ ih => exact ih.word hw (Token.carries_of_find? hw hop)
  | traverse hw hv hns _ ih => exact ((Bears.ofNames hns).append ih).word hw (Token.carries_of_traversal hw hv)
  | query hw hq => exact Bears.nil.word hw (Token.carries_of_find? hw hq)
  | call ht _ _ ih | callStmt ht _ _ ih => exact ih.name ht.1
  | noExprs | noStmts => exact .nil
  | moreExprs _ _ ih ih' | moreStmts _ _ ih ih' => exact ih.append ih'
  | command hw _ hc _ _ ih => exact ih.word hw (Token.carries_of_find? hw hc)
  | expression _ _ ih => exact ih
  | loop ht _ _ ih ih' | ifThen ht _ _ ih ih' | whileTrue ht _ _ ih ih' => exact (ih.append ih').keyword ht
  | ifElse ht _ _ _ ih ih' ih'' => exact (ih.append (ih'.append ih'')).keyword ht
  | forEach ht hl hns _ hr _ ih ih' =>
    have hbody := ih.append (ih'.skip (Token.isLexical_of_isMark hr))
    exact (((Bears.ofNames hns).append hbody).skip (Token.isLexical_of_isMark hl)).keyword ht
  | define ht hw hps _ _ he ih =>
    exact (((Bears.ofParams hps).append (ih.append (.ofNamed he))).name hw.1).keyword ht
  | make ht hns _ ih => exact ((Bears.ofNames hns).append ih).keyword ht
  | output ht _ ih | print ht _ ih => exact ih.keyword ht
  | stop ht => exact Bears.nil.keyword ht
  | declare ht hns => exact (Bears.ofNames hns).keyword ht
  | declareAll ht hl hns hr =>
    exact ((Bears.ofNames hns).enclose (Token.isLexical_of_isMark hl) (Token.isLexical_of_isMark hr)).keyword ht

/-- The numbers and words of an accepted text are those of its program, read from left to right. -/
theorem readProgram_keeps_lexemes {source : String} {seed : List (String × Nat)} {p : Program} {r : Reader}
    (h : readProgram (tokenize source) seed = .ok p r) :
    List.Forall₂ Token.Carries ((tokenize source).filter Token.isLexical) (Stmt.allLexemes p) := by
  have hbears := (spells_of_readProgram (Reader.start_behind_free source seed) h).bears
  have hfinish : Bears [.finishAt source.utf8ByteSize] [] := Bears.nil.skip rfl
  have hall := hbears.append hfinish
  rw [← (tokenize_eq source).1, List.append_nil] at hall
  exact hall

set_option maxRecDepth 4096 in
theorem readProgram_keeps_lexemes_aliases :
    ∃ p r, readProgram (tokenize "pr bf :X mod g") [] = .ok p r ∧
      List.Forall₂ Token.Carries ((tokenize "pr bf :X mod g").filter Token.isLexical)
        [.builtin "PRINT" ["PR"], .builtin "BUTFIRST" ["BF"], .name "X", .builtin "MOD" [], .name "g"] := by
  have h : readProgram (tokenize "pr bf :X mod g") [] = .ok
      [.print ⟨0, 14⟩ (.operation ⟨3, 14⟩ .butFirst
        [.binary ⟨6, 14⟩ .mod (.thing ⟨6, 8⟩ "X") (.call ⟨13, 14⟩ "g" [])])]
      ⟨[], .finishAt 14, ⟨13, 14⟩, {}⟩ := by cbv
  exact ⟨_, _, h, readProgram_keeps_lexemes h⟩

end Logo
