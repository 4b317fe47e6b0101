import Logo.Proofs.Prescan

/-! The brackets and parentheses of an accepted text are well nested: each is closed by one of its own kind, and what
stands between is well nested too. A text that breaks off where a bracket would close has opened more than it closed. -/
namespace Logo

def Mark.closing? : Mark → Option Mark
  | leftBracket => some rightBracket
  | leftParen => some rightParen
  | _ => none

inductive Nested : List Mark → Prop where
  | nil : Nested []
  | pair {l r : Mark} {ms ns : List Mark} : l.closing? = some r → Nested ms → Nested ns → Nested (l :: (ms ++ r :: ns))

namespace Nested
variable {l r : Mark} {ms ns : List Mark}

theorem append (h : Nested ms) (h' : Nested ns) : Nested (ms ++ ns) := by
  induction h with
  | nil => exact h'
  | pair hclosing hinner _ _ ih => simpa using pair hclosing hinner ih

theorem enclose (h : Nested ms) (hclosing : l.closing? = some r) : Nested (l :: (ms ++ [r])) := pair hclosing h nil

end Nested

def Token.bracket? (t : Token) : Option Mark :=
  match t.kind with
  | .mark m => if m.isBracket then some m else none
  | _ => none

namespace Token
variable {t : Token}

theorem bracket?_of_isWord (h : t.isWord = true) : t.bracket? = none := by
  cases hk : t.kind <;> simp [isWord, bracket?, hk] at h ⊢

theorem bracket?_of_isMark {m : Mark} (h : t.isMark m = true) : t.bracket? = if m.isBracket then some m else none := by
  cases hk : t.kind <;> simp [isMark, bracket?, hk] at h ⊢
  rw [h]

theorem bracket?_of_kind {m : Mark} (h : t.kind = .mark m) (hm : m.isBracket = false) : t.bracket? = none := by
  simp [bracket?, h, hm]

end Token

def Closed (ts : List Token) : Prop := Nested (ts.filterMap Token.bracket?)

namespace Closed
variable {t l r : Token} {ts us : List Token}

theorem nil : Closed [] := Nested.nil

theorem append (h : Closed ts) (h' : Closed us) : Closed (ts ++ us) := by
  rw [Closed, List.filterMap_append]
  exact Nested.append h h'

theorem skip (h : Closed ts) (ht : t.bracket? = none) : Closed (t :: ts) := by
  simpa [Closed, ht] using h

theorem word (h : Closed ts) (ht : t.isWord = true) : Closed (t :: ts) := h.skip (Token.bracket?_of_isWord ht)

theorem enclose {m n : Mark} (h : Closed ts) (hl : l.isMark m = true) (hr : r.isMark n = true)
    (hclosing : m.closing? = some n) : Closed (l :: (ts ++ [r])) := by
  have hm : l.bracket? = some m ∧ r.bracket? = some n := by
    rw [Token.bracket?_of_isMark hl, Token.bracket?_of_isMark hr]
    cases m <;> simp [Mark.closing?] at hclosing <;> simp [← hclosing, Mark.isBracket]
  have hnested := Nested.enclose h hclosing
  simpa [Closed, hm] using hnested

theorem ofNames {bare : Bool} {ns : List String} (h : Names bare ts ns) : Closed ts := by
  induction h with
  | nil => exact nil
  | plain _ hw _ ih => exact ih.word hw
  | quoted hq hw _ ih => exact (ih.word hw).skip (Token.bracket?_of_isMark hq)

theorem ofParams {ns : List String} (h : Params ts ns) : Closed ts := by
  induction h with
  | nil => exact nil
  | cons hc hw _ ih => exact (ih.word hw).skip (Token.bracket?_of_isMark hc)

theorem joined {op : BinaryOp} (h : Closed ts) (ht : t.Joins op) : Closed (t :: ts) := by
  rcases ht.cases with ⟨hname, -⟩ | ⟨m, hk, hm, -⟩
  · exact h.word (Token.isWord_of_isNamed hname)
  · exact h.skip (Token.bracket?_of_kind hk hm)

theorem preceded {op : UnaryOp} (h : Closed ts) (ht : t.Precedes op) : Closed (t :: ts) := by
  rcases ht.cases with ⟨hname, -⟩ | ⟨m, hk, hm, -⟩
  · exact h.word (Token.isWord_of_isNamed hname)
  · exact h.skip (Token.bracket?_of_kind hk hm)

end Closed

variable {fits : String → Nat → Prop} {ts : List Token} {tree : Tree}

/-- Tokens that spell a tree close what they open, each bracket in its place. -/
theorem Spells.closed (h : Spells fits ts tree) : Closed ts := by
  induction h with
  | number hk => exact Closed.nil.skip (by simp [Token.bracket?, hk])
  | thing hc hw => exact (Closed.nil.word hw).skip (Token.bracket?_of_isMark hc)
  | parens hl hr _ ih | list hl hr _ ih | block hl hr _ ih => exact ih.enclose hl hr rfl
  | binary ht _ _ ih ih' => exact ih.append (ih'.joined ht)
  | unary ht _ ih => exact ih.preceded ht
  | operation hw _ _ _ ih | command hw _ _ _ _ ih => exact ih.word hw
  | traverse hw _ hns _ ih => exact ((Closed.ofNames hns).append ih).word hw
  | query hw => exact Closed.nil.word hw
  | call ht _ _ ih | callStmt ht _ _ ih => exact ih.word ht.1
  | noExprs | noStmts => exact .nil
  | moreExprs _ _ ih ih' | moreStmts _ _ ih ih' => exact ih.append ih'
  | expression _ _ ih => exact ih
  | loop ht _ _ ih ih' | ifThen ht _ _ ih ih' | whileTrue ht _ _ ih ih' => exact (ih.append ih').word ht.1
  | ifElse ht _ _ _ ih ih' ih'' => exact (ih.append (ih'.append ih'')).word ht.1
  | forEach ht hl hns _ hr _ ih ih' =>
    have hall := (((Closed.ofNames hns).append ih).enclose hl hr rfl).append ih'
    simp only [List.cons_append, List.append_assoc, List.nil_append] at hall
    exact hall.word ht.1
  | define ht hw hps _ _ he ih =>
    have hend := ih.append (Closed.nil.word (Token.isWord_of_isNamed he))
    exact (((Closed.ofParams hps).append hend).word hw.1).word ht.1
  | make ht hns _ ih => exact ((Closed.ofNames hns).append ih).word ht.1
  | output ht _ ih | print ht _ ih => exact ih.word ht.1
  | stop ht => exact Closed.nil.word ht.1
  | declare ht hns => exact (Closed.ofNames hns).word ht.1
  | declareAll ht hl hns hr => exact ((Closed.ofNames hns).enclose hl hr rfl).word ht.1

theorem Repl.openBrackets_eq (ts : List Token) :
    openBrackets ts = (ts.countP (·.isMark .leftBracket) : Int) - ts.countP (·.isMark .rightBracket) := by
  induction ts with
  | nil => rfl
  | cons t ts ih =>
    by_cases hl : t.isMark .leftBracket = true
    · have hr : t.isMark .rightBracket = false := Token.isMark_unique hl (by simp)
      simp [ih, bracketWeight, hl, hr]
      omega
    · by_cases hr : t.isMark .rightBracket = true
      · simp [ih, bracketWeight, hl, hr]
        omega
      · simp [ih, bracketWeight, hl, hr]

/-- The brackets of an accepted text are well nested. A text that breaks off where a bracket would close has more
brackets that open than brackets that close. -/
theorem brackets_of_readProgram (source : String) (seed : List (String × Nat)) :
    (∀ p r, readProgram (tokenize source) seed = .ok p r → Nested ((tokenize source).filterMap Token.bracket?)) ∧
    (∀ f r, readProgram (tokenize source) seed = .error (.fault f) r → f.cause = .unexpected "`]`" "end of input" →
      (tokenize source).countP (·.isMark .rightBracket) < (tokenize source).countP (·.isMark .leftBracket)) := by
  refine ⟨fun p r h => ?_, fun f r h hf => ?_⟩
  · have hclosed := (spells_of_readProgram (Reader.start_behind_free source seed) h).closed
    have hfinish : Closed [.finishAt source.utf8ByteSize] := Closed.nil.skip rfl
    rw [(tokenize_eq source).1]
    exact hclosed.append hfinish
  · have hopen := (awaits_of_readProgram h hf).bracket rfl
    have hfinish : ∀ m, (Token.finishAt source.utf8ByteSize).isMark m = false := fun _ => rfl
    rw [Repl.openBrackets_eq] at hopen
    simp only [(tokenize_eq source).1, List.countP_append, List.countP_singleton, hfinish]
    simpa using hopen

set_option maxRecDepth 4096 in
theorem brackets_of_readProgram_lists :
    (∃ p r, readProgram (tokenize "pr [([])]") [] = .ok p r ∧
      Nested [.leftBracket, .leftParen, .leftBracket, .rightBracket, .rightParen, .rightBracket]) ∧
    (∃ f r, readProgram (tokenize "pr [[]") [] = .error (.fault f) r ∧ f.cause = .unexpected "`]`" "end of input" ∧
      (tokenize "pr [[]").countP (·.isMark .rightBracket) < (tokenize "pr [[]").countP (·.isMark .leftBracket)) := by
  have hnested : readProgram (tokenize "pr [([])]") [] =
      .ok [.print ⟨0, 9⟩ (.list ⟨3, 9⟩ [.list ⟨5, 7⟩ []])] ⟨[], .finishAt 9, ⟨8, 9⟩, {}⟩ := by cbv
  have hopen : readProgram (tokenize "pr [[]") [] =
      .error (.fault ⟨.unexpected "`]`" "end of input", some ⟨6, 6⟩⟩) ⟨[], .finishAt 6, ⟨5, 6⟩, {}⟩ := by cbv
  have hmarks : (tokenize "pr [([])]").filterMap Token.bracket? =
      [.leftBracket, .leftParen, .leftBracket, .rightBracket, .rightParen, .rightBracket] := by cbv
  exact ⟨⟨_, _, hnested, hmarks ▸ (brackets_of_readProgram _ _).1 _ _ hnested⟩,
    _, _, hopen, rfl, (brackets_of_readProgram _ _).2 _ _ hopen rfl⟩

end Logo
