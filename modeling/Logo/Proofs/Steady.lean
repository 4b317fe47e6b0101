import Logo.Proofs.Spells

/-! Beginnings of programs. Wherever the reading of a program has come to, the tokens read so far close no bracket
that they have not opened, and no definition either unless a name among them is spelled like the word that closes
definitions. -/
namespace Logo
open Repl

/-- A word behind these tokens is the name of a variable, or of a procedure to traverse with. -/
inductive NamePlace : List Token → Prop where
  | sign {c} : c.isMark .colon = true ∨ c.isMark .quote = true → NamePlace [c]
  | traversal {t v} : t.isWord = true → Traversal.ofWord? t.text = some v → NamePlace [t]
  | loopVariable {t l} : t.Starts .forEach → l.isMark .leftBracket = true → NamePlace [t, l]
  | locals {t l ms} : t.Starts .declare → l.isMark .leftBracket = true →
    (∀ m ∈ ms, m.isWord = true ∨ m.isMark .quote = true) → NamePlace (t :: l :: ms)
  | later {t ts} : NamePlace ts → NamePlace (t :: ts)

theorem NamePlace.behind {ts : List Token} (h : NamePlace ts) (us : List Token) : NamePlace (us ++ ts) := by
  induction us with
  | nil => exact h
  | cons u us ih => exact ih.later

def Named (ts : List Token) (name : String) : Prop :=
  ∃ before w after, ts = before ++ w :: after ∧ NamePlace before ∧ w.isWord = true ∧ w.text = name

def EndFree (ts : List Token) : Prop := ∀ name, Named ts name → fold name ≠ "END"

namespace Named
variable {ts : List Token} {name : String} {w : Token}

theorem append (h : Named ts name) (us : List Token) : Named (ts ++ us) name := by
  obtain ⟨before, w, after, rfl, hplace, hw⟩ := h
  exact ⟨before, w, after ++ us, by simp, hplace, hw⟩

theorem behind (h : Named ts name) (us : List Token) : Named (us ++ ts) name := by
  obtain ⟨before, w, after, rfl, hplace, hw⟩ := h
  exact ⟨us ++ before, w, after, by simp, hplace.behind us, hw⟩

theorem cons (h : Named ts name) (t : Token) : Named (t :: ts) name := h.behind [t]

theorem last (hplace : NamePlace ts) (hw : w.isWord = true) : Named (ts ++ [w]) w.text :=
  ⟨ts, w, [], rfl, hplace, hw, rfl⟩

theorem ofParams {ns : List String} (h : Params ts ns) : ∀ name ∈ ns, Named ts name := by
  induction h with
  | nil => simp
  | @cons c w ts ns hc hw _ ih =>
    have hfirst : Named ([c] ++ [w]) w.text := last (.sign (.inl hc)) hw
    simp only [List.forall_mem_cons]
    exact ⟨hfirst.append ts, fun name hname => ((ih name hname).cons w).cons c⟩

/-- Names, if each one without a quote stands in the place of a name. -/
theorem ofNames {bare : Bool} {us : List Token} {ns : List String} (h : Names bare us ns)
    (hplace : bare = true → ∀ ms, (∀ m ∈ ms, m.isWord = true ∨ m.isMark .quote = true) → NamePlace (ts ++ ms)) :
    ∀ name ∈ ns, Named (ts ++ us) name := by
  induction h generalizing ts with
  | nil => simp
  | @plain w us ns hbare hw _ ih =>
    have hfirst : Named (ts ++ [w]) w.text := by
      simpa using last (hplace hbare [] (by simp)) hw
    have hrest : ∀ name ∈ ns, Named (ts ++ [w] ++ us) name := by
      refine ih fun hbare ms hms => ?_
      simpa using hplace hbare (w :: ms) (by simpa [hw] using hms)
    simp only [List.append_assoc, List.singleton_append] at hrest
    simp only [List.forall_mem_cons]
    exact ⟨by simpa using hfirst.append us, hrest⟩
  | @quoted q w us ns hq hw _ ih =>
    have hfirst : Named ([q] ++ [w]) w.text := last (.sign (.inr hq)) hw
    have hrest : ∀ name ∈ ns, Named (ts ++ [q, w] ++ us) name := by
      refine ih fun hbare ms hms => ?_
      simpa using hplace hbare (q :: w :: ms) (by simpa [hq, hw] using hms)
    simp only [List.append_assoc, List.cons_append, List.nil_append] at hrest
    simp only [List.forall_mem_cons]
    exact ⟨(hfirst.append us).behind ts, hrest⟩

/-- One name in a place for names. -/
theorem single {bare : Bool} {us : List Token} {n : String} (h : Names bare us [n])
    (hplace : bare = true → NamePlace ts) : Named (ts ++ us) n := by
  cases h with
  | plain hbare hw hnil =>
    cases hnil
    exact last (hplace hbare) hw
  | @quoted q w _ _ hq hw hnil =>
    cases hnil
    have hlast : Named ([q] ++ [w]) w.text := last (.sign (.inr hq)) hw
    exact hlast.behind ts

end Named

/-- Each name of a tree stands in a place for names. -/
theorem Spells.named {fits : String → Nat → Prop} {ts : List Token} {tree : Tree} (h : Spells fits ts tree) :
    ∀ name ∈ tree.names, Named ts name := by
  induction h with
  | number | query | noExprs | noStmts | stop => simp [Tree.names, Expr.names, Stmt.names, Expr.allNames, Stmt.allNames]
  | @thing c w hc hw =>
    have hname : Named ([c] ++ [w]) w.text := .last (.sign (.inl hc)) hw
    simpa [Tree.names, Expr.names] using hname
  | parens _ _ _ ih | list _ _ _ ih | block _ _ _ ih => exact fun name h => ((ih name h).append _).cons _
  | binary _ _ _ ih ih' =>
    simp only [Tree.names, Expr.join, Expr.names, List.forall_mem_append]
    exact ⟨fun name h => (ih name h).append _, fun name h => ((ih' name h).cons _).behind _⟩
  | unary _ _ ih | operation _ _ _ _ ih | call _ _ _ ih | command _ _ _ _ _ ih | callStmt _ _ _ ih | output _ _ ih
  | print _ _ ih => exact fun name h => (ih name h).cons _
  | expression _ _ ih => exact ih
  | @traverse t v ns name ts items hw hv hns _ ih =>
    have hname : Named ([t] ++ ns) name := .single hns fun _ => .traversal hw hv
    simp only [Tree.names, Expr.names, List.forall_mem_cons]
    exact ⟨by simpa using hname.append ts, fun n h => ((ih n h).behind _).cons _⟩
  | moreExprs _ _ ih ih' =>
    simp only [Tree.names, Expr.allNames, List.forall_mem_append]
    exact ⟨fun name h => (ih name h).append _, fun name h => (ih' name h).behind _⟩
  | moreStmts _ _ ih ih' =>
    simp only [Tree.names, Stmt.allNames, List.forall_mem_append]
    exact ⟨fun name h => (ih name h).append _, fun name h => (ih' name h).behind _⟩
  | loop _ _ _ ih ih' | ifThen _ _ _ ih ih' | whileTrue _ _ _ ih ih' =>
    simp only [Tree.names, Stmt.names, List.forall_mem_append]
    exact ⟨fun name h => ((ih name h).append _).cons _, fun name h => ((ih' name h).behind _).cons _⟩
  | ifElse _ _ _ _ ih ih' ih'' =>
    simp only [Tree.names, Stmt.names, List.forall_mem_append]
    exact ⟨fun name h => ((ih name h).append _).cons _, fun name h => (((ih' name h).append _).behind _).cons _,
      fun name h => (((ih'' name h).behind _).behind _).cons _⟩
  | @forEach t l r ns ts bs var low high step? body ht hl hns _ _ _ ih ih' =>
    have hname : Named ([t, l] ++ ns) var := .single hns fun _ => .loopVariable ht hl
    simp only [Tree.names, Stmt.names, List.forall_mem_cons, List.forall_mem_append]
    exact ⟨by simpa using hname.append (ts ++ r :: bs), fun n h => ((((ih n h).append _).behind _).cons _).cons _,
      fun n h => (((((ih' n h).cons _).behind _).behind _).cons _).cons _⟩
  | define _ _ hps _ _ _ ih =>
    simp only [Tree.names, Stmt.names, List.forall_mem_append]
    exact ⟨fun n h => (((Named.ofParams hps n h).append _).cons _).cons _,
      fun n h => ((((ih n h).append _).behind _).cons _).cons _⟩
  | @make t ns ts name e ht hns _ ih =>
    have hname : Named ([t] ++ ns) name := .single hns (by simp)
    simp only [Tree.names, Stmt.names, List.forall_mem_cons]
    exact ⟨by simpa using hname.append ts, fun n h => ((ih n h).behind _).cons _⟩
  | @declare t ns names ht hns =>
    have hnames : ∀ name ∈ names, Named ([t] ++ ns) name := Named.ofNames hns (by simp)
    exact hnames
  | @declareAll t l r ns names ht hl hns hr =>
    have hnames : ∀ name ∈ names, Named ([t, l] ++ ns) name :=
      Named.ofNames hns fun _ ms hms => .locals ht hl hms
    exact fun name h => by simpa using (hnames name h).append [r]

namespace EndFree
variable {ts us : List Token}

theorem left (h : EndFree (ts ++ us)) : EndFree ts := fun name hname => h name (hname.append us)

theorem right (h : EndFree (ts ++ us)) : EndFree us := fun name hname => h name (hname.behind ts)

end EndFree

@[simp] theorem Repl.openDefinitions_append (ts us : List Token) :
    openDefinitions (ts ++ us) = openDefinitions ts + openDefinitions us := by
  simp only [openDefinitions_eq, List.countP_append]
  omega

theorem Repl.openDefinitions_header {t w : Token} (ht : t.Starts .define) (hw : Plain w) :
    openDefinitions [t, w] = 1 := by
  have hwords : ∀ word, t.isNamed word = ("TO" == word) := by simp [Token.isNamed, ht.1, ht.fold_text]
  have hto := hw.unnamed "TO" (by simp [Delimits])
  have hend := hw.unnamed "END" (by simp [Delimits])
  simp [openDefinitions_eq, hwords, hto, hend]

structure Steady (ts : List Token) : Prop where
  brackets : 0 ≤ openBrackets ts
  definitions : EndFree ts → 0 ≤ openDefinitions ts

namespace Steady
variable {t w l : Token} {ts us : List Token}

theorem nil : Steady [] := ⟨by simp, by simp [openDefinitions_eq]⟩

theorem append (h : Steady ts) (h' : Steady us) : Steady (ts ++ us) := by
  refine ⟨?_, fun hfree => ?_⟩
  · have hts := h.brackets
    have hus := h'.brackets
    simp only [openBrackets_append]
    omega
  · have hts := h.definitions hfree.left
    have hus := h'.definitions hfree.right
    simp only [openDefinitions_append]
    omega

theorem plain (h : Plain t) : Steady [t] := by
  have hend := h.unnamed "END" (by simp [Delimits])
  refine ⟨by simp [h.bracket], fun _ => ?_⟩
  simp only [openDefinitions_eq, List.countP_singleton, hend]
  split <;> simp

theorem bracket (h : l.isMark .leftBracket = true) : Steady [l] := by
  refine ⟨by simp [bracketWeight, h], fun _ => ?_⟩
  simp [openDefinitions_eq, Token.isNamed, Token.isWord_of_isMark h]

/-- The word that opens a definition, and its name. -/
theorem header (ht : t.Starts .define) (hw : Plain w) : Steady [t, w] := by
  refine ⟨by simp [Plain.bracketWeight_word ht.1, hw.bracket], fun _ => ?_⟩
  simp [openDefinitions_header ht hw]

theorem close {r : Token} (h : Steady ts) (hopen : 0 < openBrackets ts) (hr : r.isMark .rightBracket = true) :
    Steady (ts ++ [r]) := by
  have hweight : bracketWeight r = -1 := by simp [bracketWeight, hr, Token.isMark_unique hr]
  refine ⟨by simp [hweight]; omega, fun hfree => ?_⟩
  have hts := h.definitions hfree.left
  simpa [openDefinitions_eq [r], Token.isNamed, Token.isWord_of_isMark hr] using hts

theorem name (h : Steady ts) (hplace : NamePlace ts) (hw : w.isWord = true) : Steady (ts ++ [w]) := by
  refine ⟨by simpa [Plain.bracketWeight_word hw] using h.brackets, fun hfree => ?_⟩
  have hts := h.definitions hfree.left
  have hend : fold w.text ≠ "END" := hfree w.text (.last hplace hw)
  simp only [openDefinitions_append, openDefinitions_eq [w], List.countP_singleton]
  simp [Token.isNamed, hend]
  omega

/-- One name in a place for names. -/
theorem single {bare : Bool} {n : String} (h : Steady ts) (hus : Names bare us [n])
    (hplace : bare = true → NamePlace ts) : Steady (ts ++ us) := by
  cases hus with
  | plain hbare hw hnil =>
    cases hnil
    exact h.name (hplace hbare) hw
  | quoted hq hw hnil =>
    cases hnil
    have hquote := h.append (plain (.ofMark hq (by simp) (by simp)))
    simpa using hquote.name ((NamePlace.sign (.inr hq)).behind ts) hw

theorem params {ns : List String} (h : Steady ts) (hus : Params us ns) : Steady (ts ++ us) := by
  induction hus generalizing ts with
  | nil => simpa using h
  | cons hc hw _ ih =>
    have hcolon := h.append (plain (.ofMark hc (by simp) (by simp)))
    simpa using ih (hcolon.name ((NamePlace.sign (.inl hc)).behind ts) hw)

end Steady

/-- What spells a tree closes all that it opens. -/
theorem Spells.steady {fits : String → Nat → Prop} {ts : List Token} {tree : Tree} (h : Spells fits ts tree) :
    Steady ts := by
  refine ⟨by simp [h.tally.brackets], fun hfree => ?_⟩
  have hto := h.tally.words "TO" (.inl rfl)
  have hend := h.tally.words_of_unnamed (.inr rfl) fun name hname => hfree name (h.named name hname)
  rw [openDefinitions_eq]
  omega

/-- Reading on is what closes a bracket or a definition, where that is what is expected. -/
structure Awaits (ts : List Token) (expected : String) : Prop where
  bracket : expected = "`]`" → 0 < openBrackets ts
  definition : expected = "END" → EndFree ts → 0 < openDefinitions ts

namespace Awaits
variable {ts us : List Token} {expected : String}

theorem other (hbracket : expected ≠ "`]`") (hend : expected ≠ "END") : Awaits ts expected :=
  ⟨fun h => absurd h hbracket, fun h => absurd h hend⟩

theorem behind (h : Awaits us expected) (hts : Steady ts) : Awaits (ts ++ us) expected := by
  refine ⟨fun he => ?_, fun he hfree => ?_⟩
  · have hopen := h.bracket he
    have hbefore := hts.brackets
    simp only [openBrackets_append]
    omega
  · have hopen := h.definition he hfree.right
    have hbefore := hts.definitions hfree.left
    simp only [openDefinitions_append]
    omega

theorem append (h : Awaits ts expected) (hus : Steady us) : Awaits (ts ++ us) expected := by
  refine ⟨fun he => ?_, fun he hfree => ?_⟩
  · have hopen := h.bracket he
    have hafter := hus.brackets
    simp only [openBrackets_append]
    omega
  · have hopen := h.definition he hfree.left
    have hafter := hus.definitions hfree.right
    simp only [openDefinitions_append]
    omega

theorem leftBracket {l : Token} (hts : Steady ts) (hl : l.isMark .leftBracket = true) :
    Awaits (ts ++ [l]) "`]`" := by
  refine Awaits.behind ⟨fun _ => by simp [bracketWeight, hl], fun h => ?_⟩ hts
  simp at h

theorem header {t w : Token} (ht : t.Starts .define) (hw : Plain w) : Awaits [t, w] "END" :=
  ⟨by simp, fun _ _ => by simp [openDefinitions_header ht hw]⟩

end Awaits
end Logo
