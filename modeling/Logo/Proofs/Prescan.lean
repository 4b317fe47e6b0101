import Logo.Proofs.Takes.Grammar
import Mathlib

/-! What can be told from the tokens of a text before it is read. Definitions are found by their first word, and open
brackets and definitions are counted, both without regard to the grammar. So both are right about accepted programs
unless these have names that are spelled like the words around definitions. -/
namespace Logo
open Repl

variable {fits : String → Nat → Prop} {ts : List Token}

/-- A statement starts with a word. -/
theorem Spells.stmt_head {s : Stmt} (h : Spells fits ts (.stmt s)) : ∃ t us, ts = t :: us ∧ t.isWord = true := by
  cases h with
  | command hw | expression hw => exact ⟨_, _, rfl, hw⟩
  | callStmt ht => exact ⟨_, _, rfl, ht.1⟩
  | loop ht | ifThen ht | whileTrue ht | ifElse ht | forEach ht | define ht | make ht | output ht | print ht | stop ht
  | declare ht | declareAll ht => exact ⟨_, _, rfl, ht.1⟩

/-- Behind the parameters of a definition comes a word, of its body or its end. -/
theorem Spells.body_head {body : List Stmt} {e c : Token} {more us : List Token} (h : Spells fits ts (.stmts body))
    (he : e.isWord = true) (hhead : ts ++ e :: more = c :: us) : c.isMark .colon = false := by
  cases h with
  | noStmts =>
    obtain ⟨rfl, -⟩ := List.cons.inj hhead
    exact Token.isMark_of_isWord he _
  | moreStmts hs =>
    obtain ⟨t, vs, rfl, ht⟩ := hs.stmt_head
    obtain ⟨rfl, -⟩ := List.cons.inj hhead
    exact Token.isMark_of_isWord ht _

namespace Arity

theorem announced_cons_cons (t w : Token) (more : List Token) :
    announced (t :: w :: more) =
      if t.isNamed "TO" && w.isWord then (w.text, parameters more) :: announced (w :: more)
      else announced (w :: more) := by
  rw [announced]

theorem sublist_announced (ts us : List Token) : (announced us).Sublist (announced (ts ++ us)) := by
  induction ts with
  | nil => exact .refl _
  | cons t ts ih =>
    refine ih.trans ?_
    cases hrest : ts ++ us with
    | nil => simp [announced]
    | cons w more =>
      rw [List.cons_append, hrest, announced_cons_cons]
      split <;> simp

theorem length_announced (ts : List Token) : (announced ts).length ≤ ts.countP (·.isNamed "TO") := by
  induction ts with
  | nil => simp [announced]
  | cons t ts ih =>
    cases ts with
    | nil => simp [announced]
    | cons w more =>
      rw [announced_cons_cons, List.countP_cons]
      split
      · next h =>
        simp only [Bool.and_eq_true] at h
        simp only [List.length_cons, h.1, if_true]
        omega
      · omega

end Arity

def Announces (ts : List Token) (ds : List (String × Nat)) : Prop :=
  ∀ more, (ds ++ Arity.announced more).Sublist (Arity.announced (ts ++ more))

namespace Announces
variable {us : List Token} {ds ds' : List (String × Nat)}

theorem none (ts : List Token) : Announces ts [] := fun more => Arity.sublist_announced ts more

theorem append (h : Announces ts ds) (h' : Announces us ds') : Announces (ts ++ us) (ds ++ ds') := by
  intro more
  rw [List.append_assoc, List.append_assoc]
  exact ((h' more).append_left ds).trans (h (us ++ more))

theorem behind (h : Announces ts ds) (us : List Token) : Announces (us ++ ts) ds := (none us).append h

theorem before (h : Announces ts ds) (us : List Token) : Announces (ts ++ us) ds := by
  simpa using h.append (none us)

/-- A definition announces itself, with the parameters in front of its body, and then those in its body. -/
theorem define {t w e : Token} {ps : List Token} {params : List String} {body : List Stmt} (h : Announces ts ds)
    (ht : t.isNamed "TO" = true) (hw : w.isWord = true) (hps : Params ps params)
    (hbody : Spells fits ts (.stmts body)) (he : e.isWord = true) :
    Announces (t :: w :: (ps ++ (ts ++ [e]))) ((w.text, params.length) :: ds) := by
  intro more
  have hcount : Arity.parameters (ps ++ (ts ++ e :: more)) = params.length :=
    hps.parameters_append fun c us hhead => hbody.body_head he hhead
  have hrest := (((h.before [e]).behind ps).behind [w]) more
  simp only [List.cons_append, List.append_assoc, List.nil_append] at hrest ⊢
  rw [Arity.announced_cons_cons, ht, hw, hcount]
  exact hrest.cons_cons _

end Announces

/-- Tokens announce at least the definitions of the tree that they spell. -/
theorem Spells.announces {tree : Tree} (h : Spells fits ts tree) : Announces ts tree.definitions := by
  induction h with
  | number | thing | parens | list | binary | unary | operation | traverse | query | call | noExprs | moreExprs
  | noStmts | command | callStmt | expression | make | output | print | stop | declare | declareAll => exact .none _
  | moreStmts _ _ ih ih' => exact ih.append ih'
  | block _ _ _ ih => exact (ih.before _).behind [_]
  | loop _ _ _ _ ih | ifThen _ _ _ _ ih | whileTrue _ _ _ _ ih => exact (ih.behind _).behind [_]
  | ifElse _ _ _ _ _ ih ih' => exact ((ih.append ih').behind _).behind [_]
  | forEach _ _ _ _ _ _ _ ih => exact (((ih.behind [_]).behind _).behind _).behind [_, _]
  | define ht hw hps _ hbody he ih =>
    exact ih.define ht.isNamed hw.1 hps hbody (Token.isWord_of_isNamed he)

/-- If no name is spelled like the word that opens definitions, the tokens announce nothing else. -/
theorem Spells.announced_eq {tree : Tree} (h : Spells fits ts tree) (hnames : ∀ name ∈ tree.names, fold name ≠ "TO")
    {last : Token} (hlast : last.isWord = false) : Arity.announced (ts ++ [last]) = tree.definitions := by
  have hsub : tree.definitions.Sublist (Arity.announced (ts ++ [last])) := by
    simpa [Arity.announced] using h.announces [last]
  -- Each announcement needs its own word, and there are no more of these words than definitions.
  have hwords := h.tally.words_of_unnamed (.inl rfl) hnames
  have hlength := Arity.length_announced (ts ++ [last])
  rw [List.countP_append, hwords, List.countP_singleton] at hlength
  simp only [Token.isNamed, hlast] at hlength
  exact (hsub.eq_of_length_le (by simpa using hlength)).symm

/-- Before an accepted program is read, its reader knows the procedures that the program defines, each with the
parameters of its first definition, and the others from the seed, whose names are folded, if no name in the program is
spelled like the word that opens definitions. -/
theorem definitions_found_before_reading {source : String} {seed : List (String × Nat)} {p : Program} {r : Reader}
    (h : readProgram (tokenize source) seed = .ok p r) (hnames : ∀ name ∈ Stmt.allNames p, fold name ≠ "TO")
    (key : String) :
    (Reader.start (tokenize source) seed).arities.get? key =
      (((Stmt.allDefinitions p).find? fun d => fold d.1 == key).map Prod.snd).or
        ((seed.reverse.find? fun d => fold d.1 == key).map Prod.snd) := by
  have hspells := spells_of_readProgram (Reader.start_behind_free source seed) h
  have hannounced : Arity.announced (tokenize source) = Stmt.allDefinitions p := by
    rw [(tokenize_eq source).1]
    exact hspells.announced_eq hnames rfl
  rw [← hannounced, ← Table.get?_ofList]
  exact Table.get?_foldr _ (.ofList seed) key

theorem definitions_found_before_reading_call :
    ∃ p r, readProgram (tokenize "f :a TO F :x END") [("poly", 1), ("f", 0)] = .ok p r ∧
      (Reader.start (tokenize "f :a TO F :x END") [("poly", 1), ("f", 0)]).arities.get? "F" = some 1 ∧
      (Reader.start (tokenize "f :a TO F :x END") [("poly", 1), ("f", 0)]).arities.get? "POLY" = some 1 ∧
      (Reader.start (tokenize "f :a TO F :x END") [("poly", 1), ("f", 0)]).arities.get? "poly" = none := by
  have hnames : fold "a" ≠ "TO" ∧ fold "x" ≠ "TO" := by decide +kernel
  have hfold : fold "F" = "F" ∧ fold "f" = "F" ∧ fold "poly" = "POLY" := by decide +kernel
  have h : readProgram (tokenize "f :a TO F :x END") [("poly", 1), ("f", 0)] = .ok
      [.call ⟨0, 4⟩ "f" [.thing ⟨2, 4⟩ "a"], .define ⟨5, 16⟩ "F" ["x"] []]
      ⟨[], .finishAt 16, ⟨13, 16⟩, .ofList [("POLY", 1), ("F", 1)]⟩ := by cbv
  have hfound := definitions_found_before_reading h (by simpa [Stmt.allNames, Stmt.names, Expr.allNames, Expr.names])
  refine ⟨_, _, h, ?_⟩
  simp only [hfound]
  simp [Stmt.allDefinitions, Stmt.definitions, hfold]

/-- A variable with the name of that word makes the word behind it a procedure. -/
theorem variable_found_as_definition :
    ∃ p r, readProgram (tokenize "MAKE \"a :TO star") [] = .ok p r ∧ Stmt.allDefinitions p = [] ∧
      (Reader.start (tokenize "MAKE \"a :TO star") []).arities.get? "STAR" = some 0 := by
  have hstar : (Reader.start (tokenize "MAKE \"a :TO star") []).arities.get? "STAR" = some 0 := by
    decide +kernel
  have h : readProgram (tokenize "MAKE \"a :TO star") [] = .ok
      [.make ⟨0, 11⟩ "a" (.thing ⟨8, 11⟩ "TO"), .call ⟨12, 16⟩ "star" []]
      ⟨[], .finishAt 16, ⟨12, 16⟩, .ofList [("STAR", 0)]⟩ := by cbv
  exact ⟨_, _, h, rfl, hstar⟩

/-! ### Open definitions and brackets -/

namespace Repl

def count (c : Int32 × Int32) (t : Token) : Int32 × Int32 :=
  if t.isMark .leftBracket then (c.1, c.2 + 1)
  else if t.isMark .rightBracket then (c.1, c.2 - 1)
  else if t.isNamed "TO" then (c.1 + 1, c.2)
  else if t.isNamed "END" then (c.1 - 1, c.2)
  else c

/-- A word that is not at its limits goes up and down by one. -/
theorem toInt_step {n : Int32} (h : n.toInt.natAbs + 1 < 2 ^ 31) :
    (n + 1).toInt = n.toInt + 1 ∧ (n - 1).toInt = n.toInt - 1 := by
  have hone : (1 : Int32).toInt = 1 := rfl
  rw [Int32.toInt_add, Int32.toInt_sub, hone]
  exact ⟨Int.bmod_eq_of_le (by omega) (by omega), Int.bmod_eq_of_le (by omega) (by omega)⟩

theorem toInt_count {c : Int32 × Int32} (hdefinitions : c.1.toInt.natAbs + 1 < 2 ^ 31)
    (hbrackets : c.2.toInt.natAbs + 1 < 2 ^ 31) (t : Token) :
    (count c t).1.toInt = c.1.toInt + definitionWeight t ∧ (count c t).2.toInt = c.2.toInt + bracketWeight t := by
  obtain ⟨hup, hdown⟩ := toInt_step hdefinitions
  obtain ⟨hup', hdown'⟩ := toInt_step hbrackets
  have hunnamed : ∀ m name, t.isMark m = true → t.isNamed name = false := by
    intro m name hm
    simp [Token.isNamed, Token.isWord_of_isMark hm]
  unfold count definitionWeight bracketWeight
  by_cases hleft : t.isMark .leftBracket = true
  · simp [hleft, hunnamed _ _ hleft, hup']
  · by_cases hright : t.isMark .rightBracket = true
    · simp [hright, hleft, hunnamed _ _ hright, hdown', Int.sub_eq_add_neg]
    · by_cases hto : t.isNamed "TO" = true
      · simp [hleft, hright, hto, hup]
      · by_cases hend : t.isNamed "END" = true <;> simp [hleft, hright, hto, hend, hdown, Int.sub_eq_add_neg]

theorem toInt_counts {tokens : List Token} {c : Int32 × Int32} {k : Nat} (hk : k + tokens.length < 2 ^ 31)
    (hdefinitions : c.1.toInt.natAbs ≤ k) (hbrackets : c.2.toInt.natAbs ≤ k) :
    (tokens.foldl count c).1.toInt = c.1.toInt + openDefinitions tokens ∧
      (tokens.foldl count c).2.toInt = c.2.toInt + openBrackets tokens := by
  induction tokens generalizing c k with
  | nil => simp [openDefinitions, openBrackets]
  | cons t tokens ih =>
    rw [List.length_cons] at hk
    obtain ⟨hd, hb⟩ := toInt_count (c := c) (by omega) (by omega) t
    have hweights : (definitionWeight t).natAbs ≤ 1 ∧ (bracketWeight t).natAbs ≤ 1 := by
      unfold definitionWeight bracketWeight
      constructor <;> split_ifs <;> simp
    obtain ⟨hd', hb'⟩ := ih (c := count c t) (k := k + 1) (by omega) (by omega) (by omega)
    rw [List.foldl_cons, hd', hb', hd, hb, Int.add_assoc, Int.add_assoc]
    exact ⟨rfl, rfl⟩

/-- Counting in machine words gives the same answer for every text with less than 2³¹ tokens. -/
theorem isIncomplete_eq_counts {source : String} (h : (tokenize source).length < 2 ^ 31) :
    isIncomplete source = (decide (0 < ((tokenize source).foldl count (0, 0)).1) ||
      decide (0 < ((tokenize source).foldl count (0, 0)).2)) := by
  obtain ⟨hd, hb⟩ := toInt_counts (c := (0, 0)) (k := 0) (by rwa [Nat.zero_add]) (by simp) (by simp)
  simp [isIncomplete, Int32.lt_iff_toInt_lt, hd, hb]

end Repl

section
variable {source : String} {known : List (String × Nat)}

/-- An entry is complete if its brackets and definitions are closed up to its last token. -/
theorem Repl.isIncomplete_iff (source : String) : isIncomplete source = true ↔
    0 < openDefinitions (tokensIn source) ∨ 0 < openBrackets (tokensIn source) := by
  have hdefinition : openDefinitions [.finishAt source.utf8ByteSize] = 0 := rfl
  have hbracket : openBrackets [.finishAt source.utf8ByteSize] = 0 := rfl
  simp [isIncomplete, (tokenize_eq source).1, hdefinition, hbracket]

theorem Token.isFinish_of_describe {found : Token} (h : found.describe = "end of input") : found.isFinish = true := by
  by_contra hinner
  have hlist := congrArg String.toList h
  simp [describe, hinner] at hlist

/-- At the end of a text, all that is read so far is the whole text. -/
theorem awaits_of_readProgram {f : Fault} {r : Reader} {expected : String}
    (h : readProgram (tokenize source) known = .error (.fault f) r)
    (hf : f.cause = .unexpected expected "end of input") : Awaits (tokensIn source) expected := by
  obtain ⟨read, htext, hbreaks⟩ := breaks_of_readProgram (Reader.start_behind_free source known) h
  cases hbreaks with
  | fault _ hawaits =>
    obtain ⟨rfl, hfound⟩ := Cause.unexpected.inj hf
    obtain ⟨hrest, hawaits⟩ := hawaits (Token.isFinish_of_describe hfound)
    have hread : read = tokensIn source := by simpa [hrest] using htext
    exact hread ▸ hawaits

/-- An accepted text is an entry of its own unless it has more names spelled like the word that opens definitions
than names spelled like the word that closes them. A text that breaks off where a bracket would close goes on, and so
does one that breaks off where a definition would end, unless a name in it is spelled like that end. -/
theorem isIncomplete_of_readProgram (source : String) (known : List (String × Nat)) :
    (∀ p r, readProgram (tokenize source) known = .ok p r → (isIncomplete source = true ↔
      ((Stmt.allNames p).map fold).count "END" < ((Stmt.allNames p).map fold).count "TO")) ∧
    (∀ f r, readProgram (tokenize source) known = .error (.fault f) r →
      f.cause = .unexpected "`]`" "end of input" → isIncomplete source = true) ∧
    (∀ f r, readProgram (tokenize source) known = .error (.fault f) r →
      f.cause = .unexpected "END" "end of input" → EndFree (tokensIn source) → isIncomplete source = true) := by
  refine ⟨fun p r h => ?_, fun f r h hf => ?_, fun f r h hf hfree => ?_⟩
  · have htally := (spells_of_readProgram (Reader.start_behind_free source known) h).tally
    have hto := htally.words "TO" (.inl rfl)
    have hend := htally.words "END" (.inr rfl)
    simp only [Tree.names] at hto hend
    rw [isIncomplete_iff, openDefinitions_eq, htally.brackets, hto, hend]
    omega
  · exact (isIncomplete_iff source).mpr (.inr ((awaits_of_readProgram h hf).bracket rfl))
  · exact (isIncomplete_iff source).mpr (.inl ((awaits_of_readProgram h hf).definition rfl hfree))

end

set_option maxRecDepth 4096 in
theorem isIncomplete_of_readProgram_entries :
    (∃ p r, readProgram (tokenize "LOCAL [TO END]") [] = .ok p r ∧ isIncomplete "LOCAL [TO END]" = false) ∧
    (∃ f r, readProgram (tokenize "PRINT [") [] = .error (.fault f) r ∧
      f.cause = .unexpected "`]`" "end of input" ∧ isIncomplete "PRINT [" = true) ∧
    (∃ f r, readProgram (tokenize "TO F") [] = .error (.fault f) r ∧
      f.cause = .unexpected "END" "end of input" ∧ EndFree (tokensIn "TO F") ∧ isIncomplete "TO F" = true) := by
  have hfold : fold "TO" = "TO" ∧ fold "END" = "END" ∧ fold "F" = "F" := by decide +kernel
  have htokens : tokensIn "TO F" = [⟨.word, "TO", ⟨0, 2⟩⟩, ⟨.word, "F", ⟨3, 4⟩⟩] := by cbv
  have hfree : EndFree (tokensIn "TO F") := by
    rintro name ⟨before, w, after, hts, -, -, rfl⟩
    have hmem : w ∈ tokensIn "TO F" := by simp [hts]
    simp only [htokens, List.mem_cons, List.not_mem_nil, or_false] at hmem
    rcases hmem with rfl | rfl <;> simp [hfold]
  have hlocals : readProgram (tokenize "LOCAL [TO END]") [] =
      .ok [.declare ⟨0, 14⟩ ["TO", "END"]] ⟨[], .finishAt 14, ⟨13, 14⟩, .ofList [("END", 0)]⟩ := by cbv
  have hlist : readProgram (tokenize "PRINT [") [] =
      .error (.fault ⟨.unexpected "`]`" "end of input", some ⟨7, 7⟩⟩) ⟨[], .finishAt 7, ⟨6, 7⟩, {}⟩ := by cbv
  have hdefine : readProgram (tokenize "TO F") [] =
      .error (.fault ⟨.unexpected "END" "end of input", some ⟨4, 4⟩⟩)
        ⟨[], .finishAt 4, ⟨3, 4⟩, .ofList [("F", 0)]⟩ := by cbv
  refine ⟨⟨_, _, hlocals, ?_⟩, ⟨_, _, hlist, rfl, (isIncomplete_of_readProgram _ _).2.1 _ _ hlist rfl⟩,
    ⟨_, _, hdefine, rfl, hfree, (isIncomplete_of_readProgram _ _).2.2 _ _ hdefine rfl hfree⟩⟩
  have hcomplete := (isIncomplete_of_readProgram _ _).1 _ _ hlocals
  simpa [Stmt.allNames, Stmt.names, hfold] using hcomplete

set_option maxRecDepth 4096 in
/-- Names spelled like those words mislead the count both ways: an accepted text would go on, and an open definition
would not. -/
theorem names_mislead_isIncomplete :
    (∃ p r, readProgram (tokenize "MAKE \"TO []") [] = .ok p r ∧ isIncomplete "MAKE \"TO []" = true) ∧
    (∃ f r, readProgram (tokenize "TO F PRINT :END") [] = .error (.fault f) r ∧
      f.cause = .unexpected "END" "end of input" ∧ isIncomplete "TO F PRINT :END" = false) := by
  have hopen : isIncomplete "MAKE \"TO []" = true := by decide +kernel
  have hclosed : isIncomplete "TO F PRINT :END" = false := by decide +kernel
  have hmake : readProgram (tokenize "MAKE \"TO []") [] =
      .ok [.make ⟨0, 11⟩ "TO" (.list ⟨9, 11⟩ [])] ⟨[], .finishAt 11, ⟨10, 11⟩, {}⟩ := by cbv
  have hdefine : readProgram (tokenize "TO F PRINT :END") [] =
      .error (.fault ⟨.unexpected "END" "end of input", some ⟨15, 15⟩⟩)
        ⟨[], .finishAt 15, ⟨12, 15⟩, .ofList [("F", 0)]⟩ := by cbv
  exact ⟨⟨_, _, hmake, hopen⟩, _, _, hdefine, rfl, hclosed⟩

end Logo
