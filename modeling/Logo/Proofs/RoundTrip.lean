import Logo.Proofs.Reads.Expr

/-! Reading undoes writing: the tokens of a written program are read as this program. It is shown first for tokens
without places, where the trees are the very same, and then for all tokens, where they are the same up to places. -/
namespace Logo

theorem Table.put_of_lookup {α : Type} {key : String} {a : α} {entries : List (String × α)}
    (h : entries.lookup key = some a) : put key a entries = entries := by
  induction entries with
  | nil => cases h
  | cons p rest ih =>
    obtain ⟨k, b⟩ := p
    rw [lookup_cons] at h
    by_cases hk : k = key
    · rw [if_pos hk.symm] at h
      cases h
      rw [put, if_pos hk, hk]
    · rw [if_neg (Ne.symm hk)] at h
      rw [put, if_neg hk, ih h]

/-- Binding a name to what it is bound to changes nothing. -/
theorem Table.insert_of_find? {α : Type} {t : Table α} {name : String} {a : α} (h : t.find? name = some a) :
    t.insert name a = t :=
  ext_entries (put_of_lookup h)

theorem Stmt.length_written_of_mem (l : Layout) {s : Stmt} {body : List Stmt} (h : s ∈ body) :
    (s.written l).length ≤ (Stmt.writtenAll l body).length := by
  induction body with
  | nil => cases h
  | cons r rest ih =>
    rw [Stmt.writtenAll, List.length_append]
    rcases List.mem_cons.mp h with rfl | hrest
    · omega
    · have hle := ih hrest
      omega

theorem Stmt.length_le_writtenAll (l : Layout) {known : String → Option Nat} {body : List Stmt}
    (h : Stmt.AllWellFormed known body) :
    body.length ≤ (Stmt.writtenAll l body).length := by
  induction body with
  | nil => exact Nat.le_refl _
  | cons s rest ih =>
    obtain ⟨name, ts, hwritten, _⟩ := Stmt.written_head l h.1
    have hle := ih h.2
    rw [Stmt.writtenAll, List.length_append, hwritten, List.length_cons, List.length_cons]
    omega

theorem Stmt.wellFormed_of_mem {known : String → Option Nat} {s : Stmt} {body : List Stmt}
    (h : Stmt.AllWellFormed known body) (hs : s ∈ body) : s.WellFormed known := by
  induction body with
  | nil => cases hs
  | cons r rest ih =>
    rcases List.mem_cons.mp hs with rfl | hrest
    · exact h.1
    · exact ih h.2 hrest

namespace Grammar
open Parse

section
variable {l : Layout} {finish : Token} {known : Table Nat} {ts us : List Token} {t : Token} {s : Stmt}
  {fit : Token → Prop} {n : Nat}

theorem endsInputs_word (name : String) : endsInputs (.word name) =
    (isKeyword name || ((Command.ofWord? name).isSome && (Query.ofWord? name).isNone)) := rfl

/-- The token that an expression starts with can start an input. -/
theorem written_starts {e : Expr} (he : e.WellFormed known.find?) :
    ∃ t ts, e.written l = t :: ts ∧ endsInputs t = false := by
  cases e with
  | unary span op operand =>
    cases op with
    | not =>
      refine ⟨.word UnaryOp.not.sign, _, rfl, ?_⟩
      rw [endsInputs_word, isKeyword, Keyword.ofWord?, Command.ofWord?, Query.ofWord?, UnaryOp.not.fold_sign]
      rfl
    | _ => exact ⟨_, _, rfl, rfl⟩
  | operation span op args =>
    refine ⟨_, _, rfl, ?_⟩
    rw [endsInputs_word, isKeyword, op.not_keyword, op.not_command]
    rfl
  | traverse span t name items =>
    refine ⟨_, _, rfl, ?_⟩
    rw [endsInputs_word, isKeyword, t.not_keyword, t.not_command]
    rfl
  | query span q =>
    refine ⟨_, _, rfl, ?_⟩
    rw [endsInputs_word, isKeyword, q.not_keyword, q.ofWord?_self]
    exact Bool.and_false _
  | call span name args =>
    have hcommand : Command.ofWord? name = none := he.1.none.2.1
    refine ⟨_, _, rfl, ?_⟩
    rw [endsInputs_word, he.1.not_keyword, hcommand]
    rfl
  | _ => exact ⟨_, _, rfl, rfl⟩

section
variable {e : Expr} (he : e.WellFormed known.find?) (hn : 8 * (l.input (e.written l)).length + 8 ≤ n)
include he hn

/-- The one input behind a keyword. -/
theorem behind_reads : Reads finish known (expr n) (l.input (e.written l)) (e.rename .placeless) Stops := by
  have hback : ReadsBack l finish known e := expr_readsBack e he
  unfold Layout.input at hn ⊢
  split
  · rename_i hwrap
    rw [if_pos hwrap, Layout.length_parens] at hn
    obtain ⟨n, rfl⟩ : ∃ k, n = k + 5 := ⟨n - 5, by omega⟩
    exact expr_parens l (hback n (by omega))
  · rename_i hbare
    rw [if_neg hbare] at hn
    exact hback n hn

theorem behind_input_reads (owner : String) :
    Reads finish known (input (expr n) owner) (l.input (e.written l)) (e.rename .placeless) Stops := by
  have hreads : Reads finish known (expr n) (l.input (e.written l)) (e.rename .placeless) Stops := behind_reads he hn
  have hstart : ∃ t ts, l.input (e.written l) = t :: ts ∧ endsInputs t = false := by
    unfold Layout.input
    split
    · exact ⟨_, _, rfl, rfl⟩
    · exact written_starts he
  obtain ⟨t, ts, hwritten, ht⟩ := hstart
  rw [hwritten] at hreads ⊢
  exact input_reads ht hreads

end

/-! Statements that start with a keyword. -/

theorem isNamed_end {name : String} (h : Opens name) : (Token.word name).isNamed "END" = false := by
  refine beq_eq_false_iff_ne.mpr fun (hend : fold name = "END") => h ?_
  rw [hend]
  decide

theorem opens_stops {name : String} (h : Opens name) : Stops (.word name) := by
  refine stops_word fun hmem => h ?_
  simp only [List.mem_cons, List.not_mem_nil, or_false] at hmem ⊢
  rcases hmem with hand | hor | hnot | hmod
  · exact .inl hand
  · exact .inr (.inl hor)
  · exact .inr (.inr (.inl hnot))
  · exact .inr (.inr (.inr (.inl hmod)))

theorem keyword_reads {k : Keyword} (hk : k ≠ .finish)
    (h : Reads finish known (keyworded (expr n) (stmt n) n .none k) ts s fit) :
    Reads finish known (stmt (n + 1)) (.word k.name :: ts) s fit := by
  have hend := isNamed_end (Keyword.opens hk)
  have hword : Keyword.ofWord? (Token.word k.name).text = some k := k.ofWord?_self
  refine .peek ?_
  rw [hend, hword]
  exact (Reads.skip rfl).seq h

/-- The parameters of a definition, behind those already read. -/
theorem parameters_read {names read : List String} (hnames : ((read ++ names).map fold).Nodup)
    (hn : names.length < n) :
    Reads finish known (parameters n read) (l.params names) (read ++ names) fun t => t.isMark .colon = false := by
  induction names generalizing n read with
  | nil =>
    obtain ⟨n, rfl⟩ : ∃ k, n = k + 1 := ⟨n - 1, by simp at hn; omega⟩
    rw [List.append_nil]
    refine .peekEnd fun t ht => ?_
    rw [ht]
    rfl
  | cons name rest ih =>
    obtain ⟨n, rfl⟩ : ∃ k, n = k + 1 := ⟨n - 1, by simp at hn; omega⟩
    have hrest : Reads finish known (parameters n (read ++ [name])) (l.params rest) (read ++ [name] ++ rest)
        fun t => t.isMark .colon = false :=
      ih (by simpa using hnames) (by simpa using hn)
    have hfresh : (read.any fun p => fold p == fold name) = false := by
      rw [List.map_append, List.nodup_append] at hnames
      refine List.any_eq_false.mpr fun p hp heq => ?_
      exact hnames.2.2 _ (List.mem_map_of_mem hp) (fold name) (by simp) (beq_iff_eq.mp heq)
    rw [List.append_assoc] at hrest
    refine .peek ((Reads.skip rfl).seq ((Reads.advance (t := .word name) rfl).seq ?_))
    change Reads _ _ (if (read.any fun p => fold p == fold name) then _ else _) _ _ _
    rw [hfresh]
    exact hrest

theorem modify_reads {name : String} {count : Nat} (h : known.find? name = some count) :
    Reads finish known (modify fun r => { r with arities := r.arities.insert name count }) [] () fit := by
  intro more _
  change EStateM.Result.ok () (Reader.mk more finish .none (known.insert name count)) = _
  rw [Table.insert_of_find? h]
  rfl

theorem names_read {names : List String} (hn : names.length < n) :
    Reads finish known (bracketedNames n) (names.map .word ++ [l.mark .rightBracket]) names fit := by
  induction names generalizing n with
  | nil =>
    obtain ⟨n, rfl⟩ : ∃ k, n = k + 1 := ⟨n - 1, by simp at hn; omega⟩
    exact .peek ((Reads.skip rfl).seq .pure)
  | cons name rest ih =>
    obtain ⟨n, rfl⟩ : ∃ k, n = k + 1 := ⟨n - 1, by simp at hn; omega⟩
    have hrest := ih (n := n) (by simpa using hn)
    refine .peek (Reads.skipNoMark.bindCons ?_ rfl)
    exact (Reads.expectWord (t := .word name) rfl rfl).seq (hrest.bindLast .pure)

end

section
variable (l : Layout) (finish : Token) (known : Table Nat)

def StmtReadsBack (s : Stmt) : Prop :=
  ∀ n, 8 * (s.written l).length + 16 ≤ n → Reads finish known (stmt n) (s.written l) (s.rename .placeless) Stops

end

section
variable {l : Layout} {finish : Token} {known : Table Nat} {n : Nat} {fit : Token → Prop}

section
variable {body : List Stmt} (hbody : Stmt.AllWellFormed known.find? body)
  (h : ∀ s ∈ body, StmtReadsBack l finish known s) (hn : 8 * (Stmt.writtenAll l body).length + 16 ≤ n)
include hbody h hn

theorem each_stmt : Reads.Each finish known (stmt n) (fun s => s.written l) (Stmt.rename .placeless) Stops body := by
  intro s hs
  obtain ⟨name, ts, hwritten, hname⟩ := Stmt.written_head l (Stmt.wellFormed_of_mem hbody hs)
  have hlength := Stmt.length_written_of_mem l hs
  exact ⟨h s hs n (by omega), _, _, hwritten, opens_stops hname⟩

/-- Statements up to a token that no statement starts with. -/
theorem body_reads {closes : Token → Bool} {closing : String} {t : Token} (ht : t.span = .none)
    (hcloses : closes t = true) (hstops : Stops t) (hopen : ∀ name, Opens name → closes (.word name) = false) :
    Reads finish known ((stmt n).upTo closes closing n) (Stmt.writtenAll l body ++ [t])
      (body.map (Stmt.rename .placeless)) fit := by
  have hcount := Stmt.length_le_writtenAll l hbody
  have heach : Reads.Each finish known (stmt n) (fun s => s.written l) (Stmt.rename .placeless) Stops body :=
    each_stmt hbody h hn
  rw [Stmt.writtenAll_eq_flatMap]
  refine .upTo heach (fun s hs u us hwritten => ?_) ht hcloses hstops (by omega)
  obtain ⟨name, ts, hword, hname⟩ := Stmt.written_head l (Stmt.wellFormed_of_mem hbody hs)
  have hu : u = .word name := (List.cons.inj (hwritten.symm.trans hword)).1
  rw [hu]
  exact ⟨hopen name hname, rfl⟩

theorem block_reads : Reads finish known (block (stmt n) n) (l.brackets (Stmt.writtenAll l body))
    (body.map (Stmt.rename .placeless)) fit :=
  (Reads.expectMark rfl rfl).seq (body_reads hbody h hn rfl rfl (stops_mark rfl rfl) fun _ _ => rfl)

end

theorem command_readsBack (span : Span) {c : Command} {args : List Expr} (hargs : args.length = c.arity)
    (h : Expr.AllWellFormed known.find? args) : StmtReadsBack l finish known (.command span c args) := by
  intro n hn
  rw [Stmt.written, List.length_cons] at hn
  obtain ⟨n, rfl⟩ : ∃ k, n = k + 6 := ⟨n - 6, by omega⟩
  have hinputs : Reads finish known ((input (expr (n + 5)) c.name).times c.arity) (Expr.writtenAll l args)
      (args.map (Expr.rename .placeless)) Stops := by
    rw [← hargs, Expr.writtenAll_eq_flatMap]
    exact .times (each_input c.name (exprs_readBack args h) (by omega))
  have hend := isNamed_end c.opens
  have hkeyword : Keyword.ofWord? (Token.word c.name).text = none := c.not_keyword
  have hword : Command.ofWord? (Token.word c.name).text = some c := c.ofWord?_self
  refine .peek ?_
  rw [hend, hkeyword, hword]
  exact (Reads.skip rfl).seq (hinputs.bindLast (Reads.spanFrom.bindLast .pure))

theorem callStmt_readsBack (span : Span) {name : String} {args : List Expr} (hname : Callable name)
    (hargs : known.find? name = some args.length) (h : Expr.AllWellFormed known.find? args) :
    StmtReadsBack l finish known (.call span name args) := by
  intro n hn
  rw [Stmt.written, List.length_cons] at hn
  obtain ⟨n, rfl⟩ : ∃ k, n = k + 6 := ⟨n - 6, by omega⟩
  have hcount := Expr.length_le_writtenAll l args
  have hinputs : Reads finish known (arguments (expr (n + 5)) (n + 5) (some args.length)) (Expr.writtenAll l args)
      (args.map (Expr.rename .placeless)) Stops := by
    rw [Expr.writtenAll_eq_flatMap]
    refine arguments_read (each_argument (exprs_readBack args h) (by omega)) (fun e _ t ts ht => ?_) (by omega)
    exact (List.cons.inj ht).1 ▸ rfl
  have hend := isNamed_end hname.opens
  have hknown : known.find? (Token.word name).text = some args.length := hargs
  obtain ⟨hkeyword, hcommand, hoperation, htraversal, hquery⟩ := hname.none
  refine .peek ?_
  rw [hend, hkeyword, hcommand, hoperation, htraversal, hquery]
  refine .get fun r hr => ?_
  rw [hr, hknown]
  exact (Reads.skip rfl).seq (hinputs.bindLast (Reads.spanFrom.bindLast .pure))

theorem expression_reads {name : String} {ts : List Token} {e : Expr} (hname : Opens name)
    (hkeyword : Keyword.ofWord? (Token.word name).text = none)
    (hcommand : Command.ofWord? (Token.word name).text = none)
    (hbuiltin : ((Operation.ofWord? (Token.word name).text).isSome ||
      (Traversal.ofWord? (Token.word name).text).isSome || (Query.ofWord? (Token.word name).text).isSome) = true)
    (h : Reads finish known (expr n) (.word name :: ts) e fit) :
    Reads finish known (stmt (n + 1)) (.word name :: ts) (.expression e) fit := by
  have hend := isNamed_end hname
  refine .peek ?_
  rw [hend, hkeyword, hcommand, hbuiltin]
  exact h.bindLast .pure

theorem expression_readsBack {e : Expr} (halone : e.StandsAlone) (he : e.WellFormed known.find?) :
    StmtReadsBack l finish known (.expression e) := by
  intro n hn
  rw [Stmt.written] at hn
  obtain ⟨n, rfl⟩ : ∃ k, n = k + 1 := ⟨n - 1, by omega⟩
  have hback : Reads finish known (expr n) (e.written l) (e.rename .placeless) Stops :=
    expr_readsBack e he n (by omega)
  cases e with
  | operation span op args =>
    refine expression_reads op.opens ?_ ?_ ?_ hback
    · exact op.not_keyword
    · exact op.not_command
    · exact congrArg (fun found => found.isSome || _ || _) op.ofWord?_self
  | traverse span t name items =>
    refine expression_reads t.opens ?_ ?_ ?_ hback
    · exact t.not_keyword
    · exact t.not_command
    · change ((Operation.ofWord? t.name).isSome || (Traversal.ofWord? t.name).isSome || _) = true
      rw [t.ofWord?_self, t.not_operation]
      rfl
  | query span q =>
    refine expression_reads q.opens ?_ ?_ ?_ hback
    · exact q.not_keyword
    · exact Query.not_command halone
    · change ((Operation.ofWord? q.name).isSome || (Traversal.ofWord? q.name).isSome ||
        (Query.ofWord? q.name).isSome) = true
      rw [q.ofWord?_self, q.not_operation, q.not_traversal]
      rfl
  | _ => exact halone.elim

/-- A keyword with one expression and a block. -/
theorem guarded_readsBack {k : Keyword} (hk : k ≠ .finish) {make : Span → Expr → List Stmt → Stmt} {e : Expr}
    {body : List Stmt} (he : e.WellFormed known.find?) (hbody : Stmt.AllWellFormed known.find? body)
    (h : ∀ s ∈ body, StmtReadsBack l finish known s)
    (hmake : ∀ n, keyworded (expr n) (stmt n) n .none k = do
      let value ← expr n
      let body ← block (stmt n) n
      return make (← spanFrom .none) value body)
    {s : Stmt} (hs : s.rename .placeless = make .none (e.rename .placeless) (Stmt.renameAll .placeless body))
    (hwritten : s.written l = .word k.name :: (l.input (e.written l) ++ l.brackets (Stmt.writtenAll l body))) :
    StmtReadsBack l finish known s := by
  intro n hn
  simp only [hwritten, List.length_cons, List.length_append, Layout.length_brackets] at hn
  obtain ⟨n, rfl⟩ : ∃ k, n = k + 1 := ⟨n - 1, by omega⟩
  rw [hs, hwritten, Stmt.renameAll_eq_map]
  refine keyword_reads hk ?_
  rw [hmake]
  refine (behind_reads he (by omega)).bindCons ?_ (stops_mark rfl rfl)
  exact (block_reads hbody h (by omega)).bindLast (Reads.spanFrom.bindLast .pure)

/-- A keyword with one input that may be missing. -/
theorem told_readsBack {k : Keyword} (hk : k ≠ .finish) {make : Span → Expr → Stmt} {e : Expr}
    (he : e.WellFormed known.find?)
    (hmake : ∀ n, keyworded (expr n) (stmt n) n .none k = do
      let value ← input (expr n) k.name
      return make (← spanFrom .none) value)
    {s : Stmt} (hs : s.rename .placeless = make .none (e.rename .placeless))
    (hwritten : s.written l = .word k.name :: l.input (e.written l)) : StmtReadsBack l finish known s := by
  intro n hn
  rw [hwritten, List.length_cons] at hn
  obtain ⟨n, rfl⟩ : ∃ k, n = k + 1 := ⟨n - 1, by omega⟩
  rw [hs, hwritten]
  refine keyword_reads hk ?_
  rw [hmake]
  exact (behind_input_reads he (by omega) k.name).bindLast (Reads.spanFrom.bindLast .pure)

theorem ifElse_readsBack (span : Span) {cond : Expr} {yes no : List Stmt} (hcond : cond.WellFormed known.find?)
    (hyes : Stmt.AllWellFormed known.find? yes) (hno : Stmt.AllWellFormed known.find? no)
    (h : ∀ s ∈ yes, StmtReadsBack l finish known s) (h' : ∀ s ∈ no, StmtReadsBack l finish known s) :
    StmtReadsBack l finish known (.ifElse span cond yes no) := by
  intro n hn
  simp only [Stmt.written, List.length_cons, List.length_append, Layout.length_brackets] at hn
  obtain ⟨n, rfl⟩ : ∃ k, n = k + 1 := ⟨n - 1, by omega⟩
  rw [Stmt.rename, Stmt.renameAll_eq_map, Stmt.renameAll_eq_map, Stmt.written, List.append_assoc]
  refine keyword_reads (k := .ifElse) (by decide) ((behind_reads hcond (by omega)).bindCons ?_ (stops_mark rfl rfl))
  refine (block_reads hyes h (by omega)).seq ((block_reads hno h' (by omega)).bindLast ?_)
  exact Reads.spanFrom.bindLast .pure

theorem forEach_readsBack (span : Span) (var : String) {low high : Expr} {step? : Option Expr} {body : List Stmt}
    (hbounds : Expr.AllWellFormed known.find? (low :: high :: step?.toList))
    (hbody : Stmt.AllWellFormed known.find? body) (h : ∀ s ∈ body, StmtReadsBack l finish known s) :
    StmtReadsBack l finish known (.forEach span var low high step? body) := by
  intro n hn
  simp only [Stmt.written, List.length_cons, List.length_append, Layout.length_brackets] at hn
  obtain ⟨n, rfl⟩ : ∃ k, n = k + 6 := ⟨n - 6, by omega⟩
  have hback : ∀ e ∈ low :: high :: step?.toList, ReadsBack l finish known e := exprs_readBack _ hbounds
  have hinput := each_input (n := n) "FOR" hback (by omega)
  have hexpr := each_argument (n := n) hback (by omega)
  have hlow := (hinput low (by simp)).1
  have hhigh := (hinput high (by simp)).1
  -- What follows the bounds is read in the same way whether or not there is a step.
  have hrest : ∀ step? : Option Expr, Reads finish known
      (do
        expectMark .rightBracket "`]`"
        let body ← block (stmt (n + 5)) (n + 5)
        return Stmt.forEach (← spanFrom .none) var (low.rename .placeless) (high.rename .placeless) step? body)
      (l.mark .rightBracket :: l.brackets (Stmt.writtenAll l body))
      (.forEach .none var (low.rename .placeless) (high.rename .placeless) step? (body.map (Stmt.rename .placeless)))
      Stops := by
    intro step?
    refine (Reads.expectMark rfl rfl).seq ((block_reads hbody h (by omega)).bindLast ?_)
    exact Reads.spanFrom.bindLast .pure
  rw [Stmt.rename, Stmt.renameAll_eq_map]
  simp only [Stmt.written, Layout.brackets, Expr.writtenAll, List.cons_append, List.append_assoc]
  refine keyword_reads (k := .forEach) (by decide) ((Reads.expectMark rfl rfl).seq ?_)
  refine Reads.skipNoMark.bindCons ((Reads.expectWord (t := .word var) rfl rfl).seq ?_) rfl
  refine hlow.bindCons ?_ (stops_mark rfl rfl)
  cases step? with
  | none => exact hhigh.bindCons (.peek (hrest none)) (stops_mark rfl rfl)
  | some step =>
    have hstep : Reads finish known (some <$> expr (n + 5)) (l.parens (step.written l)) (some (step.rename .placeless))
        Stops := (hexpr step (by simp)).1.map
    have hparen : (l.mark .leftParen).isMark .rightBracket = false := rfl
    rw [Option.toList_some, Expr.writtenAll, Expr.writtenAll, List.append_nil]
    refine hhigh.bindCons (.peek ?_) (stops_mark rfl rfl)
    rw [hparen]
    exact hstep.bindCons (hrest _) (stops_mark rfl rfl)

theorem define_readsBack (span : Span) {name : String} {params : List String} {body : List Stmt}
    (hname : Callable name) (hcount : known.find? name = some params.length) (hparams : (params.map fold).Nodup)
    (hbody : Stmt.AllWellFormed known.find? body) (h : ∀ s ∈ body, StmtReadsBack l finish known s) :
    StmtReadsBack l finish known (.define span name params body) := by
  intro n hn
  simp only [Stmt.written, List.length_cons, List.length_append] at hn
  obtain ⟨n, rfl⟩ : ∃ k, n = k + 1 := ⟨n - 1, by omega⟩
  have hlength : (l.params params).length = 2 * params.length := by
    simp [Layout.params, List.length_flatMap, Nat.mul_comm]
  have hnames : Reads finish known (parameters n []) (l.params params) params fun t => t.isMark .colon = false :=
    parameters_read (by simpa using hparams) (by omega)
  have hlegal : (!(Token.word name).isWord || isKeyword (Token.word name).text || isBuiltin (Token.word name).text) =
      false := by
    change (false || isKeyword name || isBuiltin name) = false
    rw [hname.not_keyword, hname.not_builtin]
    rfl
  have hstops : Stops (.word Keyword.finish.name) := by
    refine stops_word ?_
    rw [Keyword.finish.fold_name]
    decide
  have hend : Reads finish known ((stmt n).upTo (·.isNamed "END") "END" n)
      (Stmt.writtenAll l body ++ [.word Keyword.finish.name]) (body.map (Stmt.rename .placeless)) Stops :=
    body_reads hbody h (by omega) rfl (beq_iff_eq.mpr Keyword.finish.fold_name) hstops fun _ => isNamed_end
  have hsame : params.map Renaming.placeless.name = params := List.map_id _
  rw [Stmt.rename, Stmt.renameAll_eq_map, hsame, Stmt.written, List.append_assoc]
  refine keyword_reads (k := .define) (by decide) ((Reads.advance (t := .word name) rfl).seq ?_)
  rw [hlegal]
  refine hnames.bind (.silent (modify_reads hcount) (hend.bindLast (Reads.spanFrom.bindLast .pure))) fun more _ => ?_
  -- The parameters end where the body starts, or `END` if it is empty: with a word in both cases.
  obtain ⟨first, rest, hfirst⟩ := Stmt.writtenAll_head l hbody Keyword.finish.name more
  rw [List.append_assoc, List.singleton_append, hfirst]
  rfl

mutual

theorem stmt_readsBack : (s : Stmt) → s.WellFormed known.find? → (∀ d ∈ s.definitions, known.find? d.1 = some d.2) →
    StmtReadsBack l finish known s
  | .command span c args, h, _ => command_readsBack span h.1 h.2
  | .call span name args, h, _ => callStmt_readsBack span h.1 h.2.1 h.2.2
  | .expression e, h, _ => expression_readsBack h.1 h.2
  | .loop _ _ body, h, hdefs =>
    guarded_readsBack (k := .loop) (by decide) h.1 h.2 (stmts_readBack body h.2 hdefs) (fun _ => rfl) rfl rfl
  | .ifThen _ _ body, h, hdefs =>
    guarded_readsBack (k := .ifThen) (by decide) h.1 h.2 (stmts_readBack body h.2 hdefs) (fun _ => rfl) rfl rfl
  | .whileTrue _ _ body, h, hdefs =>
    guarded_readsBack (k := .whileTrue) (by decide) h.1 h.2 (stmts_readBack body h.2 hdefs) (fun _ => rfl) rfl rfl
  | .ifElse span cond yes no, h, hdefs =>
    have hboth := List.forall_mem_append.mp hdefs
    ifElse_readsBack span h.1 h.2.1 h.2.2 (stmts_readBack yes h.2.1 hboth.1) (stmts_readBack no h.2.2 hboth.2)
  | .forEach span var low high step? body, h, hdefs =>
    forEach_readsBack span var h.2.1 h.2.2 (stmts_readBack body h.2.2 hdefs)
  | .define span name params body, h, hdefs =>
    have hboth := List.forall_mem_cons.mp hdefs
    define_readsBack span h.1 hboth.1 h.2.1 h.2.2.2 (stmts_readBack body h.2.2.2 hboth.2)
  | .make _ name value, h, _ => by
    intro n hn
    simp only [Stmt.written, List.length_cons] at hn
    obtain ⟨n, rfl⟩ : ∃ k, n = k + 1 := ⟨n - 1, by omega⟩
    refine keyword_reads (k := .make) (by decide) ((Reads.expectMark (t := l.mark .quote) rfl rfl).seq ?_)
    refine (Reads.expectWord (t := .word name) rfl rfl).seq ((behind_reads h.2 (by omega)).bindLast ?_)
    exact Reads.spanFrom.bindLast .pure
  | .output _ _, h, _ => told_readsBack (k := .output) (by decide) h (fun _ => rfl) rfl rfl
  | .print _ _, h, _ => told_readsBack (k := .print) (by decide) h (fun _ => rfl) rfl rfl
  | .stop _, _, _ => by
    intro n hn
    obtain ⟨n, rfl⟩ : ∃ k, n = k + 1 := ⟨n - 1, by omega⟩
    exact keyword_reads (k := .stop) (by decide) .pure
  | .declare _ names, _, _ => by
    intro n hn
    simp only [Stmt.written, List.length_cons, Layout.length_brackets, List.length_map] at hn
    obtain ⟨n, rfl⟩ : ∃ k, n = k + 1 := ⟨n - 1, by omega⟩
    have hsame : names.map Renaming.placeless.name = names := List.map_id _
    rw [Stmt.rename, hsame]
    refine keyword_reads (k := .declare) (by decide) (.peek ((Reads.skip rfl).seq ?_))
    exact (names_read (by omega)).bindLast (Reads.spanFrom.bindLast .pure)

theorem stmts_readBack : (body : List Stmt) → Stmt.AllWellFormed known.find? body →
    (∀ d ∈ Stmt.allDefinitions body, known.find? d.1 = some d.2) → ∀ s ∈ body, StmtReadsBack l finish known s
  | [], _, _ => List.forall_mem_nil _
  | s :: rest, h, hdefs =>
    have hboth := List.forall_mem_append.mp hdefs
    List.forall_mem_cons.mpr ⟨stmt_readsBack s h.1 hboth.1, stmts_readBack rest h.2 hboth.2⟩

end

theorem program_reads {p : Program} (hp : Stmt.AllWellFormed known.find? p)
    (h : ∀ s ∈ p, StmtReadsBack l finish known s) (hn : 8 * (Stmt.writtenAll l p).length + 16 < n) :
    Reads finish known (program n) (Stmt.writtenAll l p) (p.map (Stmt.rename .placeless))
      fun t => t.isFinish = true := by
  induction p generalizing n with
  | nil =>
    obtain ⟨n, rfl⟩ : ∃ k, n = k + 1 := ⟨n - 1, by omega⟩
    refine .peekEnd fun t ht => ?_
    rw [ht]
    rfl
  | cons s rest ih =>
    obtain ⟨n, rfl⟩ : ∃ k, n = k + 1 := ⟨n - 1, by omega⟩
    obtain ⟨name, ts, hwritten, hname⟩ := Stmt.written_head l hp.1
    have hlength : (s.written l).length = ts.length + 1 := by rw [hwritten, List.length_cons]
    rw [Stmt.writtenAll, List.length_append] at hn
    have hrest := ih hp.2 (fun r hr => h r (by simp [hr])) (n := n) (by omega)
    have heach : Reads.Each finish known (stmt n) (fun s => s.written l) (Stmt.rename .placeless) Stops rest :=
      each_stmt hp.2 (fun r hr => h r (by simp [hr])) (by omega)
    -- Behind a statement comes the first word of the next one, or the end.
    have hboth := (h s (by simp) n (by omega)).bind (f := fun s => do return s :: (← program n)) (hrest.bindLast .pure)
      fun more hmore => by
        rw [Stmt.writtenAll_eq_flatMap]
        exact heach.next more (stops_finish hmore)
    rw [Stmt.writtenAll]
    rw [hwritten] at hboth ⊢
    exact .peek hboth

end
end Grammar

/-- The end token of a text without places has no place either. -/
theorem Reader.finish_placeless (tokens : List Token) :
    (ofTokens (tokens.map (Token.rename .placeless)) {}).finish = (ofTokens tokens {}).finish.rename .placeless := by
  cases hfind : tokens.find? Token.isFinish with
  | some t => exact finish_rename _ (List.any_eq_true.mpr (List.find?_isSome.mp (by rw [hfind]; rfl)))
  | none =>
    have hnone : (tokens.map (Token.rename .placeless)).find? Token.isFinish = none := by
      rw [List.find?_map]
      exact congrArg (Option.map _) hfind
    rw [ofTokens, ofTokens, hfind, hnone, List.getLast?_map]
    cases tokens.getLast? <;> rfl

def Inner (t : Token) : Prop := t.isFinish = false ∧ t.span = .none

theorem Layout.inner (l : Layout) : l.Admits Inner :=
  ⟨fun _ => ⟨rfl, rfl⟩, fun _ => ⟨rfl, rfl⟩, fun _ _ => ⟨rfl, rfl⟩⟩

section
variable (l : Layout) {seed : List (String × Nat)} {p : Program} {last? : Option Token}

/-- The reader of a written program stands before all of it. -/
theorem Reader.start_written (h : p.WellFormed (.ofList seed))
    (hlast : ∀ t ∈ last?, t.isFinish = true ∧ t.span = .none) :
    ∃ finish, finish.isFinish = true ∧ Reader.start (p.written l ++ last?.toList) seed =
      .before finish (Arity.collect (p.written l ++ last?.toList) (.ofList seed)) (p.written l) := by
  have hbody : Every Inner (p.written l) := Stmt.every_writtenAll l.inner ⟨rfl, rfl⟩ p h.statements
  have hnone : (p.written l).find? Token.isFinish = none := by
    refine List.find?_eq_none.mpr fun t ht => ?_
    rw [(hbody t ht).1]
    exact Bool.false_ne_true
  cases last? with
  | none =>
    have hstop : ((p.written l).getLast?.map (·.span.stop)).getD 0 = 0 := by
      cases hend : (p.written l).getLast? with
      | none => rfl
      | some t => exact congrArg Span.stop (hbody t (List.mem_of_getLast? hend)).2
    have htake : (p.written l ++ []).takeWhile (fun t => !t.isFinish) = p.written l ++ [] := by
      refine List.takeWhile_append_of_pos fun t ht => ?_
      rw [(hbody t ht).1]
      rfl
    rw [List.append_nil] at htake
    refine ⟨.finishAt 0, rfl, ?_⟩
    rw [Option.toList_none, List.append_nil, start, ofTokens, hnone, Option.getD_none, hstop, htake]
    rfl
  | some t =>
    obtain ⟨hfinish, hspan⟩ := hlast t rfl
    exact ⟨t, hfinish, Reader.start_before (fun u hu => (hbody u hu).1) hfinish hspan seed⟩

/-- A written program without places is read as it is. -/
theorem readProgram_written (h : p.WellFormed (.ofList seed))
    (hlast : ∀ t ∈ last?, t.isFinish = true ∧ t.span = .none) :
    ∃ r, readProgram (p.written l ++ last?.toList) seed = .ok (p.map (Stmt.rename .placeless)) r := by
  have hquiet : Every Quiet last?.toList := by
    intro t ht
    have hfinish := (hlast t (Option.mem_toList.mp ht)).1
    obtain ⟨kind, text, span⟩ := t
    cases kind with
    | finish => rfl
    | _ => cases hfinish
  obtain ⟨finish, hfinish, hstart⟩ := Reader.start_written l h hlast
  -- Before it starts, the reader has collected the arities that the calls were written with.
  have hknown : (Arity.collect (p.written l ++ last?.toList) (.ofList seed)).find? = p.arity? (.ofList seed) :=
    funext (Program.find?_collect l h hquiet)
  have hstatements := h.statements
  have hdefinitions : ∀ d ∈ Stmt.allDefinitions p, p.arity? (.ofList seed) d.1 = some d.2 := by
    intro d hd
    exact Program.arity?_of_mem h hd
  rw [← hknown] at hstatements hdefinitions
  have hfuel : 8 * (p.written l).length + 16 < Grammar.fuelFor (p.written l ++ last?.toList) := by
    rw [Grammar.fuelFor, List.length_append]
    omega
  have hback := Grammar.program_reads (l := l) hstatements (Grammar.stmts_readBack p hstatements hdefinitions) hfuel []
    hfinish
  rw [List.append_nil] at hback
  rw [readProgram, hstart]
  exact ⟨_, hback⟩

end

/-- Reading undoes writing. Whatever places the tokens of a written program have, and whether or not an end token
comes behind them, they are read as the program, up to places. -/
theorem readProgram_undoes_writing (l : Layout) (seed : List (String × Nat)) (p : Program)
    (h : p.WellFormed (.ofList seed))
    (tokens : List Token) (htokens : tokens.map (Token.rename .placeless) = p.written l) (last? : Option Token)
    (hlast : ∀ t ∈ last?, t.isFinish = true) :
    ∃ p' r, readProgram (tokens ++ last?.toList) seed = .ok p' r ∧
      p'.map (Stmt.rename .placeless) = p.map (Stmt.rename .placeless) := by
  have hmap : (tokens ++ last?.toList).map (Token.rename .placeless) =
      p.written l ++ (last?.map (Token.rename .placeless)).toList := by
    rw [List.map_append, htokens, Option.toList_map]
  have hlast' : ∀ t ∈ last?.map (Token.rename .placeless), t.isFinish = true ∧ t.span = .none := by
    intro t ht
    obtain ⟨u, hu, rfl⟩ := Option.map_eq_some_iff.mp ht
    exact ⟨hlast u hu, rfl⟩
  obtain ⟨r, hread⟩ := readProgram_written l h hlast'
  -- Reading goes along with forgetting places, so the tokens are read as those without places are.
  have hmatches := readProgram_renames .placeless (.refl (.ofList seed))
    (Reader.finish_placeless (tokens ++ last?.toList))
  rw [hmap, hread] at hmatches
  obtain ⟨p', r', hp', hsame, _⟩ := hmatches.of_ok
  exact ⟨p', r', hp', hsame⟩

/-- `PRINT (SQ (1)) + (2) TO Sq :n REPEAT 4 [FORWARD (:N) go (-(90))] END` -/
def squareProgram : Program :=
  [.print .none (.binary .none .add (.call .none "SQ" [.number .none 1]) (.number .none 2)),
    .define .none "Sq" ["n"]
      [.loop .none (.number .none 4)
        [.command .none .forward [.thing .none "N"], .call .none "go" [.unary .none .neg (.number .none 90)]]]]

theorem squareProgram_wellFormed : squareProgram.WellFormed (.ofList [("Go", 1)]) := by
  have hcallable : ∀ name ∈ ["Sq", "SQ", "go"], Callable name := by
    intro name hname
    simp only [List.mem_cons, List.not_mem_nil, or_false] at hname
    rcases hname with rfl | rfl | rfl <;> constructor <;>
      simp only [isKeyword, Keyword.ofWord?, isBuiltin, Command.ofWord?, Operation.ofWord?, Traversal.ofWord?,
        Query.ofWord?, fold_eq] <;> decide
  have hharmless : ∀ name ∈ ["n", "N"], Harmless name := by
    intro name hname
    simp only [List.mem_cons, List.not_mem_nil, or_false] at hname
    rcases hname with rfl | rfl <;> simp only [Harmless, fold_eq] <;> decide
  have hgo : squareProgram.arity? (.ofList [("Go", 1)]) "go" = some 1 := by
    simp only [Program.arity?, Table.find?, Table.get?_ofList, fold_eq]
    rfl
  have hsquare : squareProgram.arity? (.ofList [("Go", 1)]) "SQ" = some 1 := by
    simp only [Program.arity?, Table.find?, Table.get?_ofList, fold_eq]
    rfl
  have hmove : Stmt.WellFormed (squareProgram.arity? (.ofList [("Go", 1)]))
      (.command .none .forward [.thing .none "N"]) :=
    ⟨rfl, hharmless "N" (by simp), trivial⟩
  have hturn : Stmt.WellFormed (squareProgram.arity? (.ofList [("Go", 1)]))
      (.call .none "go" [.unary .none .neg (.number .none 90)]) :=
    ⟨hcallable "go" (by simp), hgo, trivial, trivial⟩
  have hprint : Expr.WellFormed (squareProgram.arity? (.ofList [("Go", 1)]))
      (.binary .none .add (.call .none "SQ" [.number .none 1]) (.number .none 2)) :=
    ⟨⟨hcallable "SQ" (by simp), hsquare, trivial, trivial⟩, trivial⟩
  have hparams : ∀ name ∈ ["n"], Harmless name := by
    intro name hname
    exact hharmless name (List.mem_cons.mpr (.inl (List.mem_singleton.mp hname)))
  refine ⟨List.pairwise_singleton _ _, hprint, ?_, trivial⟩
  exact ⟨hcallable "Sq" (by simp), List.pairwise_singleton _ _, hparams, ⟨trivial, hmove, hturn, trivial⟩, trivial⟩

/-- One procedure is called above its definition and in other letters, another is known from before. -/
theorem readProgram_undoes_writing_square :
    squareProgram.WellFormed (.ofList [("Go", 1)]) ∧
    ∃ p' r, readProgram (((squareProgram.written ⟨false, fun _ => ""⟩).map fun t => { t with span := ⟨3, 4⟩ }) ++
        [.finishAt 4]) [("Go", 1)] = .ok p' r ∧
      p'.map (Stmt.rename .placeless) = squareProgram.map (Stmt.rename .placeless) := by
  refine ⟨squareProgram_wellFormed, ?_⟩
  exact readProgram_undoes_writing ⟨false, fun _ => ""⟩ _ _ squareProgram_wellFormed _ rfl (some (.finishAt 4))
    fun t ht => Option.some.inj ht ▸ rfl

end Logo
