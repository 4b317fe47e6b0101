import Logo.Proofs.Blame
import Logo.Proofs.Prescan
import Logo.Proofs.RoundTrip

/-! Numbers of inputs. If no procedure is announced twice, the table of procedures does not change while a text is
read, no call has more inputs than its procedure has parameters, and a run finds just the procedures of the table. -/
namespace Logo

def AnnouncedOnce (tokens : List Token) : Prop := ((Arity.announced tokens).map fun d => fold d.1).Nodup

namespace Arity

/-- A token that is no word adds no parameter. -/
theorem parameters_append_last {last : Token} (hlast : last.isWord = false) (ts : List Token) :
    parameters (ts ++ [last]) = parameters ts := by
  fun_induction parameters ts with
  | case1 c w rest h ih => simp [parameters, h, ih]
  | case2 c w rest h => simp [parameters, h]
  | case3 ts hts =>
    cases ts with
    | nil => rfl
    | cons c ts =>
      cases ts with
      | nil => simp [parameters, hlast]
      | cons w rest => exact absurd rfl (hts c w rest)

theorem mem_announced {t w : Token} (ht : t.isNamed "TO" = true) (hw : w.isWord = true) (before more : List Token) :
    (w.text, parameters more) ∈ announced (before ++ t :: w :: more) := by
  refine (sublist_announced before (t :: w :: more)).subset ?_
  simp [announced_cons_cons, ht, hw]

theorem find?_collect_of_mem {tokens : List Token} (h : AnnouncedOnce tokens) (known : Table Nat) {d : String × Nat}
    (hd : d ∈ announced tokens) : (collect tokens known).find? d.1 = some d.2 := by
  rw [collect, find?_foldr, Table.find?_of_mem h hd]
  rfl

end Arity

section
variable {source : String} {known : Table Nat}

/-- What some tokens of a text announce, the text announces. -/
theorem mem_announced_of_infix {us : List Token} {ds : List (String × Nat)} {d : String × Nat}
    (hus : us <:+: tokensIn source) (h : Announces us ds) (hd : d ∈ ds) : d ∈ Arity.announced (tokenize source) := by
  obtain ⟨before, after, htokens⟩ := hus
  rw [(tokenize_eq source).1, ← htokens]
  have hall := (h.behind before).before after
  exact (hall [_]).subset (by simp [hd])

/-- Where nothing is announced twice, a definition enters the table with the inputs that it has there already. -/
theorem collect_insert_of_place (h : AnnouncedOnce (tokenize source)) {t w : Token} {ts : List Token}
    (ht : t.isNamed "TO" = true) (hw : w.isWord = true) (hplace : t :: w :: ts <:+ tokensIn source) :
    (Arity.collect (tokenize source) known).insert w.text (Arity.parameters ts) =
      Arity.collect (tokenize source) known := by
  obtain ⟨before, htokens⟩ := hplace
  have hmem := Arity.mem_announced ht hw before (ts ++ [.finishAt source.utf8ByteSize])
  have htext : before ++ t :: w :: (ts ++ [.finishAt source.utf8ByteSize]) = tokenize source := by
    simp [(tokenize_eq source).1, ← htokens]
  rw [htext, Arity.parameters_append_last rfl] at hmem
  exact Table.insert_of_find? (Arity.find?_collect_of_mem h known hmem)

def Setting.fixed (source : String) (known : Table Nat) (h : AnnouncedOnce (tokenize source)) : Setting :=
  { Setting.free source with
    place := fun ts => ts <:+ tokensIn source
    table := fun table => table = Arity.collect (tokenize source) known
    inner := fun hts t ht => ((tokenize_eq source).2 t (hts.subset ht)).1
    tail := fun hts => (List.suffix_cons _ _).trans hts
    define := fun ht hw hplace htable => htable ▸ collect_insert_of_place h ht hw hplace }

end

def Node.call? : Node → Option (String × List Expr)
  | .expr (.call _ name args) | .stmt (.call _ name args) => some (name, args)
  | _ => none

/-- The node is no call with too many inputs, and no definition with other parameters, by the table. -/
structure Node.Follows (known : Table Nat) (a : Node) : Prop where
  call : ∀ name args, a.call? = some (name, args) → ∀ count, known.find? name = some count → args.length ≤ count
  define : ∀ span name params body, a = .stmt (.define span name params body) → known.find? name = some params.length

def Region.following (known : Table Nat) : Region :=
  hereditary (Node.Follows known) (fun key p => known.get? key = some p.arity) fun h => h.define _ _ _ _ rfl

section
variable {fits : String → Nat → Prop} {ts : List Token}

theorem Spells.call_fits {span : Span} {name : String} {args : List Expr}
    (h : Spells fits ts (.expr (.call span name args))) : fits name args.length := by
  generalize htree : Tree.expr (.call span name args) = tree at h
  induction h with
  | parens _ _ _ ih => exact ih htree
  | call _ hfits =>
    cases htree
    exact hfits
  | binary => simp [Expr.join] at htree
  | _ => cases htree

theorem Spells.fits_of_call? {a : Node} (h : Spells fits ts a.tree) {name : String} {args : List Expr}
    (hcall : a.call? = some (name, args)) : fits name args.length := by
  unfold Node.call? at hcall
  split at hcall
  · cases hcall
    exact h.call_fits
  · cases hcall
    cases h with
    | callStmt _ hfits => exact hfits
  · cases hcall

end

section
variable {source : String} {known : List (String × Nat)} {p : Program} {r : Reader}

/-- The nodes of an accepted program follow the table with which its reading starts. -/
theorem follows_of_readProgram (honce : AnnouncedOnce (tokenize source))
    (h : readProgram (tokenize source) known = .ok p r) :
    ∀ s ∈ p, (Region.following (Arity.collect (tokenize source) (.ofList known))).node (.stmt s) := by
  intro s hs b hb
  have hstart : (Reader.start (tokenize source) known).Behind (.fixed source (.ofList known) honce) _ [] :=
    Reader.start_behind rfl (List.suffix_refl _) rfl
  have hspells := spells_of_readProgram hstart h
  obtain ⟨us, hus, hnode⟩ := hspells.program_contains hs hb
  refine ⟨fun name args hcall => ?_, ?_⟩
  · obtain ⟨_, rfl, hfits⟩ := hnode.fits_of_call? hcall
    exact hfits
  · rintro span name params body rfl
    have hmem := mem_announced_of_infix hus hnode.announces (List.mem_cons_self ..)
    exact Arity.find?_collect_of_mem honce (.ofList known) hmem

/-- Every definition of an accepted program is in the table, if none is announced twice. -/
theorem find?_collect_of_definition (honce : AnnouncedOnce (tokenize source))
    (h : readProgram (tokenize source) known = .ok p r) {d : String × Nat} (hd : d ∈ Stmt.allDefinitions p) :
    (Arity.collect (tokenize source) (.ofList known)).find? d.1 = some d.2 := by
  have hspells := spells_of_readProgram (Reader.start_behind_free source known) h
  have hmem := mem_announced_of_infix (List.infix_refl _) hspells.announces hd
  exact Arity.find?_collect_of_mem honce (.ofList known) hmem

end

/-- A call with the wrong number of inputs fails before anything else happens. -/
theorem Node.run_call_mismatch {b : Node} {m : Machine} {name : String} {args : List Expr} {q : Procedure}
    (hcall : b.call? = some (name, args)) (hq : m.workspace.procedure? name = some q) (hne : args.length ≠ q.arity)
    (n : Nat) : b.run (n + 1) m = .error (.fault ⟨.arity q.name q.arity args.length, some b.span⟩) m := by
  have hraise : ∀ eval run unknown, Eval.call eval run name args unknown m =
      .error (.fault ⟨.arity q.name q.arity args.length, none⟩) m := by
    intro eval run unknown
    have hcall : Eval.call eval run name args unknown m =
        (if args.length ≠ q.arity then Eval.raise (.arity q.name q.arity args.length)
          else (do run q (← args.mapM eval)) : Eval Value) m := by
      simp only [Eval.call, Bind.bind, EStateM.bind, MonadState.get, getThe, MonadStateOf.get, EStateM.get, hq]
    rw [hcall, if_pos hne]
    rfl
  unfold Node.call? at hcall
  split at hcall
  · cases hcall
    simp only [Node.run, Eval.expr, Eval.exprWith, Eval.locate, hraise, Expr.span, Node.span, Fault.orAt, Option.or]
    rfl
  · cases hcall
    simp only [Node.run, Eval.stmt, Eval.stmtWith, Eval.locate, Bind.bind, EStateM.bind, Functor.discard,
      Functor.mapConst, EStateM.map, Function.comp, hraise, Stmt.span, Node.span, Fault.orAt, Option.or]
    rfl
  · cases hcall

/-- What a run in an empty workspace finds of the procedure that a call names. -/
theorem procedure?_of_reaches {source : String} (honce : AnnouncedOnce (tokenize source)) {m m' : Machine} {p : Program}
    {fuel : Nat} {b : Node} (hfresh : m.workspace = {}) (hread : m.readProgram source = .ok p)
    (hreach : p.Reaches fuel m b m') {name : String} {args : List Expr} (hcall : b.call? = some (name, args)) :
    ∀ q, m'.workspace.procedure? name = some q →
      (Reader.start (tokenize source) []).arities.find? name = some q.arity ∧ args.length ≤ q.arity := by
  intro q hq
  obtain ⟨r, hok⟩ := Machine.readProgram_ok_iff.mp hread
  rw [hfresh] at hok
  have hempty : (Region.following (Arity.collect (tokenize source) {})).Holds m := by
    simp [Region.Holds, hfresh]
  obtain ⟨hb, hm'⟩ := hreach.within (follows_of_readProgram honce hok) hempty
  have hknown := (hm' _ q hq).1
  exact ⟨hknown, (hb b .refl).call name args hcall q.arity hknown⟩

/-- If no procedure is announced twice, as in a program that defines none twice and has no name spelled like the word
that opens definitions, then the table of procedures stays as it is wherever reading goes, no call has more inputs
than its procedure has parameters, and in a run from an empty workspace a call finds no procedure that the table does
not have and fails for its number of inputs only if it has too few. -/
theorem calls_agree_with_definitions (source : String) :
    (∀ known p r, readProgram (tokenize source) known = .ok p r →
      (∀ name ∈ Stmt.allNames p, fold name ≠ "TO") → ((Stmt.allDefinitions p).map fun d => fold d.1).Nodup →
      AnnouncedOnce (tokenize source)) ∧
    (AnnouncedOnce (tokenize source) → ∀ known n (r : Reader), r.rest <:+ tokensIn source →
      r.finish = .finishAt source.utf8ByteSize → r.arities = (Reader.start (tokenize source) known).arities →
      (final (Grammar.expr n r)).arities = r.arities ∧ (final (Grammar.stmt n r)).arities = r.arities ∧
        (final (Grammar.program n r)).arities = r.arities) ∧
    (AnnouncedOnce (tokenize source) → ∀ known p r, readProgram (tokenize source) known = .ok p r →
      ∀ s ∈ p, ∀ b, (Node.stmt s).Contains b → ∀ name args, b.call? = some (name, args) →
      ∀ d ∈ Stmt.allDefinitions p, fold d.1 = fold name → args.length ≤ d.2) ∧
    (AnnouncedOnce (tokenize source) → ∀ (m : Machine) p fuel b m', m.workspace = {} → m.readProgram source = .ok p →
      p.Reaches fuel m b m' → ∀ name args, b.call? = some (name, args) →
      ((Reader.start (tokenize source) []).arities.find? name = none → m'.workspace.procedure? name = none) ∧
      ∀ q, m'.workspace.procedure? name = some q → args.length ≠ q.arity → args.length < q.arity ∧
        ∀ n, b.run (n + 1) m' = .error (.fault ⟨.arity q.name q.arity args.length, some b.span⟩) m') := by
  refine ⟨fun known p r h hnames hdistinct => ?_, fun honce known n r hrest hfinish harities => ?_,
    fun honce known p r h s hs b hb name args hcall d hd hname => ?_,
    fun honce m p fuel b m' hfresh hread hreach name args hcall => ?_⟩
  · have hspells := spells_of_readProgram (Reader.start_behind_free source known) h
    rw [AnnouncedOnce, (tokenize_eq source).1, hspells.announced_eq hnames rfl]
    exact hdistinct
  · have hr : r.Behind (.fixed source (.ofList known) honce) r.last [] := ⟨hrest, harities, hfinish, rfl⟩
    rw [harities]
    exact ⟨(Grammar.expr_takes n).table hr, (Grammar.stmt_takes n).table hr, (Grammar.program_takes n).table hr⟩
  · have hfound := find?_collect_of_definition honce h hd
    rw [Table.find?, hname] at hfound
    exact (follows_of_readProgram honce h s hs b hb).call name args hcall d.2 hfound
  · have hfinds := procedure?_of_reaches honce hfresh hread hreach hcall
    refine ⟨fun hunknown => ?_, fun q hq hne => ⟨?_, Node.run_call_mismatch hcall hq hne⟩⟩
    · by_contra hdefined
      obtain ⟨q, hq⟩ := Option.ne_none_iff_exists'.mp hdefined
      simp [(hfinds q hq).1] at hunknown
    · have hle := (hfinds q hq).2
      omega

set_option maxRecDepth 4096 in
theorem calls_agree_with_definitions_print :
    (∃ p r m' q, readProgram (tokenize "TO F :x END PRINT F") [] = .ok p r ∧
      AnnouncedOnce (tokenize "TO F :x END PRINT F") ∧
      (final (Grammar.program 400 (Reader.start (tokenize "TO F :x END PRINT F") []))).arities =
        (Reader.start (tokenize "TO F :x END PRINT F") []).arities ∧
      ([] : List Expr).length ≤ 1 ∧
      p.Reaches 3 {} (.expr (.call ⟨18, 19⟩ "F" [])) m' ∧ m'.workspace.procedure? "F" = some q ∧ 0 < q.arity ∧
      (Node.expr (.call ⟨18, 19⟩ "F" [])).run 2 m' =
        .error (.fault ⟨.arity q.name q.arity 0, some ⟨18, 19⟩⟩) m') ∧
    (∃ p r m', readProgram (tokenize "PRINT G") [] = .ok p r ∧ p.Reaches 3 {} (.expr (.call ⟨6, 7⟩ "G" [])) m' ∧
      m'.workspace.procedure? "G" = none) := by
  have hnames : fold "x" ≠ "TO" := by decide +kernel
  have hunknown : (Reader.start (tokenize "PRINT G") []).arities.find? "G" = none := by decide +kernel
  have h : readProgram (tokenize "TO F :x END PRINT F") [] = .ok
      [.define ⟨0, 11⟩ "F" ["x"] [], .print ⟨12, 19⟩ (.call ⟨18, 19⟩ "F" [])]
      ⟨[], .finishAt 19, ⟨18, 19⟩, .ofList [("F", 1)]⟩ := by cbv
  have hgreedy : readProgram (tokenize "PRINT G") [] =
      .ok [.print ⟨0, 7⟩ (.call ⟨6, 7⟩ "G" [])] ⟨[], .finishAt 7, ⟨6, 7⟩, {}⟩ := by cbv
  have hread := Machine.readProgram_ok_iff (m := {}).mpr ⟨_, h⟩
  have hread' := Machine.readProgram_ok_iff (m := {}).mpr ⟨_, hgreedy⟩
  have hdefine : Eval.stmt 3 (.define ⟨0, 11⟩ "F" ["x"] []) {} =
      .ok .normal { workspace := Workspace.define {} ⟨"F", ["x"], []⟩ } := rfl
  have hreach : Program.Reaches 3 [.define ⟨0, 11⟩ "F" ["x"] [], .print ⟨12, 19⟩ (.call ⟨18, 19⟩ "F" [])] {}
      (.expr (.call ⟨18, 19⟩ "F" [])) { workspace := Workspace.define {} ⟨"F", ["x"], []⟩ } :=
    ⟨_, _, 2, .onward (by simp) hdefine .here, .onward .here (Node.executes_print 2 _ _ _)⟩
  have hreach' : Program.Reaches 3 [.print ⟨0, 7⟩ (.call ⟨6, 7⟩ "G" [])] {} (.expr (.call ⟨6, 7⟩ "G" [])) {} :=
    ⟨_, _, 2, .here, .onward .here (Node.executes_print 2 _ _ _)⟩
  have hfound : (Workspace.define {} ⟨"F", ["x"], []⟩).procedure? "F" = some ⟨"F", ["x"], []⟩ := by
    simp [Workspace.procedure?, Workspace.define, Table.find?_insert]
  obtain ⟨hcondition, htable, hcalls, hrun⟩ := calls_agree_with_definitions "TO F :x END PRINT F"
  have honce := hcondition _ _ _ h (by simpa [Stmt.allNames, Stmt.names, Expr.names, Expr.allNames])
    (by simp [Stmt.allDefinitions, Stmt.definitions])
  have hconstant := htable honce [] 400 (Reader.start (tokenize "TO F :x END PRINT F") []) (List.suffix_refl _)
    (Reader.start_tokenize _ _).2 rfl
  have hinside : (Node.stmt (.print ⟨12, 19⟩ (.call ⟨18, 19⟩ "F" []))).Contains (.expr (.call ⟨18, 19⟩ "F" [])) :=
    .single (List.mem_singleton_self _)
  have hfew := hcalls honce _ _ _ h (.print ⟨12, 19⟩ (.call ⟨18, 19⟩ "F" []))
    (List.mem_cons_of_mem _ (List.mem_singleton_self _)) _ hinside "F" [] rfl ("F", 1)
    (by simp [Stmt.allDefinitions, Stmt.definitions]) rfl
  obtain ⟨hless, hfail⟩ := (hrun honce _ _ _ _ _ rfl hread hreach _ _ rfl).2 _ hfound (by simp [Procedure.arity])
  obtain ⟨hcondition', -, -, hrun'⟩ := calls_agree_with_definitions "PRINT G"
  have honce' := hcondition' _ _ _ hgreedy (by simp [Stmt.allNames, Stmt.names, Expr.names, Expr.allNames])
    (by simp [Stmt.allDefinitions, Stmt.definitions])
  have hnone := (hrun' honce' _ _ _ _ _ rfl hread' hreach' _ _ rfl).1 hunknown
  exact ⟨⟨_, _, _, _, h, honce, hconstant.2.2, hfew, hreach, hfound, hless, hfail 1⟩, _, _, _, hgreedy, hreach', hnone⟩

end Logo
