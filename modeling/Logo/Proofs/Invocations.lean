import Logo.Proofs.Scope
import Logo.Proofs.Sessions

/-! Invocations of procedures. Between the requests of a session no procedure and no loop is running. Within a request,
wherever a procedure is run, it is run on as many inputs as it has parameters, and in its frame each parameter has the
value of its input. -/
namespace Logo

/-! ### Between requests -/

structure Workspace.SameLevel (w w' : Workspace) : Prop where
  depth : w'.depth = w.depth
  counters : w'.counters = w.counters

instance : IsPreorder Workspace Workspace.SameLevel where
  refl _ := ⟨rfl, rfl⟩
  trans _ _ _ h h' := ⟨h'.depth.trans h.depth, h'.counters.trans h.counters⟩

namespace Eval
open Workspace

theorem level_expr (fuel : Nat) (e : Expr) : Keeps (OnWorkspace SameLevel) (expr fuel e) :=
  ((keeps_variables fuel).1 e).mono fun _ _ h => ⟨congrArg List.length h.frames, h.counters⟩

theorem level_stmt (fuel : Nat) (s : Stmt) : Keeps (OnWorkspace SameLevel) (stmt fuel s) :=
  ((keeps_variables fuel).2 s).mono fun _ _ h => ⟨h.depth, h.counters⟩

theorem level_program (fuel : Nat) (p : Program) (last? : Option Value) :
    Keeps (OnWorkspace SameLevel) (program fuel p last?) :=
  keeps_program (fun e _ => level_expr fuel e) (fun s _ => level_stmt fuel s) last?

end Eval

namespace Session
open Workspace

theorem level_enter (source : String) : Keeps (OnWorkspace SameLevel) (enter source) := by
  refine .bind (.bind .get fun m => ?_) fun p => Eval.level_program fuel p none
  cases m.readProgram source with
  | ok p => exact .pure p
  | error h => exact .throw h

theorem level_evaluate (source : String) : Keeps (OnWorkspace SameLevel) (evaluate source) := by
  refine .bind .get fun m => ?_
  cases m.readExpr source with
  | ok e => exact Eval.level_expr _ e
  | error h => exact .throw h

end Session

def Machine.Idle (m : Machine) : Prop := m.workspace.depth = 0 ∧ m.workspace.counters = []

theorem Request.perform_idle (m : Machine) (q : Request) (hm : m.Idle) : (final (q.perform m)).Idle := by
  have hlevel : ∀ {x : Eval (Option Value)}, Keeps (OnWorkspace Workspace.SameLevel) x → (final (x m)).Idle := by
    intro x hx
    exact ⟨(hx m).depth.trans hm.1, (hx m).counters.trans hm.2⟩
  cases q with
  | run source => exact hlevel (.bind (.discard (Session.level_enter source)) fun _ => .pure none)
  | line source => exact hlevel (Session.level_enter source)
  | value source => exact hlevel (.bind (Session.level_evaluate source) fun v => .pure (some v))
  | reset => exact ⟨rfl, rfl⟩

/-! ### Frames -/

/-- In a new frame each parameter has the value of its input, whatever is bound outside. -/
theorem Workspace.get?_enter (w : Workspace) {params : List String} {args : List Value}
    (hdistinct : (params.map fold).Nodup) (hlength : args.length = params.length) {i : Nat} (hi : i < params.length)
    {name : String} (hname : fold name = fold params[i]) : (w.enter (params.zip args)).get? name = args[i]? := by
  have hkeys : (params.zip args).map (fun p => fold p.1) = params.map fold := by
    have hcomp : (params.zip args).map (fun p => fold p.1) = ((params.zip args).map Prod.fst).map fold := by simp
    rw [hcomp, List.map_fst_zip hlength.ge]
  have hmem : (params[i], args[i]) ∈ params.zip args := by
    have hzip : i < (params.zip args).length := by simp [hlength, hi]
    simpa using List.getElem_mem hzip
  have hfound := Table.get?_ofList_of_mem (hkeys ▸ hdistinct) hmem
  simp only [get?, enter, hname, List.findSome?_cons, hfound, Option.some_or]
  simp [hlength, hi]

/-! ### Invocations -/

namespace Node

/-- Executing `a` from `m` runs the procedure `p` on the inputs `args` from `m'`: with another outcome of this
invocation, and all else as it is, the outcome of `a` can be another. -/
def Invokes (n : Nat) (a : Node) (m : Machine) (p : Procedure) (args : List Value) (m' : Machine) : Prop :=
  ∃ run : Procedure → List Value → Eval Value,
    (∀ q us m'', ¬(q = p ∧ us = args ∧ m'' = m') → run q us m'' = Eval.invoke (Eval.stmt n) q us m'') ∧
      runBy n (Node.run n) run a m ≠ Node.run (n + 1) a m

variable {n : Nat} {a : Node} {m m' : Machine} {p : Procedure} {args : List Value}

/-- A node of a region runs only procedures of the region, and only on as many inputs as they have parameters. -/
theorem Invokes.within {R : Region} (h : Invokes n a m p args m') (ha : R.node a) (hm : R.Holds m) :
    (∃ key, R.procedure key p) ∧ args.length = p.arity := by
  obtain ⟨run, hrun, hne⟩ := h
  by_contra hout
  -- Otherwise the two ways to run procedures agree on all that the node can run.
  have hagree : ∀ name, a.callee? = some name → ∀ q us, R.procedure (fold name) q → us.length = q.arity →
      R.Agrees (fun _ => False) (Eval.invoke (Eval.stmt n) q us) (run q us) := by
    intro name hcallee q us hq hlength m'' hm''
    rw [hrun q us m'' fun hqu => hout ⟨⟨fold name, hqu.1 ▸ hq⟩, hqu.1 ▸ hqu.2.1 ▸ hlength⟩]
    exact Region.Agrees.invoke (fun s hs => R.agrees_run n (R.enter ha hcallee hq hs)) us m'' hm''
  have hparts : ∀ b, R.node b → R.Agrees (fun _ => False) (b.run n) (b.run n) := fun b hb => R.agrees_run n hb
  rcases (Region.agrees_runBy (by simp) hparts ha n hagree m hm).eq_or_broken with heq | ⟨_, _, _, hfalse⟩
  · exact hne (heq.trans (by rw [run_succ]; rfl))
  · exact hfalse

/-- A node that fails whenever an invocation fails, and in the same way, runs the procedure. -/
theorem Invokes.of_fails
    (h : ∀ (run : Procedure → List Value → Eval Value) (f : Fault), f.span? ≠ none →
      run p args m' = .error (.fault f) m' → ∃ m'', runBy n (Node.run n) run a m = .error (.fault f) m'') :
    Invokes n a m p args m' := by
  classical
  refine exists_outcome_ne (fun f hf => ?_) _
  refine ⟨fun q us m'' => if q = p ∧ us = args ∧ m'' = m' then .error (.fault f) m'
    else Eval.invoke (Eval.stmt n) q us m'', ?_, h _ f hf (by simp)⟩
  intro q us m'' hother
  simp only [if_neg hother]

end Node

/-- An invocation of the procedure from `m` runs its body from `m'`: with another outcome of the body there, and all
else as it is, the outcome of the invocation can be another. -/
def Procedure.RunsBody (n : Nat) (p : Procedure) (args : List Value) (m m' : Machine) : Prop :=
  ∃ body : Eval Flow, (∀ m'', m'' ≠ m' → body m'' = Eval.block (Eval.stmt n) p.body m'') ∧
    Eval.framed p args body m ≠ Eval.invoke (Eval.stmt n) p args m

/-- The body runs in a frame of its own, and all else is as the caller has it. -/
theorem Procedure.runsBody_iff {n : Nat} {p : Procedure} {args : List Value} {m m' : Machine} :
    p.RunsBody n args m m' ↔ m' = { m with workspace := m.workspace.enter (p.params.zip args) } := by
  constructor
  · rintro ⟨body, hbody, hne⟩
    by_contra hother
    have hsame := hbody _ (Ne.symm hother)
    refine hne ?_
    simp only [Eval.invoke, Eval.framed, Bind.bind, EStateM.bind, Eval.within, hsame]
  · rintro rfl
    classical
    refine Node.exists_outcome_ne (fun f _ => ?_) _
    refine ⟨fun m'' => if m'' = { m with workspace := m.workspace.enter (p.params.zip args) }
      then .error (.fault f) m'' else Eval.block (Eval.stmt n) p.body m'', fun m'' hother => if_neg hother, m, ?_⟩
    simp [Eval.framed, Bind.bind, EStateM.bind, Eval.within, Workspace.leave, Workspace.enter]

/-- Between the requests of a session that starts with an empty workspace no procedure and no loop is running, and
every procedure is stored under its own name, which has no built-in meaning, and has distinct parameters. Wherever the
session runs a procedure, it has as many inputs as parameters, its body is run, and on the machine from which it is run
each parameter, in any letter case, has the value of its input. -/
theorem invocations_bind_their_inputs (m : Machine) (requests : List Request) (hm : m.workspace = {}) :
    (m.after requests).workspace.depth = 0 ∧ (m.after requests).workspace.counters = [] ∧
    (∀ key p, (m.after requests).workspace.procedures.get? key = some p →
      key = fold p.name ∧ isKeyword p.name = false ∧ isBuiltin p.name = false ∧ (p.params.map fold).Nodup) ∧
    ∀ (q : Request) j b m₁ p args m₂, q.Comes (m.after requests) (j + 1) b m₁ → b.Invokes j m₁ p args m₂ →
      args.length = p.params.length ∧ (∃ m₃, p.RunsBody j args m₂ m₃) ∧
      ∀ m₃, p.RunsBody j args m₂ m₃ → ∀ i (hi : i < p.params.length) name, fold name = fold p.params[i] →
        m₃.workspace.get? name = args[i]? := by
  have hidle : (m.after requests).Idle :=
    Machine.after_induction Request.perform_idle ⟨by rw [hm]; rfl, by rw [hm]⟩ requests
  have hproper := Machine.after_proper hm requests
  refine ⟨hidle.1, hidle.2, ?_, ?_⟩
  · intro key p hp
    obtain ⟨⟨hkey, hname, hdistinct⟩, -⟩ := hproper key p hp
    exact ⟨hkey, hname.not_keyword, hname.not_builtin, hdistinct⟩
  · intro q j b m₁ p args m₂ hcomes hinvokes
    obtain ⟨hb, hm₁⟩ := Request.comes_within hproper hcomes
    obtain ⟨⟨key, ⟨-, -, hdistinct⟩, -⟩, hlength⟩ := hinvokes.within hb hm₁
    refine ⟨hlength, ⟨_, Procedure.runsBody_iff.mpr rfl⟩, fun m₃ hbody i hi name hname => ?_⟩
    rw [Procedure.runsBody_iff.mp hbody]
    exact m₂.workspace.get?_enter hdistinct hlength hi hname

/-- A call runs its procedure on the values of its inputs. -/
theorem Node.invokes_call {n : Nat} {span : Span} {p : Procedure} {args : List Expr} {values : List Value}
    {m m' : Machine} (hfound : m.workspace.procedure? p.name = some p) (hlength : args.length = p.arity)
    (hvalues : args.mapM (Eval.expr n) m = .ok values m') :
    Invokes n (.stmt (.call span p.name args)) m p values m' := by
  refine .of_fails fun run f hf hrun => ⟨m', ?_⟩
  have hcall : Eval.call (Eval.expr n) run p.name args (.unknownCommand p.name) m = .error (.fault f) m' := by
    simp [Eval.call, Bind.bind, EStateM.bind, MonadState.get, getThe, MonadStateOf.get, EStateM.get, hfound, hlength,
      hvalues, hrun]
  have hstmt : Eval.locate span (do
      discard (Eval.call (Eval.expr n) run p.name args (.unknownCommand p.name))
      return Flow.normal) m = .error (.fault f) m' := by
    simp [Eval.locate, Bind.bind, EStateM.bind, Functor.discard, Functor.mapConst, EStateM.map, hcall,
      Fault.orAt_of_span hf]
  exact hstmt

set_option maxRecDepth 4096 in
theorem invocations_bind_their_inputs_upper_case :
    ∃ j b m₁ p m₂ m₃, (Request.run "F []").Comes (Machine.after {} [.run "TO F :x END"]) (j + 1) b m₁ ∧
      b.Invokes j m₁ p [.list []] m₂ ∧ p.RunsBody j [.list []] m₂ m₃ ∧
      m₃.workspace.get? "X" = some (.list []) := by
  have hcall : Machine.readProgram { workspace := Workspace.define {} ⟨"F", ["x"], []⟩ } "F []" =
      .ok [.call ⟨0, 4⟩ "F" [.list ⟨2, 4⟩ []]] := by cbv
  have hfuel : Session.fuel = Session.fuel - 2 + 1 + 1 := by decide
  have hcomes : (Request.run "F []").Comes (Machine.after {} [.run "TO F :x END"]) (Session.fuel - 2 + 1 + 1)
      (.stmt (.call ⟨0, 4⟩ "F" [.list ⟨2, 4⟩ []])) { workspace := Workspace.define {} ⟨"F", ["x"], []⟩ } := by
    rw [Machine.after_definition, ← hfuel]
    exact ⟨_, _, _, .run hcall .here, .here⟩
  have hinvokes : Node.Invokes (Session.fuel - 2 + 1) (.stmt (.call ⟨0, 4⟩ "F" [.list ⟨2, 4⟩ []]))
      { workspace := Workspace.define {} ⟨"F", ["x"], []⟩ } ⟨"F", ["x"], []⟩ [.list []]
      { workspace := Workspace.define {} ⟨"F", ["x"], []⟩ } :=
    Node.invokes_call (Workspace.procedure?_define {} ⟨"F", ["x"], []⟩) rfl rfl
  obtain ⟨-, -, -, hbinds⟩ := invocations_bind_their_inputs {} [.run "TO F :x END"] rfl
  obtain ⟨-, ⟨m₃, hbody⟩, hparams⟩ := hbinds _ _ _ _ _ _ _ hcomes hinvokes
  exact ⟨_, _, _, _, _, m₃, hcomes, hinvokes, hbody, hparams m₃ hbody 0 (by simp) "X" (by cbv)⟩

end Logo
