import Logo.Proofs.Inputs

/-! Sessions: requests to one machine, one after another, each carried out or failed. What is read in a session is
well formed wherever it is looked at, and so is all that the session stores. So every word with a built-in meaning
meets as many inputs as it takes, and no fault says otherwise. -/
namespace Logo

/-! ### Requests -/

/-- What can be asked of a machine: to run a program, to run one for the value of its last statement, to evaluate an
expression, and to forget variables and procedures. -/
inductive Request where
  | run (source : String)
  | line (source : String)
  | value (source : String)
  | reset

namespace Request

def perform : Request → Eval (Option Value)
  | run source => do
    Session.run source
    return none
  | line source => Session.enter source
  | value source => return some (← Session.evaluate source)
  | reset => do
    modify Machine.reset
    return none

inductive Starts : Request → Machine → Nat → Node → Machine → Prop where
  | run {source p m a m'} : m.readProgram source = .ok p → p.Begins Session.fuel m a m' →
    Starts (.run source) m Session.fuel a m'
  | line {source p m a m'} : m.readProgram source = .ok p → p.Begins Session.fuel m a m' →
    Starts (.line source) m Session.fuel a m'
  | value {source e m} : m.readExpr source = .ok e →
    Starts (.value source) m (Session.fuel + (tokenize source).length) (.expr e) m

/-- The request comes to the node `b` in the state `m'`, at any depth, with `j` fuel left. -/
def Comes (q : Request) (m : Machine) (j : Nat) (b : Node) (m' : Machine) : Prop :=
  ∃ k a m₁, q.Starts m k a m₁ ∧ a.Reaches k m₁ j b m'

end Request

/-- The machine after some requests. What a failed request has done stays done. -/
def Machine.after (m : Machine) (requests : List Request) : Machine :=
  requests.foldl (fun m q => final (q.perform m)) m

/-- What every request keeps holds throughout a session. -/
theorem Machine.after_induction {P : Machine → Prop} (hstep : ∀ m (q : Request), P m → P (final (q.perform m)))
    {m : Machine} (hm : P m) (requests : List Request) : P (m.after requests) := by
  induction requests generalizing m with
  | nil => exact hm
  | cons q rest ih => exact ih (hstep m q hm)

section
variable {source : String} {p : Program} {e : Expr} {h : Halt} {m : Machine}

theorem Machine.readExpr_ok_iff : m.readExpr source = .ok e ↔
    ∃ r, Logo.readExpr (tokenize source) m.workspace.arities.entries = .ok e r := by
  unfold readExpr
  cases Logo.readExpr (tokenize source) m.workspace.arities.entries <;> simp

theorem Machine.readExpr_error_iff : m.readExpr source = .error h ↔
    ∃ r, Logo.readExpr (tokenize source) m.workspace.arities.entries = .error h r := by
  unfold readExpr
  cases Logo.readExpr (tokenize source) m.workspace.arities.entries <;> simp

theorem Session.enter_of_ok (hread : m.readProgram source = .ok p) :
    Session.enter source m = Eval.program fuel p none m := by
  simp only [Session.enter, Bind.bind, EStateM.bind, Session.read_ok hread]

theorem Session.enter_of_error (hread : m.readProgram source = .error h) : Session.enter source m = .error h m := by
  simp only [Session.enter, Bind.bind, EStateM.bind, Session.read_error hread]

theorem Session.evaluate_of_ok (hread : m.readExpr source = .ok e) :
    Session.evaluate source m = Eval.expr (fuel + (tokenize source).length) e m := by
  simp only [Session.evaluate, Bind.bind, EStateM.bind, MonadState.get, getThe, MonadStateOf.get, EStateM.get, hread]

theorem Session.evaluate_of_error (hread : m.readExpr source = .error h) :
    Session.evaluate source m = .error h m := by
  have hthrow : Session.evaluate source m = (throw h : Eval Value) m := by
    simp only [Session.evaluate, Bind.bind, EStateM.bind, MonadState.get, getThe, MonadStateOf.get, EStateM.get, hread]
  exact hthrow

end

/-! ### Well-formed nodes -/

structure Unreserved (name : String) : Prop where
  not_keyword : isKeyword name = false
  not_builtin : isBuiltin name = false

namespace Node

/-- A word with a built-in meaning has as many inputs as it takes, the name of a procedure has no built-in meaning, and
the parameters of a definition are distinct. -/
def Proper : Node → Prop
  | stmt (.command _ c args) => args.length = c.arity
  | expr (.operation _ op args) => args.length = op.arity
  | stmt (.call _ name _) | expr (.call _ name _) => Unreserved name
  | stmt (.define _ name params _) => Unreserved name ∧ (params.map fold).Nodup
  | _ => True

end Node

/-- What some tokens spell is proper. -/
theorem Spells.proper {fits : String → Nat → Prop} {ts : List Token} {a : Node} (h : Spells fits ts a.tree) :
    a.Proper := by
  generalize htree : a.tree = tree at h
  induction h with
  | parens _ _ _ ih => exact ih htree
  | operation _ _ hlength _ | command _ _ _ hlength _ =>
    cases a <;> cases htree
    exact hlength
  | call hcalls _ _ | callStmt hcalls _ _ =>
    cases a <;> cases htree
    exact ⟨hcalls.2.1, hcalls.2.2⟩
  | define _ hcalls _ hdistinct _ _ =>
    cases a <;> cases htree
    exact ⟨⟨hcalls.2.1, hcalls.2.2⟩, hdistinct⟩
  | _ => cases a <;> cases htree <;> trivial

def Region.proper : Region :=
  hereditary Node.Proper
    (fun key p => key = fold p.name ∧ Unreserved p.name ∧ (p.params.map fold).Nodup) fun h => ⟨rfl, h.1, h.2⟩

/-- A wrong number of inputs is never one for a word with a built-in meaning. -/
theorem Region.proper_arity {name : String} {expected got : Nat} (h : Region.proper.Raises (.arity name expected got)) :
    Unreserved name := by
  generalize hcause : Cause.arity name expected got = c at h
  cases h with
  | other _ hne => exact absurd hcause.symm (hne name expected got)
  | procedure _ hp =>
    cases hcause
    exact hp.1.2.1
  | command hnode hne => exact absurd (hnode _ .refl) hne
  | operation hnode hne => exact absurd (hnode _ .refl) hne

section
variable {source : String} {known : List (String × Nat)}

/-- All nodes of an accepted program are proper. -/
theorem proper_of_readProgram {p : Program} {r : Reader} (h : readProgram (tokenize source) known = .ok p r) :
    ∀ s ∈ p, Region.proper.node (.stmt s) := by
  intro s hs b hb
  have hspells := spells_of_readProgram (Reader.start_behind_free source known) h
  obtain ⟨us, -, hnode⟩ := hspells.program_contains hs hb
  exact hnode.proper

theorem proper_of_readExpr {e : Expr} {r : Reader} (h : readExpr (tokenize source) known = .ok e r) :
    Region.proper.node (.expr e) := by
  intro b hb
  have hspells := spells_of_readExpr (Reader.start_behind_free source known) h
  obtain ⟨us, -, hnode⟩ := Spells.contains (a := .expr e) hspells hb
  exact hnode.proper

/-- A text that is not accepted is rejected for what is found in it. -/
theorem syntactic_of_breaks {G : Setting} {read rest : List Token} {f : Fault} (h : Breaks G read rest (.fault f)) :
    f.cause.isSyntactic = true := by
  cases h with
  | fault _ _ => rfl

end

namespace Request
variable {m m' : Machine} {q : Request}

theorem starts_within {k : Nat} {a : Node} (hm : Region.proper.Holds m) (h : q.Starts m k a m') :
    Region.proper.node a ∧ Region.proper.Holds m' := by
  cases h with
  | run hread hbegins | line hread hbegins =>
    obtain ⟨r, hok⟩ := Machine.readProgram_ok_iff.mp hread
    exact hbegins.within (proper_of_readProgram hok) hm
  | value hread =>
    obtain ⟨r, hok⟩ := Machine.readExpr_ok_iff.mp hread
    exact ⟨proper_of_readExpr hok, hm⟩

theorem comes_within {j : Nat} {b : Node} (hm : Region.proper.Holds m) (h : q.Comes m j b m') :
    Region.proper.node b ∧ Region.proper.Holds m' := by
  obtain ⟨k, a, m₁, hstarts, hreaches⟩ := h
  obtain ⟨ha, hm₁⟩ := starts_within hm hstarts
  exact hreaches.within ha hm₁

end Request

/-- From `m` the computation fails in reading and changes nothing, or it does what one does that stays within what is
proper. -/
def Orderly (m : Machine) {α : Type} (x : Eval α) : Prop :=
  (∃ h, x m = .error h m ∧ ∀ f, h = .fault f → f.cause.isSyntactic = true) ∨
    ∃ y : Eval α, x m = y m ∧ Region.proper.Agrees (fun _ => False) y y

namespace Orderly
variable {m : Machine} {α β : Type} {x : Eval α}

theorem map (g : α → β) (hx : Orderly m x) : Orderly m (g <$> x) := by
  rcases hx with ⟨h, hfail, hcause⟩ | ⟨y, hxy, hy⟩
  · refine .inl ⟨h, ?_, hcause⟩
    simp only [Functor.map, EStateM.map, hfail]
  · refine .inr ⟨g <$> y, ?_, hy.map g⟩
    simp only [Functor.map, EStateM.map, hxy]

theorem enter (source : String) : Orderly m (Session.enter source) := by
  cases hread : m.readProgram source with
  | error h =>
    obtain ⟨r, herror⟩ := Machine.readProgram_error_iff.mp hread
    obtain ⟨read, -, hbreaks⟩ := breaks_of_readProgram (Reader.start_behind_free source _) herror
    exact .inl ⟨h, Session.enter_of_error hread, fun f hf => syntactic_of_breaks (hf ▸ hbreaks)⟩
  | ok p =>
    obtain ⟨r, hok⟩ := Machine.readProgram_ok_iff.mp hread
    exact .inr ⟨_, Session.enter_of_ok hread, Region.agrees_program (proper_of_readProgram hok) _ _⟩

theorem evaluate (source : String) : Orderly m (Session.evaluate source) := by
  cases hread : m.readExpr source with
  | error h =>
    obtain ⟨r, herror⟩ := Machine.readExpr_error_iff.mp hread
    obtain ⟨read, -, hbreaks⟩ := breaks_of_readExpr (Reader.start_behind_free source _) herror
    exact .inl ⟨h, Session.evaluate_of_error hread, fun f hf => syntactic_of_breaks (hf ▸ hbreaks)⟩
  | ok e =>
    obtain ⟨r, hok⟩ := Machine.readExpr_ok_iff.mp hread
    exact .inr ⟨_, Session.evaluate_of_ok hread, Region.agrees_run _ (proper_of_readExpr hok)⟩

theorem perform (q : Request) : Orderly m q.perform := by
  cases q with
  | run source => exact ((enter source).map fun _ => ()).map fun _ => none
  | line source => exact enter source
  | value source => exact (evaluate source).map some
  | reset => exact .inr ⟨_, rfl, fun m' _ => .ok (by simp [Region.Holds, Machine.reset])⟩

theorem holds (hx : Orderly m x) (hm : Region.proper.Holds m) : Region.proper.Holds (final (x m)) := by
  rcases hx with ⟨h, hfail, -⟩ | ⟨y, hxy, hy⟩
  · rw [hfail]
    exact hm
  · rw [hxy]
    exact (hy m hm).holds

theorem raises {f : Fault} {m' : Machine} (hx : Orderly m x) (hm : Region.proper.Holds m)
    (h : x m = .error (.fault f) m') : f.cause.isSyntactic = true ∨ Region.proper.Raises f.cause := by
  rcases hx with ⟨h', hfail, hcause⟩ | ⟨y, hxy, hy⟩
  · rw [hfail] at h
    cases h
    exact .inl (hcause f rfl)
  · have hsame := hy m hm
    rw [← hxy, h] at hsame
    exact .inr hsame.admits.cause

end Orderly

/-- In a session that starts with an empty workspace, all that is stored is proper. -/
theorem Machine.after_proper {m : Machine} (hm : m.workspace = {}) (requests : List Request) :
    Region.proper.Holds (m.after requests) := by
  refine Machine.after_induction (fun m q hm => (Orderly.perform q).holds hm) ?_ requests
  simp [Region.Holds, hm]

/-- In every accepted program all nodes are proper: built-in words have as many inputs as they take, procedures have no
built-in names and distinct parameters. So a session that starts with an empty workspace comes to proper nodes only,
and no fault of a number of inputs names a word with a built-in meaning. -/
theorem builtins_get_their_inputs :
    (∀ source known p r, readProgram (tokenize source) known = .ok p r →
      ∀ s ∈ p, ∀ b, (Node.stmt s).Contains b → b.Proper) ∧
    ∀ (m : Machine) requests (q : Request), m.workspace = {} →
      (∀ j b m', q.Comes (m.after requests) j b m' → b.Proper) ∧
      ∀ f m' name expected got, q.perform (m.after requests) = .error (.fault f) m' →
        f.cause = .arity name expected got → isKeyword name = false ∧ isBuiltin name = false := by
  refine ⟨fun source known p r h s hs => proper_of_readProgram h s hs, fun m requests q hm => ⟨?_, ?_⟩⟩
  · intro j b m' hcomes
    exact (Request.comes_within (Machine.after_proper hm requests) hcomes).1 b .refl
  · intro f m' name expected got hfail hcause
    rcases (Orderly.perform q).raises (Machine.after_proper hm requests) hfail with hsyntactic | hraises
    · simp [hcause, Cause.isSyntactic] at hsyntactic
    · rw [hcause] at hraises
      have hname := Region.proper_arity hraises
      exact ⟨hname.not_keyword, hname.not_builtin⟩

/-- A text that is one definition stores its procedure. -/
theorem Session.enter_definition {m : Machine} {source : String} {span : Span} {name : String} {params : List String}
    {body : List Stmt} (hread : m.readProgram source = .ok [.define span name params body]) :
    Session.enter source m = .ok none { m with workspace := m.workspace.define ⟨name, params, body⟩ } := by
  have hfuel : Session.fuel = Session.fuel - 2 + 2 := by decide
  have hdefined : ∀ n, Eval.program (n + 2) [.define span name params body] none m =
      .ok none { m with workspace := m.workspace.define ⟨name, params, body⟩ } := fun _ => rfl
  exact (Session.enter_of_ok hread).trans (hfuel ▸ hdefined (Session.fuel - 2))

set_option maxRecDepth 4096 in
/-- A session of one definition. -/
theorem Machine.after_definition :
    Machine.after {} [.run "TO F :x END"] = { workspace := Workspace.define {} ⟨"F", ["x"], []⟩ } := by
  have hread : Machine.readProgram {} "TO F :x END" = .ok [.define ⟨0, 11⟩ "F" ["x"] []] := by cbv
  simp only [Machine.after, List.foldl_cons, List.foldl_nil, Request.perform, Session.run, Functor.discard,
    Functor.mapConst, EStateM.map, Function.comp, Bind.bind, EStateM.bind, Session.enter_definition hread]
  rfl

theorem Workspace.procedure?_define (w : Workspace) (p : Procedure) : (w.define p).procedure? p.name = some p := by
  simp [procedure?, define, Table.find?_insert]

set_option maxRecDepth 4096 in
theorem builtins_get_their_inputs_pensize :
    (∃ p r s b, readProgram (tokenize "PENSIZE PENSIZE") [] = .ok p r ∧ s ∈ p ∧ (Node.stmt s).Contains b ∧ b.Proper) ∧
    ∃ f m₁ j b m₂, (Request.run "F").perform (Machine.after {} [.run "TO F :x END"]) = .error (.fault f) m₁ ∧
      f.cause = .arity "F" 1 0 ∧ (isKeyword "F" = false ∧ isBuiltin "F" = false) ∧
      (Request.run "F").Comes (Machine.after {} [.run "TO F :x END"]) j b m₂ ∧ b.Proper := by
  have hpensize : readProgram (tokenize "PENSIZE PENSIZE") [] =
      .ok [.command ⟨0, 15⟩ .setPenSize [.query ⟨8, 15⟩ .penSize]] ⟨[], .finishAt 15, ⟨8, 15⟩, {}⟩ := by cbv
  have hcall : Machine.readProgram { workspace := Workspace.define {} ⟨"F", ["x"], []⟩ } "F" =
      .ok [.call ⟨0, 1⟩ "F" []] := by cbv
  have hfound := Workspace.procedure?_define {} ⟨"F", ["x"], []⟩
  have hfails : ∀ n, Eval.program (n + 1) [.call ⟨0, 1⟩ "F" []] none
      { workspace := Workspace.define {} ⟨"F", ["x"], []⟩ } =
        .error (.fault ⟨.arity "F" 1 0, some ⟨0, 1⟩⟩) { workspace := Workspace.define {} ⟨"F", ["x"], []⟩ } := by
    intro n
    have hstmt := Node.run_call_mismatch (b := .stmt (.call ⟨0, 1⟩ "F" []))
      (m := { workspace := Workspace.define {} ⟨"F", ["x"], []⟩ }) rfl hfound (by simp [Procedure.arity]) n
    simp only [Node.run] at hstmt
    simp only [Eval.program, Bind.bind, EStateM.bind, hstmt]
    rfl
  have hfuel : Session.fuel = Session.fuel - 1 + 1 := by decide
  have hrun := Session.run_of_program hcall (hfuel ▸ hfails (Session.fuel - 1))
  have hperform : (Request.run "F").perform { workspace := Workspace.define {} ⟨"F", ["x"], []⟩ } =
      .error (.fault ⟨.arity "F" 1 0, some ⟨0, 1⟩⟩) { workspace := Workspace.define {} ⟨"F", ["x"], []⟩ } := by
    simp only [Request.perform, Bind.bind, EStateM.bind, hrun]
  have hcomes : (Request.run "F").Comes { workspace := Workspace.define {} ⟨"F", ["x"], []⟩ } Session.fuel
      (.stmt (.call ⟨0, 1⟩ "F" [])) { workspace := Workspace.define {} ⟨"F", ["x"], []⟩ } :=
    ⟨_, _, _, .run hcall .here, .here⟩
  obtain ⟨hread, hsession⟩ := builtins_get_their_inputs
  obtain ⟨hnodes, hfaults⟩ := hsession {} [.run "TO F :x END"] (.run "F") rfl
  rw [Machine.after_definition] at hnodes hfaults
  refine ⟨⟨_, _, _, _, hpensize, List.mem_singleton_self _, .refl, ?_⟩, ?_⟩
  · exact hread _ _ _ _ hpensize _ (List.mem_singleton_self _) _ .refl
  · rw [Machine.after_definition]
    exact ⟨_, _, _, _, _, hperform, rfl, hfaults _ _ _ _ _ hperform rfl, hcomes, hnodes _ _ _ hcomes⟩

end Logo
