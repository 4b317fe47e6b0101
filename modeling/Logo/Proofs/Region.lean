import Logo.Eval
import Logo.Proofs.Causes
import Mathlib.Logic.Relation

/-! Where a run can go. A run goes from a node of a program to the nodes below it and to the bodies of the
procedures it invokes, and it stores only procedures that its definitions spell out. So it stays within every
region that is closed under these moves, and two runs that differ only outside of the region are the same. -/
namespace Logo

inductive Node where
  | expr (e : Expr)
  | stmt (s : Stmt)

namespace Node

def span : Node → Span
  | expr e => e.span
  | stmt s => s.span

/-- The nodes directly below a node. The body of a definition is below it. -/
def children : Node → List Node
  | expr (.number ..) | expr (.thing ..) | expr (.query ..) => []
  | expr (.list _ items) => items.map expr
  | expr (.binary _ _ left right) => [expr left, expr right]
  | expr (.unary _ _ operand) => [expr operand]
  | expr (.operation _ _ args) => args.map expr
  | expr (.traverse _ _ _ items) => [expr items]
  | expr (.call _ _ args) => args.map expr
  | stmt (.command _ _ args) | stmt (.call _ _ args) => args.map expr
  | stmt (.expression e) => [expr e]
  | stmt (.loop _ e body) | stmt (.ifThen _ e body) | stmt (.whileTrue _ e body) => expr e :: body.map stmt
  | stmt (.ifElse _ cond yes no) => expr cond :: (yes.map stmt ++ no.map stmt)
  | stmt (.forEach _ _ low high step? body) =>
    expr low :: expr high :: (step?.toList.map expr ++ body.map stmt)
  | stmt (.define _ _ _ body) => body.map stmt
  | stmt (.make _ _ value) | stmt (.output _ value) | stmt (.print _ value) => [expr value]
  | stmt (.stop _) | stmt (.declare ..) => []

def Contains : Node → Node → Prop := Relation.ReflTransGen fun a b => b ∈ a.children

theorem forall_contains {P : Node → Prop} {a : Node} (ha : P a) (h : ∀ b ∈ a.children, ∀ c, b.Contains c → P c) :
    ∀ c, a.Contains c → P c := by
  intro c hc
  rcases hc.cases_head with rfl | ⟨b, hb, hc⟩
  · exact ha
  · exact h b hb c hc

def invokes : Node → Bool
  | expr (.call ..) | expr (.traverse ..) | stmt (.call ..) => true
  | _ => false

def callee? : Node → Option String
  | expr (.call _ name _) | expr (.traverse _ _ name _) | stmt (.call _ name _) => some name
  | _ => none

theorem invokes_of_callee {a : Node} {name : String} (h : a.callee? = some name) : a.invokes = true := by
  cases a with
  | expr e => cases e <;> simp [callee?, invokes] at h ⊢
  | stmt s => cases s <;> simp [callee?, invokes] at h ⊢

def Result : Node → Type
  | expr _ => Value
  | stmt _ => Flow

abbrev Runner := (a : Node) → Eval a.Result

def run (fuel : Nat) : Runner
  | expr e => Eval.expr fuel e
  | stmt s => Eval.stmt fuel s

def runBy (turns : Nat) (r : Runner) (run : Procedure → List Value → Eval Value) : Runner
  | expr e => Eval.exprWith (fun e => r (expr e)) run e
  | stmt s => Eval.stmtWith (fun e => r (expr e)) (fun s => r (stmt s)) run turns s

def runWith (turns : Nat) (r : Runner) : Runner := runBy turns r (Eval.invoke fun s => r (stmt s))

theorem run_succ (n : Nat) (a : Node) : run (n + 1) a = runWith n (run n) a := by
  cases a <;> rfl

end Node

theorem Fault.orAt_of_span {f : Fault} (h : f.span? ≠ none) (span : Span) : f.orAt span = f := by
  obtain ⟨cause, span?⟩ := f
  cases span? with
  | none => exact absurd rfl h
  | some s => rfl

/-- Nodes and procedures that runs do not leave. -/
structure Region where
  node : Node → Prop
  procedure : String → Procedure → Prop
  child {a b : Node} : node a → b ∈ a.children → node b
  define {span : Span} {name : String} {params : List String} {body : List Stmt} :
    node (.stmt (.define span name params body)) → procedure (fold name) ⟨name, params, body⟩
  enter {a : Node} {name : String} {p : Procedure} {s : Stmt} :
    node a → a.callee? = some name → procedure (fold name) p → s ∈ p.body → node (.stmt s)

namespace Region

/-- The nodes at which `P` holds, and below which it holds everywhere. The procedures have `Q` and bodies of such
nodes. -/
def hereditary (P : Node → Prop) (Q : String → Procedure → Prop)
    (h : ∀ {span name params body}, P (.stmt (.define span name params body)) → Q (fold name) ⟨name, params, body⟩) :
    Region where
  node a := ∀ b, a.Contains b → P b
  procedure key p := Q key p ∧ ∀ s ∈ p.body, ∀ b, (Node.stmt s).Contains b → P b
  child ha hb c hc := ha c (.head hb hc)
  define ha := ⟨h (ha _ .refl), fun _ hs b hb => ha b (.head (List.mem_map_of_mem hs) hb)⟩
  enter _ _ hp hs := hp.2 _ hs

def Holds (R : Region) (m : Machine) : Prop :=
  ∀ key p, m.workspace.procedures.get? key = some p → R.procedure key p

theorem Holds.define {R : Region} {m : Machine} (hm : R.Holds m) {span : Span} {name : String} {params : List String}
    {body : List Stmt} (h : R.node (.stmt (.define span name params body))) :
    R.Holds { m with workspace := m.workspace.define ⟨name, params, body⟩ } := by
  intro key p hp
  have hput := m.workspace.procedures.get?_insert name key ⟨name, params, body⟩
  by_cases hkey : key = fold name
  · rw [if_pos hkey] at hput
    obtain rfl : ⟨name, params, body⟩ = p := Option.some.inj (hput.symm.trans hp)
    exact hkey ▸ R.define h
  · rw [if_neg hkey] at hput
    exact hm key p (hput.symm.trans hp)

/-- What a run in the region can fail for. A wrong number of inputs is one for a procedure of the region, or it stands
in a node of the region. -/
inductive Raises (R : Region) : Cause → Prop where
  | other {c : Cause} : c.isSyntactic = false → (∀ name expected got, c ≠ .arity name expected got) → R.Raises c
  | procedure {key : String} {p : Procedure} (got : Nat) : R.procedure key p → R.Raises (.arity p.name p.arity got)
  | command {span : Span} {c : Command} {args : List Expr} : R.node (.stmt (.command span c args)) →
    args.length ≠ c.arity → R.Raises (.arity c.name c.arity args.length)
  | operation {span : Span} {op : Operation} {args : List Expr} : R.node (.expr (.operation span op args)) →
    args.length ≠ op.arity → R.Raises (.arity op.name op.arity args.length)

theorem Raises.ofValues {R : Region} {c : Cause} (h : c.isOfValues = true) : R.Raises c := by
  apply Raises.other <;> cases c <;> simp [Cause.isOfValues, Cause.isSyntactic] at h ⊢

structure Admits (R : Region) (f : Fault) : Prop where
  cause : R.Raises f.cause
  place : ∀ s, f.span? = some s → ∃ a, R.node a ∧ a.span = s

/-- Both outcomes are the same and within the region, or the first is a failure of the kind `X`. -/
inductive Same (R : Region) (X : Halt → Prop) {α : Type} :
    EStateM.Result Halt Machine α → EStateM.Result Halt Machine α → Prop where
  | ok {a m} : R.Holds m → Same R X (.ok a m) (.ok a m)
  | outOfFuel {m} : R.Holds m → Same R X (.error .outOfFuel m) (.error .outOfFuel m)
  | fault {f m} : R.Holds m → R.Admits f → Same R X (.error (.fault f) m) (.error (.fault f) m)
  | broken {h m r} : X h → Same R X (.error h m) r

def Agrees (R : Region) (X : Halt → Prop) {α : Type} (x y : Eval α) : Prop :=
  ∀ m, R.Holds m → R.Same X (x m) (y m)

end Region

namespace Region.Agrees
variable {R : Region} {X : Halt → Prop} {α β γ : Type} {x y : Eval α}

theorem pure (a : α) : R.Agrees X (Pure.pure a) (Pure.pure a) := fun _ hm => .ok hm

theorem outOfFuel : R.Agrees X (throw .outOfFuel : Eval α) (throw .outOfFuel) := fun _ hm => .outOfFuel hm

theorem fault {f : Fault} (hf : R.Admits f) : R.Agrees X (throw (.fault f) : Eval α) (throw (.fault f)) :=
  fun _ hm => .fault hm hf

theorem raise {c : Cause} (hc : R.Raises c) : R.Agrees X (Eval.raise c : Eval α) (Eval.raise c) :=
  fault ⟨hc, by simp⟩

theorem get {f g : Machine → Eval α} (h : ∀ m, R.Holds m → R.Agrees X (f m) (g m)) :
    R.Agrees X (MonadState.get >>= f) (MonadState.get >>= g) :=
  fun m hm => h m hm m hm

theorem bind {f g : α → Eval β} (hx : R.Agrees X x y) (hf : ∀ a, R.Agrees X (f a) (g a)) :
    R.Agrees X (x >>= f) (y >>= g) := by
  intro m hm
  have h := hx m hm
  simp only [Bind.bind, EStateM.bind]
  generalize x m = r at h
  generalize y m = r' at h
  cases h with
  | ok hm' => exact hf _ _ hm'
  | outOfFuel hm' => exact .outOfFuel hm'
  | fault hm' hf' => exact .fault hm' hf'
  | broken hh => exact .broken hh

theorem map (f : α → β) (hx : R.Agrees X x y) : R.Agrees X (f <$> x) (f <$> y) :=
  hx.bind fun a => pure (f a)

theorem ite {p : Prop} [Decidable p] {x' y' : Eval α} (hx : R.Agrees X x y) (hx' : R.Agrees X x' y') :
    R.Agrees X (if p then x else x') (if p then y else y') := by
  by_cases hp : p <;> simpa [hp]

theorem mapM {f g : γ → Eval β} {l : List γ} (h : ∀ c ∈ l, R.Agrees X (f c) (g c)) :
    R.Agrees X (l.mapM f) (l.mapM g) := by
  induction l with
  | nil => exact pure []
  | cons c l ih =>
    simp only [List.mapM_cons]
    exact (h c (by simp)).bind fun b => (ih fun d hd => h d (by simp [hd])).bind fun bs => pure _

/-- There are as many results as computations. -/
theorem mapM_bind {f g : γ → Eval β} {l : List γ} {k k' : List β → Eval α} (h : ∀ c ∈ l, R.Agrees X (f c) (g c))
    (hk : ∀ bs, bs.length = l.length → R.Agrees X (k bs) (k' bs)) :
    R.Agrees X (l.mapM f >>= k) (l.mapM g >>= k') := by
  induction l generalizing k k' with
  | nil =>
    simp only [List.mapM_nil, pure_bind]
    exact hk [] rfl
  | cons c l ih =>
    simp only [List.mapM_cons, bind_assoc, pure_bind]
    refine (h c (by simp)).bind fun b => ih (fun d hd => h d (by simp [hd])) fun bs hbs => hk (b :: bs) ?_
    simp [hbs]

theorem foldlM {f g : β → γ → Eval β} (h : ∀ b c, R.Agrees X (f b c) (g b c)) (l : List γ) (b : β) :
    R.Agrees X (l.foldlM f b) (l.foldlM g b) := by
  induction l generalizing b with
  | nil => exact pure b
  | cons c l ih =>
    simp only [List.foldlM_cons]
    exact (h b c).bind ih

theorem forM {f : γ → Eval PUnit} (h : ∀ c, R.Agrees X (f c) (f c)) (l : List γ) :
    R.Agrees X (l.forM f) (l.forM f) := by
  induction l with
  | nil => exact pure _
  | cons c l ih => exact (h c).bind fun _ => ih

theorem ofExcept {r : Except Cause α} (hr : FailsByValues r) : R.Agrees X (Eval.ofExcept r) (Eval.ofExcept r) := by
  cases r with
  | ok a => exact pure a
  | error c => exact raise (.ofValues (hr c rfl))

/-- A change that leaves the procedures alone. -/
theorem modify {f : Machine → Machine} (hf : ∀ m, (f m).workspace.procedures = m.workspace.procedures) :
    R.Agrees X (modify f : Eval PUnit) (modify f) := by
  intro m hm
  refine .ok fun key p hp => hm key p ?_
  rwa [← hf m]

theorem within {enter leave : Workspace → Workspace} (henter : ∀ w, (enter w).procedures = w.procedures)
    (hleave : ∀ w, (leave w).procedures = w.procedures) (hx : R.Agrees X x y) :
    R.Agrees X (Eval.within enter leave x) (Eval.within enter leave y) := by
  intro m hm
  have h := hx { m with workspace := enter m.workspace } (by simpa [Holds, henter] using hm)
  have hout : ∀ m' : Machine, R.Holds m' → R.Holds { m' with workspace := leave m'.workspace } := by
    intro m' hm'
    simpa [Holds, hleave] using hm'
  simp only [Eval.within]
  generalize x { m with workspace := enter m.workspace } = r at h
  generalize y { m with workspace := enter m.workspace } = r' at h
  cases h with
  | ok hm' => exact .ok (hout _ hm')
  | outOfFuel hm' => exact .outOfFuel (hout _ hm')
  | fault hm' hf => exact .fault (hout _ hm') hf
  | broken hh => exact .broken hh

section
-- A failure of the kind `X` has its place, so that nothing on its way out changes it.
variable (hX : ∀ f, X (.fault f) → f.span? ≠ none)
include hX

theorem locate {a : Node} (ha : R.node a) (hx : R.Agrees X x y) :
    R.Agrees X (Eval.locate a.span x) (Eval.locate a.span y) := by
  intro m hm
  have h := hx m hm
  simp only [Eval.locate]
  generalize x m = r at h
  generalize y m = r' at h
  cases h with
  | ok hm' => exact .ok hm'
  | outOfFuel hm' => exact .outOfFuel hm'
  | @fault f m' hm' hf =>
    refine .fault hm' ⟨hf.cause, fun s hs => ?_⟩
    cases hspan : f.span? with
    | none => exact ⟨a, ha, by simpa [Fault.orAt, hspan] using hs⟩
    | some s' => exact hf.place s (by simpa [Fault.orAt, hspan] using hs)
  | @broken h m' r' hh =>
    cases h with
    | outOfFuel => exact .broken hh
    | fault f =>
      simp only [Fault.orAt_of_span (hX f hh)]
      exact .broken hh

variable {eval eval' : Expr → Eval Value} {exec exec' : Stmt → Eval Flow} {e : Expr}

theorem number (operation : String) (hnode : R.node (.expr e)) (h : R.Agrees X (eval e) (eval' e)) :
    R.Agrees X (Eval.number eval operation e) (Eval.number eval' operation e) :=
  h.bind fun v => locate hX hnode (ofExcept (v.toNumber_fails operation))

theorem truth (operation : String) (hnode : R.node (.expr e)) (h : R.Agrees X (eval e) (eval' e)) :
    R.Agrees X (Eval.truth eval operation e) (Eval.truth eval' operation e) :=
  h.bind fun v => locate hX hnode (ofExcept (v.toBool_fails operation))

end

variable {eval eval' : Expr → Eval Value} {exec exec' : Stmt → Eval Flow}

theorem block {body : List Stmt} (h : ∀ s ∈ body, R.Agrees X (exec s) (exec' s)) :
    R.Agrees X (Eval.block exec body) (Eval.block exec' body) := by
  induction body with
  | nil => exact pure _
  | cons s rest ih =>
    simp only [Eval.block]
    refine (h s (by simp)).bind fun flow => ?_
    cases flow with
    | normal => exact ih fun s' hs' => h s' (by simp [hs'])
    | output v => exact pure _
    | stop => exact pure _

theorem setVariable (name : String) (v : Value) :
    R.Agrees X (Eval.modifyWorkspace (·.set name v)) (Eval.modifyWorkspace (·.set name v)) :=
  modify fun m => by cases h : m.workspace.frames <;> simp [Workspace.set, h]

section
variable {body body' : Eval Flow} (hbody : R.Agrees X body body')
include hbody

theorem repeatFrom (left i : Nat) : R.Agrees X (Eval.repeatFrom body left i) (Eval.repeatFrom body' left i) := by
  induction left generalizing i with
  | zero => exact pure _
  | succ left ih =>
    have hcount : R.Agrees X (Eval.modifyWorkspace (·.setCount i)) (Eval.modifyWorkspace (·.setCount i)) :=
      modify fun m => by cases h : m.workspace.counters <;> simp [Workspace.setCount, h]
    refine hcount.bind fun _ => hbody.bind fun flow => ?_
    cases flow with
    | normal => exact ih (i + 1)
    | output v => exact pure _
    | stop => exact pure _

theorem repeatTimes (count : Nat) : R.Agrees X (Eval.repeatTimes count body) (Eval.repeatTimes count body') :=
  within (by simp [Workspace.startCount]) (by simp [Workspace.endCount]) (repeatFrom hbody count 1)

theorem whileTrue {cond cond' : Eval Bool} (hcond : R.Agrees X cond cond') (fuel : Nat) :
    R.Agrees X (Eval.whileTrue cond body fuel) (Eval.whileTrue cond' body' fuel) := by
  induction fuel with
  | zero => exact outOfFuel
  | succ fuel ih =>
    simp only [Eval.whileTrue]
    refine hcond.bind fun go => .ite (hbody.bind fun flow => ?_) (pure _)
    cases flow with
    | normal => exact ih
    | output v => exact pure _
    | stop => exact pure _

theorem forFrom (var : String) (stop step : Float) (fuel : Nat) (i : Float) :
    R.Agrees X (Eval.forFrom var stop step body fuel i) (Eval.forFrom var stop step body' fuel i) := by
  induction fuel generalizing i with
  | zero => exact outOfFuel
  | succ fuel ih =>
    simp only [Eval.forFrom]
    refine .ite ((setVariable var (.number i)).bind fun _ => hbody.bind fun flow => ?_) (pure _)
    cases flow with
    | normal => exact ih (i + step)
    | output v => exact pure _
    | stop => exact pure _

end

theorem declare (name : String) : R.Agrees X (Eval.declare name) (Eval.declare name) := by
  refine .get fun m hm => ?_
  cases hd : m.workspace.declare name with
  | error c => exact raise (.ofValues (m.workspace.declare_fails name c hd))
  | ok w =>
    have hw : w.procedures = m.workspace.procedures := by
      cases hframes : m.workspace.frames <;> simp [Workspace.declare, hframes] at hd
      simp [← hd]
    exact fun m' _ => .ok (by simpa [Holds, hw] using hm)

theorem invoke {p : Procedure} (h : ∀ s ∈ p.body, R.Agrees X (exec s) (exec' s)) (args : List Value) :
    R.Agrees X (Eval.invoke exec p args) (Eval.invoke exec' p args) := by
  refine (within (by simp [Workspace.enter]) (by simp [Workspace.leave]) (block h)).bind fun flow => ?_
  cases flow <;> exact pure _

theorem keep {test test' : Value → Eval Bool} (h : ∀ v, R.Agrees X (test v) (test' v)) (items : List Value) :
    R.Agrees X (Eval.keep test items) (Eval.keep test' items) := by
  induction items with
  | nil => exact pure _
  | cons v rest ih => exact (h v).bind fun _ => ih.bind fun _ => pure _

/-- Behind the check of a number of inputs the number is right. -/
theorem expectArity {key : String} {p : Procedure} {supplied : Nat} (hp : R.procedure key p)
    (hx : supplied = p.arity → R.Agrees X x y) :
    R.Agrees X (Eval.expectArity p supplied >>= fun _ => x) (Eval.expectArity p supplied >>= fun _ => y) := by
  unfold Eval.expectArity
  by_cases h : p.arity = supplied
  · simp only [if_pos h]
    exact (pure _).bind fun _ => hx h.symm
  · simp only [if_neg h]
    exact fun m hm => .fault hm ⟨.procedure supplied hp, by simp⟩

section
variable {run run' : Procedure → List Value → Eval Value} {name : String}
  (hrun : ∀ p args, R.procedure (fold name) p → args.length = p.arity → R.Agrees X (run p args) (run' p args))
include hrun

/-- A procedure is run only on as many inputs as it has parameters. -/
theorem call {args : List Expr} {unknown : Cause} (hunknown : R.Raises unknown)
    (heval : ∀ e ∈ args, R.Agrees X (eval e) (eval' e)) :
    R.Agrees X (Eval.call eval run name args unknown) (Eval.call eval' run' name args unknown) := by
  refine .get fun m hm => ?_
  cases hp : m.workspace.procedure? name with
  | none => exact raise hunknown
  | some p =>
    have hstored := hm _ p hp
    by_cases h : args.length = p.arity
    · simp only [ne_eq, h, not_true_eq_false, if_false]
      exact mapM_bind heval fun values hlength => hrun p values hstored (hlength.trans h)
    · simp only [ne_eq, h, not_false_eq_true, if_true]
      exact raise (.procedure _ hstored)

theorem traverse (t : Traversal) (list : Value) :
    R.Agrees X (Eval.traverse run t name list) (Eval.traverse run' t name list) := by
  refine .get fun m hm => ?_
  cases hp : m.workspace.procedure? name with
  | none => exact raise (.other rfl (by simp))
  | some p =>
    have hstored := hm _ p hp
    refine (ofExcept (list.toList_fails _)).bind fun items => ?_
    cases t with
    | map => exact expectArity hstored fun h => (mapM fun v _ => hrun p [v] hstored h).bind fun _ => pure _
    | filter =>
      refine expectArity hstored fun h => (keep (fun v => ?_) items).bind fun _ => pure _
      exact (hrun p [v] hstored h).bind fun result => ofExcept (result.toBool_fails _)
    | reduce =>
      refine expectArity hstored fun h => ?_
      cases items with
      | nil => exact raise (.ofValues rfl)
      | cons v rest => exact foldlM (fun acc item => hrun p [acc, item] hstored h) rest v
    | apply => exact expectArity hstored fun h => hrun p items hstored h

end

theorem operation {span : Span} {op : Operation} {args : List Expr} {values : List Value}
    (hnode : R.node (.expr (.operation span op args))) (hlength : values.length = args.length) :
    R.Agrees X (op.apply values) (op.apply values) := by
  by_cases h : values.length = op.arity
  · rcases Operation.apply_of_length h with ⟨v, -, hdraw⟩ | ⟨r, hr, hfails⟩
    · rw [hdraw]
      exact (ofExcept (v.toNumber_fails _)).bind fun n m hm => .ok hm
    · rw [hr]
      exact ofExcept hfails
  · rw [Operation.apply_of_length_ne h]
    rw [hlength] at h ⊢
    exact raise (.operation hnode h)

theorem command {span : Span} {c : Command} {args : List Expr} (hnode : R.node (.stmt (.command span c args)))
    (heval : ∀ e ∈ args, R.Agrees X (eval e) (eval' e)) :
    R.Agrees X (Eval.command eval c args) (Eval.command eval' c args) := by
  unfold Eval.command
  by_cases h : args.length = c.arity
  · rw [if_neg (by simpa using h), if_neg (by simpa using h)]
    refine (mapM heval).bind fun values => ?_
    cases hn : c.numbers (values.zip (args.map Expr.span)) with
    | ok numbers => exact modify fun m => rfl
    | error f =>
      obtain ⟨hcause, hplace⟩ := Command.numbers_blame hn
      refine fault ⟨.ofValues hcause, fun s hs => ?_⟩
      obtain ⟨⟨v, span⟩, hmem, rfl⟩ := List.mem_map.mp (hplace s hs)
      obtain ⟨e, he, rfl⟩ := List.mem_map.mp (List.of_mem_zip hmem).2
      exact ⟨.expr e, R.child hnode (List.mem_map_of_mem he), rfl⟩
  · rw [if_pos h, if_pos h]
    exact raise (.command hnode h)

end Region.Agrees

namespace Region
open Agrees
variable {R : Region} {X : Halt → Prop} {r r' : Node.Runner} {run run' : Procedure → List Value → Eval Value}
  (hX : ∀ f, X (.fault f) → f.span? ≠ none) (hr : ∀ a, R.node a → R.Agrees X (r a) (r' a))
include hX hr

section
variable {a : Node} (ha : R.node a)
include ha

theorem truth_child (operation : String) (e : Expr) (he : .expr e ∈ a.children) :
    R.Agrees X (Eval.truth (fun e => r (.expr e)) operation e) (Eval.truth (fun e => r' (.expr e)) operation e) :=
  truth hX operation (R.child ha he) (hr _ (R.child ha he))

theorem number_child (operation : String) (e : Expr) (he : .expr e ∈ a.children) :
    R.Agrees X (Eval.number (fun e => r (.expr e)) operation e) (Eval.number (fun e => r' (.expr e)) operation e) :=
  number hX operation (R.child ha he) (hr _ (R.child ha he))

end

theorem agrees_expr {e : Expr} (he : R.node (.expr e)) (turns : Nat)
    (hrun : ∀ name, (Node.expr e).callee? = some name → ∀ p args, R.procedure (fold name) p → args.length = p.arity →
      R.Agrees X (run p args) (run' p args)) :
    R.Agrees X (Node.runBy turns r run (.expr e)) (Node.runBy turns r' run' (.expr e)) := by
  have heval : ∀ e', .expr e' ∈ (Node.expr e).children → R.Agrees X (r (.expr e')) (r' (.expr e')) :=
    fun _ h => hr _ (R.child he h)
  have htruth := truth_child hX hr he
  have hnumber := number_child hX hr he
  refine locate hX he ?_
  cases e with
  | number span value => exact pure _
  | list span items => exact (mapM fun e h => heval e (by simp [Node.children, h])).bind fun _ => pure _
  | thing span name =>
    refine .get fun m _ => ?_
    cases m.workspace.get? name with
    | none => exact raise (.other rfl (by simp))
    | some v => exact pure _
  | binary span op left right =>
    cases op
    -- These two may leave out their right side.
    case and =>
      exact (htruth _ left (by simp [Node.children])).bind fun _ =>
        .ite ((htruth _ right (by simp [Node.children])).bind fun _ => pure _) (pure _)
    case or =>
      exact (htruth _ left (by simp [Node.children])).bind fun _ =>
        .ite (pure _) ((htruth _ right (by simp [Node.children])).bind fun _ => pure _)
    all_goals
      exact (heval left (by simp [Node.children])).bind fun _ =>
        (heval right (by simp [Node.children])).bind fun _ => ofExcept (BinaryOp.apply_fails _ _ _)
  | unary span op operand =>
    cases op with
    | neg => exact (hnumber _ operand (by simp [Node.children])).bind fun _ => pure _
    | plus => exact (hnumber _ operand (by simp [Node.children])).bind fun _ => pure _
    | not => exact (htruth _ operand (by simp [Node.children])).bind fun _ => pure _
  | operation span op args =>
    exact mapM_bind (fun e h => heval e (by simp [Node.children, h])) fun values hlength => operation he hlength
  | traverse span t procedure items =>
    exact (heval items (by simp [Node.children])).bind fun v => traverse (hrun procedure rfl) t v
  | query span q => exact .get fun m _ => ofExcept (q.answer_fails m)
  | call span name args =>
    exact call (hrun name rfl) (.other rfl (by simp)) fun e h => heval e (by simp [Node.children, h])

theorem agrees_stmt {s : Stmt} (hs : R.node (.stmt s)) (turns : Nat)
    (hrun : ∀ name, (Node.stmt s).callee? = some name → ∀ p args, R.procedure (fold name) p → args.length = p.arity →
      R.Agrees X (run p args) (run' p args)) :
    R.Agrees X (Node.runBy turns r run (.stmt s)) (Node.runBy turns r' run' (.stmt s)) := by
  have heval : ∀ e, .expr e ∈ (Node.stmt s).children → R.Agrees X (r (.expr e)) (r' (.expr e)) :=
    fun _ h => hr _ (R.child hs h)
  have htruth := truth_child hX hr hs
  have hnumber := number_child hX hr hs
  have hblock : ∀ body : List Stmt, (∀ s' ∈ body, .stmt s' ∈ (Node.stmt s).children) →
      R.Agrees X (Eval.block (fun s => r (.stmt s)) body) (Eval.block (fun s => r' (.stmt s)) body) :=
    fun body h => block fun s' hs' => hr _ (R.child hs (h s' hs'))
  refine locate hX hs ?_
  cases s with
  | command span c args =>
    exact (command hs fun e h => heval e (by simpa [Node.children] using h)).bind fun _ => pure _
  | call span name args =>
    refine (map _ (call (hrun name rfl) (.other rfl (by simp)) fun e h => heval e ?_)).bind fun _ => pure _
    simpa [Node.children] using h
  | expression e => exact (map _ (heval e (by simp [Node.children]))).bind fun _ => pure _
  | loop span count body =>
    exact (hnumber _ count (by simp [Node.children])).bind fun _ =>
      repeatTimes (hblock body (by simp [Node.children])) _
  | ifThen span cond body =>
    exact (htruth _ cond (by simp [Node.children])).bind fun _ => .ite (hblock body (by simp [Node.children])) (pure _)
  | ifElse span cond yes no =>
    refine (htruth _ cond (by simp [Node.children])).bind fun _ => .ite (hblock yes ?_) (hblock no ?_)
    all_goals
      intro s' hs'
      simp [Node.children, hs']
  | whileTrue span cond body =>
    exact whileTrue (hblock body (by simp [Node.children])) (htruth _ cond (by simp [Node.children])) turns
  | forEach span var low high step? body =>
    refine (hnumber _ low (by simp [Node.children])).bind fun start => ?_
    refine (hnumber _ high (by simp [Node.children])).bind fun stop => ?_
    have hturns : ∀ step : Float, R.Agrees X
        (if step == 0 then Eval.raise .zeroStep
          else Eval.forFrom var stop step (Eval.block (fun s => r (.stmt s)) body) turns start)
        (if step == 0 then Eval.raise .zeroStep
          else Eval.forFrom var stop step (Eval.block (fun s => r' (.stmt s)) body) turns start) :=
      fun step => .ite (raise (.ofValues rfl))
        (forFrom (hblock body (by simp [Node.children])) var stop step turns start)
    cases step? with
    | none => exact (pure _).bind hturns
    | some e => exact (hnumber _ e (by simp [Node.children])).bind hturns
  | define span name params body =>
    exact .bind (fun m hm => .ok (hm.define hs)) fun _ => pure _
  | make span name value =>
    exact (heval value (by simp [Node.children])).bind fun v => (setVariable name v).bind fun _ => pure _
  | output span value => exact (heval value (by simp [Node.children])).bind fun _ => pure _
  | stop span => exact pure _
  | print span value =>
    exact (heval value (by simp [Node.children])).bind fun _ => .bind (modify (by simp)) fun _ => pure _
  | declare span names => exact (forM (fun name => declare name) names).bind fun _ => pure _

/-- One step of a run does not tell runners apart that agree in the region, nor ways to run procedures that agree on
the procedures that the node looks for in the region, with the right number of inputs. -/
theorem agrees_runBy {a : Node} (ha : R.node a) (turns : Nat)
    (hrun : ∀ name, a.callee? = some name → ∀ p args, R.procedure (fold name) p → args.length = p.arity →
      R.Agrees X (run p args) (run' p args)) :
    R.Agrees X (Node.runBy turns r run a) (Node.runBy turns r' run' a) := by
  cases a with
  | expr e => exact agrees_expr hX hr ha turns hrun
  | stmt s => exact agrees_stmt hX hr ha turns hrun

theorem agrees_runWith {a : Node} (ha : R.node a) (turns : Nat) :
    R.Agrees X (Node.runWith turns r a) (Node.runWith turns r' a) :=
  agrees_runBy hX hr ha turns fun _ hcallee _ args hp _ =>
    invoke (fun s hs => hr (.stmt s) (R.enter ha hcallee hp hs)) args

omit hX hr in
/-- A run that starts in the region stays in it, and so does the place of its fault. -/
theorem agrees_run (fuel : Nat) {a : Node} (ha : R.node a) : R.Agrees (fun _ => False) (a.run fuel) (a.run fuel) := by
  induction fuel generalizing a with
  | zero => cases a <;> exact outOfFuel
  | succ n ih =>
    rw [Node.run_succ]
    exact agrees_runWith (by simp) (fun b hb => ih hb) ha n

end Region
end Logo
