import Logo.Proofs.Causes
import Logo.Proofs.Follows.Loops

/-! Nodes side by side. What a node does by itself asks little of a relation of machines: variables, procedures and
queries are looked up alike, and each small change of both machines leaves them related. Given that, a node follows
another one if its parts, its blocks and the bodies it calls do. The bodies of procedures may be changed from one
machine to the other. -/
namespace Logo

variable (b : List Stmt → List Stmt)

def Procedure.mapBody (p : Procedure) : Procedure := { p with body := b p.body }

/-- The statement with changed blocks; the statements in them are left to the change. -/
def Stmt.mapBlocks : Stmt → Stmt
  | .loop span count body => .loop span count (b body)
  | .ifThen span cond body => .ifThen span cond (b body)
  | .ifElse span cond yes no => .ifElse span cond (b yes) (b no)
  | .whileTrue span cond body => .whileTrue span cond (b body)
  | .forEach span var low high step? body => .forEach span var low high step? (b body)
  | .define span name params body => .define span name params (b body)
  | s => s

theorem Stmt.span_mapBlocks (s : Stmt) : (s.mapBlocks b).span = s.span := by
  cases s <;> rfl

def Machine.onWorkspace (m : Machine) (f : Workspace → Workspace) : Machine := { m with workspace := f m.workspace }

/-- What a relation of machines needs so that nodes do the same on related machines: nothing that they look up tells the
machines apart, and what they do to both leaves them related. Loop counters and random numbers are left out. -/
structure Simulation (R : Machine → Machine → Prop) : Prop where
  get? {m m' : Machine} (name : String) : R m m' → m'.workspace.get? name = m.workspace.get? name
  procedure? {m m' : Machine} (name : String) : R m m' →
    m'.workspace.procedure? name = (m.workspace.procedure? name).map (Procedure.mapBody b)
  answer {m m' : Machine} (q : Query) : R m m' → q.answer m' = q.answer m
  set {m m' : Machine} (name : String) (v : Value) :
    R m m' → R (m.onWorkspace (·.set name v)) (m'.onWorkspace (·.set name v))
  depth {m m' : Machine} : R m m' → m'.workspace.depth = m.workspace.depth
  enter {m m' : Machine} (bindings : List (String × Value)) : R m m' →
    R (m.onWorkspace (·.enter bindings)) (m'.onWorkspace (·.enter bindings))
  leave {m m' : Machine} : R m m' → R (m.onWorkspace Workspace.leave) (m'.onWorkspace Workspace.leave)
  define {m m' : Machine} (p : Procedure) : R m m' →
    R (m.onWorkspace (·.define p)) (m'.onWorkspace (·.define (p.mapBody b)))
  act {m m' : Machine} (f : Turtle → Turtle) : R m m' →
    R { m with turtle := f m.turtle } { m' with turtle := f m'.turtle }
  print {m m' : Machine} (v : Value) : R m m' →
    R { m with printed := m.printed.push v } { m' with printed := m'.printed.push v }

namespace Eval
variable {b} {R : Machine → Machine → Prop} {α : Type}

theorem follows_raise (c : Cause) : Follows R id id (raise c : Eval α) (raise c) := .throw rfl

theorem follows_ofExcept (r : Except Cause α) : Follows R id id (ofExcept r) (ofExcept r) := by
  cases r with
  | ok a => exact .pure rfl
  | error c => exact follows_raise c

theorem follows_locate {x y : Eval α} (span : Span) (hx : Follows R id id x y) :
    Follows R id id (locate span x) (locate span y) := by
  intro m m' hm
  have hxy := hx m m' hm
  unfold locate
  generalize x m = r at hxy
  generalize y m' = r' at hxy
  cases hxy with
  | ok hn => exact .ok hn
  | @error e n n' hn => cases e <;> exact .error hn

theorem follows_modifyWorkspace {u u' : Workspace → Workspace}
    (hu : ∀ m m', R m m' → R (m.onWorkspace u) (m'.onWorkspace u')) :
    Follows R id id (modifyWorkspace u) (modifyWorkspace u') := .modify hu

/-- A bracket follows another if entering and leaving go from each relation of machines to the other. -/
theorem follows_within {S : Machine → Machine → Prop} {enter leave enter' leave' : Workspace → Workspace} {x y : Eval α}
    (henter : ∀ m m', R m m' → S (m.onWorkspace enter) (m'.onWorkspace enter'))
    (hleave : ∀ m m', S m m' → R (m.onWorkspace leave) (m'.onWorkspace leave')) (hx : Follows S id id x y) :
    Follows R id id (within enter leave x) (within enter' leave' y) := by
  intro m m' hm
  have hxy := hx _ _ (henter m m' hm)
  unfold Machine.onWorkspace at hxy
  unfold within
  generalize x { m with workspace := enter m.workspace } = r at hxy
  generalize y { m' with workspace := enter' m'.workspace } = r' at hxy
  cases hxy with
  | ok hn => exact .ok (hleave _ _ hn)
  | error hn => exact .error (hleave _ _ hn)

/-- A declaration is an assignment of 0 where a procedure runs. -/
theorem declare_eq (name : String) (m : Machine) : declare name m =
    (if m.workspace.depth = 0 then raise (.misplaced "LOCAL outside a procedure")
      else modifyWorkspace (·.set name (.number 0)) : Eval Unit) m := by
  have hbind : declare name m =
      (ofExcept (m.workspace.declare name) >>= fun w => modifyWorkspace fun _ => w : Eval Unit) m := rfl
  obtain ⟨⟨globals, frames, procedures, counters⟩, turtle, printed, random⟩ := m
  rw [hbind]
  cases frames <;> rfl

/-- What an operation does; one that draws a random number needs related draws. -/
theorem follows_operation {op : Operation}
    (hrandom : op = .random → ∀ n, Follows R id id (Operation.drawBelow n) (Operation.drawBelow n))
    (args : List Value) :
    Follows R id id (op.apply args) (op.apply args) := by
  by_cases h : args.length = op.arity
  · rcases Operation.apply_of_length h with ⟨v, hop, hdraw⟩ | ⟨r, hr, -⟩
    · rw [hdraw]
      exact .bind (follows_ofExcept _) fun n => hrandom hop n
    · rw [hr]
      exact follows_ofExcept r
  · rw [Operation.apply_of_length_ne h]
    exact follows_raise _

section
variable {eval eval' : Expr → Eval Value} (heval : ∀ e, Follows R id id (eval e) (eval' e))
include heval

theorem follows_number (operation : String) (e : Expr) :
    Follows R id id (number eval operation e) (number eval' operation e) :=
  .bind (heval e) fun _ => follows_locate _ (follows_ofExcept _)

theorem follows_truth (operation : String) (e : Expr) :
    Follows R id id (truth eval operation e) (truth eval' operation e) :=
  .bind (heval e) fun _ => follows_locate _ (follows_ofExcept _)

end
end Eval

namespace Simulation
open Eval
variable {b} {R : Machine → Machine → Prop} (h : Simulation b R)
include h

theorem setVariable (name : String) (v : Value) :
    Follows R id id (modifyWorkspace (·.set name v)) (modifyWorkspace (·.set name v)) :=
  follows_modifyWorkspace fun _ _ hm => h.set name v hm

theorem declareVariable (name : String) : Follows R id id (declare name) (declare name) := by
  intro m m' hm
  rw [declare_eq, declare_eq, h.depth hm]
  split
  · exact follows_raise _ m m' hm
  · exact h.setVariable name (.number 0) m m' hm

theorem command {eval eval' : Expr → Eval Value} (heval : ∀ e, Follows R id id (eval e) (eval' e)) (c : Command)
    (args : List Expr) : Follows R id id (Eval.command eval c args) (Eval.command eval' c args) := by
  refine .ite Iff.rfl (follows_raise _) (.bind (.mapM_id heval args) fun values => ?_)
  rw [id]
  cases c.numbers (values.zip (args.map Expr.span)) with
  | ok numbers => exact .modify fun m m' hm => h.act (c.act numbers) hm
  | error f => exact .throw rfl

/-- A procedure is run in a frame of its own. -/
theorem invoke {exec exec' : Stmt → Eval Flow} {p : Procedure}
    (hbody : Follows R id id (block exec p.body) (block exec' (b p.body))) (args : List Value) :
    Follows R id id (Eval.invoke exec p args) (Eval.invoke exec' (p.mapBody b) args) :=
  follows_invoke (follows_within (fun _ _ hm => h.enter _ hm) (fun _ _ hm => h.leave hm) hbody)

section
variable {run run' : Procedure → List Value → Eval Value}
  (hrun : ∀ p args, Follows R id id (run p args) (run' (p.mapBody b) args))
include hrun

theorem traverse (t : Traversal) (name : String) (items : Value) :
    Follows R id id (Eval.traverse run t name items) (Eval.traverse run' t name items) := by
  refine .get fun m m' hm => ?_
  rw [h.procedure? name hm]
  cases m.workspace.procedure? name with
  | none => exact follows_raise _
  | some p =>
    have harity : ∀ supplied, Follows R id id (expectArity p supplied) (expectArity (p.mapBody b) supplied) := fun _ =>
      .ite Iff.rfl (.pure rfl) (follows_raise _)
    refine .bind (follows_ofExcept _) fun values => ?_
    cases t with
    | map => exact .bind (harity 1) fun _ => .bind (.mapM_id (fun v => hrun p [v]) values) fun _ => .pure rfl
    | filter =>
      refine .bind (harity 1) fun _ => .bind (follows_keep (fun v => ?_) values) fun _ => .pure rfl
      exact .bind (hrun p [v]) fun _ => follows_ofExcept _
    | reduce =>
      refine .bind (harity 2) fun _ => ?_
      cases values with
      | nil => exact follows_raise _
      | cons v rest => exact .foldlM (fun acc item => hrun p [acc, item]) rest v
    | apply => exact .bind (harity values.length) fun _ => hrun p values

variable {eval eval' : Expr → Eval Value} (heval : ∀ e, Follows R id id (eval e) (eval' e))
include heval

theorem call (name : String) (args : List Expr) (unknown : Cause) :
    Follows R id id (Eval.call eval run name args unknown) (Eval.call eval' run' name args unknown) := by
  refine .get fun m m' hm => ?_
  rw [h.procedure? name hm]
  cases m.workspace.procedure? name with
  | none => exact follows_raise _
  | some p => exact .ite Iff.rfl (follows_raise _) (.bind (.mapM_id heval args) fun values => hrun p values)

theorem exprWith {e : Expr} (hrandom : ∀ span args, e = .operation span .random args →
      ∀ n, Follows R id id (Operation.drawBelow n) (Operation.drawBelow n)) :
    Follows R id id (Eval.exprWith eval run e) (Eval.exprWith eval' run' e) := by
  have htruth := follows_truth heval
  have hnumber := follows_number heval
  refine follows_locate _ ?_
  cases e with
  | number span value => exact .pure rfl
  | list span items => exact .bind (.mapM_id heval items) fun _ => .pure rfl
  | thing span name =>
    refine .get fun m m' hm => ?_
    rw [h.get? name hm]
    cases m.workspace.get? name with
    | none => exact follows_raise _
    | some v => exact .pure rfl
  | binary span op left right =>
    cases op
    -- These two may leave out their right side.
    case and =>
      exact .bind (htruth _ left) fun _ => .ite Iff.rfl (.bind (htruth _ right) fun _ => .pure rfl) (.pure rfl)
    case or =>
      exact .bind (htruth _ left) fun _ => .ite Iff.rfl (.pure rfl) (.bind (htruth _ right) fun _ => .pure rfl)
    all_goals exact .bind (heval left) fun _ => .bind (heval right) fun _ => follows_ofExcept _
  | unary span op operand =>
    cases op with
    | neg => exact .bind (hnumber _ operand) fun _ => .pure rfl
    | plus => exact .bind (hnumber _ operand) fun _ => .pure rfl
    | not => exact .bind (htruth _ operand) fun _ => .pure rfl
  | operation span op args =>
    refine .bind (.mapM_id heval args) fun values => follows_operation (fun hop => ?_) values
    exact hrandom span args (by rw [hop])
  | traverse span t procedure items => exact .bind (heval items) fun v => h.traverse hrun t procedure v
  | query span q =>
    refine .get fun m m' hm => ?_
    rw [h.answer q hm]
    exact follows_ofExcept _
  | call span name args => exact h.call hrun heval name args _

theorem stmtWith {exec exec' : Stmt → Eval Flow}
    (hblock : ∀ body, Follows R id id (block exec body) (block exec' (b body))) {turns : Nat} {s : Stmt}
    (hloop : ∀ span count body, s = .loop span count body → ∀ times,
      Follows R id id (repeatTimes times (block exec body)) (repeatTimes times (block exec' (b body)))) :
    Follows R id id (Eval.stmtWith eval exec run turns s) (Eval.stmtWith eval' exec' run' turns (s.mapBlocks b)) := by
  have htruth := follows_truth heval
  have hnumber := follows_number heval
  unfold Eval.stmtWith
  rw [Stmt.span_mapBlocks]
  refine follows_locate _ ?_
  cases s with
  | command span c args => exact .bind (h.command heval c args) fun _ => .pure rfl
  | call span name args => exact .bind (h.call hrun heval name args _).discard fun _ => .pure rfl
  | expression e => exact .bind (heval e).discard fun _ => .pure rfl
  | loop span count body => exact .bind (hnumber _ count) fun _ => hloop span count body rfl _
  | ifThen span cond body => exact .bind (htruth _ cond) fun _ => .ite Iff.rfl (hblock body) (.pure rfl)
  | ifElse span cond yes no => exact .bind (htruth _ cond) fun _ => .ite Iff.rfl (hblock yes) (hblock no)
  | whileTrue span cond body => exact follows_whileTrue rfl (htruth _ cond) (hblock body) turns
  | forEach span var low high step? body =>
    refine .bind (hnumber _ low) fun start => .bind (hnumber _ high) fun stop => ?_
    have hturns : ∀ step : Float, Follows R id id
        (if step == 0 then raise .zeroStep else forFrom var stop step (block exec body) turns start)
        (if step == 0 then raise .zeroStep else forFrom var stop step (block exec' (b body)) turns start) := fun step =>
      .ite Iff.rfl (follows_raise _) (follows_forFrom rfl (h.setVariable var) (hblock body) turns start)
    cases step? with
    | none => exact .bind (.pure rfl) hturns
    | some e => exact .bind (hnumber _ e) hturns
  | define span name params body =>
    exact .bind (follows_modifyWorkspace fun _ _ hm => h.define ⟨name, params, body⟩ hm) fun _ => .pure rfl
  | make span name value =>
    exact .bind (heval value) fun v => .bind (h.setVariable name v) fun _ => .pure rfl
  | output span value => exact .bind (heval value) fun _ => .pure rfl
  | stop span => exact .pure rfl
  | print span value => exact .bind (heval value) fun v => .bind (.modify fun _ _ hm => h.print v hm) fun _ => .pure rfl
  | declare span names =>
    have hnames : Follows R id id (names.forM declare) ((names.map id).forM declare) := .forM h.declareVariable names
    rw [List.map_id] at hnames
    exact .bind hnames fun _ => .pure rfl

end
end Simulation
end Logo
