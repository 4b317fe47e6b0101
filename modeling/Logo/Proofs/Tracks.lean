import Logo.Proofs.Follows.Nodes
import Logo.Proofs.Renaming

/-! Two machines of which the second has other bodies for the procedures of the first, and maybe other random numbers.
A program sees no body before it calls the procedure, and no random number before it draws one. So what a node does on
the two machines is the same if what it executes is, step by step: its parts, its blocks and the bodies it calls. -/
namespace Logo

theorem Table.map_insert {α β : Type} (f : α → β) (t : Table α) (name : String) (a : α) :
    (t.insert name a).map f = (t.map f).insert name (f a) := by
  refine ext_entries ?_
  simp only [insert, map]
  induction t.entries with
  | nil => rfl
  | cons p rest ih =>
    obtain ⟨key, c⟩ := p
    by_cases h : key = fold name
    · simp [put, h]
    · simp [put, h, ih]

variable (b : List Stmt → List Stmt)

namespace Workspace

def mapBodies (w : Workspace) : Workspace := { w with procedures := w.procedures.map (Procedure.mapBody b) }

variable (w : Workspace)

theorem procedure?_mapBodies (name : String) :
    (w.mapBodies b).procedure? name = (w.procedure? name).map (Procedure.mapBody b) :=
  Table.get?_map _ _ _

theorem set_mapBodies (name : String) (v : Value) : (w.mapBodies b).set name v = (w.set name v).mapBodies b := by
  obtain ⟨globals, frames, procedures, counters⟩ := w
  cases frames <;> rfl

theorem setCount_mapBodies (i : Nat) : (w.mapBodies b).setCount i = (w.setCount i).mapBodies b := by
  obtain ⟨globals, frames, procedures, counters⟩ := w
  cases counters <;> rfl

theorem define_mapBodies (p : Procedure) : (w.mapBodies b).define (p.mapBody b) = (w.define p).mapBodies b := by
  simp only [define, mapBodies, Table.map_insert]
  rfl

end Workspace

variable (Q : Random → Random → Prop)

/-- The second machine has the procedures of the first with changed bodies, and random numbers related to those of the
first. All else is the same. -/
structure Machine.Tracks (m m' : Machine) : Prop where
  workspace : m'.workspace = m.workspace.mapBodies b
  turtle : m'.turtle = m.turtle
  printed : m'.printed = m.printed
  random : Q m.random m'.random

section
variable {b Q} {m m' : Machine}

theorem Query.answer_tracks (h : m.Tracks b Q m') (q : Query) : q.answer m' = q.answer m := by
  cases q
  case repCount => simp only [Query.answer, h.workspace, Workspace.mapBodies, Workspace.count]
  all_goals simp only [Query.answer, h.turtle]

/-- A change of the workspace that does not look at bodies. -/
theorem Machine.Tracks.onWorkspace {u u' : Workspace → Workspace}
    (hu : ∀ w : Workspace, u' (w.mapBodies b) = (u w).mapBodies b) (h : m.Tracks b Q m') :
    (m.onWorkspace u).Tracks b Q (m'.onWorkspace u') :=
  { h with workspace := by rw [Machine.onWorkspace, Machine.onWorkspace, h.workspace, hu] }

/-- Nodes do not tell a machine from one that tracks it. -/
theorem tracks_simulation : Simulation b (Machine.Tracks b Q) where
  get? name h := by
    rw [h.workspace]
    rfl
  procedure? name h := by rw [h.workspace, Workspace.procedure?_mapBodies]
  answer q h := q.answer_tracks h
  set name v h := h.onWorkspace fun w => w.set_mapBodies b name v
  depth h := by
    rw [h.workspace]
    rfl
  enter _ h := h.onWorkspace fun _ => rfl
  leave h := h.onWorkspace fun _ => rfl
  define p h := h.onWorkspace fun w => w.define_mapBodies b p
  act f h := { h with turtle := congrArg f h.turtle }
  print v h := { h with printed := congrArg (·.push v) h.printed }

end

abbrev Eval.Tracks {α : Type} (x y : Eval α) : Prop := Follows (Machine.Tracks b Q) id id x y

namespace Eval
variable {b Q}

theorem repeatTimes_tracks {body body' : Eval Flow} (hbody : Tracks b Q body body') (count : Nat) :
    Tracks b Q (repeatTimes count body) (repeatTimes count body') := by
  have hcount : ∀ i, Tracks b Q (modifyWorkspace (·.setCount i)) (modifyWorkspace (·.setCount i)) := fun i =>
    follows_modifyWorkspace fun _ _ h => h.onWorkspace fun w => w.setCount_mapBodies b i
  exact follows_within (fun _ _ h => h.onWorkspace fun _ => rfl) (fun _ _ h => h.onWorkspace fun _ => rfl)
    (follows_repeatFrom hcount hbody count 1)

theorem invoke_tracks {exec exec' : Stmt → Eval Flow} {p : Procedure}
    (hbody : Tracks b Q (block exec p.body) (block exec' (b p.body))) (args : List Value) :
    Tracks b Q (invoke exec p args) (invoke exec' (p.mapBody b) args) :=
  tracks_simulation.invoke hbody args

section
variable {eval eval' : Expr → Eval Value} {run run' : Procedure → List Value → Eval Value}
  (hrun : ∀ p args, Tracks b Q (run p args) (run' (p.mapBody b) args)) (heval : ∀ e, Tracks b Q (eval e) (eval' e))
include hrun heval

/-- A node that draws a random number needs the same random numbers. -/
theorem exprWith_tracks {e : Expr} (hrandom : ∀ span args, e = .operation span .random args → Q = Eq) :
    Tracks b Q (exprWith eval run e) (exprWith eval' run' e) := by
  refine tracks_simulation.exprWith hrun heval fun span args he n => ?_
  have hQ := hrandom span args he
  subst hQ
  refine .get fun m m' hm => ?_
  rw [← hm.random]
  exact .bind (.set { hm with random := rfl }) fun _ => .pure rfl

theorem stmtWith_tracks {exec exec' : Stmt → Eval Flow}
    (hblock : ∀ body, Tracks b Q (block exec body) (block exec' (b body))) (turns : Nat) (s : Stmt) :
    Tracks b Q (stmtWith eval exec run turns s) (stmtWith eval' exec' run' turns (s.mapBlocks b)) :=
  tracks_simulation.stmtWith hrun heval hblock fun _ _ body _ times => repeatTimes_tracks (hblock body) times

end
end Eval
end Logo
