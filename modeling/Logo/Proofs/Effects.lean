import Logo.Proofs.Keeps
import Logo.Proofs.Sessions

/-! What a run does to its machine, step by step. Each node by itself can do little: a command acts on the turtle,
`PRINT` prints, a definition stores a procedure, `RANDOM` moves the random numbers, and all of them may change variables
and counters. A run, however it ends, is a chain of such effects of the nodes it comes to; so what the effects of the
nodes in a region keep, a run in the region keeps. -/
namespace Logo

/-- What a node itself can do to a machine at one moment. -/
inductive Node.Effect : Node → Machine → Machine → Prop where
  | rebind {a : Node} {m : Machine} (w : Workspace) : w.procedures = m.workspace.procedures →
    Effect a m { m with workspace := w }
  | define {span : Span} {name : String} {params : List String} {body : List Stmt} (m : Machine) :
    Effect (.stmt (.define span name params body)) m { m with workspace := m.workspace.define ⟨name, params, body⟩ }
  | act {span : Span} {c : Command} {args : List Expr} (numbers : List Float) (m : Machine) :
    Effect (.stmt (.command span c args)) m { m with turtle := c.act numbers m.turtle }
  | print {span : Span} {e : Expr} (v : Value) (m : Machine) :
    Effect (.stmt (.print span e)) m { m with printed := m.printed.push v }
  | draw {span : Span} {args : List Expr} (r : Random) (m : Machine) :
    Effect (.expr (.operation span .random args)) m { m with random := r }

namespace Workspace

theorem procedures_set (w : Workspace) (name : String) (v : Value) : (w.set name v).procedures = w.procedures := by
  obtain ⟨globals, frames, procedures, counters⟩ := w
  cases frames <;> rfl

theorem procedures_setCount (w : Workspace) (i : Nat) : (w.setCount i).procedures = w.procedures := by
  obtain ⟨globals, frames, procedures, counters⟩ := w
  cases counters <;> rfl

theorem procedures_declare {w w' : Workspace} {name : String} (h : w.declare name = .ok w') :
    w'.procedures = w.procedures := by
  obtain ⟨globals, frames, procedures, counters⟩ := w
  cases frames <;> cases h
  rfl

end Workspace

/-! ### One node -/

namespace Eval
variable {S : Machine → Machine → Prop}

theorem declare_of_ok {name : String} {m : Machine} {w : Workspace} (h : m.workspace.declare name = .ok w) :
    declare name m = .ok () { m with workspace := w } := by
  have hbind : declare name m =
      (ofExcept (m.workspace.declare name) >>= fun w => modifyWorkspace fun _ => w : Eval Unit) m := rfl
  rw [hbind, h]
  rfl

theorem declare_of_error {name : String} {m : Machine} {c : Cause} (h : m.workspace.declare name = .error c) :
    declare name m = .error (.fault ⟨c, none⟩) m := by
  have hbind : declare name m =
      (ofExcept (m.workspace.declare name) >>= fun w => modifyWorkspace fun _ => w : Eval Unit) m := rfl
  rw [hbind, h]
  rfl

section
variable (hvariables : ∀ (m : Machine) w, w.procedures = m.workspace.procedures → S m { m with workspace := w })
include hvariables

theorem keeps_set (name : String) (v : Value) : Keeps S (modifyWorkspace (·.set name v)) :=
  keeps_modifyWorkspace fun m => hvariables m _ (m.workspace.procedures_set name v)

variable [IsPreorder Machine S]

/-- Entering and leaving a frame or a loop changes variables and counters only. -/
theorem keeps_bracket {α : Type} {enter leave : Workspace → Workspace} {x : Eval α}
    (henter : ∀ w, (enter w).procedures = w.procedures) (hleave : ∀ w, (leave w).procedures = w.procedures)
    (hx : Keeps S x) : Keeps S (within enter leave x) := by
  refine keeps_within hx fun m m' h => ?_
  have hin := hvariables m _ (henter m.workspace)
  have hout := hvariables m' _ (hleave m'.workspace)
  exact trans_of S hin (trans_of S h hout)

theorem keeps_repeatTimes {body : Eval Flow} (hbody : Keeps S body) (count : Nat) :
    Keeps S (repeatTimes count body) := by
  have hcount : ∀ i, Keeps S (modifyWorkspace (·.setCount i)) := fun i =>
    keeps_modifyWorkspace fun m => hvariables m _ (m.workspace.procedures_setCount i)
  exact keeps_bracket hvariables (fun _ => rfl) (fun _ => rfl) (keeps_repeatFrom hcount hbody count 1)

theorem keeps_declare (name : String) : Keeps S (declare name) := by
  intro m
  cases h : m.workspace.declare name with
  | error c =>
    rw [declare_of_error h]
    exact refl_of S m
  | ok w =>
    rw [declare_of_ok h]
    exact hvariables m w (Workspace.procedures_declare h)

theorem keeps_run_body {exec : Stmt → Eval Flow} (hexec : ∀ s, Keeps S (exec s)) (p : Procedure) (args : List Value) :
    Keeps S (invoke exec p args) :=
  keeps_invoke (keeps_bracket hvariables (fun _ => rfl) (fun _ => rfl) (keeps_block fun s _ => hexec s))

end

variable [IsPreorder Machine S]

/-- A statement keeps what its own effects, its parts and the calls of procedures keep. -/
theorem keeps_stmtWith {eval : Expr → Eval Value} {exec : Stmt → Eval Flow}
    {run : Procedure → List Value → Eval Value} {s : Stmt} (heffect : ∀ m m', (Node.stmt s).Effect m m' → S m m')
    (heval : ∀ e, Keeps S (eval e)) (hexec : ∀ s, Keeps S (exec s)) (hrun : ∀ p vs, Keeps S (run p vs)) (turns : Nat) :
    Keeps S (stmtWith eval exec run turns s) := by
  have hvariables : ∀ (m : Machine) w, w.procedures = m.workspace.procedures → S m { m with workspace := w } :=
    fun m w hw => heffect m _ (.rebind w hw)
  have htruth : ∀ operation e, Keeps S (truth eval operation e) := fun _ e => keeps_truth _ (heval e)
  have hnumber : ∀ operation e, Keeps S (number eval operation e) := fun _ e => keeps_number _ (heval e)
  have hblock : ∀ body, Keeps S (block exec body) := fun body => keeps_block fun s _ => hexec s
  refine keeps_locate _ ?_
  cases s with
  | command span c args =>
    exact .bind (keeps_command (fun numbers m => heffect m _ (.act numbers m)) fun e _ => heval e) fun _ => .pure _
  | call span name args => exact .bind (keeps_call name _ (fun e _ => heval e) hrun).discard fun _ => .pure _
  | expression e => exact .bind (heval e).discard fun _ => .pure _
  | loop span count body => exact .bind (hnumber _ count) fun _ => keeps_repeatTimes hvariables (hblock body) _
  | ifThen span cond body => exact .bind (htruth _ cond) fun _ => .ite (hblock body) (.pure _)
  | ifElse span cond yes no => exact .bind (htruth _ cond) fun _ => .ite (hblock yes) (hblock no)
  | whileTrue span cond body => exact keeps_whileTrue (htruth _ cond) (hblock body) turns
  | forEach span var low high step? body =>
    refine .bind (hnumber _ low) fun start => .bind (hnumber _ high) fun stop => ?_
    have hturns : ∀ step : Float, Keeps S
        (if step == 0 then raise .zeroStep else forFrom var stop step (block exec body) turns start) := fun step =>
      .ite (keeps_raise _) (keeps_forFrom (keeps_set hvariables var) (hblock body) turns start)
    cases step? with
    | none => exact .bind (.pure _) hturns
    | some e => exact .bind (hnumber _ e) hturns
  | define span name params body =>
    exact .bind (keeps_modifyWorkspace fun m => heffect m _ (.define m)) fun _ => .pure _
  | make span name value =>
    exact .bind (heval value) fun v => .bind (keeps_set hvariables name v) fun _ => .pure _
  | output span value => exact .bind (heval value) fun _ => .pure _
  | stop span => exact .pure _
  | print span value =>
    exact .bind (heval value) fun v => .bind (.modify fun m => heffect m _ (.print v m)) fun _ => .pure _
  | declare span names => exact .bind (.forM fun name _ => keeps_declare hvariables name) fun _ => .pure _

end Eval

theorem Node.keeps_runWith {S : Machine → Machine → Prop} [IsPreorder Machine S] {a : Node} {r : Runner}
    (heffect : ∀ m m', a.Effect m m' → S m m') (hr : ∀ b, Keeps S (r b)) (turns : Nat) :
    Keeps S (runWith turns r a) := by
  have hinvoke := Eval.keeps_run_body (fun m w hw => heffect m _ (.rebind w hw)) fun s => hr (.stmt s)
  cases a with
  | expr e =>
    refine Eval.keeps_exprWith (fun span args he m => ?_) (fun e => hr (.expr e)) hinvoke
    subst he
    exact heffect m _ (.draw m.random.next m)
  | stmt s => exact Eval.keeps_stmtWith heffect (fun e => hr (.expr e)) (fun s => hr (.stmt s)) hinvoke turns

/-! ### Runs in a region -/

namespace Region
variable {R : Region} {m m' : Machine}

def Steps (R : Region) : Machine → Machine → Prop :=
  Relation.ReflTransGen fun m m' => ∃ a, R.node a ∧ a.Effect m m'

instance : IsPreorder Machine R.Steps where
  refl _ := .refl
  trans _ _ _ := .trans

/-- What each effect keeps, a chain of effects keeps. -/
theorem Steps.keeps {S : Machine → Machine → Prop} [IsPreorder Machine S]
    (heffect : ∀ a m m', R.node a → a.Effect m m' → S m m') (h : R.Steps m m') : S m m' := by
  induction h with
  | refl => exact refl_of S m
  | tail _ hstep ih =>
    obtain ⟨a, ha, hstep⟩ := hstep
    exact trans_of S ih (heffect a _ _ ha hstep)

/-- Only definitions store procedures, and those of the region store procedures of the region. -/
theorem Steps.holds (h : R.Steps m m') (hm : R.Holds m) : R.Holds m' := by
  induction h with
  | refl => exact hm
  | tail _ hstep ih =>
    obtain ⟨a, ha, hstep⟩ := hstep
    cases hstep with
    | rebind w hw => exact fun key p hp => ih key p (hw ▸ hp)
    | define m => exact ih.define ha
    | act _ _ => exact ih
    | print _ _ => exact ih
    | draw _ _ => exact ih

/-- Some way to execute does in the region what a run does, and has a property everywhere that each step in the region
keeps: outside of the region it does nothing. -/
theorem exists_runner {P : (a : Node) → Eval a.Result → Prop} (hthrow : ∀ a, P a (throw .outOfFuel))
    (hstep : ∀ n r, (∀ b, P b (r b)) → ∀ a, R.node a → P a (Node.runWith n r a)) (n : Nat) : ∃ r : Node.Runner,
    (∀ a, R.node a → R.Agrees (fun _ => False) (a.run n) (r a)) ∧ ∀ a, P a (r a) := by
  classical
  induction n with
  | zero =>
    refine ⟨fun _ => throw .outOfFuel, fun a _ => ?_, hthrow⟩
    cases a <;> exact .outOfFuel
  | succ n ih =>
    obtain ⟨r, hagrees, hr⟩ := ih
    refine ⟨fun a => if R.node a then Node.runWith n r a else throw .outOfFuel, fun a ha => ?_, fun a => ?_⟩
    · simp only [if_pos ha, Node.run_succ]
      exact agrees_runWith (by simp) hagrees ha n
    · by_cases ha : R.node a
      · simp only [if_pos ha]
        exact hstep n r hr a ha
      · simp only [if_neg ha]
        exact hthrow a

/-- What one step in the region keeps, a run in the region keeps. -/
theorem keeps_run {S : Machine → Machine → Prop} [IsPreorder Machine S]
    (hstep : ∀ n r, (∀ b, Keeps S (r b)) → ∀ a, R.node a → Keeps S (Node.runWith n r a)) (fuel : Nat) {a : Node}
    (ha : R.node a) (hm : R.Holds m) : S m (final (a.run fuel m)) := by
  obtain ⟨r, hagrees, hkeeps⟩ := exists_runner (R := R) (P := fun _ x => Keeps S x) (fun _ => .throw _) hstep fuel
  rcases (hagrees a ha m hm).eq_or_broken with heq | ⟨_, _, _, hfalse⟩
  · rw [← heq]
    exact hkeeps a m
  · exact hfalse.elim

/-- A run in the region goes by effects of its nodes, whether it gives a result or fails. -/
theorem steps_run (fuel : Nat) {a : Node} (ha : R.node a) (hm : R.Holds m) : R.Steps m (final (a.run fuel m)) :=
  keeps_run (fun n _ hr b hb => Node.keeps_runWith (fun _ _ h => .single ⟨b, hb, h⟩) hr n) fuel ha hm

def Leads (R : Region) (m m' : Machine) : Prop := R.Holds m → R.Steps m m'

instance : IsPreorder Machine R.Leads where
  refl _ _ := .refl
  trans _ _ _ h h' hm := (h hm).trans (h' ((h hm).holds hm))

theorem leads_program {p : Program} (hp : ∀ s ∈ p, R.node (.stmt s)) (fuel : Nat) (last? : Option Value) :
    Keeps R.Leads (Eval.program fuel p last?) := by
  apply Eval.keeps_program
  · intro e he m hm
    exact steps_run fuel (R.child (hp _ he) (List.mem_singleton_self (Node.expr e))) hm
  · intro s hs m hm
    exact steps_run fuel (hp s hs) hm

/-- A source that is read as a program of the region, or not at all, is run by effects of the region. -/
theorem steps_enter {source : String} (hp : ∀ p, m.readProgram source = .ok p → ∀ s ∈ p, R.node (.stmt s))
    (hm : R.Holds m) : R.Steps m (final (Session.enter source m)) := by
  cases hread : m.readProgram source with
  | error h =>
    rw [Session.enter_of_error hread]
    exact .refl
  | ok p =>
    rw [Session.enter_of_ok hread]
    exact leads_program (hp p hread) Session.fuel none m hm

end Region

theorem Session.final_run (source : String) (m : Machine) : final (run source m) = final (enter source m) := by
  have hmap : run source m = EStateM.map (fun _ => ()) (enter source) m := rfl
  rw [hmap, EStateM.map]
  cases enter source m <;> rfl

end Logo
