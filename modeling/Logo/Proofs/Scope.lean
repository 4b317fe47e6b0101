import Logo.Proofs.Keeps

/-! Which variables a program can change. An expression changes none, whatever the procedures it calls do. A
statement changes only variables that it names itself, and only in the innermost scope; the counters of the loops
around it and the scopes of the callers come back as they were, also after a failure. -/
namespace Logo

mutual

/-- The names that a statement assigns to by `MAKE`, `FOR` or `LOCAL`, in its blocks too, but not in the body of
a procedure that it defines. -/
def Stmt.assigned : Stmt → List String
  | .loop _ _ body | .ifThen _ _ body | .whileTrue _ _ body => Stmt.assignedIn body
  | .ifElse _ _ yes no => Stmt.assignedIn yes ++ Stmt.assignedIn no
  | .forEach _ var _ _ _ body => var :: Stmt.assignedIn body
  | .make _ name _ => [name]
  | .declare _ names => names
  | _ => []

def Stmt.assignedIn : List Stmt → List String
  | [] => []
  | s :: rest => s.assigned ++ Stmt.assignedIn rest

end

theorem Stmt.assigned_subset {s : Stmt} {body : List Stmt} (h : s ∈ body) : s.assigned ⊆ assignedIn body := by
  induction body with
  | nil => cases h
  | cons t rest ih =>
    intro name hname
    rw [assignedIn, List.mem_append]
    rcases List.mem_cons.mp h with rfl | hs
    · exact .inl hname
    · exact .inr (ih hs hname)

namespace Workspace

def scope (w : Workspace) : Table Value := w.frames.headD w.globals

structure SameVariables (w w' : Workspace) : Prop where
  globals : w'.globals = w.globals
  frames : w'.frames = w.frames
  counters : w'.counters = w.counters

instance : IsPreorder Workspace SameVariables where
  refl _ := ⟨rfl, rfl, rfl⟩
  trans _ _ _ h h' := ⟨h'.globals.trans h.globals, h'.frames.trans h.frames, h'.counters.trans h.counters⟩

/-- Nothing but variables of the innermost scope is different, and of those only the ones with the given names. Of
the loop counters the part that `kept` takes is the same. -/
structure Confined (kept : List Nat → List Nat) (names : List String) (w w' : Workspace) : Prop where
  counters : kept w'.counters = kept w.counters
  depth : w'.depth = w.depth
  callers : w'.frames.tail = w.frames.tail
  globals : 0 < w.depth → w'.globals = w.globals
  scope : ∀ key, key ∉ names.map fold → w'.scope.get? key = w.scope.get? key

variable {kept : List Nat → List Nat} {names more : List String} {w w' : Workspace}

instance : IsPreorder Workspace (Confined kept names) where
  refl _ := ⟨rfl, rfl, rfl, fun _ => rfl, fun _ _ => rfl⟩
  trans _ _ _ h h' :=
    { counters := h'.counters.trans h.counters
      depth := h'.depth.trans h.depth
      callers := h'.callers.trans h.callers
      globals := fun hd => (h'.globals (h.depth ▸ hd)).trans (h.globals hd)
      scope := fun key hk => (h'.scope key hk).trans (h.scope key hk) }

theorem Confined.mono (h : Confined kept names w w') (hsub : names ⊆ more) : Confined kept more w w' :=
  { h with scope := fun key hk => h.scope key fun hmem => hk (List.map_subset fold hsub hmem) }

theorem SameVariables.confined (h : SameVariables w w') : Confined kept names w w' where
  counters := by rw [h.counters]
  depth := by rw [depth, depth, h.frames]
  callers := by rw [h.frames]
  globals _ := h.globals
  scope _ _ := by rw [scope, scope, h.frames, h.globals]

theorem confined_set {name : String} (hname : name ∈ names) (w : Workspace) (v : Value) :
    Confined kept names w (w.set name v) := by
  have hkey : ∀ (t : Table Value) key, key ∉ names.map fold → (t.insert name v).get? key = t.get? key := by
    intro t key hk
    have hne : key ≠ fold name := fun heq => hk (heq ▸ List.mem_map_of_mem hname)
    rw [Table.get?_insert, if_neg hne]
  obtain ⟨globals, frames, procedures, counters⟩ := w
  cases frames with
  | nil => exact ⟨rfl, rfl, rfl, fun h => absurd h (Nat.lt_irrefl 0), fun key hk => hkey _ key hk⟩
  | cons frame outer => exact ⟨rfl, rfl, rfl, fun _ => rfl, fun key hk => hkey _ key hk⟩

/-- A declaration is an assignment of 0 that needs a running procedure. -/
theorem declare_eq_set {name : String} (h : w.declare name = .ok w') : w' = w.set name (.number 0) := by
  obtain ⟨globals, frames, procedures, counters⟩ := w
  cases frames with
  | nil => cases h
  | cons frame outer => cases h; rfl

theorem confined_setCount (w : Workspace) (i : Nat) : Confined List.tail names w (w.setCount i) := by
  obtain ⟨globals, frames, procedures, counters⟩ := w
  cases counters <;> exact ⟨rfl, rfl, rfl, fun _ => rfl, fun _ _ => rfl⟩

/-- What happens in a new frame is forgotten when the frame is left. -/
theorem sameVariables_leave {bindings : List (String × Value)}
    (h : Confined id names (w.enter bindings) w') : SameVariables w w'.leave where
  globals := h.globals (Nat.succ_pos _)
  frames := h.callers
  counters := h.counters

/-- A loop leaves no counter behind, whatever its turns did to its own one. -/
theorem confined_endCount (h : Confined List.tail names w.startCount w') : Confined id names w w'.endCount :=
  { h with counters := h.counters }

end Workspace

namespace Eval
open Workspace
variable {names : List String}

theorem confined_of_same {α : Type} {x : Eval α} (h : Keeps (OnWorkspace SameVariables) x) :
    Keeps (OnWorkspace (Confined id names)) x :=
  h.mono fun _ _ hs => hs.confined

theorem confined_declare {name : String} (hname : name ∈ names) :
    Keeps (OnWorkspace (Confined id names)) (declare name) := by
  intro m
  change Confined id names m.workspace (final ((ofExcept (m.workspace.declare name) >>= _ : Eval Unit) m)).workspace
  cases h : m.workspace.declare name with
  | error c => exact refl_of (Confined id names) _
  | ok w =>
    rw [declare_eq_set h]
    exact confined_set hname _ _

theorem confined_repeatTimes {body : Eval Flow} (h : Keeps (OnWorkspace (Confined id names)) body) (count : Nat) :
    Keeps (OnWorkspace (Confined id names)) (repeatTimes count body) := by
  -- During the turns the loop's own counter lies on top, and only those below it have to stay.
  have hbody : Keeps (OnWorkspace (Confined List.tail names)) body :=
    h.mono fun _ _ hs => { hs with counters := congrArg List.tail hs.counters }
  refine keeps_within (keeps_repeatFrom (fun i => ?_) hbody count 1) fun _ _ => confined_endCount
  exact keeps_modifyWorkspace fun m => confined_setCount m.workspace i

/-- A call runs in a frame of its own, so its caller sees no variable change. -/
theorem same_invoke {exec : Stmt → Eval Flow}
    (h : ∀ s, Keeps (OnWorkspace (Confined id s.assigned)) (exec s)) (p : Procedure) (args : List Value) :
    Keeps (OnWorkspace SameVariables) (invoke exec p args) := by
  have hblock : Keeps (OnWorkspace (Confined id (Stmt.assignedIn p.body))) (block exec p.body) :=
    keeps_block fun s hs => (h s).mono fun _ _ hc => hc.mono (Stmt.assigned_subset hs)
  exact keeps_invoke (keeps_within hblock fun _ _ => sameVariables_leave)

theorem confined_stmt_succ {n : Nat} (hexpr : ∀ e, Keeps (OnWorkspace SameVariables) (expr n e))
    (hstmt : ∀ s, Keeps (OnWorkspace (Confined id s.assigned)) (stmt n s)) (s : Stmt) :
    Keeps (OnWorkspace (Confined id s.assigned)) (stmt (n + 1) s) := by
  have hcall : ∀ name args unknown,
      Keeps (OnWorkspace SameVariables) (call (expr n) (invoke (stmt n)) name args unknown) :=
    fun name _ unknown => keeps_call name unknown (fun e _ => hexpr e) (same_invoke hstmt)
  have htruth : ∀ {names} operation e, Keeps (OnWorkspace (Confined id names)) (truth (expr n) operation e) :=
    fun _ e => confined_of_same (keeps_truth _ (hexpr e))
  have hnumber : ∀ {names} operation e, Keeps (OnWorkspace (Confined id names)) (number (expr n) operation e) :=
    fun _ e => confined_of_same (keeps_number _ (hexpr e))
  have hblock : ∀ {names body}, Stmt.assignedIn body ⊆ names →
      Keeps (OnWorkspace (Confined id names)) (block (stmt n) body) := by
    intro names body hsub
    exact keeps_block fun s hs => (hstmt s).mono fun _ _ hc =>
      hc.mono fun _ hname => hsub (Stmt.assigned_subset hs hname)
  unfold stmt
  refine keeps_locate _ ?_
  cases s with
  | command span c args =>
    refine .bind (confined_of_same (keeps_command (fun numbers m => ?_) fun e _ => hexpr e)) fun _ => .pure _
    exact refl_of SameVariables m.workspace
  | call span name args => exact .bind (confined_of_same (hcall name args _).discard) fun _ => .pure _
  | expression e => exact .bind (confined_of_same (hexpr e).discard) fun _ => .pure _
  | loop span count body =>
    exact .bind (hnumber _ count) fun _ => confined_repeatTimes (hblock (by simp [Stmt.assigned])) _
  | ifThen span cond body => exact .bind (htruth _ cond) fun _ => .ite (hblock (by simp [Stmt.assigned])) (.pure _)
  | ifElse span cond yes no =>
    exact .bind (htruth _ cond) fun _ => .ite (hblock (by simp [Stmt.assigned])) (hblock (by simp [Stmt.assigned]))
  | whileTrue span cond body => exact keeps_whileTrue (htruth _ cond) (hblock (by simp [Stmt.assigned])) n
  | forEach span var low high step? body =>
    refine .bind (hnumber _ low) fun start => .bind (hnumber _ high) fun stop => ?_
    -- The turns are the same whether the step is written out or the default one.
    have hturns : ∀ step : Float, Keeps (OnWorkspace (Confined id (Stmt.forEach span var low high step? body).assigned))
        (if step == 0 then raise .zeroStep else forFrom var stop step (block (stmt n) body) n start) := by
      intro step
      refine .ite (keeps_raise _) (keeps_forFrom (fun v => ?_) (hblock (by simp [Stmt.assigned])) n start)
      exact keeps_modifyWorkspace fun m => confined_set (by simp [Stmt.assigned]) m.workspace v
    cases step? with
    | none => exact .bind (.pure _) hturns
    | some e => exact .bind (hnumber _ e) hturns
  | define span name params body =>
    refine .bind (keeps_modifyWorkspace fun m => ?_) fun _ => .pure _
    exact SameVariables.confined ⟨rfl, rfl, rfl⟩
  | make span name value =>
    refine .bind (confined_of_same (hexpr value)) fun v => .bind (keeps_modifyWorkspace fun m => ?_) fun _ => .pure _
    exact confined_set (by simp [Stmt.assigned]) m.workspace v
  | output span value => exact .bind (confined_of_same (hexpr value)) fun _ => .pure _
  | stop span => exact .pure _
  | print span value =>
    refine .bind (confined_of_same (hexpr value)) fun v => .bind (.modify fun m => ?_) fun _ => .pure _
    exact refl_of (Confined id _) m.workspace
  | declare span names => exact .bind (.forM fun name hname => confined_declare hname) fun _ => .pure _

theorem keeps_variables (fuel : Nat) :
    (∀ e, Keeps (OnWorkspace SameVariables) (expr fuel e)) ∧
      ∀ s, Keeps (OnWorkspace (Confined id s.assigned)) (stmt fuel s) := by
  induction fuel with
  | zero =>
    constructor
    · intro e
      rw [expr]
      exact .throw _
    · intro s
      rw [stmt]
      exact .throw _
  | succ n ih =>
    -- Calls lead from expressions to statements and back, so both go down the fuel together.
    obtain ⟨hexpr, hstmt⟩ := ih
    have hrandom : ∀ m : Machine, OnWorkspace SameVariables m { m with random := m.random.next } :=
      fun m => refl_of SameVariables m.workspace
    refine ⟨fun e => ?_, confined_stmt_succ hexpr hstmt⟩
    rw [expr]
    exact keeps_exprWith (fun _ _ _ => hrandom) hexpr (same_invoke hstmt)

/-- Expressions leave all variables and counters as they are. Statements leave the counters, the depth and the
callers' scopes as they are, and in the innermost scope all variables but those they assign to by name. -/
theorem variables_framed (fuel : Nat) (m : Machine) :
    (∀ e : Expr, SameVariables m.workspace (final (expr fuel e m)).workspace) ∧
      ∀ s : Stmt, Confined id s.assigned m.workspace (final (stmt fuel s m)).workspace :=
  ⟨fun e => (keeps_variables fuel).1 e m, fun s => (keeps_variables fuel).2 s m⟩

end Eval
end Logo
