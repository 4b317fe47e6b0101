import Logo.Proofs.Causes
import Logo.Proofs.Follows.Loops
import Logo.Proofs.Renaming.Grammar

/-! Running goes along with renaming: a renamed program does on a renamed machine what the program does on the
machine. Values, variables, the turtle, what is printed and the random numbers are the very same; faults name the
renamed names at the renamed places. -/
namespace Logo
variable (ρ : Renaming)

abbrev Eval.Renames {α β : Type} (h : α → β) (x : Eval α) (y : Eval β) : Prop :=
  Follows (Machine.Renamed ρ) (Halt.rename ρ) h x y

namespace Workspace.Renamed
variable {ρ} {w w' : Workspace} (h : Renamed ρ w w')
include h

theorem procedure? (name : String) : w'.procedure? (ρ.name name) = (w.procedure? name).map (Procedure.rename ρ) :=
  h.procedures.find? ρ name

theorem get? (name : String) : w'.get? (ρ.name name) = w.get? name := by
  have hglobals : w'.globals.get? (fold name) = w.globals.get? (fold name) := (h.globals _).trans Option.map_id'
  have hlocal : ∀ {fs fs' : List (Table Value)}, List.Forall₂ (Table.Same id) fs fs' →
      fs'.findSome? (·.get? (fold name)) = fs.findSome? (·.get? (fold name)) := by
    intro fs fs' hfs
    induction hfs with
    | nil => rfl
    | cons hframe _ ih => rw [List.findSome?_cons, List.findSome?_cons, hframe, Option.map_id, id, ih]
  simp only [Workspace.get?, ρ.fold_name, hlocal h.frames, hglobals]

theorem set (name : String) (v : Value) : Renamed ρ (w.set name v) (w'.set (ρ.name name) v) := by
  obtain ⟨globals, frames, procedures, counters⟩ := w
  obtain ⟨globals', frames', procedures', counters'⟩ := w'
  obtain ⟨hglobals, hframes, hprocedures, hcounters⟩ := h
  cases hframes with
  | nil => exact ⟨hglobals.insert ρ name v, .nil, hprocedures, hcounters⟩
  | cons hframe houter => exact ⟨hglobals, .cons (hframe.insert ρ name v) houter, hprocedures, hcounters⟩

theorem declare (name : String) :
    (∃ c, w.declare name = .error (.misplaced c) ∧ w'.declare (ρ.name name) = .error (.misplaced c)) ∨
      ∃ u u', w.declare name = .ok u ∧ w'.declare (ρ.name name) = .ok u' ∧ Renamed ρ u u' := by
  obtain ⟨globals, frames, procedures, counters⟩ := w
  obtain ⟨globals', frames', procedures', counters'⟩ := w'
  obtain ⟨hglobals, hframes, hprocedures, hcounters⟩ := h
  cases hframes with
  | nil => exact .inl ⟨_, rfl, rfl⟩
  | cons hframe houter =>
    exact .inr ⟨_, _, rfl, rfl, hglobals, .cons (hframe.insert ρ name (.number 0)) houter, hprocedures, hcounters⟩

theorem enter (params : List String) (args : List Value) :
    Renamed ρ (w.enter (params.zip args)) (w'.enter ((params.map ρ.name).zip args)) := by
  refine { h with frames := .cons ?_ h.frames }
  rw [List.zip_map_left]
  exact (Table.Same.refl {}).insertAll ρ (params.zip args)

theorem leave : Renamed ρ w.leave w'.leave := by
  obtain ⟨globals, frames, procedures, counters⟩ := w
  obtain ⟨globals', frames', procedures', counters'⟩ := w'
  obtain ⟨hglobals, hframes, hprocedures, hcounters⟩ := h
  cases hframes with
  | nil => exact ⟨hglobals, .nil, hprocedures, hcounters⟩
  | cons _ houter => exact ⟨hglobals, houter, hprocedures, hcounters⟩

theorem define (p : Procedure) : Renamed ρ (w.define p) (w'.define (p.rename ρ)) :=
  { h with procedures := h.procedures.insert ρ p.name p }

theorem startCount : Renamed ρ w.startCount w'.startCount :=
  { h with counters := congrArg (0 :: ·) h.counters }

theorem setCount (i : Nat) : Renamed ρ (w.setCount i) (w'.setCount i) := by
  have hcounters := h.counters
  unfold Workspace.setCount
  rw [hcounters]
  cases w.counters with
  | nil => exact h
  | cons j outer => exact { h with counters := rfl }

theorem endCount : Renamed ρ w.endCount w'.endCount :=
  { h with counters := congrArg List.tail h.counters }

theorem arities : w.arities.Same id w'.arities := by
  intro key
  have harity : Procedure.arity ∘ Procedure.rename ρ = Procedure.arity := by
    funext p
    exact List.length_map _
  rw [Workspace.arities, Workspace.arities, Table.get?_map, Table.get?_map, h.procedures, Option.map_map, harity,
    Option.map_id, id]

/-- The programs read later know the same procedures. -/
theorem knows : (Table.ofList w.arities.entries).Same id (Table.ofList w'.arities.entries) := by
  rw [Table.ofList_entries, Table.ofList_entries]
  exact h.arities

end Workspace.Renamed

/-- Causes that lie in values hold no name of the program's own. -/
theorem Cause.rename_of_values {c : Cause} (h : c.isOfValues = true) : c.rename ρ = c := by
  cases c <;> first | rfl | cases h

namespace Eval
variable {α β : Type}

theorem raise_renames {h : α → β} {c c' : Cause} (hc : c.rename ρ = c') : Renames ρ h (raise c) (raise c') := by
  refine .throw ?_
  rw [← hc]
  rfl

theorem ofExcept_renames {r : Except Cause α} (hr : FailsByValues r) : Renames ρ id (ofExcept r) (ofExcept r) := by
  cases r with
  | ok a => exact .pure rfl
  | error c => exact raise_renames ρ (c.rename_of_values ρ (hr c rfl))

theorem locate_renames {h : α → β} {x : Eval α} {y : Eval β} (span : Span) (hx : Renames ρ h x y) :
    Renames ρ h (locate span x) (locate (ρ.span span) y) := by
  intro m m' hm
  have hxy := hx m m' hm
  unfold locate
  generalize x m = r at hxy
  generalize y m' = r' at hxy
  cases hxy with
  | ok hn => exact .ok hn
  | @error e n n' hn =>
    cases e with
    | outOfFuel => exact .error hn
    | fault f =>
      obtain ⟨cause, span?⟩ := f
      cases span? <;> exact .error hn

theorem within_renames {h : α → β} {enter leave enter' leave' : Workspace → Workspace} {x : Eval α} {y : Eval β}
    (henter : ∀ w w', Workspace.Renamed ρ w w' → Workspace.Renamed ρ (enter w) (enter' w'))
    (hleave : ∀ w w', Workspace.Renamed ρ w w' → Workspace.Renamed ρ (leave w) (leave' w'))
    (hx : Renames ρ h x y) : Renames ρ h (within enter leave x) (within enter' leave' y) := by
  intro m m' hm
  have hxy := hx { m with workspace := enter m.workspace } { m' with workspace := enter' m'.workspace }
    { hm with workspace := henter _ _ hm.workspace }
  unfold within
  generalize x { m with workspace := enter m.workspace } = r at hxy
  generalize y { m' with workspace := enter' m'.workspace } = r' at hxy
  cases hxy with
  | ok hn => exact .ok { hn with workspace := hleave _ _ hn.workspace }
  | error hn => exact .error { hn with workspace := hleave _ _ hn.workspace }

theorem modifyWorkspace_renames {u u' : Workspace → Workspace}
    (hu : ∀ w w', Workspace.Renamed ρ w w' → Workspace.Renamed ρ (u w) (u' w')) :
    Renames ρ id (modifyWorkspace u) (modifyWorkspace u') :=
  .modify fun _ _ hm => { hm with workspace := hu _ _ hm.workspace }

end Eval

theorem Operation.name_fixed (op : Operation) : ρ.name op.name = op.name := ρ.name_folded _ op.fold_name

theorem Command.name_fixed (c : Command) : ρ.name c.name = c.name := ρ.name_folded _ c.fold_name

theorem Operation.apply_renames (op : Operation) (args : List Value) :
    Eval.Renames ρ id (op.apply args) (op.apply args) := by
  by_cases h : args.length = op.arity
  · rcases Operation.apply_of_length h with ⟨v, -, hdraw⟩ | ⟨r, hr, hfails⟩
    · rw [hdraw]
      refine .bind (Eval.ofExcept_renames ρ (v.toNumber_fails _)) fun n => .get fun m m' hm => ?_
      rw [hm.random]
      exact .bind (.set { hm with random := rfl }) fun _ => .pure rfl
    · rw [hr]
      exact Eval.ofExcept_renames ρ hfails
  · rw [Operation.apply_of_length_ne h]
    exact Eval.raise_renames ρ (by rw [Cause.rename, op.name_fixed])

theorem mapM_mapError {α β ε : Type} {f : α → Except ε β} {g : α → α} {h : ε → ε}
    (hf : ∀ a, f (g a) = (f a).mapError h) (l : List α) : (l.map g).mapM f = (l.mapM f).mapError h := by
  induction l with
  | nil => rfl
  | cons a l ih =>
    rw [List.map_cons, List.mapM_cons, List.mapM_cons, ih, hf]
    cases f a with
    | error e => rfl
    | ok b => cases l.mapM f <;> rfl

/-- Renaming the places of the inputs renames the fault and nothing else. -/
theorem Command.numbers_rename (c : Command) (args : List (Value × Span)) :
    c.numbers (args.map (Prod.map id ρ.span)) = (c.numbers args).mapError (Fault.rename ρ) := by
  have hnumber : ∀ arg : Value × Span,
      ((Prod.map id ρ.span arg).1.toNumber c.name).mapError (Fault.mk · (some (Prod.map id ρ.span arg).2)) =
        ((arg.1.toNumber c.name).mapError (Fault.mk · (some arg.2))).mapError (Fault.rename ρ) := by
    intro arg
    obtain ⟨v, span⟩ := arg
    cases v <;> rfl
  by_cases hpos : c = .setPos
  · subst hpos
    rcases args with _ | ⟨⟨v, span⟩, _ | ⟨b, rest⟩⟩
    · rfl
    · rcases v with n | (_ | ⟨x, _ | ⟨y, _ | ⟨z, items⟩⟩⟩)
      · rfl
      · rfl
      · rfl
      · cases x <;> cases y <;> rfl
      · rfl
    · exact mapM_mapError hnumber ((v, span) :: b :: rest)
  · have hnumbers : ∀ args : List (Value × Span), c.numbers args =
        args.mapM fun arg => (arg.1.toNumber c.name).mapError (Fault.mk · (some arg.2)) := by
      intro args
      cases c <;> first | rfl | exact absurd rfl hpos
    rw [hnumbers, hnumbers]
    exact mapM_mapError hnumber args

theorem Query.answer_renamed (q : Query) {m m' : Machine} (h : m.Renamed ρ m') : q.answer m' = q.answer m := by
  cases q
  case repCount =>
    simp only [Query.answer, Workspace.count, h.workspace.counters]
  all_goals
    simp only [Query.answer, h.turtle]

namespace Eval

theorem mapM_renames {ρ} {γ δ : Type} {p : γ → Eval Value} {q : δ → Eval Value} {k : γ → δ}
    (h : ∀ c, Renames ρ id (p c) (q (k c))) (l : List γ) : Renames ρ id (l.mapM p) ((l.map k).mapM q) := by
  have hm : Renames ρ (List.map id) (l.mapM p) ((l.map k).mapM q) := Follows.mapM fun c _ => h c
  rwa [List.map_id_fun] at hm

section
variable {ρ} {eval eval' : Expr → Eval Value} (heval : ∀ e, Renames ρ id (eval e) (eval' (e.rename ρ)))
include heval

theorem number_renames (operation : String) (e : Expr) :
    Renames ρ id (number eval operation e) (number eval' operation (e.rename ρ)) := by
  refine .bind (heval e) fun v => ?_
  rw [Expr.span_rename]
  exact locate_renames ρ _ (ofExcept_renames ρ (v.toNumber_fails _))

theorem truth_renames (operation : String) (e : Expr) :
    Renames ρ id (truth eval operation e) (truth eval' operation (e.rename ρ)) := by
  refine .bind (heval e) fun v => ?_
  rw [Expr.span_rename]
  exact locate_renames ρ _ (ofExcept_renames ρ (v.toBool_fails _))

theorem command_renames (c : Command) (args : List Expr) :
    Renames ρ id (command eval c args) (command eval' c (args.map (Expr.rename ρ))) := by
  refine .ite (by rw [List.length_map]) (raise_renames ρ ?_) (.bind (mapM_renames heval args) fun values => ?_)
  · rw [Cause.rename, c.name_fixed, List.length_map]
  · have hspans : values.zip ((args.map (Expr.rename ρ)).map Expr.span) =
        (values.zip (args.map Expr.span)).map (Prod.map id ρ.span) := by
      rw [List.zip_map_right.symm, List.map_map, List.map_map]
      exact congrArg _ (List.map_congr_left fun e _ => Expr.span_rename ρ e)
    rw [id, hspans, Command.numbers_rename]
    cases c.numbers (values.zip (args.map Expr.span)) with
    | ok numbers => exact .modify fun m m' hm => { hm with turtle := congrArg (c.act numbers) hm.turtle }
    | error f => exact .throw rfl

end

theorem block_renames {exec exec' : Stmt → Eval Flow} {body : List Stmt}
    (h : ∀ s ∈ body, Renames ρ id (exec s) (exec' (s.rename ρ))) :
    Renames ρ id (block exec body) (block exec' (body.map (Stmt.rename ρ))) :=
  follows_block h

theorem repeatTimes_renames {ρ} {body body' : Eval Flow} (hbody : Renames ρ id body body') (count : Nat) :
    Renames ρ id (repeatTimes count body) (repeatTimes count body') := by
  have hcount := fun i => modifyWorkspace_renames ρ fun _ _ hw => hw.setCount i
  exact within_renames ρ (fun _ _ hw => hw.startCount) (fun _ _ hw => hw.endCount)
    (follows_repeatFrom hcount hbody count 1)

theorem expectArity_renames (p : Procedure) (supplied : Nat) :
    Renames ρ id (expectArity p supplied) (expectArity (p.rename ρ) supplied) := by
  have harity : (p.rename ρ).arity = p.arity := List.length_map _
  refine .ite (by rw [harity]) (.pure rfl) (raise_renames ρ ?_)
  rw [harity]
  rfl

section
variable {ρ} {exec exec' : Stmt → Eval Flow} (hexec : ∀ s, Renames ρ id (exec s) (exec' (s.rename ρ)))
include hexec

theorem invoke_renames (p : Procedure) (args : List Value) :
    Renames ρ id (invoke exec p args) (invoke exec' (p.rename ρ) args) := by
  have hbody : Renames ρ id (block exec p.body) (block exec' (p.rename ρ).body) := block_renames ρ fun s _ => hexec s
  exact follows_invoke (within_renames ρ (fun _ _ hw => hw.enter p.params args) (fun _ _ hw => hw.leave) hbody)

theorem call_renames {eval eval' : Expr → Eval Value} (heval : ∀ e, Renames ρ id (eval e) (eval' (e.rename ρ)))
    (name : String) (args : List Expr) (unknown : Cause) :
    Renames ρ id (call eval (invoke exec) name args unknown)
      (call eval' (invoke exec') (ρ.name name) (args.map (Expr.rename ρ)) (unknown.rename ρ)) := by
  refine .get fun m m' hm => ?_
  simp only [hm.workspace.procedure?]
  cases m.workspace.procedure? name with
  | none => exact raise_renames ρ rfl
  | some p =>
    have harity : (p.rename ρ).arity = p.arity := List.length_map _
    refine .ite (by rw [List.length_map, harity]) (raise_renames ρ ?_) ?_
    · rw [harity, List.length_map]
      rfl
    · exact .bind (mapM_renames heval args) fun values => invoke_renames hexec p values

theorem traverse_renames (t : Traversal) (name : String) (items : Value) :
    Renames ρ id (traverse (invoke exec) t name items) (traverse (invoke exec') t (ρ.name name) items) := by
  refine .get fun m m' hm => ?_
  simp only [hm.workspace.procedure?]
  cases m.workspace.procedure? name with
  | none => exact raise_renames ρ rfl
  | some p =>
    have hinvoke := invoke_renames hexec p
    refine .bind (ofExcept_renames ρ (items.toList_fails _)) fun values => ?_
    cases t with
    | map =>
      exact .bind (expectArity_renames ρ p 1) fun _ => .bind (.mapM_id (fun v => hinvoke [v]) values) fun _ => .pure rfl
    | filter =>
      refine .bind (expectArity_renames ρ p 1) fun _ => .bind (follows_keep (fun v => ?_) values) fun _ => .pure rfl
      exact .bind (hinvoke [v]) fun w => ofExcept_renames ρ (w.toBool_fails _)
    | reduce =>
      refine .bind (expectArity_renames ρ p 2) fun _ => ?_
      cases values with
      | nil => exact raise_renames ρ rfl
      | cons v rest => exact .foldlM (fun acc item => hinvoke [acc, item]) rest v
    | apply => exact .bind (expectArity_renames ρ p values.length) fun _ => hinvoke values

end

theorem declare_renames (name : String) : Renames ρ id (declare name) (declare (ρ.name name)) := by
  refine .get fun m m' hm => ?_
  have hw := hm.workspace
  rcases hw.declare name with ⟨c, hd, hd'⟩ | ⟨u, u', hd, hd', hu⟩
  · rw [hd, hd']
    exact raise_renames (c := .misplaced c) ρ rfl
  · rw [hd, hd']
    exact modifyWorkspace_renames ρ fun _ _ _ => hu

section
variable {ρ} {n : Nat} (hexpr : ∀ e, Renames ρ id (expr n e) (expr n (e.rename ρ)))
  (hstmt : ∀ s, Renames ρ id (stmt n s) (stmt n (s.rename ρ)))
include hexpr hstmt

theorem expr_succ_renames (e : Expr) : Renames ρ id (expr (n + 1) e) (expr (n + 1) (e.rename ρ)) := by
  have htruth := truth_renames hexpr
  have hnumber := number_renames hexpr
  unfold expr exprWith
  rw [Expr.span_rename]
  refine locate_renames ρ _ ?_
  cases e with
  | number span value => exact .pure rfl
  | list span items =>
    rw [Expr.rename, Expr.renameAll_eq_map]
    exact .bind (mapM_renames hexpr items) fun _ => .pure rfl
  | thing span name =>
    refine .get fun m m' hm => ?_
    simp only [hm.workspace.get?]
    cases m.workspace.get? name with
    | none => exact raise_renames ρ rfl
    | some v => exact .pure rfl
  | binary span op left right =>
    cases op
    case and =>
      refine .bind (htruth _ left) fun _ => .ite Iff.rfl ?_ (.pure rfl)
      exact .bind (htruth _ right) fun _ => .pure rfl
    case or =>
      refine .bind (htruth _ left) fun _ => .ite Iff.rfl (.pure rfl) ?_
      exact .bind (htruth _ right) fun _ => .pure rfl
    all_goals
      refine .bind (hexpr left) fun a => .bind (hexpr right) fun b => ?_
      exact ofExcept_renames ρ (BinaryOp.apply_fails _ a b)
  | unary span op operand =>
    cases op with
    | neg => exact .bind (hnumber _ operand) fun _ => .pure rfl
    | plus => exact .bind (hnumber _ operand) fun _ => .pure rfl
    | not => exact .bind (htruth _ operand) fun _ => .pure rfl
  | operation span op args =>
    rw [Expr.rename, Expr.renameAll_eq_map]
    exact .bind (mapM_renames hexpr args) fun values => op.apply_renames ρ values
  | traverse span t procedure items => exact .bind (hexpr items) fun v => traverse_renames hstmt t procedure v
  | query span q =>
    refine .get fun m m' hm => ?_
    rw [q.answer_renamed ρ hm]
    exact ofExcept_renames ρ (q.answer_fails m)
  | call span name args =>
    rw [Expr.rename, Expr.renameAll_eq_map]
    exact call_renames hstmt hexpr name args _

theorem stmt_succ_renames (s : Stmt) : Renames ρ id (stmt (n + 1) s) (stmt (n + 1) (s.rename ρ)) := by
  have htruth := truth_renames hexpr
  have hnumber := number_renames hexpr
  have hblock : ∀ body, Renames ρ id (block (stmt n) body) (block (stmt n) (Stmt.renameAll ρ body)) := by
    intro body
    rw [Stmt.renameAll_eq_map]
    exact block_renames ρ fun s _ => hstmt s
  unfold stmt stmtWith
  rw [Stmt.span_rename]
  refine locate_renames ρ _ ?_
  cases s with
  | command span c args => exact .bind (command_renames hexpr c args) fun _ => .pure rfl
  | call span name args => exact .bind (call_renames hstmt hexpr name args _).discard fun _ => .pure rfl
  | expression e => exact .bind (hexpr e).discard fun _ => .pure rfl
  | loop span count body => exact .bind (hnumber _ count) fun _ => repeatTimes_renames (hblock body) _
  | ifThen span cond body => exact .bind (htruth _ cond) fun _ => .ite Iff.rfl (hblock body) (.pure rfl)
  | ifElse span cond yes no => exact .bind (htruth _ cond) fun _ => .ite Iff.rfl (hblock yes) (hblock no)
  | whileTrue span cond body => exact follows_whileTrue rfl (htruth _ cond) (hblock body) n
  | forEach span var low high step? body =>
    refine .bind (hnumber _ low) fun start => .bind (hnumber _ high) fun stop => ?_
    have hturns : ∀ step : Float, Renames ρ id
        (if step == 0 then raise .zeroStep else forFrom var stop step (block (stmt n) body) n start)
        (if step == 0 then raise .zeroStep
          else forFrom (ρ.name var) stop step (block (stmt n) (Stmt.renameAll ρ body)) n start) := by
      intro step
      refine .ite Iff.rfl (raise_renames ρ rfl) (follows_forFrom rfl (fun v => ?_) (hblock body) n start)
      exact modifyWorkspace_renames ρ fun _ _ hw => hw.set var v
    cases step? with
    | none => exact .bind (.pure rfl) hturns
    | some e => exact .bind (hnumber _ e) hturns
  | define span name params body =>
    rw [Stmt.rename, Stmt.renameAll_eq_map]
    exact .bind (modifyWorkspace_renames ρ fun _ _ hw => hw.define ⟨name, params, body⟩) fun _ => .pure rfl
  | make span name value =>
    refine .bind (hexpr value) fun v => .bind (modifyWorkspace_renames ρ fun _ _ hw => ?_) fun _ => .pure rfl
    exact hw.set name v
  | output span value => exact .bind (hexpr value) fun _ => .pure rfl
  | stop span => exact .pure rfl
  | print span value =>
    refine .bind (hexpr value) fun v => .bind (.modify fun _ _ hm => ?_) fun _ => .pure rfl
    exact { hm with printed := congrArg (·.push v) hm.printed }
  | declare span names => exact .bind (.forM (declare_renames ρ) names) fun _ => .pure rfl

end

theorem runs_rename (n : Nat) :
    (∀ e, Renames ρ id (expr n e) (expr n (e.rename ρ))) ∧ ∀ s, Renames ρ id (stmt n s) (stmt n (s.rename ρ)) := by
  induction n with
  | zero =>
    constructor
    · intro e
      rw [expr, expr]
      exact .throw rfl
    · intro s
      rw [stmt, stmt]
      exact .throw rfl
  | succ n ih =>
    obtain ⟨hexpr, hstmt⟩ := ih
    exact ⟨expr_succ_renames hexpr hstmt, stmt_succ_renames hexpr hstmt⟩

theorem program_renames (n : Nat) (p : Program) (last? : Option Value) :
    Renames ρ id (program n p last?) (program n (p.map (Stmt.rename ρ)) last?) := by
  obtain ⟨hexpr, hstmt⟩ := runs_rename ρ n
  induction p generalizing last? with
  | nil => exact .pure rfl
  | cons s rest ih =>
    cases s
    case expression e => exact .bind (hexpr e) fun v => ih (some v)
    all_goals
      refine .bind (hstmt _) fun flow => ?_
      cases flow
      case normal => exact ih none
      all_goals exact .pure rfl

end Eval

namespace Session

def enterTokens (tokens : List Token) : Eval (Option Value) := do
  match readProgram tokens (← get).workspace.arities.entries with
  | .ok p _ => Eval.program fuel p none
  | .error e _ => throw e

def evaluateTokens (tokens : List Token) : Eval Value := do
  match readExpr tokens (← get).workspace.arities.entries with
  | .ok e _ => Eval.expr (fuel + tokens.length) e
  | .error e _ => throw e

theorem enter_eq (source : String) : enter source = enterTokens (tokenize source) := by
  rw [enter, enterTokens, read, bind_assoc]
  refine bind_congr fun m => ?_
  rw [Machine.readProgram]
  cases readProgram (tokenize source) m.workspace.arities.entries <;> rfl

theorem evaluate_eq (source : String) : evaluate source = evaluateTokens (tokenize source) := by
  refine bind_congr fun m => ?_
  rw [Machine.readExpr]
  cases readExpr (tokenize source) m.workspace.arities.entries <;> rfl

theorem enterTokens_renames (tokens : List Token) (h : tokens.any Token.isFinish) :
    Eval.Renames ρ id (enterTokens tokens) (enterTokens (tokens.map (Token.rename ρ))) := by
  refine .get fun m m' hm => ?_
  have hread := readProgram_renames ρ hm.workspace.knows (Reader.finish_rename ρ h)
  generalize readProgram tokens m.workspace.arities.entries = r at hread
  generalize readProgram (tokens.map (Token.rename ρ)) m'.workspace.arities.entries = r' at hread
  cases hread with
  | ok _ => exact Eval.program_renames ρ fuel _ none
  | error _ => exact .throw rfl

theorem evaluateTokens_renames (tokens : List Token) (h : tokens.any Token.isFinish) :
    Eval.Renames ρ id (evaluateTokens tokens) (evaluateTokens (tokens.map (Token.rename ρ))) := by
  refine .get fun m m' hm => ?_
  have hread := readExpr_renames ρ hm.workspace.knows (Reader.finish_rename ρ h)
  generalize readExpr tokens m.workspace.arities.entries = r at hread
  generalize readExpr (tokens.map (Token.rename ρ)) m'.workspace.arities.entries = r' at hread
  rw [List.length_map]
  cases hread with
  | ok _ => exact (Eval.runs_rename ρ _).1 _
  | error _ => exact .throw rfl

end Session

theorem tokenize_ends (source : String) : (tokenize source).any Token.isFinish := by
  have h : ∀ offset cs, (Scan.tokensFrom offset cs).any Token.isFinish := by
    intro offset cs
    fun_induction Scan.tokensFrom offset cs with
    | case1 offset => rfl
    | case2 offset c cs p stop rest kind hk ih => simp [rest, ih]
    | case3 offset c cs p stop rest hk ih => exact ih
  exact h 0 source.toList

end Logo
