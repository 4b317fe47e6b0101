import Logo.Eval
import Logo.Proofs.Follows
import Mathlib.Order.Defs.Unbundled

/-! What a computation does to its state, told as a relation between the state before and the state after, whether
the computation gives a result or fails. A reflexive and transitive relation is kept by a sequence if each part
keeps it, so a law about all programs needs one lemma for each way to build a computation. -/
namespace Logo

/-- The states before and after are always related. -/
def Keeps {ε σ α : Type} (R : σ → σ → Prop) (x : EStateM ε σ α) : Prop := ∀ s, R s (final (x s))

namespace Keeps
variable {ε σ α β : Type} {R : σ → σ → Prop}

theorem mono {S : σ → σ → Prop} {x : EStateM ε σ α} (hx : Keeps R x) (h : ∀ s s', R s s' → S s s') : Keeps S x :=
  fun s => h s _ (hx s)

theorem modify {f : σ → σ} (h : ∀ s, R s (f s)) : Keeps R (modify f : EStateM ε σ PUnit) := h

theorem map {x : EStateM ε σ α} (f : α → β) (hx : Keeps R x) : Keeps R (f <$> x) := by
  intro s
  have hs := hx s
  change R s (final (EStateM.map f x s))
  unfold EStateM.map
  cases h : x s <;> rwa [h] at hs

theorem discard {x : EStateM ε σ α} (hx : Keeps R x) : Keeps R (Functor.discard x) := hx.map _

theorem ite {p : Prop} [Decidable p] {x y : EStateM ε σ α} (hx : Keeps R x) (hy : Keeps R y) :
    Keeps R (if p then x else y) := by
  split
  · exact hx
  · exact hy

variable [IsPreorder σ R]

theorem pure (a : α) : Keeps R (Pure.pure a : EStateM ε σ α) := fun s => refl_of R s

theorem throw (e : ε) : Keeps R (MonadExcept.throw e : EStateM ε σ α) := fun s => refl_of R s

theorem get : Keeps R (MonadState.get : EStateM ε σ σ) := fun s => refl_of R s

theorem bind {x : EStateM ε σ α} {f : α → EStateM ε σ β} (hx : Keeps R x) (hf : ∀ a, Keeps R (f a)) :
    Keeps R (x >>= f) := by
  intro s
  have hs := hx s
  change R s (final (EStateM.bind x f s))
  unfold EStateM.bind
  cases h : x s with
  | ok a s' =>
    rw [h] at hs
    exact trans_of R hs (hf a s')
  | error e s' =>
    rw [h] at hs
    exact hs

theorem mapM {f : α → EStateM ε σ β} {l : List α} (h : ∀ a ∈ l, Keeps R (f a)) : Keeps R (l.mapM f) := by
  induction l with
  | nil => exact .pure _
  | cons a l ih =>
    rw [List.mapM_cons]
    refine .bind (h a (by simp)) fun b => .bind (ih fun c hc => h c (by simp [hc])) fun bs => .pure _

theorem foldlM {f : β → α → EStateM ε σ β} (h : ∀ b a, Keeps R (f b a)) (l : List α) (b : β) :
    Keeps R (l.foldlM f b) := by
  induction l generalizing b with
  | nil => exact .pure _
  | cons a l ih =>
    rw [List.foldlM_cons]
    exact .bind (h b a) ih

theorem forM {f : α → EStateM ε σ PUnit} {l : List α} (h : ∀ a ∈ l, Keeps R (f a)) : Keeps R (l.forM f) := by
  induction l with
  | nil => exact .pure _
  | cons a l ih => exact .bind (h a (by simp)) fun _ => ih fun c hc => h c (by simp [hc])

end Keeps

def OnWorkspace (R : Workspace → Workspace → Prop) (m m' : Machine) : Prop := R m.workspace m'.workspace

instance {R : Workspace → Workspace → Prop} [IsPreorder Workspace R] : IsPreorder Machine (OnWorkspace R) where
  refl m := refl_of R m.workspace
  trans _ _ _ h h' := trans_of R h h'

namespace Eval
variable {α : Type} {R : Machine → Machine → Prop}

theorem keeps_locate (span : Span) {x : Eval α} (hx : Keeps R x) : Keeps R (locate span x) := by
  intro m
  have hm := hx m
  unfold locate
  cases h : x m with
  | ok a m' => rwa [h] at hm
  | error e m' =>
    rw [h] at hm
    cases e <;> exact hm

/-- A bracket keeps `R` if what happens inside keeps a relation that, seen from outside, is within `R`. -/
theorem keeps_within {S : Machine → Machine → Prop} {enter leave : Workspace → Workspace} {x : Eval α}
    (hx : Keeps S x)
    (h : ∀ m m' : Machine, S { m with workspace := enter m.workspace } m' →
      R m { m' with workspace := leave m'.workspace }) :
    Keeps R (within enter leave x) := by
  intro m
  have hm := h m _ (hx { m with workspace := enter m.workspace })
  unfold within
  cases hr : x { m with workspace := enter m.workspace } <;> rwa [hr] at hm

theorem keeps_modifyWorkspace {f : Workspace → Workspace}
    (h : ∀ m : Machine, R m { m with workspace := f m.workspace }) : Keeps R (modifyWorkspace f) :=
  Keeps.modify h

variable [IsPreorder Machine R]

theorem keeps_raise (c : Cause) : Keeps R (raise c : Eval α) := Keeps.throw _

theorem keeps_ofExcept (r : Except Cause α) : Keeps R (ofExcept r) := by
  cases r with
  | ok a => exact .pure a
  | error c => exact keeps_raise c

theorem keeps_number {eval : Expr → Eval Value} {e : Expr} (operation : String) (h : Keeps R (eval e)) :
    Keeps R (number eval operation e) :=
  h.bind fun _ => keeps_locate _ (keeps_ofExcept _)

theorem keeps_truth {eval : Expr → Eval Value} {e : Expr} (operation : String) (h : Keeps R (eval e)) :
    Keeps R (truth eval operation e) :=
  h.bind fun _ => keeps_locate _ (keeps_ofExcept _)

theorem keeps_block {exec : Stmt → Eval Flow} {body : List Stmt} (h : ∀ s ∈ body, Keeps R (exec s)) :
    Keeps R (block exec body) := by
  induction body with
  | nil => exact .pure _
  | cons s rest ih =>
    refine .bind (h s (by simp)) fun flow => ?_
    cases flow with
    | normal => exact ih fun s' hs' => h s' (by simp [hs'])
    | output v => exact .pure _
    | stop => exact .pure _

theorem keeps_repeatFrom {body : Eval Flow} (hcount : ∀ i, Keeps R (modifyWorkspace (·.setCount i)))
    (hbody : Keeps R body) (left i : Nat) : Keeps R (repeatFrom body left i) := by
  induction left generalizing i with
  | zero => exact .pure _
  | succ left ih =>
    refine .bind (hcount i) fun _ => .bind hbody fun flow => ?_
    cases flow with
    | normal => exact ih (i + 1)
    | output v => exact .pure _
    | stop => exact .pure _

theorem keeps_whileTrue {cond : Eval Bool} {body : Eval Flow} (hcond : Keeps R cond) (hbody : Keeps R body)
    (fuel : Nat) : Keeps R (whileTrue cond body fuel) := by
  induction fuel with
  | zero => exact .throw _
  | succ fuel ih =>
    refine .bind hcond fun go => .ite (.bind hbody fun flow => ?_) (.pure _)
    cases flow with
    | normal => exact ih
    | output v => exact .pure _
    | stop => exact .pure _

theorem keeps_forFrom {var : String} {stop step : Float} {body : Eval Flow}
    (hset : ∀ v, Keeps R (modifyWorkspace (·.set var v))) (hbody : Keeps R body) (fuel : Nat) (i : Float) :
    Keeps R (forFrom var stop step body fuel i) := by
  induction fuel generalizing i with
  | zero => exact .throw _
  | succ fuel ih =>
    refine .ite (.bind (hset _) fun _ => .bind hbody fun flow => ?_) (.pure _)
    cases flow with
    | normal => exact ih (i + step)
    | output v => exact .pure _
    | stop => exact .pure _

theorem keeps_invoke {exec : Stmt → Eval Flow} {p : Procedure} {args : List Value}
    (h : Keeps R (within (·.enter (p.params.zip args)) Workspace.leave (block exec p.body))) :
    Keeps R (invoke exec p args) := by
  refine .bind h fun flow => ?_
  cases flow <;> exact .pure _

theorem keeps_call {eval : Expr → Eval Value} {run : Procedure → List Value → Eval Value} (name : String)
    {args : List Expr} (unknown : Cause) (heval : ∀ e ∈ args, Keeps R (eval e)) (hrun : ∀ p vs, Keeps R (run p vs)) :
    Keeps R (call eval run name args unknown) := by
  refine .bind .get fun m => ?_
  cases m.workspace.procedure? name with
  | none => exact keeps_raise _
  | some p => exact .ite (keeps_raise _) (.bind (.mapM heval) (hrun p))

theorem keeps_keep {test : Value → Eval Bool} (h : ∀ v, Keeps R (test v)) (items : List Value) :
    Keeps R (keep test items) := by
  induction items with
  | nil => exact .pure _
  | cons v rest ih => exact .bind (h v) fun _ => .bind ih fun _ => .pure _

theorem keeps_expectArity (p : Procedure) (supplied : Nat) : Keeps R (expectArity p supplied) :=
  .ite (.pure _) (keeps_raise _)

theorem keeps_traverse {run : Procedure → List Value → Eval Value} (hrun : ∀ p vs, Keeps R (run p vs)) (t : Traversal)
    (name : String) (list : Value) : Keeps R (traverse run t name list) := by
  refine .bind .get fun m => ?_
  cases m.workspace.procedure? name with
  | none => exact keeps_raise _
  | some p =>
    refine .bind (keeps_ofExcept _) fun items => ?_
    cases t with
    | map => exact .bind (keeps_expectArity p 1) fun _ => .bind (.mapM fun v _ => hrun p [v]) fun _ => .pure _
    | filter =>
      refine .bind (keeps_expectArity p 1) fun _ => .bind (keeps_keep (fun v => ?_) items) fun _ => .pure _
      exact .bind (hrun p [v]) fun _ => keeps_ofExcept _
    | reduce =>
      refine .bind (keeps_expectArity p 2) fun _ => ?_
      cases items with
      | nil => exact keeps_raise _
      | cons v rest => exact .foldlM (fun acc item => hrun p [acc, item]) rest v
    | apply => exact .bind (keeps_expectArity p items.length) fun _ => hrun p items

theorem keeps_drawBelow (hrandom : ∀ m : Machine, R m { m with random := m.random.next }) (n : Float) :
    Keeps R (Operation.drawBelow n) := by
  intro m
  have hdraw : ∀ low high, R m { m with random := (m.random.draw low high).2 } := by
    intro low high
    unfold Random.draw
    split
    · exact refl_of R m
    · exact hrandom m
  exact hdraw _ _

theorem keeps_operation {op : Operation}
    (hrandom : op = .random → ∀ m : Machine, R m { m with random := m.random.next }) (args : List Value) :
    Keeps R (op.apply args) := by
  unfold Operation.apply
  refine .ite (keeps_raise _) ?_
  split
  · exact .bind (keeps_ofExcept _) fun n => keeps_drawBelow (hrandom rfl) n
  · exact keeps_ofExcept _
  · exact keeps_ofExcept _
  · exact keeps_raise _

theorem keeps_command {eval : Expr → Eval Value} {c : Command} {args : List Expr}
    (hact : ∀ numbers (m : Machine), R m { m with turtle := c.act numbers m.turtle })
    (heval : ∀ e ∈ args, Keeps R (eval e)) : Keeps R (command eval c args) := by
  refine .ite (keeps_raise _) (.bind (.mapM heval) fun values => ?_)
  cases c.numbers (values.zip (args.map Expr.span)) with
  | ok numbers => exact .modify (hact numbers)
  | error f => exact .throw _

/-- An expression keeps what its parts and the calls of procedures keep, if a draw of a random number keeps it. -/
theorem keeps_exprWith {eval : Expr → Eval Value} {run : Procedure → List Value → Eval Value} {e : Expr}
    (hrandom : ∀ span args, e = .operation span .random args → ∀ m : Machine, R m { m with random := m.random.next })
    (heval : ∀ e, Keeps R (eval e)) (hrun : ∀ p vs, Keeps R (run p vs)) : Keeps R (exprWith eval run e) := by
  have htruth : ∀ operation e, Keeps R (truth eval operation e) := fun _ e => keeps_truth _ (heval e)
  have hnumber : ∀ operation e, Keeps R (number eval operation e) := fun _ e => keeps_number _ (heval e)
  refine keeps_locate _ ?_
  cases e with
  | number span value => exact .pure _
  | list span items => exact .bind (.mapM fun e _ => heval e) fun _ => .pure _
  | thing span name =>
    refine .bind .get fun m => ?_
    cases m.workspace.get? name with
    | none => exact keeps_raise _
    | some v => exact .pure _
  | binary span op left right =>
    cases op
    -- These two may leave out their right side.
    case and => exact .bind (htruth _ _) fun _ => .ite (.bind (htruth _ _) fun _ => .pure _) (.pure _)
    case or => exact .bind (htruth _ _) fun _ => .ite (.pure _) (.bind (htruth _ _) fun _ => .pure _)
    all_goals exact .bind (heval left) fun _ => .bind (heval right) fun _ => keeps_ofExcept _
  | unary span op operand =>
    cases op with
    | neg => exact .bind (hnumber _ _) fun _ => .pure _
    | plus => exact .bind (hnumber _ _) fun _ => .pure _
    | not => exact .bind (htruth _ _) fun _ => .pure _
  | operation span op args =>
    refine .bind (.mapM fun e _ => heval e) fun values => keeps_operation (fun hop => ?_) values
    exact hrandom span args (by rw [hop])
  | traverse span t procedure list => exact .bind (heval list) fun _ => keeps_traverse hrun _ _ _
  | query span q => exact .bind .get fun m => keeps_ofExcept _
  | call span name args => exact keeps_call name _ (fun e _ => heval e) hrun

/-- A program keeps what its statements keep. Of an expression at its top it needs the value. -/
theorem keeps_program {fuel : Nat} {p : Program} (hexpr : ∀ e, .expression e ∈ p → Keeps R (expr fuel e))
    (hstmt : ∀ s ∈ p, Keeps R (stmt fuel s)) (last? : Option Value) : Keeps R (program fuel p last?) := by
  induction p generalizing last? with
  | nil => exact .pure _
  | cons s rest ih =>
    have hrest := ih (fun e he => hexpr e (by simp [he])) fun s' hs' => hstmt s' (by simp [hs'])
    by_cases h : ∃ e, s = .expression e
    · obtain ⟨e, rfl⟩ := h
      rw [program.eq_2]
      exact .bind (hexpr e (by simp)) fun v => hrest (some v)
    · rw [program.eq_3 _ _ _ _ fun e he => h ⟨e, he⟩]
      refine .bind (hstmt s (by simp)) fun flow => ?_
      cases flow with
      | normal => exact hrest none
      | output v => exact .pure _
      | stop => exact .pure _

end Eval
end Logo
