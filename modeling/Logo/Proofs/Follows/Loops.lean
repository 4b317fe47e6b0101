import Logo.Eval
import Logo.Proofs.Follows

/-! Loops and calls side by side. A loop follows another if its body and what it does to its own variable or counter do,
so a relation of machines needs to be looked at only where the workspace changes. -/
namespace Logo.Eval
variable {R : Machine → Machine → Prop} {g : Halt → Halt} {body body' : Eval Flow}

theorem follows_block {exec exec' : Stmt → Eval Flow} {f : Stmt → Stmt} {body : List Stmt}
    (h : ∀ s ∈ body, Follows R g id (exec s) (exec' (f s))) :
    Follows R g id (block exec body) (block exec' (body.map f)) := by
  induction body with
  | nil => exact .pure rfl
  | cons s rest ih =>
    refine .bind (h s (by simp)) fun flow => ?_
    cases flow with
    | normal => exact ih fun s' hs' => h s' (by simp [hs'])
    | output v => exact .pure rfl
    | stop => exact .pure rfl

theorem follows_repeatFrom
    (hcount : ∀ i, Follows R g id (modifyWorkspace (·.setCount i)) (modifyWorkspace (·.setCount i)))
    (hbody : Follows R g id body body') (left i : Nat) :
    Follows R g id (repeatFrom body left i) (repeatFrom body' left i) := by
  induction left generalizing i with
  | zero => exact .pure rfl
  | succ left ih =>
    refine .bind (hcount i) fun _ => .bind hbody fun flow => ?_
    cases flow with
    | normal => exact ih (i + 1)
    | output v => exact .pure rfl
    | stop => exact .pure rfl

theorem follows_whileTrue (hfuel : g .outOfFuel = .outOfFuel) {cond cond' : Eval Bool}
    (hcond : Follows R g id cond cond') (hbody : Follows R g id body body') (fuel : Nat) :
    Follows R g id (whileTrue cond body fuel) (whileTrue cond' body' fuel) := by
  induction fuel with
  | zero => exact .throw hfuel
  | succ fuel ih =>
    refine .bind hcond fun go => .ite Iff.rfl (.bind hbody fun flow => ?_) (.pure rfl)
    cases flow with
    | normal => exact ih
    | output v => exact .pure rfl
    | stop => exact .pure rfl

theorem follows_forFrom (hfuel : g .outOfFuel = .outOfFuel) {var var' : String} {stop step : Float}
    (hset : ∀ v, Follows R g id (modifyWorkspace (·.set var v)) (modifyWorkspace (·.set var' v)))
    (hbody : Follows R g id body body') (fuel : Nat) (i : Float) :
    Follows R g id (forFrom var stop step body fuel i) (forFrom var' stop step body' fuel i) := by
  induction fuel generalizing i with
  | zero => exact .throw hfuel
  | succ fuel ih =>
    refine .ite Iff.rfl (.bind (hset _) fun _ => .bind hbody fun flow => ?_) (.pure rfl)
    cases flow with
    | normal => exact ih (i + step)
    | output v => exact .pure rfl
    | stop => exact .pure rfl

theorem follows_keep {test test' : Value → Eval Bool} (h : ∀ v, Follows R g id (test v) (test' v))
    (items : List Value) : Follows R g id (keep test items) (keep test' items) := by
  induction items with
  | nil => exact .pure rfl
  | cons v rest ih => exact .bind (h v) fun _ => .bind ih fun _ => .pure rfl

/-- A call follows another if the bodies do, each run in a frame of its own. -/
theorem follows_invoke {exec exec' : Stmt → Eval Flow} {p p' : Procedure} {args : List Value}
    (h : Follows R g id (within (·.enter (p.params.zip args)) Workspace.leave (block exec p.body))
      (within (·.enter (p'.params.zip args)) Workspace.leave (block exec' p'.body))) :
    Follows R g id (invoke exec p args) (invoke exec' p' args) := by
  refine .bind h fun flow => ?_
  cases flow <;> exact .pure rfl

/-- A program follows itself where its statements do. Of an expression at its top it needs the value. -/
theorem follows_program {n : Nat} {p : Program} (hexpr : ∀ e, .expression e ∈ p → Follows R g id (expr n e) (expr n e))
    (hstmt : ∀ s ∈ p, Follows R g id (stmt n s) (stmt n s)) (last? : Option Value) :
    Follows R g id (program n p last?) (program n p last?) := by
  induction p generalizing last? with
  | nil => exact .pure rfl
  | cons s rest ih =>
    have hrest := ih (fun e he => hexpr e (by simp [he])) fun s' hs' => hstmt s' (by simp [hs'])
    by_cases h : ∃ e, s = .expression e
    · obtain ⟨e, rfl⟩ := h
      rw [program.eq_2]
      exact .bind (hexpr e (by simp)) fun v => hrest (some v)
    · rw [program.eq_3 _ _ _ _ fun e he => h ⟨e, he⟩]
      refine .bind (hstmt s (by simp)) fun flow => ?_
      cases flow with
      | normal => exact hrest none
      | output v => exact .pure rfl
      | stop => exact .pure rfl

end Logo.Eval
