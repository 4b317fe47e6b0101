import Logo.Proofs.Region

/-! Faults that have their places. What happens in a part of a node is placed by the part, so a node whose own work
cannot fail adds no place, and is nothing but its parts in sequence. -/
namespace Logo.Eval

theorem error_of_bind {α β : Type} {x : Eval α} {f : α → Eval β} {e : Halt} {m m' : Machine}
    (h : (x >>= f) m = .error e m') : x m = .error e m' ∨ ∃ a m₁, x m = .ok a m₁ ∧ f a m₁ = .error e m' := by
  simp only [Bind.bind, EStateM.bind] at h
  split at h
  · next a m₁ hx => exact .inr ⟨a, m₁, hx, h⟩
  · next e' m₁ hx =>
    cases h
    exact .inl hx

theorem locate_congr {α : Type} {x y : Eval α} {m m' : Machine} (h : x m = y m') (span : Span) :
    locate span x m = locate span y m' := by
  simp only [locate, h]

/-- The place of a sequence is the place of its parts. -/
theorem locate_bind {α β : Type} (span : Span) (x : Eval α) (f : α → Eval β) :
    locate span (x >>= f) = locate span x >>= fun a => locate span (f a) := by
  funext m
  simp only [locate, Bind.bind, EStateM.bind]
  cases x m with
  | ok a m' => rfl
  | error e m' => cases e <;> rfl

def Placed {α : Type} (x : Eval α) : Prop := ∀ ⦃m f m'⦄, x m = .error (.fault f) m' → f.span? ≠ none

namespace Placed
variable {α β γ : Type} {x : Eval α} {n : Nat}

/-- Where all faults have places no place is added. -/
theorem locate_eq (hx : Placed x) (span : Span) : locate span x = x := by
  funext m
  unfold Eval.locate
  cases h : x m with
  | ok a m' => rfl
  | error e m' =>
    cases e with
    | outOfFuel => rfl
    | fault f => simp only [Fault.orAt_of_span (hx h)]

theorem locate (span : Span) (x : Eval α) : Placed (Eval.locate span x) := by
  intro m f m' h
  unfold Eval.locate at h
  split at h
  · cases h
  · next g _ _ =>
    cases h
    cases hg : g.span? <;> simp [Fault.orAt, hg]
  · cases h

theorem outOfFuel : Placed (throw .outOfFuel : Eval α) := by
  intro m f m' h
  cases h

theorem expr (n : Nat) (e : Expr) : Placed (expr n e) := by
  cases n with
  | zero => exact outOfFuel
  | succ n => exact locate _ _

theorem stmt (n : Nat) (s : Stmt) : Placed (stmt n s) := by
  cases n with
  | zero => exact outOfFuel
  | succ n => exact locate _ _

theorem pure (a : α) : Placed (Pure.pure a) := by
  intro m f m' h
  cases h

theorem bind {f : α → Eval β} (hx : Placed x) (hf : ∀ a, Placed (f a)) : Placed (x >>= f) := by
  intro m g m' h
  rcases error_of_bind h with hfirst | ⟨a, m₁, -, hrest⟩
  · exact hx hfirst
  · exact hf a hrest

theorem mapM {f : γ → Eval β} (hf : ∀ c, Placed (f c)) (l : List γ) : Placed (l.mapM f) := by
  induction l with
  | nil => exact pure _
  | cons c l ih =>
    rw [List.mapM_cons]
    exact (hf c).bind fun b => ih.bind fun bs => pure _

theorem foldlM {f : β → γ → Eval β} (hf : ∀ b c, Placed (f b c)) (l : List γ) (b : β) : Placed (l.foldlM f b) := by
  induction l generalizing b with
  | nil => exact pure _
  | cons c l ih =>
    rw [List.foldlM_cons]
    exact (hf b c).bind ih

theorem modifyWorkspace (u : Workspace → Workspace) : Placed (modifyWorkspace u) := by
  intro m f m' h
  cases h

theorem within {enter leave : Workspace → Workspace} (hx : Placed x) : Placed (within enter leave x) := by
  intro m f m' h
  unfold Eval.within at h
  split at h
  · cases h
  · next hfails =>
    cases h
    exact hx hfails

theorem number (n : Nat) (operation : String) (e : Expr) : Placed (number (Eval.expr n) operation e) :=
  (expr n e).bind fun _ => locate _ _

theorem block (n : Nat) (body : List Stmt) : Placed (block (Eval.stmt n) body) := by
  induction body with
  | nil => exact pure _
  | cons s rest ih =>
    refine (stmt n s).bind fun flow => ?_
    cases flow with
    | normal => exact ih
    | output v => exact pure _
    | stop => exact pure _

theorem invoke (n : Nat) (p : Procedure) (args : List Value) : Placed (invoke (Eval.stmt n) p args) := by
  refine (block n p.body).within.bind fun flow => ?_
  cases flow <;> exact pure _

section
variable {body : Eval Flow} (hbody : Placed body)
include hbody

theorem repeatTimes (times : Nat) : Placed (repeatTimes times body) := by
  have hfrom : ∀ left i, Placed (repeatFrom body left i) := by
    intro left
    induction left with
    | zero => exact fun i => pure _
    | succ left ih =>
      refine fun i => (modifyWorkspace _).bind fun _ => hbody.bind fun flow => ?_
      cases flow with
      | normal => exact ih (i + 1)
      | output v => exact pure _
      | stop => exact pure _
  exact (hfrom times 1).within

theorem forFrom (var : String) (stop step : Float) (turns : Nat) (i : Float) :
    Placed (forFrom var stop step body turns i) := by
  induction turns generalizing i with
  | zero => exact outOfFuel
  | succ turns ih =>
    unfold Eval.forFrom
    split
    · refine (modifyWorkspace _).bind fun _ => hbody.bind fun flow => ?_
      cases flow with
      | normal => exact ih (i + step)
      | output v => exact pure _
      | stop => exact pure _
    · exact pure _

end
end Placed
end Logo.Eval
