import Mathlib
import Logo.Proofs.Fuel

/-! Calls of procedures. A call of a procedure that is there evaluates the inputs and runs the procedure, so calls on
constants are runs on their values. A list of calls makes them one after the other, up to the first that fails. -/
namespace Logo

namespace Value

variable (span : Span)

mutual

def constant : Value → Expr
  | .number x => .number span x
  | .list items => .list span (constants items)

def constants : List Value → List Expr
  | [] => []
  | v :: vs => v.constant :: constants vs

end

theorem constants_eq_map (items : List Value) : constants span items = items.map (constant span) := by
  induction items with
  | nil => rfl
  | cons v vs ih => rw [constants, ih, List.map_cons]

end Value

namespace Eval
variable {m m' : Machine}

/-! ### Lists and constants -/

theorem expr_list (n : Nat) (span : Span) (es : List Expr) :
    expr (n + 1) (.list span es) = es.mapM (expr n) >>= fun vs => pure (.list vs) := by
  have hplaced : Placed (es.mapM (expr n) >>= fun vs => pure (Value.list vs)) :=
    (Placed.mapM (Placed.expr n) es).bind fun _ => .pure _
  exact hplaced.locate_eq span

theorem ends_list_iff {span : Span} {es : List Expr} {r : EStateM.Result Halt Machine Value} :
    Ends (fun n => expr n (.list span es)) m r ↔
      Ends (fun n => es.mapM (expr n) >>= fun vs => pure (.list vs)) m r := by
  rw [← ends_succ_iff]
  simp only [expr_list]

/-- Expressions that all have values and change nothing. -/
theorem ends_mapM_of_values {e : Value → Expr} {items : List Value}
    (h : ∀ v ∈ items, Ends (fun n => expr n (e v)) m (.ok v m)) :
    Ends (fun n => (items.map e).mapM (expr n)) m (.ok items m) := by
  induction items with
  | nil => exact ends_pure_iff.mpr rfl
  | cons v rest ih =>
    simp only [List.map_cons, List.mapM_cons]
    refine (h v (by simp)).bind_iff.mpr ((ih fun w hw => h w (by simp [hw])).bind_iff.mpr ?_)
    exact ends_pure_iff.mpr rfl

theorem ends_constant (span : Span) (v : Value) (m : Machine) :
    Ends (fun n => expr n (v.constant span)) m (.ok v m) := by
  induction v using Value.induct with
  | number x => exact ends_succ_iff.mp ⟨by simp [Finished], 0, fun _ _ => rfl⟩
  | list items ih =>
    rw [Value.constant, Value.constants_eq_map, ends_list_iff]
    exact (ends_mapM_of_values ih).bind_iff.mpr (ends_pure_iff.mpr rfl)

/-! ### Calls -/

section
variable {name : String} {p : Procedure} {span : Span} {r : EStateM.Result Halt Machine Value}

/-- A call of a procedure that is there, with as many inputs as it takes, evaluates them and runs the procedure. -/
theorem ends_call_iff (hfound : m.workspace.procedure? name = some p) {args : List Expr}
    (hlength : args.length = p.arity) :
    Ends (fun n => expr n (.call span name args)) m r ↔
      Ends (fun n => args.mapM (expr n) >>= invoke (stmt n) p) m r := by
  rw [← ends_succ_iff]
  refine ends_congr ⟨0, fun n _ => ?_⟩
  have hcall : call (expr n) (invoke (stmt n)) name args (.undefinedProcedure name) m =
      (args.mapM (expr n) >>= invoke (stmt n) p) m := by
    simp only [call, Bind.bind, EStateM.bind, MonadState.get, getThe, MonadStateOf.get, EStateM.get, hfound, hlength,
      ne_eq, not_true_eq_false, if_false]
  have hplaced : Placed (args.mapM (expr n) >>= invoke (stmt n) p) :=
    (Placed.mapM (Placed.expr n) args).bind fun _ => .invoke n p _
  exact (locate_congr hcall span).trans (congrFun (hplaced.locate_eq span) m)

/-- A call on constants runs the procedure on their values. -/
theorem ends_call_constants_iff (hfound : m.workspace.procedure? name = some p) (args : List Value)
    (hlength : args.length = p.arity) :
    Ends (fun n => expr n (.call span name (args.map (Value.constant span)))) m r ↔
      Ends (fun n => invoke (stmt n) p args) m r := by
  rw [ends_call_iff hfound (by rwa [List.length_map])]
  exact (ends_mapM_of_values fun v _ => ends_constant span v m).bind_iff

end

/-! ### Calls on the items in turn -/

section
variable (span : Span) (name : String)

def callOn (v : Value) : Expr := .call span name [v.constant span]

def callsOn (items : List Value) : Expr := .list span (items.map (callOn span name))

/-- The name stands for the procedure before each of the calls on the items. -/
def Unreplaced (p : Procedure) : List Value → Machine → Prop
  | [], _ => True
  | v :: rest, m => m.workspace.procedure? name = some p ∧
    ∀ x m₁, Ends (fun n => expr n (callOn span name v)) m (.ok x m₁) → Unreplaced p rest m₁

end

section
variable {span : Span} {name : String} {p : Procedure} {items : List Value}

theorem ends_callOn_iff (hfound : m.workspace.procedure? name = some p) (harity : p.arity = 1) (v : Value)
    {r : EStateM.Result Halt Machine Value} :
    Ends (fun n => expr n (callOn span name v)) m r ↔ Ends (fun n => invoke (stmt n) p [v]) m r :=
  ends_call_constants_iff hfound [v] harity.symm

theorem ends_mapM_calls_iff (harity : p.arity = 1) (h : Unreplaced span name p items m)
    {r : EStateM.Result Halt Machine (List Value)} :
    Ends (fun n => items.mapM fun v => invoke (stmt n) p [v]) m r ↔
      Ends (fun n => (items.map (callOn span name)).mapM (expr n)) m r := by
  induction items generalizing m r with
  | nil => exact Iff.rfl
  | cons v rest ih =>
    simp only [List.map_cons, List.mapM_cons]
    refine ends_bind_congr (steady_invoke p [v]) (steady_expr _) (fun r => (ends_callOn_iff h.1 harity v).symm) ?_
    intro x m₁ hx r
    refine ends_bind_congr (steady_mapM (fun v => steady_invoke p [v]) rest) (steady_mapM steady_expr _) ?_ ?_
    · exact fun r => ih (h.2 x m₁ hx)
    · exact fun xs m₂ _ r => Iff.rfl

inductive Calls (span : Span) (name : String) : List Value → Machine → List Value → Machine → Prop where
  | nil {m : Machine} : Calls span name [] m [] m
  | cons {v x : Value} {rest xs : List Value} {m m₁ m₂ : Machine} :
    Ends (fun n => expr n (callOn span name v)) m (.ok x m₁) →
    Calls span name rest m₁ xs m₂ → Calls span name (v :: rest) m (x :: xs) m₂

theorem ends_callsOn_iff {results : List Value} :
    Ends (fun n => expr n (callsOn span name items)) m (.ok (.list results) m') ↔
      Calls span name items m results m' := by
  have hmapM : Ends (fun n => (items.map (callOn span name)).mapM (expr n)) m (.ok results m') ↔
      Calls span name items m results m' := by
    induction items generalizing m results with
    | nil =>
      rw [List.map_nil]
      constructor
      · intro h
        cases ends_pure_iff.mp h
        exact .nil
      · rintro ⟨⟩
        exact ends_pure_iff.mpr rfl
    | cons v rest ih =>
      simp only [List.map_cons, List.mapM_cons, (steady_expr _).ends_bind_iff,
        (steady_mapM steady_expr _).ends_bind_iff, ends_pure_iff]
      constructor
      · rintro (⟨x, m₁, hx, ⟨xs, m₂, hxs, heq⟩ | ⟨halt, m₂, -, heq⟩⟩ | ⟨halt, m₁, -, heq⟩)
        · cases heq
          exact .cons hx (ih.mp hxs)
        · cases heq
        · cases heq
      · rintro (_ | ⟨hx, hrest⟩)
        exact .inl ⟨_, _, hx, .inl ⟨_, _, ih.mpr hrest, rfl⟩⟩
  rw [← hmapM, callsOn, ends_list_iff, (steady_mapM steady_expr _).ends_bind_iff]
  simp only [ends_pure_iff]
  constructor
  · rintro (⟨vs, m₁, hvs, heq⟩ | ⟨halt, m₁, -, heq⟩)
    · cases heq
      exact hvs
    · cases heq
  · intro h
    exact .inl ⟨results, m', h, rfl⟩

/-- The first call that fails is the last. -/
theorem Calls.ends_of_error {before after results : List Value} {v : Value} {m₂ : Machine} {halt : Halt}
    (h : Calls span name before m results m') (hv : Ends (fun n => expr n (callOn span name v)) m' (.error halt m₂)) :
    Ends (fun n => expr n (callsOn span name (before ++ v :: after))) m (.error halt m₂) := by
  have hmapM : Ends (fun n => ((before ++ v :: after).map (callOn span name)).mapM (expr n)) m (.error halt m₂) := by
    induction h with
    | nil =>
      simp only [List.nil_append, List.map_cons, List.mapM_cons]
      exact (steady_expr _).ends_bind_iff.mpr (.inr ⟨halt, m₂, hv, rfl⟩)
    | cons hx _ ih =>
      simp only [List.cons_append, List.map_cons, List.mapM_cons]
      exact hx.bind_iff.mpr ((steady_mapM steady_expr _).ends_bind_iff.mpr (.inr ⟨halt, m₂, ih hv, rfl⟩))
  rw [callsOn, ends_list_iff]
  exact (steady_mapM steady_expr _).ends_bind_iff.mpr (.inr ⟨halt, m₂, hmapM, rfl⟩)

end
end Eval
end Logo
