import Logo.Proofs.Renaming.Alike
import Logo.Proofs.Tracks

/-! Dead code. What stands behind an `OUTPUT` or a `STOP` in its block is never executed: programs, and procedures in
store, may be pruned of it. A program and its pruned form do the same on machines that are equal when pruned. -/
namespace Logo

def Stmt.isExit : Stmt → Bool
  | .output .. | .stop _ => true
  | _ => false

mutual

/-- The statement without what stands behind an exit in its blocks, at any depth. -/
def Stmt.pruned : Stmt → Stmt
  | .loop span count body => .loop span count (Stmt.pruneAll body)
  | .ifThen span cond body => .ifThen span cond (Stmt.pruneAll body)
  | .ifElse span cond yes no => .ifElse span cond (Stmt.pruneAll yes) (Stmt.pruneAll no)
  | .whileTrue span cond body => .whileTrue span cond (Stmt.pruneAll body)
  | .forEach span var low high step? body => .forEach span var low high step? (Stmt.pruneAll body)
  | .define span name params body => .define span name params (Stmt.pruneAll body)
  | s => s

def Stmt.pruneAll : List Stmt → List Stmt
  | [] => []
  | s :: rest => s.pruned :: if s.isExit then [] else Stmt.pruneAll rest

end

def Machine.pruned (m : Machine) : Machine := { m with workspace := m.workspace.mapBodies Stmt.pruneAll }

theorem Stmt.pruned_eq_mapBlocks (s : Stmt) : s.pruned = s.mapBlocks Stmt.pruneAll := by
  cases s <;> rfl

theorem Stmt.isExit_pruned (s : Stmt) : s.pruned.isExit = s.isExit := by
  cases s <;> rfl

mutual

theorem Stmt.pruned_pruned : (s : Stmt) → s.pruned.pruned = s.pruned
  | .loop span count body => congrArg (Stmt.loop span count) (Stmt.pruneAll_pruneAll body)
  | .ifThen span cond body => congrArg (Stmt.ifThen span cond) (Stmt.pruneAll_pruneAll body)
  | .ifElse span cond yes no =>
    congrArg₂ (Stmt.ifElse span cond) (Stmt.pruneAll_pruneAll yes) (Stmt.pruneAll_pruneAll no)
  | .whileTrue span cond body => congrArg (Stmt.whileTrue span cond) (Stmt.pruneAll_pruneAll body)
  | .forEach span var low high step? body =>
    congrArg (Stmt.forEach span var low high step?) (Stmt.pruneAll_pruneAll body)
  | .define span name params body => congrArg (Stmt.define span name params) (Stmt.pruneAll_pruneAll body)
  | .command .. | .call .. | .expression _ | .make .. | .output .. | .stop _ | .print .. | .declare .. => rfl

theorem Stmt.pruneAll_pruneAll : (body : List Stmt) → Stmt.pruneAll (Stmt.pruneAll body) = Stmt.pruneAll body
  | [] => rfl
  | s :: rest => by
    have hs := s.pruned_pruned
    have hrest := Stmt.pruneAll_pruneAll rest
    by_cases h : s.isExit <;> simp [Stmt.pruneAll, Stmt.isExit_pruned, h, hs, hrest]

end

namespace Eval

/-- An exit does not end normally. -/
theorem stmt_exit {s : Stmt} (h : s.isExit = true) (n : Nat) (m m' : Machine) : stmt n s m ≠ .ok .normal m' := by
  intro hs
  cases n with
  | zero => cases hs
  | succ n =>
    cases s
    case stop span => cases hs
    case output span value =>
      have hlocate : stmt (n + 1) (.output span value) m =
          locate span (EStateM.bind (expr n value) fun v => Pure.pure (Flow.output v)) m := rfl
      rw [hlocate, locate, EStateM.bind] at hs
      cases hvalue : expr n value m with
      | ok v m₁ =>
        rw [hvalue] at hs
        cases hs
      | error e m₁ =>
        rw [hvalue] at hs
        cases e <;> cases hs
    all_goals cases h

/-- What follows a statement counts only for the ways in which the statement ends. -/
theorem bind_congr_ends {α : Type} {x : Eval Flow} {k k' : Flow → Eval α}
    (h : ∀ m flow m', x m = .ok flow m' → k flow = k' flow) : x >>= k = x >>= k' := by
  funext m
  change EStateM.bind x k m = EStateM.bind x k' m
  unfold EStateM.bind
  cases hx : x m with
  | ok flow m' => simp only [h m flow m' hx]
  | error e m' => rfl

/-- Nothing is executed behind an exit. -/
theorem block_exit {n : Nat} {s : Stmt} (h : s.isExit = true) (rest : List Stmt) :
    block (stmt n) (s :: rest) = block (stmt n) [s] := by
  refine bind_congr_ends fun m flow m' hs => ?_
  cases flow with
  | normal => exact absurd hs (stmt_exit h n m m')
  | output v => rfl
  | stop => rfl

theorem program_exit {n : Nat} {s : Stmt} (h : s.isExit = true) (rest : Program) (last? : Option Value) :
    program n (s :: rest) last? = program n [s] last? := by
  have hstmt : ∀ e, s ≠ .expression e := by
    rintro e rfl
    cases h
  rw [program.eq_3 _ _ _ _ hstmt, program.eq_3 _ _ _ _ hstmt]
  refine bind_congr_ends fun m flow m' hs => ?_
  cases flow with
  | normal => exact absurd hs (stmt_exit h n m m')
  | output v => rfl
  | stop => rfl

abbrev Prunes {α : Type} (x y : Eval α) : Prop := Tracks Stmt.pruneAll Eq x y

theorem block_prunes {n : Nat} (hstmt : ∀ s, Prunes (stmt n s) (stmt n s.pruned)) (body : List Stmt) :
    Prunes (block (stmt n) body) (block (stmt n) (Stmt.pruneAll body)) := by
  induction body with
  | nil => exact .pure rfl
  | cons s rest ih =>
    have hcons : ∀ {rest rest'}, Prunes (block (stmt n) rest) (block (stmt n) rest') →
        Prunes (block (stmt n) (s :: rest)) (block (stmt n) (s.pruned :: rest')) := by
      intro rest rest' hrest
      refine .bind (hstmt s) fun flow => ?_
      cases flow with
      | normal => exact hrest
      | output v => exact .pure rfl
      | stop => exact .pure rfl
    by_cases h : s.isExit
    -- The rest is gone on one side and never reached on the other.
    · rw [Stmt.pruneAll, if_pos h, block_exit h]
      exact hcons (.pure rfl)
    · rw [Stmt.pruneAll, if_neg h]
      exact hcons ih

/-- By induction on the fuel, which bodies of procedures use up as all parts of a node do. -/
theorem runs_prune (n : Nat) :
    (∀ e, Prunes (expr n e) (expr n e)) ∧ ∀ s, Prunes (stmt n s) (stmt n s.pruned) := by
  induction n with
  | zero =>
    constructor
    · intro e
      rw [expr]
      exact .throw rfl
    · intro s
      rw [stmt, stmt]
      exact .throw rfl
  | succ n ih =>
    obtain ⟨hexpr, hstmt⟩ := ih
    have hblock := block_prunes hstmt
    have hrun := fun (p : Procedure) args => invoke_tracks (hblock p.body) args
    constructor
    · intro e
      rw [expr]
      exact exprWith_tracks hrun hexpr fun _ _ _ => rfl
    · intro s
      rw [stmt, stmt, Stmt.pruned_eq_mapBlocks]
      exact stmtWith_tracks hrun hexpr hblock n s

theorem program_prunes (n : Nat) (p : Program) (last? : Option Value) :
    Prunes (program n p last?) (program n (Stmt.pruneAll p) last?) := by
  obtain ⟨hexpr, hstmt⟩ := runs_prune n
  induction p generalizing last? with
  | nil => exact .pure rfl
  | cons s rest ih =>
    have hcons : ∀ {rest rest'}, (∀ last?, Prunes (program n rest last?) (program n rest' last?)) →
        Prunes (program n (s :: rest) last?) (program n (s.pruned :: rest') last?) := by
      intro rest rest' hrest
      cases s
      case expression e => exact .bind (hexpr e) fun v => hrest (some v)
      all_goals
        refine .bind (hstmt _) fun flow => ?_
        cases flow
        case normal => exact hrest none
        all_goals exact .pure rfl
    by_cases h : s.isExit
    · rw [Stmt.pruneAll, if_pos h, program_exit h]
      exact hcons fun _ => .pure rfl
    · rw [Stmt.pruneAll, if_neg h]
      exact hcons ih

end Eval

theorem Machine.tracks_iff_pruned {m m' : Machine} : m.Tracks Stmt.pruneAll Eq m' ↔ m.pruned = m' := by
  constructor
  · rintro ⟨hworkspace, hturtle, hprinted, hrandom⟩
    obtain ⟨workspace, turtle, printed, random⟩ := m'
    rw [Machine.pruned, Machine.mk.injEq]
    exact ⟨hworkspace.symm, hturtle.symm, hprinted.symm, hrandom⟩
  · rintro rfl
    exact ⟨rfl, rfl, rfl, rfl⟩

/-- A program and its pruned form, run with the same fuel on machines that are equal when pruned, give the same value or
fail alike, for the same cause at the same place or for want of fuel, and leave machines that are equal when pruned. -/
theorem pruned_program_runs_alike (p : Program) {m m' : Machine} (h : m.pruned = m'.pruned) (fuel : Nat) :
    Coincide (fun n n' => n.pruned = n'.pruned) Eq Eq (Eval.program fuel p none m)
      (Eval.program fuel (Stmt.pruneAll p) none m') := by
  -- Both runs are compared with the one of the pruned program on the pruned machine.
  have hp := Eval.program_prunes fuel p none m m'.pruned (Machine.tracks_iff_pruned.mpr h)
  have hp' := Eval.program_prunes fuel (Stmt.pruneAll p) none m' m'.pruned (Machine.tracks_iff_pruned.mpr rfl)
  rw [Stmt.pruneAll_pruneAll] at hp'
  refine (hp.coincide hp').imp ?_ fun _ _ he => he
  rintro n n' ⟨n₀, hn, hn'⟩
  rw [Machine.tracks_iff_pruned.mp hn, Machine.tracks_iff_pruned.mp hn']

theorem pruned_program_runs_alike_nested :
    Machine.pruned { workspace := { procedures := .ofList [("F", ⟨"f", ["x"], [.stop ⟨8, 12⟩, .stop ⟨13, 17⟩]⟩)] } } =
      Machine.pruned { workspace := { procedures := .ofList [("F", ⟨"f", ["x"], [.stop ⟨8, 12⟩]⟩)] } } ∧
    Coincide (fun n n' => n.pruned = n'.pruned) Eq Eq
      (Eval.program 9 [.ifThen ⟨0, 16⟩ (.call ⟨3, 7⟩ "f" [.list ⟨5, 7⟩ []]) [.stop ⟨9, 13⟩, .call ⟨14, 15⟩ "g" []]] none
        { workspace := { procedures := .ofList [("F", ⟨"f", ["x"], [.stop ⟨8, 12⟩, .stop ⟨13, 17⟩]⟩)] } })
      (Eval.program 9 [.ifThen ⟨0, 16⟩ (.call ⟨3, 7⟩ "f" [.list ⟨5, 7⟩ []]) [.stop ⟨9, 13⟩]] none
        { workspace := { procedures := .ofList [("F", ⟨"f", ["x"], [.stop ⟨8, 12⟩]⟩)] } }) := by
  constructor
  · rfl
  · exact pruned_program_runs_alike _ (by rfl) 9

end Logo
