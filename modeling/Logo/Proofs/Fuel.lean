import Logo.Proofs.Reach

/-! Fuel. A run that does not use up its fuel ends in the same way with more of it. So each run has at most one way to
end, and laws about ends need no fuel: a sequence ends as its parts do, one after the other. -/
namespace Logo

/-! ### More fuel -/

namespace Region
variable {R : Region} {X : Halt → Prop} {α : Type}

theorem Same.trans {x y z : EStateM.Result Halt Machine α} (h : R.Same X x y) (h' : R.Same X y z) : R.Same X x z := by
  cases h with
  | broken he => exact .broken he
  | _ => exact h'

theorem Agrees.trans {x y z : Eval α} (h : R.Agrees X x y) (h' : R.Agrees X y z) : R.Agrees X x z :=
  fun m hm => (h m hm).trans (h' m hm)

namespace Agrees
variable {body : Eval Flow} (hX : X .outOfFuel) (hbody : R.Agrees X body body)
include hX hbody

theorem whileTrue_more {cond : Eval Bool} (hcond : R.Agrees X cond cond) (turns : Nat) :
    R.Agrees X (Eval.whileTrue cond body turns) (Eval.whileTrue cond body (turns + 1)) := by
  induction turns with
  | zero => exact fun _ _ => .broken hX
  | succ turns ih =>
    rw [Eval.whileTrue, Eval.whileTrue]
    refine hcond.bind fun go => .ite (hbody.bind fun flow => ?_) (.pure _)
    cases flow with
    | normal => exact ih
    | output v => exact .pure _
    | stop => exact .pure _

theorem forFrom_more (var : String) (stop step : Float) (turns : Nat) (i : Float) :
    R.Agrees X (Eval.forFrom var stop step body turns i) (Eval.forFrom var stop step body (turns + 1) i) := by
  induction turns generalizing i with
  | zero => exact fun _ _ => .broken hX
  | succ turns ih =>
    rw [Eval.forFrom, Eval.forFrom]
    refine .ite ((setVariable var (.number i)).bind fun _ => hbody.bind fun flow => ?_) (.pure _)
    cases flow with
    | normal => exact ih (i + step)
    | output v => exact .pure _
    | stop => exact .pure _

end Agrees

/-- Only loops notice how many turns they may take. -/
theorem agrees_more_turns (hX : X .outOfFuel) (hplaced : ∀ f, X (.fault f) → f.span? ≠ none) {r : Node.Runner}
    (hr : ∀ a, R.node a → R.Agrees X (r a) (r a)) {a : Node} (ha : R.node a) (turns : Nat) :
    R.Agrees X (Node.runWith turns r a) (Node.runWith (turns + 1) r a) := by
  have hsame := agrees_runWith hplaced hr ha turns
  have hblock : ∀ body : List Stmt, (∀ s ∈ body, .stmt s ∈ a.children) →
      R.Agrees X (Eval.block (fun s => r (.stmt s)) body) (Eval.block (fun s => r (.stmt s)) body) :=
    fun body h => .block fun s hs => hr _ (R.child ha (h s hs))
  have hnumber := number_child hplaced hr ha
  cases a with
  | expr e => exact hsame
  | stmt s =>
    cases s with
    | whileTrue span cond body =>
      have hcond := truth_child hplaced hr ha "WHILE" cond (by simp [Node.children])
      exact .locate hplaced ha (.whileTrue_more hX (hblock body (by simp [Node.children])) hcond turns)
    | forEach span var low high step? body =>
      refine .locate hplaced ha ((hnumber _ low (by simp [Node.children])).bind fun start => ?_)
      refine (hnumber _ high (by simp [Node.children])).bind fun stop => ?_
      have hturns : ∀ step : Float, R.Agrees X
          (if step == 0 then Eval.raise .zeroStep
            else Eval.forFrom var stop step (Eval.block (fun s => r (.stmt s)) body) turns start)
          (if step == 0 then Eval.raise .zeroStep
            else Eval.forFrom var stop step (Eval.block (fun s => r (.stmt s)) body) (turns + 1) start) :=
        fun step => .ite (.raise (.ofValues rfl))
          (.forFrom_more hX (hblock body (by simp [Node.children])) var stop step turns start)
      cases step? with
      | none => exact (Agrees.pure _).bind hturns
      | some e => exact (hnumber _ e (by simp [Node.children])).bind hturns
    | _ => exact hsame

end Region

/-- The second computation does what the first does, unless the first runs out of fuel. -/
abbrev Outlasts {α : Type} (x y : Eval α) : Prop := Region.whole.Agrees (· = .outOfFuel) x y

namespace Node

theorem outlasts_self (n : Nat) (a : Node) : Outlasts (a.run n) (a.run n) :=
  fun m hm => (Region.whole.agrees_run n trivial m hm).weaken

/-- With one more unit of fuel a loop may take one turn more, and all parts have one more unit. -/
theorem outlasts_succ (n : Nat) (a : Node) : Outlasts (a.run n) (a.run (n + 1)) := by
  induction n generalizing a with
  | zero => cases a <;> exact fun _ _ => .broken rfl
  | succ n ih =>
    have hturns : Outlasts (runWith n (run n) a) (runWith (n + 1) (run n) a) :=
      Region.agrees_more_turns (R := .whole) (X := (· = .outOfFuel)) rfl (by simp) (fun b _ => outlasts_self n b)
        trivial n
    have hparts : Outlasts (runWith (n + 1) (run n) a) (runWith (n + 1) (run (n + 1)) a) :=
      Region.agrees_runWith (by simp) (fun b _ => ih b) trivial (n + 1)
    rw [run_succ, run_succ]
    exact hturns.trans hparts

theorem outlasts_of_le {n k : Nat} (h : n ≤ k) (a : Node) : Outlasts (a.run n) (a.run k) := by
  induction h with
  | refl => exact outlasts_self n a
  | step _ ih => exact ih.trans (outlasts_succ _ a)

end Node

/-! ### Ends -/

def Finished {α : Type} (r : EStateM.Result Halt Machine α) : Prop := ∀ m, r ≠ .error .outOfFuel m

namespace Eval
variable {α β : Type} {x : Nat → Eval α} {m m' : Machine} {r : EStateM.Result Halt Machine α}

/-- With enough fuel the computation always ends in this way. -/
def Ends (x : Nat → Eval α) (m : Machine) (r : EStateM.Result Halt Machine α) : Prop :=
  Finished r ∧ ∃ n, ∀ k, n ≤ k → x k m = r

def Steady (x : Nat → Eval α) : Prop := ∀ n k, n ≤ k → Outlasts (x n) (x k)

theorem Steady.ends (hx : Steady x) {n : Nat} (h : Finished (x n m)) : Ends x m (x n m) := by
  refine ⟨h, n, fun k hk => ?_⟩
  rcases (hx n k hk m fun _ _ _ => trivial).eq_or_broken with heq | ⟨e, m', hout, rfl⟩
  · exact heq
  · exact absurd hout (h m')

theorem Ends.unique {r' : EStateM.Result Halt Machine α} (h : Ends x m r) (h' : Ends x m r') : r = r' := by
  obtain ⟨-, n, hn⟩ := h
  obtain ⟨-, n', hn'⟩ := h'
  rw [← hn (max n n') (Nat.le_max_left n n'), hn' (max n n') (Nat.le_max_right n n')]

/-- Computations that are the same with enough fuel end alike. -/
theorem ends_congr {y : Nat → Eval α} (h : ∃ n₀, ∀ n, n₀ ≤ n → x n m = y n m') : Ends x m r ↔ Ends y m' r := by
  obtain ⟨n₀, hn₀⟩ := h
  constructor
  · rintro ⟨hr, n, hn⟩
    exact ⟨hr, max n₀ n, fun k hk => (hn₀ k (by omega)).symm.trans (hn k (by omega))⟩
  · rintro ⟨hr, n, hn⟩
    exact ⟨hr, max n₀ n, fun k hk => (hn₀ k (by omega)).trans (hn k (by omega))⟩

/-- One unit of fuel more or less does not matter. -/
theorem ends_succ_iff : Ends (fun n => x (n + 1)) m r ↔ Ends x m r := by
  constructor
  · rintro ⟨hr, n, hn⟩
    refine ⟨hr, n + 1, fun k hk => ?_⟩
    obtain ⟨j, rfl⟩ := Nat.exists_eq_add_of_le hk
    rw [← hn (n + j) (Nat.le_add_right n j), Nat.add_right_comm]
  · rintro ⟨hr, n, hn⟩
    exact ⟨hr, n, fun k hk => hn (k + 1) (Nat.le_succ_of_le hk)⟩

theorem ends_pure_iff {a : α} : Ends (fun _ => pure a) m r ↔ r = .ok a m := by
  constructor
  · rintro ⟨-, n, hn⟩
    exact (hn n (Nat.le_refl n)).symm
  · rintro rfl
    exact ⟨by simp [Finished], 0, fun _ _ => rfl⟩

section
variable {x : Eval α} {f : α → Eval β}

theorem bind_of_ok {a : α} (h : x m = .ok a m') : (x >>= f) m = f a m' := by
  simp only [Bind.bind, EStateM.bind, h]

theorem bind_of_error {e : Halt} (h : x m = .error e m') : (x >>= f) m = .error e m' := by
  simp only [Bind.bind, EStateM.bind, h]

end

/-- A sequence ends with its first part, if that fails, or else with its second part. -/
theorem Steady.ends_bind_iff (hx : Steady x) {f : Nat → α → Eval β} {r : EStateM.Result Halt Machine β} :
    Ends (fun n => x n >>= f n) m r ↔
      (∃ a m₁, Ends x m (.ok a m₁) ∧ Ends (fun n => f n a) m₁ r) ∨
        ∃ e m₁, Ends x m (.error e m₁) ∧ r = .error e m₁ := by
  constructor
  · rintro ⟨hr, n, hn⟩
    cases hxn : x n m with
    | ok a m₁ =>
      have hfirst : Ends x m (.ok a m₁) := hxn ▸ hx.ends (by simp [hxn, Finished])
      obtain ⟨hfinished, n', hn'⟩ := hfirst
      refine .inl ⟨a, m₁, ⟨hfinished, n', hn'⟩, hr, max n n', fun k hk => ?_⟩
      rw [← hn k (Nat.le_trans (Nat.le_max_left n n') hk)]
      exact (bind_of_ok (hn' k (Nat.le_trans (Nat.le_max_right n n') hk))).symm
    | error e m₁ =>
      have hend : r = .error e m₁ := (hn n (Nat.le_refl n)).symm.trans (bind_of_error hxn)
      have hfinished : Finished (x n m) := by
        intro m₂ hout
        rw [hxn] at hout
        cases hout
        exact hr m₁ hend
      exact .inr ⟨e, m₁, hxn ▸ hx.ends hfinished, hend⟩
  · rintro (⟨a, m₁, ⟨-, n, hn⟩, hr, n', hn'⟩ | ⟨e, m₁, ⟨hr, n, hn⟩, rfl⟩)
    · refine ⟨hr, max n n', fun k hk => ?_⟩
      rw [← hn' k (Nat.le_trans (Nat.le_max_right n n') hk)]
      exact bind_of_ok (hn k (Nat.le_trans (Nat.le_max_left n n') hk))
    · refine ⟨fun m₂ hout => hr m₂ ?_, n, fun k hk => bind_of_error (hn k hk)⟩
      cases hout
      rfl

theorem Ends.bind_iff {a : α} (hx : Ends x m (.ok a m')) {f : Nat → α → Eval β} {r : EStateM.Result Halt Machine β} :
    Ends (fun n => x n >>= f n) m r ↔ Ends (fun n => f n a) m' r := by
  obtain ⟨-, n, hn⟩ := hx
  exact ends_congr ⟨n, fun k hk => bind_of_ok (hn k hk)⟩

/-- Sequences whose parts end alike end alike. -/
theorem ends_bind_congr {y : Nat → Eval α} {f g : Nat → α → Eval β} {r : EStateM.Result Halt Machine β}
    (hx : Steady x) (hy : Steady y) (hxy : ∀ r, Ends x m r ↔ Ends y m r)
    (hfg : ∀ a m₁, Ends y m (.ok a m₁) → ∀ r, Ends (fun n => f n a) m₁ r ↔ Ends (fun n => g n a) m₁ r) :
    Ends (fun n => x n >>= f n) m r ↔ Ends (fun n => y n >>= g n) m r := by
  rw [hx.ends_bind_iff, hy.ends_bind_iff]
  simp only [hxy]
  refine or_congr_left (exists_congr fun a => exists_congr fun m₁ => and_congr_right fun ha => ?_)
  exact hfg a m₁ ha r

theorem steady_expr (e : Expr) : Steady fun n => expr n e := fun _ _ h => Node.outlasts_of_le h (.expr e)

theorem steady_stmt (s : Stmt) : Steady fun n => stmt n s := fun _ _ h => Node.outlasts_of_le h (.stmt s)

theorem steady_block (body : List Stmt) : Steady fun n => block (stmt n) body :=
  fun _ _ h => .block fun s _ => Node.outlasts_of_le h (.stmt s)

theorem steady_program (p : Program) (last? : Option Value) : Steady fun n => program n p last? :=
  fun _ _ h => Region.agrees_programs (fun a _ => Node.outlasts_of_le h a) (fun _ _ => trivial) last?

section
variable {γ : Type}

theorem steady_mapM {f : Nat → γ → Eval β} (hf : ∀ c, Steady fun n => f n c) (l : List γ) :
    Steady fun n => l.mapM (f n) := fun n k hk => .mapM fun c _ => hf c n k hk

theorem steady_foldlM {f : Nat → β → γ → Eval β} (hf : ∀ b c, Steady fun n => f n b c) (l : List γ) (b : β) :
    Steady fun n => l.foldlM (f n) b := fun n k hk => .foldlM (fun b c => hf b c n k hk) l b

theorem steady_keep {test : Nat → Value → Eval Bool} (h : ∀ v, Steady fun n => test n v) (items : List Value) :
    Steady fun n => keep (test n) items := fun n k hk => .keep (fun v => h v n k hk) items

end

theorem steady_invoke (p : Procedure) (args : List Value) : Steady fun n => invoke (stmt n) p args :=
  fun _ _ h => .invoke (fun s _ => Node.outlasts_of_le h (.stmt s)) args

end Eval
end Logo
