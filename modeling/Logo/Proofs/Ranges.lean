import Mathlib
import Logo.Proofs.Follows.Nodes
import Logo.Proofs.Fuel
import Logo.Proofs.Scope

/-! Loops over a range. The range is fixed when the loop is entered: its turns have the values that it gives, one after
the other, whatever the turns do to the variable. -/
namespace Logo

structure Range where
  start : Float
  stop : Float
  step : Float

namespace Range
variable (range : Range)

def value : Nat → Float
  | 0 => range.start
  | k + 1 => value k + range.step

def Holds (k : Nat) : Prop :=
  (0 < range.step ∧ range.value k ≤ range.stop) ∨ (range.step < 0 ∧ range.stop ≤ range.value k)

theorem inRange_iff_holds (k : Nat) : Eval.inRange range.stop range.step (range.value k) = true ↔ range.Holds k := by
  simp [Eval.inRange, Holds]

end Range

theorem Workspace.get?_scope_set (w : Workspace) (name : String) (v : Value) :
    (w.set name v).scope.get? (fold name) = some v := by
  have hput := fun t : Table Value => t.get?_insert name (fold name) v
  simp only [if_true] at hput
  obtain ⟨globals, frames, procedures, counters⟩ := w
  cases frames with
  | nil => exact hput globals
  | cons frame outer => exact hput frame

namespace Eval

/-! ### Turns -/

/-- The bounds of a loop, evaluated one after the other from `m`, give the range and lead to `m'`. A loop that names no
step goes by 1 towards its end. -/
inductive Enters (low high : Expr) : Option Expr → Machine → Range → Machine → Prop where
  | towards {m start m₁ stop m'} : Ends (fun n => number (expr n) "FOR" low) m (.ok start m₁) →
    Ends (fun n => number (expr n) "FOR" high) m₁ (.ok stop m') →
    Enters low high none m ⟨start, stop, if start ≤ stop then 1 else -1⟩ m'
  | along {e m start m₁ stop m₂ step m'} : Ends (fun n => number (expr n) "FOR" low) m (.ok start m₁) →
    Ends (fun n => number (expr n) "FOR" high) m₁ (.ok stop m₂) →
    Ends (fun n => number (expr n) "FOR" e) m₂ (.ok step m') → Enters low high (some e) m ⟨start, stop, step⟩ m'

section
variable (var : String) (range : Range) (body : List Stmt)

/-- A loop over the range, entered with `m`, has had so many turns, all of them ended normally, and has come to `m'`. -/
inductive Passed (m : Machine) : Nat → Machine → Prop where
  | start : Passed m 0 m
  | turn {k m₁ m₂} : Passed m k m₁ → range.Holds k →
    Ends (fun n => block (stmt n) body) (m₁.onWorkspace (·.set var (.number (range.value k)))) (.ok .normal m₂) →
    Passed m (k + 1) m₂

inductive StartsPass (m : Machine) : Nat → Machine → Prop where
  | mk {k m₁} : Passed var range body m k m₁ → range.Holds k →
    StartsPass m k (m₁.onWorkspace (·.set var (.number (range.value k))))

end

section
variable {var : String} {stop step i : Float} {body : Eval Flow} {m m' : Machine}

theorem forFrom_of_past (turns : Nat) (h : ¬inRange stop step i = true) (m : Machine) :
    forFrom var stop step body (turns + 1) i m = .ok .normal m := by
  simp only [forFrom, if_neg h]
  rfl

theorem forFrom_of_normal (turns : Nat) (h : inRange stop step i = true)
    (hbody : body (m.onWorkspace (·.set var (.number i))) = .ok .normal m') :
    forFrom var stop step body (turns + 1) i m = forFrom var stop step body turns (i + step) m' := by
  unfold Machine.onWorkspace at hbody
  simp only [forFrom, if_pos h, modifyWorkspace, modify, modifyGet, MonadStateOf.modifyGet, EStateM.modifyGet,
    Bind.bind, EStateM.bind, hbody]

theorem forFrom_of_other (turns : Nat) (h : inRange stop step i = true)
    (hbody : ∀ m', body (m.onWorkspace (·.set var (.number i))) ≠ .ok .normal m') :
    forFrom var stop step body (turns + 1) i m = body (m.onWorkspace (·.set var (.number i))) := by
  unfold Machine.onWorkspace at hbody ⊢
  simp only [forFrom, if_pos h, modifyWorkspace, modify, modifyGet, MonadStateOf.modifyGet, EStateM.modifyGet,
    Bind.bind, EStateM.bind]
  cases hflow : body { m with workspace := m.workspace.set var (.number i) } with
  | error e m' => rfl
  | ok flow m' =>
    cases flow with
    | normal => exact absurd hflow (hbody m')
    | output v => rfl
    | stop => rfl

end

section
variable {var : String} {range : Range} {body : List Stmt} {m m' : Machine} {k : Nat}

/-- With enough fuel for the turns so far, the loop goes on with the next turn. -/
theorem Passed.forFrom_eq (h : Passed var range body m k m') : ∃ n₀, ∀ n, n₀ ≤ n → ∀ turns,
    forFrom var range.stop range.step (block (stmt n) body) (turns + k) range.start m =
      forFrom var range.stop range.step (block (stmt n) body) turns (range.value k) m' := by
  induction h with
  | start => exact ⟨0, fun n _ turns => rfl⟩
  | @turn k m₁ m₂ _ hholds hends ih =>
    obtain ⟨n₀, hn₀⟩ := ih
    obtain ⟨-, n₁, hn₁⟩ := hends
    refine ⟨max n₀ n₁, fun n hn turns => ?_⟩
    have hbody := hn₁ n (by omega)
    have hturns : turns + (k + 1) = turns + 1 + k := by omega
    rw [hturns, hn₀ n (by omega), forFrom_of_normal turns ((range.inRange_iff_holds k).mpr hholds) hbody]
    rfl

/-- A loop ends when its range does, or with its first turn that does not end normally. -/
theorem ends_forFrom_iff {r : EStateM.Result Halt Machine Flow} :
    Ends (fun n => forFrom var range.stop range.step (block (stmt n) body) n range.start) m r ↔
      (∃ k m', Passed var range body m k m' ∧ ¬range.Holds k ∧ r = .ok .normal m') ∨
        ∃ k m', StartsPass var range body m k m' ∧ Ends (fun n => block (stmt n) body) m' r ∧
          ∀ m'', r ≠ .ok .normal m'' := by
  constructor
  · rintro ⟨hr, n, hn⟩
    -- On the turns that the fuel allows.
    have hturns : ∀ turns k m₁, Passed var range body m k m₁ →
        forFrom var range.stop range.step (block (stmt n) body) turns (range.value k) m₁ = r →
        (∃ k m', Passed var range body m k m' ∧ ¬range.Holds k ∧ r = .ok .normal m') ∨
          ∃ k m', StartsPass var range body m k m' ∧ Ends (fun n => block (stmt n) body) m' r ∧
            ∀ m'', r ≠ .ok .normal m'' := by
      intro turns
      induction turns with
      | zero =>
        intro k m₁ _ hend
        exact absurd hend.symm (hr m₁)
      | succ turns ih =>
        intro k m₁ hpassed hend
        by_cases hholds : range.Holds k
        · have hrange := (range.inRange_iff_holds k).mpr hholds
          by_cases hnormal : ∃ m₂, block (stmt n) body (m₁.onWorkspace (·.set var (.number (range.value k)))) =
              .ok .normal m₂
          · obtain ⟨m₂, hbody⟩ := hnormal
            rw [forFrom_of_normal turns hrange hbody] at hend
            have hends := hbody ▸ (steady_block body).ends (n := n) (by simp [hbody, Finished])
            exact ih (k + 1) m₂ (.turn hpassed hholds hends) hend
          · have hother := fun m₂ hbody => hnormal ⟨m₂, hbody⟩
            rw [forFrom_of_other turns hrange hother] at hend
            have hends := hend ▸ (steady_block body).ends (n := n) (hend ▸ hr)
            exact .inr ⟨k, _, .mk hpassed hholds, hends, fun m'' h => hother m'' (hend.trans h)⟩
        · rw [forFrom_of_past turns (hholds ∘ (range.inRange_iff_holds k).mp)] at hend
          exact .inl ⟨k, m₁, hpassed, hholds, hend.symm⟩
    exact hturns n 0 m .start (hn n (Nat.le_refl n))
  · rintro (⟨k, m', hpassed, hpast, rfl⟩ | ⟨k, m', hstarts, hends, hother⟩)
    · obtain ⟨n₀, hn₀⟩ := hpassed.forFrom_eq
      refine ⟨by simp [Finished], n₀ + (k + 1), fun n hn => ?_⟩
      obtain ⟨turns, rfl⟩ : ∃ turns, n = turns + 1 + k := ⟨n - k - 1, by omega⟩
      exact (hn₀ _ (by omega) (turns + 1)).trans (forFrom_of_past turns (hpast ∘ (range.inRange_iff_holds k).mp) m')
    · cases hstarts with
      | mk hpassed hholds =>
        obtain ⟨n₀, hn₀⟩ := hpassed.forFrom_eq
        obtain ⟨hr, n₁, hn₁⟩ := hends
        refine ⟨hr, n₀ + n₁ + (k + 1), fun n hn => ?_⟩
        obtain ⟨turns, rfl⟩ : ∃ turns, n = turns + 1 + k := ⟨n - k - 1, by omega⟩
        have hbody := hn₁ (turns + 1 + k) (by omega)
        have hlast := forFrom_of_other turns ((range.inRange_iff_holds k).mpr hholds) (hbody ▸ hother)
        exact (hn₀ _ (by omega) (turns + 1)).trans (hlast.trans hbody)

end

/-! ### The loop as a statement -/

section
variable {low high : Expr} {step? : Option Expr} {range : Range} {m m₀ : Machine}

/-- Once its bounds have values, a loop is that over the range. -/
theorem Enters.stmt_eq (h : Enters low high step? m range m₀) (span : Span) (var : String) (body : List Stmt) :
    ∃ n₀, ∀ n, n₀ ≤ n → stmt (n + 1) (.forEach span var low high step? body) m =
      locate span (if range.step == 0 then raise .zeroStep
        else forFrom var range.stop range.step (block (stmt n) body) n range.start) m₀ := by
  cases h with
  | @towards m start m₁ stop m' hlow hhigh =>
    obtain ⟨-, n₁, hn₁⟩ := hlow
    obtain ⟨-, n₂, hn₂⟩ := hhigh
    refine ⟨max n₁ n₂, fun n hn => locate_congr ?_ span⟩
    exact (bind_of_ok (hn₁ n (by omega))).trans (bind_of_ok (hn₂ n (by omega)))
  | @along e m start m₁ stop m₂ step m' hlow hhigh hstep =>
    obtain ⟨-, n₁, hn₁⟩ := hlow
    obtain ⟨-, n₂, hn₂⟩ := hhigh
    obtain ⟨-, n₃, hn₃⟩ := hstep
    refine ⟨max n₁ (max n₂ n₃), fun n hn => locate_congr ?_ span⟩
    refine (bind_of_ok (hn₁ n (by omega))).trans ((bind_of_ok (hn₂ n (by omega))).trans ?_)
    exact bind_of_ok (hn₃ n (by omega))

/-- A step of zero is found before any turn. -/
theorem Enters.ends_of_zero (h : Enters low high step? m range m₀) (hzero : (range.step == 0) = true) (span : Span)
    (var : String) (body : List Stmt) : Ends (fun n => stmt n (.forEach span var low high step? body)) m
      (.error (.fault ⟨.zeroStep, some span⟩) m₀) := by
  obtain ⟨n₀, hn₀⟩ := h.stmt_eq span var body
  refine ends_succ_iff.mp ⟨by simp [Finished], n₀, fun n hn => ?_⟩
  refine (hn₀ n hn).trans ?_
  rw [if_pos hzero]
  rfl

/-- With any other step the loop ends as that over the range does. -/
theorem Enters.ends_iff (h : Enters low high step? m range m₀) (hzero : (range.step == 0) = false) (span : Span)
    (var : String) (body : List Stmt) {r : EStateM.Result Halt Machine Flow} :
    Ends (fun n => stmt n (.forEach span var low high step? body)) m r ↔
      Ends (fun n => forFrom var range.stop range.step (block (stmt n) body) n range.start) m₀ r := by
  obtain ⟨n₀, hn₀⟩ := h.stmt_eq span var body
  have hsame : ∀ n, n₀ ≤ n → stmt (n + 1) (.forEach span var low high step? body) m =
      forFrom var range.stop range.step (block (stmt n) body) n range.start m₀ := by
    intro n hn
    rw [hn₀ n hn, if_neg (by simp [hzero])]
    rw [((Placed.block n body).forFrom var range.stop range.step n range.start).locate_eq]
  rw [← ends_succ_iff]
  exact ends_congr ⟨n₀, hsame⟩

/-- The bounds change no variable. -/
theorem Enters.sameVariables (h : Enters low high step? m range m₀) :
    m.workspace.SameVariables m₀.workspace := by
  have hnumber : ∀ {e : Expr} {m m' : Machine} {x : Float}, Ends (fun n => number (expr n) "FOR" e) m (.ok x m') →
      m.workspace.SameVariables m'.workspace := by
    rintro e m m' x ⟨-, n, hn⟩
    have hkeeps := keeps_number "FOR" ((keeps_variables n).1 e) m
    rw [show number (expr n) "FOR" e m = _ from hn n (Nat.le_refl n)] at hkeeps
    exact hkeeps
  cases h with
  | towards hlow hhigh => exact trans_of _ (hnumber hlow) (hnumber hhigh)
  | along hlow hhigh hstep => exact trans_of _ (hnumber hlow) (trans_of _ (hnumber hhigh) (hnumber hstep))

end

/-! ### Turns that all end normally -/

section
variable {var : String} {range : Range} {body : List Stmt} {m m' : Machine} {k : Nat}

def Completes (var : String) (range : Range) (body : List Stmt) (m : Machine) : Prop :=
  ∀ k m', StartsPass var range body m k m' → ∃ m'', Ends (fun n => block (stmt n) body) m' (.ok .normal m'')

theorem Passed.holds (h : Passed var range body m k m') : ∀ j < k, range.Holds j := by
  induction h with
  | start => exact fun j hj => absurd hj (Nat.not_lt_zero j)
  | @turn k m₁ m₂ _ hholds _ ih =>
    intro j hj
    by_cases hjk : j = k
    · exact hjk ▸ hholds
    · exact ih j (by omega)

/-- Which turns there are is told by the range alone. -/
theorem Completes.exists_passed_iff (h : Completes var range body m) :
    (∃ m', Passed var range body m k m') ↔ ∀ j < k, range.Holds j := by
  constructor
  · rintro ⟨m', hpassed⟩
    exact hpassed.holds
  · intro hholds
    induction k with
    | zero => exact ⟨m, .start⟩
    | succ k ih =>
      obtain ⟨m₁, hpassed⟩ := ih fun j hj => hholds j (by omega)
      have hlast := hholds k (by omega)
      obtain ⟨m₂, hends⟩ := h k _ (.mk hpassed hlast)
      exact ⟨m₂, .turn hpassed hlast hends⟩

theorem Completes.exists_starts_iff (h : Completes var range body m) :
    (∃ m', StartsPass var range body m k m') ↔ ∀ j < k + 1, range.Holds j := by
  constructor
  · rintro ⟨m', hstarts⟩ j hj
    cases hstarts with
    | mk hpassed hholds =>
      by_cases hjk : j = k
      · exact hjk ▸ hholds
      · exact hpassed.holds j (by omega)
  · intro hholds
    obtain ⟨m₁, hpassed⟩ := (h.exists_passed_iff (k := k)).mpr fun j hj => hholds j (by omega)
    exact ⟨_, .mk hpassed (hholds k (by omega))⟩

/-- If its turns end normally, the loop ends normally exactly if its range does. -/
theorem Completes.exists_ends_iff (h : Completes var range body m) :
    (∃ m', Ends (fun n => forFrom var range.stop range.step (block (stmt n) body) n range.start) m (.ok .normal m')) ↔
      ∃ k, ¬range.Holds k ∧ ∀ j < k, range.Holds j := by
  constructor
  · rintro ⟨m', hends⟩
    rcases ends_forFrom_iff.mp hends with ⟨k, m₁, hpassed, hpast, -⟩ | ⟨k, m₁, -, -, hother⟩
    · exact ⟨k, hpast, hpassed.holds⟩
    · exact absurd rfl (hother m')
  · rintro ⟨k, hpast, hholds⟩
    obtain ⟨m₁, hpassed⟩ := h.exists_passed_iff.mpr hholds
    exact ⟨m₁, ends_forFrom_iff.mpr (.inl ⟨k, m₁, hpassed, hpast, rfl⟩)⟩

end

/-- A loop whose bounds give a range has one turn for each value of the range, `start`, `start + step` and so on, that
has not passed the end, and it ends when there is no more or with the first turn that does not end normally. At the
start of a turn the variable has the value in the innermost scope. Of two bodies whose turns all end normally, both have
the same turns. A step of zero is a fault before any turn, and no variable has changed. -/
theorem for_range_is_fixed (low high : Expr) (step? : Option Expr) (m : Machine) (range : Range) (m₀ : Machine)
    (h : Enters low high step? m range m₀) (span : Span) (var : String) :
    (∀ body n, Finished (stmt n (.forEach span var low high step? body) m) →
      Ends (fun n => stmt n (.forEach span var low high step? body)) m
        (stmt n (.forEach span var low high step? body) m)) ∧
    ((range.step == 0) = true → ∀ body, Ends (fun n => stmt n (.forEach span var low high step? body)) m
      (.error (.fault ⟨.zeroStep, some span⟩) m₀) ∧ m.workspace.SameVariables m₀.workspace) ∧
    ((range.step == 0) = false →
      (∀ body r, Ends (fun n => stmt n (.forEach span var low high step? body)) m r ↔
        (∃ k m', Passed var range body m₀ k m' ∧ ¬range.Holds k ∧ r = .ok .normal m') ∨
          ∃ k m', StartsPass var range body m₀ k m' ∧ Ends (fun n => block (stmt n) body) m' r ∧
            ∀ m'', r ≠ .ok .normal m'') ∧
      (∀ body k m', StartsPass var range body m₀ k m' →
        m'.workspace.scope.get? (fold var) = some (.number (range.value k))) ∧
      ∀ body body', Completes var range body m₀ → Completes var range body' m₀ →
        (∀ k, (∃ m', StartsPass var range body m₀ k m') ↔ ∃ m', StartsPass var range body' m₀ k m') ∧
        ((∃ m', Ends (fun n => stmt n (.forEach span var low high step? body)) m (.ok .normal m')) ↔
          ∃ m', Ends (fun n => stmt n (.forEach span var low high step? body')) m (.ok .normal m'))) := by
  refine ⟨fun body n hn => (steady_stmt _).ends hn, fun hzero body => ⟨?_, h.sameVariables⟩, fun hzero => ⟨?_, ?_, ?_⟩⟩
  · exact h.ends_of_zero hzero span var body
  · intro body r
    rw [h.ends_iff hzero, ends_forFrom_iff]
  · rintro body k m' ⟨-, -⟩
    exact Workspace.get?_scope_set _ _ _
  · intro body body' hbody hbody'
    refine ⟨fun k => hbody.exists_starts_iff.trans hbody'.exists_starts_iff.symm, ?_⟩
    simp only [h.ends_iff hzero]
    exact hbody.exists_ends_iff.trans hbody'.exists_ends_iff.symm

/-- A body that assigns another value to the variable has the turn that an empty body has. -/
theorem for_range_is_fixed_reassigned :
    (∃ m₁ m', StartsPass "i" ⟨1, 1, 1⟩ [.make ⟨12, 21⟩ "i" (.list ⟨19, 21⟩ [])] {} 0 m₁ ∧
      m₁.workspace.scope.get? (fold "i") = some (.number 1) ∧
      Ends (fun n => stmt n (.forEach ⟨0, 22⟩ "i" (.number ⟨7, 8⟩ 1) (.number ⟨9, 10⟩ 1) none
        [.make ⟨12, 21⟩ "i" (.list ⟨19, 21⟩ [])])) {} (.ok .normal m')) ∧
    Ends (fun n => stmt n (.forEach ⟨0, 15⟩ "i" (.number ⟨7, 8⟩ 1) (.number ⟨9, 10⟩ 1)
      (some (.number ⟨11, 12⟩ 0)) [])) {}
      (.error (.fault ⟨.zeroStep, some ⟨0, 15⟩⟩) {}) := by
  have hnumber : ∀ span x, Ends (fun n => number (expr n) "FOR" (.number span x)) {} (.ok x {}) := fun span x =>
    ends_succ_iff.mp ⟨by simp [Finished], 0, fun k _ => rfl⟩
  have henters : Enters (.number ⟨7, 8⟩ 1) (.number ⟨9, 10⟩ 1) none {} ⟨1, 1, 1⟩ {} := by
    have htowards := Enters.towards (hnumber ⟨7, 8⟩ 1) (hnumber ⟨9, 10⟩ 1)
    rwa [if_pos (by decide)] at htowards
  have hmake : Completes "i" ⟨1, 1, 1⟩ [.make ⟨12, 21⟩ "i" (.list ⟨19, 21⟩ [])] {} := fun k m' _ =>
    ⟨m'.onWorkspace (·.set "i" (.list [])), ends_succ_iff.mp (ends_succ_iff.mp ⟨by simp [Finished], 0, fun k _ => rfl⟩)⟩
  have hempty : Completes "i" ⟨1, 1, 1⟩ [] {} := fun k m' _ => ⟨m', ends_pure_iff.mpr rfl⟩
  have hfirst : Range.Holds ⟨1, 1, 1⟩ 0 := .inl ⟨by decide, by decide⟩
  have hsecond : ¬Range.Holds ⟨1, 1, 1⟩ 1 := by
    rintro (⟨-, h⟩ | ⟨h, -⟩)
    · exact absurd h (by decide)
    · exact absurd h (by decide)
  have hzero := for_range_is_fixed _ _ _ _ _ _
    (.along (hnumber ⟨7, 8⟩ 1) (hnumber ⟨9, 10⟩ 1) (hnumber ⟨11, 12⟩ 0)) ⟨0, 15⟩ "i"
  obtain ⟨-, -, hturns⟩ := for_range_is_fixed _ _ _ _ _ _ henters ⟨0, 22⟩ "i"
  obtain ⟨hends, hvalue, hbodies⟩ := hturns (by decide)
  obtain ⟨hstarts, hnormal⟩ := hbodies _ _ hmake hempty
  obtain ⟨m₁, hm₁⟩ := (hstarts 0).mpr ⟨_, .mk .start hfirst⟩
  have hpassed : Passed "i" ⟨1, 1, 1⟩ [] {} 1 _ := .turn .start hfirst (ends_pure_iff.mpr rfl)
  obtain ⟨m', hm'⟩ := hnormal.mpr ⟨_, (hends [] _).mpr (.inl ⟨1, _, hpassed, hsecond, rfl⟩)⟩
  exact ⟨⟨m₁, m', hm₁, hvalue _ _ _ hm₁, hm'⟩, (hzero.2.1 (by decide) []).1⟩

end Eval
end Logo
