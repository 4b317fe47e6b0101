import Logo.Proofs.Fuel

/-! Programs as blocks. A program is run statement by statement as a block is, but for its expressions at the top, of
which it keeps the last value. Both runs are read off one walk along the statements: they end in the same state, fail
alike, and the value is that of the last statement. -/
namespace Logo.Eval

/-- An expression as a statement is evaluated and its value dropped. Its fault has a place already. -/
theorem stmt_expression (n : Nat) (e : Expr) :
    stmt (n + 1) (.expression e) = expr n e >>= fun _ => pure Flow.normal := by
  funext m
  have hstmt : stmt (n + 1) (.expression e) m =
    locate e.span (discard (expr n e) >>= fun _ => pure Flow.normal) m := rfl
  rw [hstmt, locate]
  cases h : expr n e m with
  | ok v m' =>
    have hdiscard : discard (expr n e) m = .ok () m' := by
      simp only [Functor.discard, Functor.mapConst, EStateM.map, Function.comp, h, Function.const]
    rw [bind_of_ok h, bind_of_ok hdiscard]
    rfl
  | error halt m' =>
    have hdiscard : discard (expr n e) m = .error halt m' := by
      simp only [Functor.discard, Functor.mapConst, EStateM.map, Function.comp, h]
    rw [bind_of_error h, bind_of_error hdiscard]
    cases halt with
    | outOfFuel => rfl
    | fault f => simp only [Fault.orAt_of_span (Node.placed_of_run (a := .expr e) h)]

theorem ends_expression_iff {e : Expr} {m : Machine} {r : EStateM.Result Halt Machine Flow} :
    Ends (fun n => stmt n (.expression e)) m r ↔
      (∃ v m', Ends (fun n => expr n e) m (.ok v m') ∧ r = .ok .normal m') ∨
        ∃ halt m', Ends (fun n => expr n e) m (.error halt m') ∧ r = .error halt m' := by
  rw [← ends_succ_iff]
  simp only [stmt_expression, (steady_expr e).ends_bind_iff, ends_pure_iff]

/-- How a walk along the statements of a program ends for a block of them and for the program, of which the last value
so far is given. -/
inductive Walks : Program → Machine → Option Value →
    EStateM.Result Halt Machine Flow → EStateM.Result Halt Machine (Option Value) → Prop where
  | done {m last?} : Walks [] m last? (.ok .normal m) (.ok last? m)
  | value {e rest m last? v m₁ r r'} : Ends (fun n => expr n e) m (.ok v m₁) → Walks rest m₁ (some v) r r' →
    Walks (.expression e :: rest) m last? r r'
  | onward {s rest m last? m₁ r r'} : (∀ e, s ≠ .expression e) → Ends (fun n => stmt n s) m (.ok .normal m₁) →
    Walks rest m₁ none r r' → Walks (s :: rest) m last? r r'
  | leave {s rest m last? flow m₁} : Ends (fun n => stmt n s) m (.ok flow m₁) → flow ≠ .normal →
    Walks (s :: rest) m last? (.ok flow m₁) (.ok none m₁)
  | fail {s rest m last? halt m₁} : Ends (fun n => stmt n s) m (.error halt m₁) →
    Walks (s :: rest) m last? (.error halt m₁) (.error halt m₁)

variable {p : Program} {m m' : Machine} {last? : Option Value} {r : EStateM.Result Halt Machine Flow}
  {r' : EStateM.Result Halt Machine (Option Value)}

/-! ### Both runs walk along the statements -/

theorem Walks.ends_block (h : Walks p m last? r r') : Ends (fun n => block (stmt n) p) m r := by
  induction h with
  | done => exact ends_pure_iff.mpr rfl
  | value he _ ih =>
    have hs := ends_expression_iff.mpr (.inl ⟨_, _, he, rfl⟩)
    exact (steady_stmt _).ends_bind_iff.mpr (.inl ⟨_, _, hs, ih⟩)
  | onward _ hs _ ih => exact (steady_stmt _).ends_bind_iff.mpr (.inl ⟨_, _, hs, ih⟩)
  | @leave s rest m last? flow m₁ hs hflow =>
    refine (steady_stmt _).ends_bind_iff.mpr (.inl ⟨_, _, hs, ?_⟩)
    cases flow with
    | normal => exact absurd rfl hflow
    | output v => exact ends_pure_iff.mpr rfl
    | stop => exact ends_pure_iff.mpr rfl
  | fail hs => exact (steady_stmt _).ends_bind_iff.mpr (.inr ⟨_, _, hs, rfl⟩)

theorem exists_walks_of_block (h : Ends (fun n => block (stmt n) p) m r) (last? : Option Value) :
    ∃ r', Walks p m last? r r' := by
  induction p generalizing m last? with
  | nil =>
    obtain rfl := ends_pure_iff.mp h
    exact ⟨_, .done⟩
  | cons s rest ih =>
    rcases (steady_stmt s).ends_bind_iff.mp h with ⟨flow, m₁, hs, hrest⟩ | ⟨halt, m₁, hs, rfl⟩
    · cases flow with
      | normal =>
        by_cases hexpression : ∃ e, s = .expression e
        · obtain ⟨e, rfl⟩ := hexpression
          rcases ends_expression_iff.mp hs with ⟨v, m₂, he, heq⟩ | ⟨halt, m₂, he, heq⟩
          · cases heq
            obtain ⟨r', hwalks⟩ := ih hrest (some v)
            exact ⟨r', .value he hwalks⟩
          · cases heq
        · obtain ⟨r', hwalks⟩ := ih hrest none
          exact ⟨r', .onward (fun e he => hexpression ⟨e, he⟩) hs hwalks⟩
      | output v =>
        obtain rfl := ends_pure_iff.mp hrest
        exact ⟨_, .leave hs (by simp)⟩
      | stop =>
        obtain rfl := ends_pure_iff.mp hrest
        exact ⟨_, .leave hs (by simp)⟩
    · exact ⟨_, .fail hs⟩

/-- What the program does with an expression at its top. -/
theorem ends_program_value_iff {e : Expr} {rest : Program} :
    Ends (fun n => program n (.expression e :: rest) last?) m r' ↔
      (∃ v m₁, Ends (fun n => expr n e) m (.ok v m₁) ∧ Ends (fun n => program n rest (some v)) m₁ r') ∨
        ∃ halt m₁, Ends (fun n => expr n e) m (.error halt m₁) ∧ r' = .error halt m₁ :=
  (steady_expr e).ends_bind_iff

/-- What the program does with any other statement. -/
theorem ends_program_stmt_iff {s : Stmt} (hs : ∀ e, s ≠ .expression e) {rest : Program} :
    Ends (fun n => program n (s :: rest) last?) m r' ↔
      (∃ m₁, Ends (fun n => stmt n s) m (.ok .normal m₁) ∧ Ends (fun n => program n rest none) m₁ r') ∨
        (∃ flow m₁, flow ≠ .normal ∧ Ends (fun n => stmt n s) m (.ok flow m₁) ∧ r' = .ok none m₁) ∨
          ∃ halt m₁, Ends (fun n => stmt n s) m (.error halt m₁) ∧ r' = .error halt m₁ := by
  simp only [fun n => program.eq_3 n last? s rest hs, (steady_stmt s).ends_bind_iff]
  constructor
  · rintro (⟨flow, m₁, hflow, hrest⟩ | hfail)
    · cases flow with
      | normal => exact .inl ⟨m₁, hflow, hrest⟩
      | output v => exact .inr (.inl ⟨_, m₁, by simp, hflow, ends_pure_iff.mp hrest⟩)
      | stop => exact .inr (.inl ⟨_, m₁, by simp, hflow, ends_pure_iff.mp hrest⟩)
    · exact .inr (.inr hfail)
  · rintro (⟨m₁, hflow, hrest⟩ | ⟨flow, m₁, hne, hflow, heq⟩ | hfail)
    · exact .inl ⟨_, m₁, hflow, hrest⟩
    · refine .inl ⟨flow, m₁, hflow, ?_⟩
      cases flow with
      | normal => exact absurd rfl hne
      | output v => exact ends_pure_iff.mpr heq
      | stop => exact ends_pure_iff.mpr heq
    · exact .inr hfail

theorem Walks.ends_program (h : Walks p m last? r r') : Ends (fun n => program n p last?) m r' := by
  induction h with
  | done => exact ends_pure_iff.mpr rfl
  | value he _ ih => exact ends_program_value_iff.mpr (.inl ⟨_, _, he, ih⟩)
  | onward hother hs _ ih => exact (ends_program_stmt_iff hother).mpr (.inl ⟨_, hs, ih⟩)
  | @leave s rest m last? flow m₁ hs hflow =>
    refine (ends_program_stmt_iff ?_).mpr (.inr (.inl ⟨_, _, hflow, hs, rfl⟩))
    rintro e rfl
    rcases ends_expression_iff.mp hs with ⟨v, m₂, -, heq⟩ | ⟨halt, m₂, -, heq⟩
    · cases heq
      exact hflow rfl
    · cases heq
  | @fail s rest m last? halt m₁ hs =>
    by_cases hexpression : ∃ e, s = .expression e
    · obtain ⟨e, rfl⟩ := hexpression
      rcases ends_expression_iff.mp hs with ⟨v, m₂, he, heq⟩ | ⟨halt, m₂, he, heq⟩
      · cases heq
      · cases heq
        exact ends_program_value_iff.mpr (.inr ⟨_, _, he, rfl⟩)
    · exact (ends_program_stmt_iff fun e he => hexpression ⟨e, he⟩).mpr (.inr (.inr ⟨_, _, hs, rfl⟩))

theorem exists_walks_of_program (h : Ends (fun n => program n p last?) m r') : ∃ r, Walks p m last? r r' := by
  induction p generalizing m last? with
  | nil =>
    obtain rfl := ends_pure_iff.mp h
    exact ⟨_, .done⟩
  | cons s rest ih =>
    by_cases hexpression : ∃ e, s = .expression e
    · obtain ⟨e, rfl⟩ := hexpression
      rcases ends_program_value_iff.mp h with ⟨v, m₁, he, hrest⟩ | ⟨halt, m₁, he, rfl⟩
      · obtain ⟨r, hwalks⟩ := ih hrest
        exact ⟨r, .value he hwalks⟩
      · exact ⟨_, .fail (ends_expression_iff.mpr (.inr ⟨_, _, he, rfl⟩))⟩
    · have hother : ∀ e, s ≠ .expression e := fun e he => hexpression ⟨e, he⟩
      rcases (ends_program_stmt_iff hother).mp h with ⟨m₁, hs, hrest⟩ | ⟨flow, m₁, hflow, hs, rfl⟩ | ⟨halt, m₁, hs, rfl⟩
      · obtain ⟨r, hwalks⟩ := ih hrest
        exact ⟨r, .onward hother hs hwalks⟩
      · exact ⟨_, .leave hs hflow⟩
      · exact ⟨_, .fail hs⟩

/-! ### The value -/

/-- The last statement of the program is an expression, and in the state in which the statements before it end normally
it has the value `v`. -/
def LastValue (p : Program) (m : Machine) (v : Value) (m' : Machine) : Prop :=
  ∃ before e m₁, p = before ++ [.expression e] ∧ Ends (fun n => block (stmt n) before) m (.ok .normal m₁) ∧
    Ends (fun n => expr n e) m₁ (.ok v m')

theorem lastValue_single_iff {s : Stmt} {v : Value} :
    LastValue [s] m v m' ↔ ∃ e, s = .expression e ∧ Ends (fun n => expr n e) m (.ok v m') := by
  constructor
  · rintro ⟨before, e, m₁, hp, hbefore, he⟩
    cases before with
    | nil =>
      obtain rfl : s = .expression e := by simpa using hp
      cases ends_pure_iff.mp hbefore
      exact ⟨e, rfl, he⟩
    | cons _ _ => simp at hp
  · rintro ⟨e, rfl, he⟩
    exact ⟨[], e, m, rfl, ends_pure_iff.mpr rfl, he⟩

/-- The last value is that of the rest, or of the first statement if nothing follows it. -/
theorem lastValue_cons_iff {s : Stmt} {m₁ : Machine} {value? : Option Value}
    (hs : Ends (fun n => stmt n s) m (.ok .normal m₁))
    (hvalue : ∀ v m', LastValue [s] m v m' ↔ m' = m₁ ∧ value? = some v) {rest : Program} {v : Value} :
    LastValue (s :: rest) m v m' ↔ LastValue rest m₁ v m' ∨ rest = [] ∧ m' = m₁ ∧ value? = some v := by
  constructor
  · rintro ⟨before, e, m₂, hp, hbefore, he⟩
    cases before with
    | nil =>
      obtain ⟨rfl, rfl⟩ := List.cons.inj hp
      exact .inr ⟨rfl, (hvalue v m').mp ⟨[], e, m₂, rfl, hbefore, he⟩⟩
    | cons s' before =>
      obtain ⟨rfl, rfl⟩ := List.cons.inj hp
      rcases (steady_stmt s).ends_bind_iff.mp hbefore with ⟨flow, m₃, hs', hbefore⟩ | ⟨halt, m₃, hs', -⟩
      · cases hs.unique hs'
        exact .inl ⟨before, e, m₂, rfl, hbefore, he⟩
      · cases hs.unique hs'
  · rintro (⟨before, e, m₂, rfl, hbefore, he⟩ | ⟨rfl, hlast⟩)
    · exact ⟨s :: before, e, m₂, rfl, (steady_stmt s).ends_bind_iff.mpr (.inl ⟨_, _, hs, hbefore⟩), he⟩
    · exact (hvalue v m').mpr hlast

theorem Walks.error_iff (h : Walks p m last? r r') (halt : Halt) (m' : Machine) :
    r = .error halt m' ↔ r' = .error halt m' := by
  induction h with
  | done | leave => simp
  | value _ _ ih | onward _ _ _ ih => exact ih
  | fail => simp

theorem Walks.value_of_ok {flow : Flow} (h : Walks p m last? r r') (hr : r = .ok flow m') :
    ∃ v?, r' = .ok v? m' ∧
      ∀ v, v? = some v ↔ flow = .normal ∧ (LastValue p m v m' ∨ p = [] ∧ m' = m ∧ last? = some v) := by
  induction h with
  | @done m last? =>
    cases hr
    refine ⟨last?, rfl, fun v => ?_⟩
    simp [LastValue]
  | @value e rest m last? v₁ m₁ r r' he _ ih =>
    have hs := ends_expression_iff.mpr (.inl ⟨_, _, he, rfl⟩)
    have hvalue : ∀ v m', LastValue [.expression e] m v m' ↔ m' = m₁ ∧ some v₁ = some v := by
      intro v m'
      rw [lastValue_single_iff]
      constructor
      · rintro ⟨e', he', hv⟩
        cases he'
        cases he.unique hv
        exact ⟨rfl, rfl⟩
      · rintro ⟨rfl, hv⟩
        cases hv
        exact ⟨e, rfl, he⟩
    simpa [lastValue_cons_iff hs hvalue] using ih hr
  | @onward s rest m last? m₁ r r' hother hs _ ih =>
    have hvalue : ∀ v m', LastValue [s] m v m' ↔ m' = m₁ ∧ none = some v := by
      simp [lastValue_single_iff, hother]
    simpa [lastValue_cons_iff hs hvalue] using ih hr
  | leave _ hflow =>
    cases hr
    exact ⟨none, rfl, by simp [hflow]⟩
  | fail => cases hr

/-- A program and the block of its statements, from the same machine, fail alike or both succeed, and leave the same
machine. The program gives a value exactly if the block ends normally and its last statement is an expression, and then
it is the value of that expression. Runs that finish with some fuel end so with all that is more. -/
theorem program_ends_as_block (p : Program) (m : Machine) :
    (∀ n, Finished (program n p none m) → Ends (fun n => program n p none) m (program n p none m)) ∧
    (∀ n, Finished (block (stmt n) p m) → Ends (fun n => block (stmt n) p) m (block (stmt n) p m)) ∧
    (∀ halt m', Ends (fun n => program n p none) m (.error halt m') ↔
      Ends (fun n => block (stmt n) p) m (.error halt m')) ∧
    ∀ v? m', Ends (fun n => program n p none) m (.ok v? m') ↔
      ∃ flow, Ends (fun n => block (stmt n) p) m (.ok flow m') ∧
        ∀ v, v? = some v ↔ flow = .normal ∧ LastValue p m v m' := by
  refine ⟨fun n h => (steady_program p none).ends h, fun n h => (steady_block p).ends h, fun halt m' => ?_,
    fun v? m' => ⟨fun h => ?_, ?_⟩⟩
  · constructor
    · intro h
      obtain ⟨r, hwalks⟩ := exists_walks_of_program h
      exact (hwalks.error_iff halt m').mpr rfl ▸ hwalks.ends_block
    · intro h
      obtain ⟨r', hwalks⟩ := exists_walks_of_block h none
      exact (hwalks.error_iff halt m').mp rfl ▸ hwalks.ends_program
  · obtain ⟨r, hwalks⟩ := exists_walks_of_program h
    cases r with
    | ok flow m₁ =>
      obtain ⟨v?', hend, hvalue⟩ := hwalks.value_of_ok rfl
      cases hend
      exact ⟨flow, hwalks.ends_block, by simpa using hvalue⟩
    | error halt m₁ => cases (hwalks.error_iff halt m₁).mp rfl
  · rintro ⟨flow, hblock, hvalue⟩
    obtain ⟨r', hwalks⟩ := exists_walks_of_block hblock none
    obtain ⟨v?', rfl, hvalue'⟩ := hwalks.value_of_ok rfl
    have heq : v? = v?' := by
      ext v
      simpa [hvalue v] using (hvalue' v).symm
    exact heq ▸ hwalks.ends_program

/-- One program ends with an expression, the other stops before it. -/
theorem program_ends_as_block_stopped :
    (∃ v, Ends (fun n => program n [.expression (.list ⟨0, 2⟩ [])] none) {} (.ok (some v) {}) ∧
      LastValue [.expression (.list ⟨0, 2⟩ [])] {} v {}) ∧
    ∃ flow, Ends (fun n => block (stmt n) [.stop ⟨0, 4⟩, .expression (.list ⟨5, 7⟩ [])]) {} (.ok flow {}) ∧
      flow ≠ .normal ∧
      Ends (fun n => program n [.stop ⟨0, 4⟩, .expression (.list ⟨5, 7⟩ [])] none) {} (.ok none {}) := by
  obtain ⟨hfinish, -, -, hvalue⟩ := program_ends_as_block [.expression (.list ⟨0, 2⟩ [])] {}
  obtain ⟨-, hfinish', -, hvalue'⟩ := program_ends_as_block [.stop ⟨0, 4⟩, .expression (.list ⟨5, 7⟩ [])] {}
  have hlist : Ends (fun n => program n [.expression (.list ⟨0, 2⟩ [])] none) {} (.ok (some (.list [])) {}) :=
    hfinish 1 (by intro m h; cases h)
  have hstop : Ends (fun n => block (stmt n) [.stop ⟨0, 4⟩, .expression (.list ⟨5, 7⟩ [])]) {} (.ok .stop {}) :=
    hfinish' 1 (by intro m h; cases h)
  obtain ⟨flow, -, hlast⟩ := (hvalue _ _).mp hlist
  refine ⟨⟨_, hlist, ((hlast _).mp rfl).2⟩, _, hstop, by simp, (hvalue' _ _).mpr ⟨_, hstop, by simp⟩⟩

end Logo.Eval
