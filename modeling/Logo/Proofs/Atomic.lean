import Logo.Proofs.Effects

/-! Simple statements happen as a whole or not at all. An expression in which no procedure is run changes nothing but
the random numbers. A statement built from such expressions changes the machine only once nothing in it can fail any
more, so that a failure leaves variables, procedures, loops, the turtle and what was printed as they were. -/
namespace Logo

/-- A computation that fails leaves its state as the relation says. -/
def Atomic {ε σ α : Type} (R : σ → σ → Prop) (x : EStateM ε σ α) : Prop := ∀ s e s', x s = .error e s' → R s s'

namespace Atomic
variable {ε σ α β : Type} {R : σ → σ → Prop} {x : EStateM ε σ α} {f : α → EStateM ε σ β}

theorem ofKeeps (hx : Keeps R x) : Atomic R x := by
  intro s e s' h
  have hs := hx s
  rwa [h] at hs

/-- A computation that cannot fail may change everything. -/
theorem sure (h : ∀ s, ∃ a s', x s = .ok a s') : Atomic R x := by
  intro s e s' herror
  obtain ⟨a, t, hok⟩ := h s
  simp [hok] at herror

/-- What comes first keeps the relation even if it succeeds. -/
theorem bind [IsPreorder σ R] (hx : Keeps R x) (hf : ∀ a, Atomic R (f a)) : Atomic R (x >>= f) := by
  intro s e s' h
  have hs := hx s
  simp only [Bind.bind, EStateM.bind] at h
  cases hxs : x s with
  | ok a t =>
    simp only [hxs] at h hs
    exact trans_of R hs (hf a t e s' h)
  | error e' t =>
    simp only [hxs, EStateM.Result.error.injEq] at h hs
    exact h.2 ▸ hs

/-- What comes then cannot fail. -/
theorem andThen (hx : Atomic R x) (hf : ∀ a s, ∃ b s', f a s = .ok b s') : Atomic R (x >>= f) := by
  intro s e s' h
  simp only [Bind.bind, EStateM.bind] at h
  cases hxs : x s with
  | ok a t =>
    obtain ⟨b, t', hok⟩ := hf a t
    simp [hxs, hok] at h
  | error e' t =>
    simp only [hxs, EStateM.Result.error.injEq] at h
    exact hx s e' s' (h.2 ▸ hxs)

end Atomic

/-- Nothing is different but the random numbers, which may have gone on. -/
def Machine.Drawn (m m' : Machine) : Prop := ∃ k, m' = { m with random := Random.next^[k] m.random }

instance : IsPreorder Machine Machine.Drawn where
  refl m := ⟨0, rfl⟩
  trans := by
    rintro m _ _ ⟨j, rfl⟩ ⟨k, rfl⟩
    exact ⟨k + j, by simp [Function.iterate_add_apply]⟩

/-! ### Expressions -/

/-- Below an expression there are only expressions. -/
theorem Node.eq_expr_of_mem_children {e : Expr} {b : Node} (h : b ∈ (Node.expr e).children) : ∃ e', b = .expr e' := by
  cases e <;> simp only [children, List.mem_map, List.mem_cons, List.not_mem_nil] at h <;> grind

def Expr.CallFree (e : Expr) : Prop := ∀ b, (Node.expr e).Contains b → b.invokes = false

theorem Expr.CallFree.intro {e : Expr} (he : (Node.expr e).invokes = false)
    (hparts : ∀ e', .expr e' ∈ (Node.expr e).children → e'.CallFree) : e.CallFree := by
  refine Node.forall_contains he fun b hb => ?_
  obtain ⟨e', rfl⟩ := Node.eq_expr_of_mem_children hb
  exact hparts e' hb

def Region.callFree : Region where
  node a := (∃ e, a = .expr e) ∧ ∀ b, a.Contains b → b.invokes = false
  procedure _ _ := True
  child := by
    rintro _ b ⟨⟨e, rfl⟩, ha⟩ hb
    exact ⟨Node.eq_expr_of_mem_children hb, fun c hc => ha c (.head hb hc)⟩
  define _ := trivial
  enter ha hcallee _ _ := by
    have hinvokes := Node.invokes_of_callee hcallee
    simp [ha.2 _ .refl] at hinvokes

theorem Expr.CallFree.keeps {e : Expr} (he : e.CallFree) (fuel : Nat) : Keeps Machine.Drawn (Eval.expr fuel e) := by
  intro m
  have hstep : ∀ n r, (∀ b, Keeps Machine.Drawn (r b)) → ∀ a, Region.callFree.node a →
      Keeps Machine.Drawn (Node.runWith n r a) := by
    rintro n r hr a ⟨⟨e, rfl⟩, -⟩
    refine Eval.keeps_exprWith (fun _ _ _ m => ⟨1, rfl⟩) (fun e => hr (.expr e)) fun p args => ?_
    refine Eval.keeps_invoke (Eval.keeps_within (Eval.keeps_block fun s _ => hr (.stmt s)) ?_)
    rintro m _ ⟨k, rfl⟩
    exact ⟨k, rfl⟩
  exact Region.keeps_run hstep fuel (a := .expr e) ⟨⟨e, rfl⟩, he⟩ fun _ _ _ => trivial

/-! ### Statements -/

namespace Eval
variable {α : Type} {R : Machine → Machine → Prop}

theorem atomic_locate (span : Span) {x : Eval α} (hx : Atomic R x) : Atomic R (locate span x) := by
  intro m e m' h
  unfold locate at h
  cases hxm : x m with
  | ok a t => simp [hxm] at h
  | error e' t =>
    have ht : t = m' := by cases e' <;> simp_all
    exact hx m e' m' (ht ▸ hxm)

theorem declare_all_cons (name : String) (rest : List String) (m : Machine) :
    (name :: rest).forM declare m = (declare name >>= fun _ => rest.forM declare) m := rfl

/-- In a running procedure names can be declared. -/
theorem declare_all_succeeds (names : List String) {m : Machine} (h : m.workspace.frames ≠ []) :
    ∃ m', names.forM declare m = .ok () m' := by
  induction names generalizing m with
  | nil => exact ⟨m, rfl⟩
  | cons name rest ih =>
    obtain ⟨w, hw, hframes⟩ : ∃ w, m.workspace.declare name = .ok w ∧ w.frames ≠ [] := by
      cases hframes : m.workspace.frames with
      | nil => exact absurd hframes h
      | cons frame outer => simp [Workspace.declare, hframes]
    obtain ⟨m', hrest⟩ := ih (m := { m with workspace := w }) hframes
    refine ⟨m', ?_⟩
    rw [declare_all_cons]
    simp only [Bind.bind, EStateM.bind, declare_of_ok hw, hrest]

variable [IsPreorder Machine R]

/-- Outside of all procedures the first declaration fails, elsewhere none does. -/
theorem atomic_declare_all (names : List String) : Atomic R (names.forM declare) := by
  intro m e m' h
  by_cases hframes : m.workspace.frames = []
  · cases names with
    | nil => cases h
    | cons name rest =>
      have hfirst : m.workspace.declare name = .error (.misplaced "LOCAL outside a procedure") := by
        simp [Workspace.declare, hframes]
      rw [declare_all_cons] at h
      simp only [Bind.bind, EStateM.bind, declare_of_error hfirst, EStateM.Result.error.injEq] at h
      exact h.2 ▸ refl_of R m
  · obtain ⟨t, hok⟩ := declare_all_succeeds names hframes
    simp [hok] at h

/-- A command acts on the turtle when all its inputs are there and have the right types. -/
theorem atomic_command {eval : Expr → Eval Value} {c : Command} {args : List Expr}
    (heval : ∀ e ∈ args, Keeps R (eval e)) : Atomic R (command eval c args) := by
  unfold command
  split
  · exact .ofKeeps (keeps_raise _)
  · refine .bind (.mapM heval) fun values => ?_
    cases c.numbers (values.zip (args.map Expr.span)) with
    | ok numbers => exact .sure fun m => ⟨_, _, rfl⟩
    | error f => exact .ofKeeps (.throw _)

end Eval

/-- The statements that neither call procedures nor hold others that are executed with them. -/
def Stmt.isSimple : Stmt → Bool
  | command .. | make .. | print .. | output .. | declare .. | expression _ | define .. => true
  | call .. | loop .. | ifThen .. | ifElse .. | whileTrue .. | forEach .. | stop _ => false

/-- If a simple statement whose expressions run no procedure fails, then it has changed nothing, but the random numbers
may have gone on. -/
theorem simple_stmt_atomic {s : Stmt} (hs : s.isSimple = true)
    (hcalls : ∀ e, .expr e ∈ (Node.stmt s).children → e.CallFree) {fuel : Nat} {m m' : Machine} {h : Halt}
    (hfails : Eval.stmt fuel s m = .error h m') : ∃ k, m' = { m with random := Random.next^[k] m.random } := by
  have hatomic : Atomic Machine.Drawn (Eval.stmt fuel s) := by
    cases fuel with
    | zero =>
      rw [Eval.stmt]
      exact .ofKeeps (.throw _)
    | succ n =>
      have heval : ∀ e, .expr e ∈ (Node.stmt s).children → Keeps Machine.Drawn (Eval.expr n e) :=
        fun e he => (hcalls e he).keeps n
      rw [Eval.stmt]
      refine Eval.atomic_locate _ ?_
      cases s with
      | command span c args =>
        refine .andThen (Eval.atomic_command fun e he => heval e ?_) fun _ m => ⟨_, _, rfl⟩
        exact List.mem_map_of_mem he
      | expression e => exact .bind (heval e (by simp [Node.children])).discard fun _ => .sure fun m => ⟨_, _, rfl⟩
      | make span name e => exact .bind (heval e (by simp [Node.children])) fun _ => .sure fun m => ⟨_, _, rfl⟩
      | output span e => exact .bind (heval e (by simp [Node.children])) fun _ => .sure fun m => ⟨_, _, rfl⟩
      | print span e => exact .bind (heval e (by simp [Node.children])) fun _ => .sure fun m => ⟨_, _, rfl⟩
      | declare span names => exact .andThen (Eval.atomic_declare_all names) fun _ m => ⟨_, _, rfl⟩
      | define span name params body => exact .sure fun m => ⟨_, _, rfl⟩
      | _ => cases hs
  exact hatomic m h m' hfails

/-- `PRINT SENTENCE RANDOM XCOR :x` draws a random number and then fails. -/
theorem simple_stmt_atomic_drawn : ∃ (s : Stmt) (m m' : Machine) (h : Halt), s.isSimple = true ∧
    (∀ e, .expr e ∈ (Node.stmt s).children → e.CallFree) ∧ Eval.stmt 4 s m = .error h m' ∧
    (∃ high, m'.random = (m.random.draw 0 high).2) ∧ ∃ k, m' = { m with random := Random.next^[k] m.random } := by
  have hfails : ∀ turtle printed random, Eval.stmt 4 (.print ⟨0, 29⟩ (.operation ⟨6, 29⟩ .sentence
      [.operation ⟨15, 26⟩ .random [.query ⟨22, 26⟩ .xCor], .thing ⟨27, 29⟩ "x"])) ⟨{}, turtle, printed, random⟩ =
        .error (.fault ⟨.undefinedVariable "x", some ⟨27, 29⟩⟩) ⟨{}, turtle, printed,
          (random.draw 0 (Int64.ofInt (Number.clampNat (Nat.pow 2 63 - 1) turtle.position.x - 1))).2⟩ :=
    fun _ _ _ => rfl
  have hquery : Expr.CallFree (.query ⟨22, 26⟩ .xCor) := .intro rfl (by simp [Node.children])
  have hthing : Expr.CallFree (.thing ⟨27, 29⟩ "x") := .intro rfl (by simp [Node.children])
  have hrandom : Expr.CallFree (.operation ⟨15, 26⟩ .random [.query ⟨22, 26⟩ .xCor]) :=
    .intro rfl (by simpa [Node.children] using hquery)
  have hsentence : Expr.CallFree (.operation ⟨6, 29⟩ .sentence
      [.operation ⟨15, 26⟩ .random [.query ⟨22, 26⟩ .xCor], .thing ⟨27, 29⟩ "x"]) :=
    .intro rfl (by simpa [Node.children] using ⟨hrandom, hthing⟩)
  refine ⟨_, _, _, _, rfl, ?_, hfails {} {} (.ofSeed 1), ⟨_, rfl⟩, simple_stmt_atomic rfl ?_ (hfails {} {} (.ofSeed 1))⟩
  all_goals simpa [Node.children] using hsentence

end Logo
