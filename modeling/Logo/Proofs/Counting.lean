import Logo.Proofs.Invocations
import Logo.Proofs.Turns

/-! Counters. All that a run comes to lies within certain turns of loops, one inside the other, and the counters of the
workspace are the numbers of these turns. -/
namespace Logo

namespace Eval

/-- A block keeps what its statements keep, up to each of them. -/
theorem Begins.keeps {R : Machine → Machine → Prop} [IsPreorder Machine R] {exec : Stmt → Eval Flow} {stmts : List Stmt}
    {s : Stmt} {m m' : Machine} (h : Begins exec stmts m s m') (hexec : ∀ s, Keeps R (exec s)) : R m m' := by
  induction h with
  | here => exact refl_of R _
  | @onward s rest m m₁ s' m' hs _ ih =>
    have hstep := hexec s m
    rw [hs] at hstep
    exact trans_of R hstep ih

theorem Turned.counters {body : Eval Flow} {i : Nat} {m m' : Machine}
    (hbody : Keeps (OnWorkspace Workspace.SameLevel) body) (h : Turned body m i m') :
    m'.workspace.counters = i :: m.workspace.counters := by
  induction h with
  | start => rfl
  | @turn i m₁ m₂ _ hturn ih =>
    have hlevel := hbody (m₁.onWorkspace (·.setCount (i + 1)))
    rw [hturn] at hlevel
    refine hlevel.counters.trans ?_
    simp only [Machine.onWorkspace, Workspace.setCount, ih]

/-- In a turn the innermost counter is its number. -/
theorem StartsTurn.counters {body : Eval Flow} {times i : Nat} {m m' : Machine}
    (hbody : Keeps (OnWorkspace Workspace.SameLevel) body) (h : StartsTurn body times m i m') :
    m'.workspace.counters = i :: m.workspace.counters := by
  cases h with
  | mk _ hturned => simp only [Machine.onWorkspace, Workspace.setCount, hturned.counters hbody]

theorem level_block (n : Nat) (stmts : List Stmt) : Keeps (OnWorkspace Workspace.SameLevel) (block (stmt n) stmts) :=
  keeps_block fun s _ => level_stmt n s

end Eval

/-! ### Nodes within turns -/

def Machine.Level (counters : List Nat) (m m' : Machine) : Prop := m' = m ∧ m.workspace.counters = counters

theorem level_simulation (counters : List Nat) : Simulation id (Machine.Level counters) where
  get? name h := by rw [h.1]
  procedure? name h := by
    rw [h.1]
    exact Option.map_id_apply.symm
  answer q h := by rw [h.1]
  set name v h := by
    refine ⟨by rw [h.1], ?_⟩
    simp only [Machine.onWorkspace, Workspace.set]
    split <;> exact h.2
  depth h := by rw [h.1]
  enter _ h := ⟨by rw [h.1], h.2⟩
  leave h := ⟨by rw [h.1], h.2⟩
  define p h := ⟨by rw [h.1]; rfl, h.2⟩
  act f h := ⟨by rw [h.1], h.2⟩
  print v h := ⟨by rw [h.1], h.2⟩

namespace Node

def EntersTurn (a b : Node) : Prop := (∃ span count body, a = .stmt (.loop span count body)) ∧ ∃ s, b = .stmt s

/-- Executing `a` from `m` with `k` fuel comes to `b` from `m'` with `j` fuel left, within the turns of the given
numbers, the innermost first. -/
inductive ReachesIn (k : Nat) (a : Node) (m : Machine) : List Nat → Nat → Node → Machine → Prop where
  | here : ReachesIn k a m [] k a m
  | onward {turns : List Nat} {j : Nat} {b c : Node} {m₁ m₂ : Machine} : ReachesIn k a m turns (j + 1) b m₁ →
    Executes j b m₁ c m₂ → ¬EntersTurn b c → ReachesIn k a m turns j c m₂
  | turn {turns : List Nat} {j i : Nat} {span : Span} {count : Expr} {body : List Stmt} {x : Float} {s : Stmt}
    {m₁ m₂ m₃ m₄ : Machine} : ReachesIn k a m turns (j + 1) (.stmt (.loop span count body)) m₁ →
    Eval.number (Eval.expr j) "REPEAT" count m₁ = .ok x m₂ →
    Eval.StartsTurn (Eval.block (Eval.stmt j) body) (Number.turns x) m₂ i m₃ → Eval.Begins (Eval.stmt j) body m₃ s m₄ →
    ReachesIn k a m (i :: turns) j (.stmt s) m₄

variable {n j k : Nat} {a b c : Node} {m m' : Machine}

theorem level_run (n : Nat) (a : Node) : Keeps (OnWorkspace Workspace.SameLevel) (a.run n) := by
  cases a with
  | expr e => exact Eval.level_expr n e
  | stmt s => exact Eval.level_stmt n s

/-- A node other than a loop executes its parts with the counters with which it is executed itself. -/
theorem level_runWith {counters : List Nat} {r r' : Runner}
    (h : ∀ c, Logo.Follows (Machine.Level counters) id id (r c) (r' c))
    (hloop : ∀ span count body, a ≠ .stmt (.loop span count body)) :
    Logo.Follows (Machine.Level counters) id id (runWith n r a) (runWith n r' a) := by
  have hsimulation := level_simulation counters
  have hexpr : ∀ e, Logo.Follows (Machine.Level counters) id id (r (.expr e)) (r' (.expr e)) := fun e => h (.expr e)
  have hblock : ∀ body, Logo.Follows (Machine.Level counters) id id (Eval.block (fun s => r (.stmt s)) body)
      (Eval.block (fun s => r' (.stmt s)) (id body)) := by
    intro body
    have hmap : Logo.Follows (Machine.Level counters) id id (Eval.block (fun s => r (.stmt s)) body)
        (Eval.block (fun s => r' (.stmt s)) (body.map id)) := Eval.follows_block fun s _ => h (.stmt s)
    rwa [List.map_id] at hmap
  have hinvoke : ∀ p args, Logo.Follows (Machine.Level counters) id id (Eval.invoke (fun s => r (.stmt s)) p args)
      (Eval.invoke (fun s => r' (.stmt s)) (p.mapBody id) args) := fun p args => hsimulation.invoke (hblock p.body) args
  cases a with
  | expr e =>
    refine hsimulation.exprWith hinvoke hexpr fun span args he x => ?_
    refine .get fun m m' hm => ?_
    rw [hm.1]
    exact .bind (.set ⟨rfl, hm.2⟩) fun _ => .pure rfl
  | stmt s =>
    have hs : s.mapBlocks id = s := by cases s <;> rfl
    have hstmt : Logo.Follows (Machine.Level counters) id id (runWith n r (.stmt s))
        (runWith n r' (.stmt (s.mapBlocks id))) :=
      hsimulation.stmtWith hinvoke hexpr hblock fun span count body hs =>
        absurd (congrArg Node.stmt hs) (hloop span count body)
    rwa [hs] at hstmt

/-- Every node ends with the counters it starts with, so what does the same at these counters stays at them. -/
theorem level_run_follows {counters : List Nat} {r : Runner}
    (h : ∀ c m, m.workspace.counters = counters → r c m = c.run n m) (c : Node) :
    Logo.Follows (Machine.Level counters) id id (c.run n) (r c) := by
  rintro m m₁ ⟨rfl, hm⟩
  have hlevel := level_run n c m₁
  rw [h c m₁ hm]
  cases hrun : c.run n m₁ with
  | ok v m₂ =>
    rw [hrun] at hlevel
    exact .ok ⟨rfl, hlevel.counters.trans hm⟩
  | error e m₂ =>
    rw [hrun] at hlevel
    exact .error ⟨rfl, hlevel.counters.trans hm⟩

theorem eq_of_level {α : Type} {x y : Eval α} (h : Logo.Follows (Machine.Level m.workspace.counters) id id x y) :
    y m = x m := by
  have hmatches := h m m ⟨rfl, rfl⟩
  generalize x m = r at hmatches
  generalize y m = r' at hmatches
  cases hmatches with
  | ok hm => exact congrArg _ hm.1
  | error hm => exact congrArg _ hm.1

theorem runWith_loop (n : Nat) (r : Runner) (span : Span) (count : Expr) (body : List Stmt) :
    runWith n r (.stmt (.loop span count body)) =
      Eval.locate span (Eval.number (fun e => r (.expr e)) "REPEAT" count >>= fun x =>
        Eval.repeatTimes (Number.turns x) (Eval.block (fun s => r (.stmt s)) body)) :=
  Eval.stmtWith_loop _ _ (Eval.invoke fun s => r (.stmt s)) n span count body

/-- Two ways to execute a loop are the same if its count and its turns are. -/
theorem runWith_loop_congr {r r' : Runner} {span : Span} {count : Expr} {body : List Stmt}
    (hcount : Eval.number (fun e => r' (.expr e)) "REPEAT" count m =
      Eval.number (fun e => r (.expr e)) "REPEAT" count m)
    (hturns : ∀ x m₁, Eval.number (fun e => r (.expr e)) "REPEAT" count m = .ok x m₁ →
      Eval.repeatTimes (Number.turns x) (Eval.block (fun s => r' (.stmt s)) body) m₁ =
        Eval.repeatTimes (Number.turns x) (Eval.block (fun s => r (.stmt s)) body) m₁) :
    runWith n r' (.stmt (.loop span count body)) m = runWith n r (.stmt (.loop span count body)) m := by
  rw [runWith_loop, runWith_loop]
  simp only [Eval.locate, Bind.bind, EStateM.bind, hcount]
  cases hx : Eval.number (fun e => r (.expr e)) "REPEAT" count m with
  | error e m₁ => rfl
  | ok x m₁ =>
    simp only [hturns x m₁ hx]
    rfl

/-- All that a node executes outside of turns of its own, it executes with the counters with which it is executed. -/
theorem Executes.same_counters (h : Executes n a m b m') (hout : ¬EntersTurn a b) :
    m'.workspace.counters = m.workspace.counters := by
  obtain ⟨r, hr, hne⟩ := h
  by_contra hcounters
  have hsame : ∀ c m₁, m₁.workspace.counters = m.workspace.counters → r c m₁ = c.run n m₁ := by
    intro c m₁ hm₁
    refine hr c m₁ fun hcm => hcounters ?_
    rw [← hcm.2, hm₁]
  refine hne ?_
  rw [run_succ]
  by_cases hloop : ∃ span count body, a = .stmt (.loop span count body)
  · -- The count is evaluated first of all. The turns are the same as `b` is not in them.
    obtain ⟨span, count, body, rfl⟩ := hloop
    have hstmts : (fun s => r (.stmt s)) = Eval.stmt n := by
      funext s m₁
      exact hr (.stmt s) m₁ fun hcm => hout ⟨⟨span, count, body, rfl⟩, s, hcm.1.symm⟩
    have hcount : Eval.number (fun e => r (.expr e)) "REPEAT" count m = Eval.number (Eval.expr n) "REPEAT" count m := by
      simp only [Eval.number, Bind.bind, EStateM.bind, hsame (.expr count) m rfl]
      rfl
    exact runWith_loop_congr hcount fun x m₁ _ =>
      congrArg (fun exec => Eval.repeatTimes (Number.turns x) (Eval.block exec body) m₁) hstmts
  · exact eq_of_level (level_runWith (level_run_follows hsame) fun span count body h => hloop ⟨span, count, body, h⟩)

/-- Execution that is another one only at a statement evaluates expressions as usual. -/
theorem exprs_eq {r : Runner} {s : Stmt} (h : ∀ c m₁, ¬(c = .stmt s ∧ m₁ = m') → r c m₁ = c.run n m₁) :
    (fun e => r (.expr e)) = Eval.expr n := by
  funext e m₁
  exact h (.expr e) m₁ fun hcm => Node.noConfusion hcm.1

/-- A loop executes its statements in its turns. -/
theorem turn_of_executes {span : Span} {count : Expr} {body : List Stmt} {s : Stmt}
    (h : Executes n (.stmt (.loop span count body)) m (.stmt s) m') :
    ∃ x m₁ i m₂, Eval.number (Eval.expr n) "REPEAT" count m = .ok x m₁ ∧
      Eval.StartsTurn (Eval.block (Eval.stmt n) body) (Number.turns x) m₁ i m₂ ∧
      Eval.Begins (Eval.stmt n) body m₂ s m' := by
  obtain ⟨r, hr, hne⟩ := h
  by_contra hout
  refine hne ?_
  have hcount := congrArg (fun eval => Eval.number eval "REPEAT" count m) (exprs_eq hr)
  rw [run_succ]
  refine runWith_loop_congr hcount fun x m₁ hx => ?_
  refine Eval.repeatTimes_congr fun i m₂ hstarts => Eval.block_congr fun s' m₃ hbegins => ?_
  refine hr (.stmt s') m₃ fun hcm => hout ⟨x, m₁, i, m₂, hx, hstarts, ?_⟩
  rw [← Node.stmt.inj hcm.1, ← hcm.2]
  exact hbegins

/-- A loop executes all statements to which it comes in its turns. -/
theorem executes_of_turn {span : Span} {count : Expr} {body : List Stmt} {s : Stmt} {x : Float} {i : Nat}
    {m₁ m₂ : Machine}
    (hcount : Eval.number (Eval.expr n) "REPEAT" count m = .ok x m₁)
    (hstarts : Eval.StartsTurn (Eval.block (Eval.stmt n) body) (Number.turns x) m₁ i m₂)
    (hbegins : Eval.Begins (Eval.stmt n) body m₂ s m') : Executes n (.stmt (.loop span count body)) m (.stmt s) m' := by
  classical
  refine exists_outcome_ne (fun f hf => ?_) _
  let r : Runner := fun c m'' => if c = .stmt s ∧ m'' = m' then .error (.fault f) m' else run n c m''
  have hother : ∀ c m'', ¬(c = .stmt s ∧ m'' = m') → r c m'' = run n c m'' := fun c m'' h => if_neg h
  have hexec : ∀ s' m'', r (.stmt s') m'' = Eval.stmt n s' m'' ∨ r (.stmt s') m'' = .error (.fault f) m' := by
    intro s' m''
    by_cases h : Node.stmt s' = .stmt s ∧ m'' = m'
    · exact .inr (if_pos h)
    · exact .inl (if_neg h)
  have hs : r (.stmt s) m' = .error (.fault f) m' := if_pos ⟨rfl, rfl⟩
  refine ⟨r, hother, ?_⟩
  have hfails := Eval.repeatTimes_fails (Eval.block_same_or_fails hexec body) hstarts
    (Eval.block_fails hexec hbegins hs)
  have hcount' := (congrArg (fun eval => Eval.number eval "REPEAT" count m) (exprs_eq hother)).trans hcount
  refine ⟨m'.onWorkspace Workspace.endCount, ?_⟩
  rw [runWith_loop]
  simp only [Eval.locate, Bind.bind, EStateM.bind, hcount', hfails, Eval.leaveLoop, Fault.orAt_of_span hf]
  rfl

/-- All that a run comes to lies within certain turns. -/
theorem reaches_iff_exists_turns : Reaches k a m j b m' ↔ ∃ turns, ReachesIn k a m turns j b m' := by
  constructor
  · intro h
    induction h with
    | here => exact ⟨[], .here⟩
    | @onward j b c m₁ m₂ _ hexec ih =>
      obtain ⟨turns, hreaches⟩ := ih
      by_cases henters : EntersTurn b c
      · obtain ⟨⟨span, count, body, rfl⟩, s, rfl⟩ := henters
        obtain ⟨x, m₃, i, m₄, hcount, hstarts, hbegins⟩ := turn_of_executes hexec
        exact ⟨i :: turns, .turn hreaches hcount hstarts hbegins⟩
      · exact ⟨turns, .onward hreaches hexec henters⟩
  · rintro ⟨turns, h⟩
    induction h with
    | here => exact .here
    | onward _ hexec _ ih => exact .onward ih hexec
    | turn _ hcount hstarts hbegins ih => exact .onward ih (executes_of_turn hcount hstarts hbegins)

/-- The counters are the numbers of the turns. -/
theorem ReachesIn.counters {turns : List Nat} (h : ReachesIn k a m turns j b m') :
    m'.workspace.counters = turns ++ m.workspace.counters := by
  induction h with
  | here => rfl
  | onward _ hexec hout ih => exact (hexec.same_counters hout).trans ih
  | @turn turns j i span count body x s m₁ m₂ m₃ m₄ _ hcount hstarts hbegins ih =>
    have hlevel := Eval.keeps_number "REPEAT" (Eval.level_expr j count) m₁
    rw [hcount] at hlevel
    calc m₄.workspace.counters
      _ = m₃.workspace.counters := (hbegins.keeps (Eval.level_stmt j)).counters
      _ = i :: m₂.workspace.counters := hstarts.counters (Eval.level_block j body)
      _ = i :: m₁.workspace.counters := congrArg (i :: ·) hlevel.counters
      _ = i :: turns ++ m.workspace.counters := congrArg (i :: ·) ih

end Node

/-! ### The number of the turn -/

section
variable {n i : Nat} {span : Span} {outer : List Nat} {m : Machine}

theorem Eval.expr_repCount_of_cons (h : m.workspace.counters = i :: outer) :
    expr (n + 1) (.query span .repCount) m = .ok (.number (Number.ofNat i)) m := by
  have hquery : expr (n + 1) (.query span .repCount) m = locate span (ofExcept (Query.repCount.answer m)) m := rfl
  rw [hquery]
  simp only [Query.answer, Workspace.count, h]
  rfl

theorem Eval.expr_repCount_of_nil (h : m.workspace.counters = []) : expr (n + 1) (.query span .repCount) m =
    .error (.fault ⟨.misplaced "REPCOUNT outside a REPEAT", some span⟩) m := by
  have hquery : expr (n + 1) (.query span .repCount) m = locate span (ofExcept (Query.repCount.answer m)) m := rfl
  rw [hquery]
  simp only [Query.answer, Workspace.count, h]
  rfl

end

theorem Program.Begins.level {fuel : Nat} {p : Program} {m m' : Machine} {a : Node} (h : p.Begins fuel m a m') :
    m.workspace.SameLevel m'.workspace := by
  induction h with
  | here => exact refl_of _ _
  | @value e rest v m m₁ a m₂ hrun _ ih =>
    have hlevel := Eval.level_expr fuel e m
    rw [hrun] at hlevel
    exact trans_of _ hlevel ih
  | @onward s rest m m₁ a m₂ _ hrun _ ih =>
    have hlevel := Eval.level_stmt fuel s m
    rw [hrun] at hlevel
    exact trans_of _ hlevel ih

/-- What a request executes first of all, it executes outside of all loops. -/
theorem Request.starts_idle {q : Request} {m m' : Machine} {k : Nat} {a : Node} (hm : m.Idle) (h : q.Starts m k a m') :
    m'.Idle := by
  have hlevel : m.workspace.SameLevel m'.workspace := by
    cases h with
    | run _ hbegins | line _ hbegins => exact hbegins.level
    | value _ => exact refl_of _ _
  exact ⟨hlevel.depth.trans hm.1, hlevel.counters.trans hm.2⟩

/-- A loop whose count has a value turns as often as the value asks for, if all turns end normally. Otherwise its
outcome is that of the first turn that does not. All that a run comes to lies within certain turns, one inside the
other, at any depth and in procedures called from them, and there `REPCOUNT` is the number of the innermost turn. In a
session that starts with an empty workspace it fails exactly where there is none. -/
theorem repcount_is_innermost_turn :
    (∀ n span count body m x m₀, Eval.number (Eval.expr n) "REPEAT" count m = .ok x m₀ →
      (∃ m', Eval.Turned (Eval.block (Eval.stmt n) body) m₀ (Number.turns x) m' ∧
        Eval.stmt (n + 1) (.loop span count body) m = .ok .normal (m'.onWorkspace Workspace.endCount)) ∨
      ∃ i m', Eval.StartsTurn (Eval.block (Eval.stmt n) body) (Number.turns x) m₀ i m' ∧
        (∀ m'', Eval.block (Eval.stmt n) body m' ≠ .ok .normal m'') ∧
        Eval.stmt (n + 1) (.loop span count body) m = Eval.leaveLoop (Eval.block (Eval.stmt n) body m')) ∧
    (∀ k a m j b m', Node.Reaches k a m j b m' ↔ ∃ turns, Node.ReachesIn k a m turns j b m') ∧
    (∀ k a m i outer j span m', Node.ReachesIn k a m (i :: outer) (j + 1) (.expr (.query span .repCount)) m' →
      Eval.expr (j + 1) (.query span .repCount) m' = .ok (.number (Number.ofNat i)) m') ∧
    (∀ i : Nat, i < 2 ^ 53 → Number.value? (Number.ofNat i) = some (i : ℚ)) ∧
    ∀ (m : Machine) requests (q : Request) k a m₁ turns j span m₂, m.workspace = {} →
      q.Starts (m.after requests) k a m₁ → Node.ReachesIn k a m₁ turns (j + 1) (.expr (.query span .repCount)) m₂ →
      (Eval.expr (j + 1) (.query span .repCount) m₂ =
        .error (.fault ⟨.misplaced "REPCOUNT outside a REPEAT", some span⟩) m₂ ↔ turns = []) := by
  refine ⟨?_, fun k a m j b m' => Node.reaches_iff_exists_turns, ?_, fun i hi => Number.value?_ofNat hi, ?_⟩
  · intro n span count body m x m₀ hcount
    rw [Eval.stmt_loop hcount]
    exact Eval.repeatTimes_cases _ _ _
  · intro k a m i outer j span m' hreaches
    exact Eval.expr_repCount_of_cons hreaches.counters
  · intro m requests q k a m₁ turns j span m₂ hm hstarts hreaches
    have hidle : (m.after requests).Idle :=
      Machine.after_induction Request.perform_idle ⟨by rw [hm]; rfl, by rw [hm]⟩ requests
    have hcounters := hreaches.counters
    rw [(Request.starts_idle hidle hstarts).2, List.append_nil] at hcounters
    cases turns with
    | nil => exact iff_of_true (Eval.expr_repCount_of_nil hcounters) rfl
    | cons i outer =>
      rw [Eval.expr_repCount_of_cons hcounters]
      simp

set_option maxRecDepth 4096 in
theorem repcount_is_innermost_turn_printed :
    (∀ n, ∃ m', Eval.Turned (Eval.block (Eval.stmt (n + 4)) []) {} 1 m' ∧
      Eval.stmt (n + 5) (.loop ⟨0, 20⟩ (.operation ⟨7, 17⟩ .count [.list ⟨13, 17⟩ [.list ⟨14, 16⟩ []]]) []) {} =
        .ok .normal (m'.onWorkspace Workspace.endCount)) ∧
    (∃ k a m₁ j span m₂, (Request.run "REPEAT COUNT [[]] [PRINT REPCOUNT]").Starts (Machine.after {} []) k a m₁ ∧
      Node.ReachesIn k a m₁ [1] (j + 1) (.expr (.query span .repCount)) m₂ ∧
      Node.Reaches k a m₁ (j + 1) (.expr (.query span .repCount)) m₂ ∧
      Eval.expr (j + 1) (.query span .repCount) m₂ = .ok (.number (Number.ofNat 1)) m₂ ∧
      Number.value? (Number.ofNat 1) = some ((1 : Nat) : ℚ)) ∧
    ∃ k a m₁ j span m₂, (Request.run "PRINT REPCOUNT").Starts (Machine.after {} []) k a m₁ ∧
      Node.ReachesIn k a m₁ [] (j + 1) (.expr (.query span .repCount)) m₂ ∧
      Eval.expr (j + 1) (.query span .repCount) m₂ =
        .error (.fault ⟨.misplaced "REPCOUNT outside a REPEAT", some span⟩) m₂ := by
  have hloop : Machine.readProgram {} "REPEAT COUNT [[]] [PRINT REPCOUNT]" =
      .ok [.loop ⟨0, 34⟩ (.operation ⟨7, 17⟩ .count [.list ⟨13, 17⟩ [.list ⟨14, 16⟩ []]])
        [.print ⟨19, 33⟩ (.query ⟨25, 33⟩ .repCount)]] := by cbv
  have hprint : Machine.readProgram {} "PRINT REPCOUNT" = .ok [.print ⟨0, 14⟩ (.query ⟨6, 14⟩ .repCount)] := by cbv
  have hcount : ∀ n, Eval.number (Eval.expr (n + 4)) "REPEAT"
      (.operation ⟨7, 17⟩ .count [.list ⟨13, 17⟩ [.list ⟨14, 16⟩ []]]) {} = .ok (Number.ofNat 1) {} := fun n => rfl
  have hturns : Number.turns (Number.ofNat 1) = 1 := by
    rw [← Number.clampNat_eq_turns]
    decide
  have hfuel : Session.fuel = Session.fuel - 7 + 2 + 4 + 1 := by decide
  have hprinted : ∀ {s e}, ¬Node.EntersTurn (.stmt (.print s e)) (.expr e) := by
    rintro s e ⟨⟨span, count, body, h⟩, -⟩
    cases h
  obtain ⟨houtcome, hreaches, hnumber, hexact, hfails⟩ := repcount_is_innermost_turn
  refine ⟨fun n => ?_, ?_, ?_⟩
  · have hcases := houtcome (n + 4) ⟨0, 20⟩ _ [] _ _ _ (hcount n)
    rw [hturns] at hcases
    rcases hcases with hall | ⟨i, m', -, hother, -⟩
    · exact hall
    · exact absurd rfl (hother m')
  · have hwithin : Node.ReachesIn (Session.fuel - 7 + 2 + 4 + 1)
        (.stmt (.loop ⟨0, 34⟩ _ [.print ⟨19, 33⟩ (.query ⟨25, 33⟩ .repCount)])) {} [1] (Session.fuel - 7 + 2 + 2 + 1)
        (.expr (.query ⟨25, 33⟩ .repCount)) _ :=
      .onward (.turn .here (hcount _) (.mk (by simp [hturns]) .start) .here)
        (Node.executes_print _ ⟨19, 33⟩ _ _) hprinted
    refine ⟨_, _, _, _, _, _, hfuel ▸ Request.Starts.run hloop .here, hwithin,
      (hreaches _ _ _ _ _ _).mpr ⟨[1], hwithin⟩, ?_, ?_⟩
    · exact hnumber _ _ _ _ _ _ _ _ hwithin
    · exact hexact 1 (by norm_num)
  · have hstarts : (Request.run "PRINT REPCOUNT").Starts (Machine.after {} []) (Session.fuel - 7 + 2 + 4 + 1) _ _ :=
      hfuel ▸ Request.Starts.run hprint .here
    have hwithin := Node.ReachesIn.onward .here (Node.executes_print (Session.fuel - 7 + 2 + 3 + 1) ⟨0, 14⟩
      (.query ⟨6, 14⟩ .repCount) {}) hprinted
    exact ⟨_, _, _, _, _, _, hstarts, hwithin, (hfails {} [] _ _ _ _ _ _ _ _ rfl hstarts hwithin).mpr rfl⟩

end Logo
