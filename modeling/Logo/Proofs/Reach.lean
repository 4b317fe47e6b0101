import Logo.Proofs.Follows
import Logo.Proofs.Placed
import Logo.Proofs.Region
import Mathlib.Tactic.ByContra

/-! Which nodes a run comes to, and in which states. A node executes another one from some machine if its own
outcome depends on the outcome of the other one there. Chains of such steps lead to all nodes that a run comes to. -/
namespace Logo

namespace Node

/-- Executing `a` from `m` executes `b` from `m'`: with another outcome of `b` from `m'`, and all else as it is,
the outcome of `a` can be another. -/
def Executes (n : Nat) (a : Node) (m : Machine) (b : Node) (m' : Machine) : Prop :=
  ∃ r : Runner, (∀ c m'', ¬(c = b ∧ m'' = m') → r c m'' = run n c m'') ∧ runWith n r a m ≠ run (n + 1) a m

/-- Executing `a` from `m` with `k` fuel comes to `b` from `m'` with `j` fuel left, over any number of nodes
between them. -/
inductive Reaches (k : Nat) (a : Node) (m : Machine) : Nat → Node → Machine → Prop where
  | here : Reaches k a m k a m
  | onward {j : Nat} {b c : Node} {m₁ m₂ : Machine} :
    Reaches k a m (j + 1) b m₁ → Executes j b m₁ c m₂ → Reaches k a m j c m₂

end Node

namespace Region
variable {R : Region} {X : Halt → Prop} {α : Type} {x y : EStateM.Result Halt Machine α}

theorem Same.eq_or_broken (h : R.Same X x y) : y = x ∨ ∃ e m, x = .error e m ∧ X e := by
  cases h with
  | broken he => exact .inr ⟨_, _, rfl, he⟩
  | _ => exact .inl rfl

theorem Same.weaken (h : R.Same (fun _ => False) x y) : R.Same X x y := by
  cases h with
  | ok hm => exact .ok hm
  | outOfFuel hm => exact .outOfFuel hm
  | fault hm hf => exact .fault hm hf
  | broken he => exact he.elim

theorem Same.holds (h : R.Same (fun _ => False) x y) : R.Holds (final x) := by
  cases h with
  | ok hm => exact hm
  | outOfFuel hm => exact hm
  | fault hm hf => exact hm
  | broken he => exact he.elim

theorem Same.admits {f : Fault} {m : Machine} (h : R.Same (fun _ => False) (.error (.fault f) m) y) : R.Admits f := by
  cases h with
  | fault hm hf => exact hf
  | broken he => exact he.elim

def whole : Region where
  node _ := True
  procedure _ _ := True
  child _ _ := trivial
  define _ := trivial
  enter _ _ _ _ := trivial

end Region

namespace Node
variable {n k j : Nat} {a b : Node} {m m' : Machine}

/-- Every fault of a node has a place. -/
theorem placed_of_run {f : Fault} (h : a.run n m = .error (.fault f) m') : f.span? ≠ none := by
  cases a with
  | expr e => exact Eval.Placed.expr n e h
  | stmt s => exact Eval.Placed.stmt n s h

/-- The place of a fault of a node in a region is that of a node in the region. -/
theorem blamed_of_run {R : Region} {f : Fault} (h : a.run n m = .error (.fault f) m') (ha : R.node a)
    (hm : R.Holds m) : ∃ b, R.node b ∧ f.span? = some b.span := by
  have hsame := R.agrees_run n ha m hm
  rw [h] at hsame
  obtain ⟨s, hs⟩ := Option.ne_none_iff_exists'.mp (placed_of_run h)
  obtain ⟨b, hb, hspan⟩ := hsame.admits.place s hs
  exact ⟨b, hb, hspan ▸ hs⟩

/-- What is executed from within a region lies in the region. -/
theorem Executes.within {R : Region} (h : Executes n a m b m') (ha : R.node a) (hm : R.Holds m) :
    R.node b ∧ R.Holds m' := by
  obtain ⟨r, hr, hne⟩ := h
  by_contra hout
  -- Otherwise the two ways to execute agree in the region, and the outcome is the same with both.
  have hagree : ∀ c, R.node c → R.Agrees (fun _ => False) (c.run n) (r c) := by
    intro c hc m'' hm''
    rw [hr c m'' fun hcm => hout ⟨hcm.1 ▸ hc, hcm.2 ▸ hm''⟩]
    exact R.agrees_run n hc m'' hm''
  rcases (Region.agrees_runWith (by simp) hagree ha n m hm).eq_or_broken with heq | ⟨_, _, _, hfalse⟩
  · exact hne (heq.trans (by rw [run_succ]))
  · exact hfalse

/-- A failure of what is executed is the failure of the node that executes it, the place included. -/
theorem Executes.fails {e : Halt} {m₁ : Machine} (h : Executes n a m b m') (hb : b.run n m' = .error e m₁) :
    ∃ m₂, a.run (n + 1) m = .error e m₂ := by
  obtain ⟨r, hr, hne⟩ := h
  have hplaced : ∀ f, Halt.fault f = e → f.span? ≠ none := by
    rintro f rfl
    exact placed_of_run hb
  -- The two ways to execute agree up to this failure, so if it did not come through they would agree altogether.
  have hagree : ∀ c, Region.whole.node c → Region.whole.Agrees (· = e) (c.run n) (r c) := by
    intro c hc m'' hm''
    by_cases hcm : c = b ∧ m'' = m'
    · obtain ⟨rfl, rfl⟩ := hcm
      rw [hb]
      exact .broken rfl
    · rw [hr c m'' hcm]
      exact (Region.whole.agrees_run n hc m'' hm'').weaken
  have hstep := Region.agrees_runWith hplaced hagree trivial n (a := a) m fun _ _ _ => trivial
  rcases hstep.eq_or_broken with heq | ⟨_, m₂, hbroken, rfl⟩
  · exact absurd (heq.trans (by rw [run_succ])) hne
  · exact ⟨m₂, by rw [run_succ, hbroken]⟩

theorem Reaches.within {R : Region} (h : Reaches k a m j b m') (ha : R.node a) (hm : R.Holds m) :
    R.node b ∧ R.Holds m' := by
  induction h with
  | here => exact ⟨ha, hm⟩
  | onward _ hexec ih => exact hexec.within ih.1 ih.2

theorem Reaches.fails {e : Halt} {m₁ : Machine} (h : Reaches k a m j b m') (hb : b.run j m' = .error e m₁) :
    ∃ m₂, a.run k m = .error e m₂ := by
  induction h generalizing e m₁ with
  | here => exact ⟨m₁, hb⟩
  | onward _ hexec ih =>
    obtain ⟨m₂, hfail⟩ := hexec.fails hb
    exact ih hfail

/-- What can be made to fail with any fault can be made to end otherwise than in a given way. -/
theorem exists_outcome_ne {ρ α : Type} {P : ρ → Prop} {outcome : ρ → EStateM.Result Halt Machine α}
    (h : ∀ f : Fault, f.span? ≠ none → ∃ r, P r ∧ ∃ m, outcome r = .error (.fault f) m)
    (result : EStateM.Result Halt Machine α) : ∃ r, P r ∧ outcome r ≠ result := by
  -- Of two different failures, one is not the given result.
  obtain ⟨r, hr, m₁, hfails⟩ := h ⟨.zeroStep, some default⟩ (by simp)
  obtain ⟨r', hr', m₂, hfails'⟩ := h ⟨.divisionByZero, some default⟩ (by simp)
  by_cases heq : outcome r = result
  · refine ⟨r', hr', ?_⟩
    rw [← heq, hfails, hfails']
    simp
  · exact ⟨r, hr, heq⟩

/-- A node that fails whenever another one fails, and in the same way, executes the other one. -/
theorem Executes.of_fails
    (h : ∀ (r : Runner) (f : Fault), f.span? ≠ none → r b m' = .error (.fault f) m' →
      ∃ m'', runWith n r a m = .error (.fault f) m'') : Executes n a m b m' := by
  classical
  refine exists_outcome_ne (fun f hf => ?_) _
  refine ⟨fun c m'' => if c = b ∧ m'' = m' then .error (.fault f) m' else run n c m'', ?_, h _ f hf (by simp)⟩
  intro c m'' hother
  simp only [if_neg hother]

theorem executes_print (n : Nat) (s : Span) (e : Expr) (m : Machine) :
    Executes n (.stmt (.print s e)) m (.expr e) m := by
  refine .of_fails fun r f hf hr => ⟨m, ?_⟩
  have hlocate : Eval.locate s (do
      let v ← r (.expr e)
      modify fun m => { m with printed := m.printed.push v }
      return Flow.normal) m = .error (.fault f) m := by
    simp [Eval.locate, Bind.bind, EStateM.bind, hr, Fault.orAt_of_span hf]
  exact hlocate

end Node

/-! ### Programs -/

def Stmt.top : Stmt → Node
  | .expression e => .expr e
  | s => .stmt s

inductive Program.Begins (fuel : Nat) : Program → Machine → Node → Machine → Prop where
  | here {s rest m} : Begins fuel (s :: rest) m s.top m
  | value {e rest v m m₁ a m₂} : Eval.expr fuel e m = .ok v m₁ → Begins fuel rest m₁ a m₂ →
    Begins fuel (.expression e :: rest) m a m₂
  | onward {s rest m m₁ a m₂} : (∀ e, s ≠ .expression e) → Eval.stmt fuel s m = .ok .normal m₁ →
    Begins fuel rest m₁ a m₂ → Begins fuel (s :: rest) m a m₂

def Program.Reaches (fuel : Nat) (p : Program) (m : Machine) (b : Node) (m' : Machine) : Prop :=
  ∃ a m₁ j, p.Begins fuel m a m₁ ∧ a.Reaches fuel m₁ j b m'

/-- Programs do not tell fuels apart with which all nodes of a region do the same. -/
theorem Region.agrees_programs {R : Region} {X : Halt → Prop} {n k : Nat}
    (hrun : ∀ a, R.node a → R.Agrees X (a.run n) (a.run k)) {p : Program} (hp : ∀ s ∈ p, R.node (.stmt s))
    (last? : Option Value) : R.Agrees X (Eval.program n p last?) (Eval.program k p last?) := by
  induction p generalizing last? with
  | nil => exact .pure _
  | cons s rest ih =>
    have hs := hp s (by simp)
    have hrest := ih fun s' hs' => hp s' (by simp [hs'])
    by_cases h : ∃ e, s = .expression e
    · obtain ⟨e, rfl⟩ := h
      rw [Eval.program.eq_2, Eval.program.eq_2]
      exact (hrun (.expr e) (R.child hs (List.mem_singleton_self (Node.expr e)))).bind fun v => hrest (some v)
    · have hother : ∀ e, s ≠ .expression e := fun e he => h ⟨e, he⟩
      rw [Eval.program.eq_3 _ _ _ _ hother, Eval.program.eq_3 _ _ _ _ hother]
      refine (hrun (.stmt s) hs).bind fun flow => ?_
      cases flow with
      | normal => exact hrest none
      | output v => exact .pure _
      | stop => exact .pure _

/-- A program of nodes in a region stays in the region, and so does the place of its fault. -/
theorem Region.agrees_program {R : Region} {p : Program} (hp : ∀ s ∈ p, R.node (.stmt s)) (fuel : Nat)
    (last? : Option Value) : R.Agrees (fun _ => False) (Eval.program fuel p last?) (Eval.program fuel p last?) :=
  agrees_programs (fun _ ha => R.agrees_run fuel ha) hp last?

namespace Program
variable {fuel : Nat} {p : Program} {a b : Node} {m m' : Machine}

theorem Begins.within {R : Region} (h : p.Begins fuel m a m') (hp : ∀ s ∈ p, R.node (.stmt s)) (hm : R.Holds m) :
    R.node a ∧ R.Holds m' := by
  induction h with
  | @here s rest m =>
    have hs := hp s (by simp)
    cases s
    case expression e => exact ⟨R.child hs (List.mem_singleton_self (Node.expr e)), hm⟩
    all_goals exact ⟨hs, hm⟩
  | @value e rest v m m₁ a m₂ hrun _ ih =>
    have he : R.node (.expr e) := R.child (hp (.expression e) (by simp)) (List.mem_singleton_self (Node.expr e))
    have hsame := R.agrees_run fuel he m hm
    rw [show Node.run fuel (.expr e) m = .ok v m₁ from hrun] at hsame
    exact ih (fun s hs => hp s (by simp [hs])) hsame.holds
  | @onward s rest m m₁ a m₂ _ hrun _ ih =>
    have hsame := R.agrees_run fuel (hp s (by simp)) m hm
    rw [show Node.run fuel (.stmt s) m = .ok .normal m₁ from hrun] at hsame
    exact ih (fun s hs => hp s (by simp [hs])) hsame.holds

theorem Reaches.within {R : Region} (h : p.Reaches fuel m b m') (hp : ∀ s ∈ p, R.node (.stmt s)) (hm : R.Holds m) :
    R.node b ∧ R.Holds m' := by
  obtain ⟨a, m₁, j, hbegins, hreaches⟩ := h
  obtain ⟨ha, hm₁⟩ := hbegins.within hp hm
  exact hreaches.within ha hm₁

/-- A program fails only where one of its statements fails. -/
theorem exists_of_program_error {e : Halt} {last? : Option Value} (h : Eval.program fuel p last? m = .error e m') :
    ∃ a m₁, p.Begins fuel m a m₁ ∧ a.run fuel m₁ = .error e m' := by
  induction p generalizing m last? with
  | nil => cases h
  | cons s rest ih =>
    by_cases hs : ∃ e, s = .expression e
    · obtain ⟨e', rfl⟩ := hs
      rw [Eval.program.eq_2] at h
      rcases Eval.error_of_bind h with hrun | ⟨v, m₁, hrun, hrest⟩
      · exact ⟨.expr e', m, .here, hrun⟩
      · obtain ⟨a, m₂, hbegins, hfail⟩ := ih hrest
        exact ⟨a, m₂, .value hrun hbegins, hfail⟩
    · have hother : ∀ e, s ≠ .expression e := fun e he => hs ⟨e, he⟩
      rw [Eval.program.eq_3 _ _ _ _ hother] at h
      rcases Eval.error_of_bind h with hrun | ⟨flow, m₁, hrun, hrest⟩
      · have htop : s.top = .stmt s := by
          cases s
          case expression e => exact absurd rfl (hother e)
          all_goals rfl
        exact ⟨s.top, m, .here, htop ▸ hrun⟩
      · cases flow with
        | normal =>
          obtain ⟨a, m₂, hbegins, hfail⟩ := ih hrest
          exact ⟨a, m₂, .onward hother hrun hbegins, hfail⟩
        | output v => cases hrest
        | stop => cases hrest

end Program
end Logo
