import Logo.Proofs.Effects
import Logo.Proofs.Strokes

/-! What is printed stays printed, and what is drawn stays drawn unless the program clears it. A run may fail at any
point, also within a box or on the way home: the lines before that point are in the drawing, and whoever listens has
heard them. -/
namespace Logo

namespace Turtle

/-- A turtle that its own operations make: from a start in some style, by orders, and by listening to it or no more. -/
inductive Made : Turtle → Prop where
  | styled (width : Float) (color : Color) : Made (styled width color)
  | obey {t : Turtle} (order : Order) : Made t → Made (t.obey order)
  | listen {t : Turtle} : Made t → Made t.listen
  | ignore {t : Turtle} : Made t → Made t.ignore

theorem Made.consistent {t : Turtle} (h : t.Made) : t.Consistent := by
  induction h with
  | styled width color => exact styled_consistent width color
  | obey order _ ih => exact consistent_obey ih order
  | listen _ ih => exact ⟨ih.current_eq_nil, ih.current_ends, ih.paths_long⟩
  | ignore _ ih => exact ⟨ih.current_eq_nil, ih.current_ends, ih.paths_long⟩

end Turtle

def Command.clears : Command → Bool
  | .clear | .clearScreen => true
  | _ => false

/-- Every other command is an order to the turtle, or nothing if its inputs do not fit. -/
theorem Command.act_eq_obey {c : Command} (hc : c.clears = false) (numbers : List Float) (t : Turtle) :
    c.act numbers t = t ∨ ∃ order, order ≠ .clear ∧ c.act numbers t = t.obey order := by
  have horder : ∀ order, order ≠ .clear → t.obey order = t ∨ ∃ order', order' ≠ .clear ∧ t.obey order = t.obey order' :=
    fun order h => .inr ⟨order, h, rfl⟩
  unfold act
  split
  · exact horder (.forward _) (by simp)
  · exact horder (.backward _) (by simp)
  · exact horder (.left _) (by simp)
  · exact horder (.right _) (by simp)
  · exact horder (.setHeading _) (by simp)
  · exact horder (.setX _) (by simp)
  · exact horder (.setY _) (by simp)
  · exact horder (.setXY _ _) (by simp)
  · exact horder (.setXY _ _) (by simp)
  · exact horder .home (by simp)
  · exact horder .liftPen (by simp)
  · exact horder .lowerPen (by simp)
  · simp [clears] at hc
  · simp [clears] at hc
  · exact horder .hide (by simp)
  · exact horder .unhide (by simp)
  · exact horder (.setPenSize _) (by simp)
  · exact horder (.setPenColor _) (by simp)
  · exact horder (.setPenColor _) (by simp)
  · exact horder (.circle _) (by simp)
  · exact horder (.square _) (by simp)
  · exact horder (.box _ _) (by simp)
  · exact .inl rfl

theorem Command.act_draws {c : Command} (hc : c.clears = false) (numbers : List Float) {t : Turtle}
    (ht : t.Consistent) : ∃ lines, t.Draws lines (c.act numbers t) := by
  rcases act_eq_obey hc numbers t with heq | ⟨order, horder, heq⟩
  · rw [heq]
    exact ⟨[], .refl ht⟩
  · rw [heq]
    exact ⟨_, Turtle.obey_draws ht horder⟩

namespace Node

def clears : Node → Bool
  | stmt (.command _ c _) => c.clears
  | _ => false

def Clearless (a : Node) : Prop := ∀ b, a.Contains b → b.clears = false

theorem Clearless.intro {a : Node} (ha : a.clears = false) (h : ∀ b ∈ a.children, b.Clearless) : a.Clearless :=
  forall_contains ha h

end Node

def Region.clearless : Region := hereditary (fun a => a.clears = false) (fun _ _ => True) fun _ => trivial

namespace Machine

def Prints (m m' : Machine) : Prop := m.printed.toList <+: m'.printed.toList

instance : IsPreorder Machine Prints where
  refl _ := List.prefix_refl _
  trans _ _ _ := List.IsPrefix.trans

def Draws (m m' : Machine) : Prop := m.turtle.Consistent → ∃ lines, m.turtle.Draws lines m'.turtle

instance : IsPreorder Machine Draws where
  refl _ h := ⟨[], .refl h⟩
  trans _ _ _ h h' hm := by
    obtain ⟨lines, hlines⟩ := h hm
    obtain ⟨lines', hlines'⟩ := h' hlines.consistent
    exact ⟨lines ++ lines', hlines.trans hlines'⟩

end Machine

namespace Node.Effect
variable {a : Node} {m m' : Machine}

theorem prints (h : a.Effect m m') : m.Prints m' := by
  cases h with
  | print v m => simp [Machine.Prints]
  | _ => exact refl_of Machine.Prints m

theorem draws (h : a.Effect m m') (ha : a.clears = false) : m.Draws m' := by
  cases h with
  | act numbers m => exact Command.act_draws ha numbers
  | _ => exact fun ht => ⟨[], .refl ht⟩

end Node.Effect

/-- Whether a run succeeds or fails, what was printed before is still there, with what the run printed behind it. If
neither the program nor a stored procedure has a command that clears, the same holds of the lines of the drawing, and
who listens to the turtle hears just the lines that the run adds. -/
theorem nothing_taken_back (m : Machine) (source : String) (hturtle : m.turtle.Made) :
    m.printed.toList <+: (final (Session.run source m)).printed.toList ∧
    ((∀ p, m.readProgram source = .ok p → ∀ s ∈ p, (Node.stmt s).Clearless) →
      (∀ key p, m.workspace.procedures.get? key = some p → ∀ s ∈ p.body, (Node.stmt s).Clearless) →
      ∃ lines, (final (Session.run source m)).turtle.segments = m.turtle.segments ++ lines ∧
        (final (Session.run source m)).turtle.heard?.map Log.toList =
          m.turtle.heard?.map fun log => log.toList ++ lines) := by
  rw [Session.final_run]
  constructor
  · have hsteps : Region.whole.Steps m (final (Session.enter source m)) :=
      Region.steps_enter (fun _ _ _ _ => trivial) fun _ _ _ => trivial
    have heffect : ∀ a m₁ m₂, Region.whole.node a → a.Effect m₁ m₂ → m₁.Prints m₂ := fun _ _ _ _ h => h.prints
    exact hsteps.keeps heffect
  · intro hprogram hstored
    have hsteps : Region.clearless.Steps m (final (Session.enter source m)) :=
      Region.steps_enter hprogram fun key p hp => ⟨trivial, hstored key p hp⟩
    have heffect : ∀ a m₁ m₂, Region.clearless.node a → a.Effect m₁ m₂ → m₁.Draws m₂ :=
      fun a _ _ ha h => h.draws (ha a .refl)
    obtain ⟨lines, hlines⟩ := hsteps.keeps heffect hturtle.consistent
    exact ⟨lines, hlines.segments, hlines.heard⟩

def Workspace.homing : Workspace := { procedures := .ofList [("GO", ⟨"go", [], [.command ⟨6, 10⟩ .home []]⟩)] }

set_option maxRecDepth 4096 in
/-- A program that draws a line and then fails, on a machine that knows a procedure, has printed before and has a turtle
that somebody listens to. -/
theorem nothing_taken_back_fault :
    ∃ m m' : Machine, ∃ h, Session.run "HOME PRINT :x" m = .error h m' ∧ m.turtle.Made ∧
      m.printed.toList = [.number 5] ∧ m.printed.toList <+: m'.printed.toList ∧
      ∃ lines, m'.turtle.segments = m.turtle.segments ++ lines ∧ m'.turtle.heard?.map Log.toList = some lines := by
  have hread : ∀ turtle printed random, Machine.readProgram ⟨.homing, turtle, printed, random⟩ "HOME PRINT :x" =
      .ok [.command ⟨0, 4⟩ .home [], .print ⟨5, 13⟩ (.thing ⟨11, 13⟩ "x")] := by
    intro turtle printed random
    cbv
  have hprogram : ∀ n turtle printed random,
      Eval.program (n + 2) [.command ⟨0, 4⟩ .home [], .print ⟨5, 13⟩ (.thing ⟨11, 13⟩ "x")] none
        ⟨.homing, turtle, printed, random⟩ =
          .error (.fault ⟨.undefinedVariable "x", some ⟨11, 13⟩⟩) ⟨.homing, turtle.home, printed, random⟩ :=
    fun _ _ _ _ => rfl
  have hfuel : Session.fuel = Session.fuel - 2 + 2 := by decide
  have hrun : ∀ turtle printed random, Session.run "HOME PRINT :x" ⟨.homing, turtle, printed, random⟩ =
      .error (.fault ⟨.undefinedVariable "x", some ⟨11, 13⟩⟩) ⟨.homing, turtle.home, printed, random⟩ :=
    fun _ _ _ => Session.run_of_program (hread _ _ _) (hfuel ▸ hprogram (Session.fuel - 2) _ _ _)
  have hhome : ∀ span, (Node.stmt (.command span .home [])).Clearless := fun _ => .intro rfl (by simp [Node.children])
  have hthing : (Node.expr (.thing ⟨11, 13⟩ "x")).Clearless := .intro rfl (by simp [Node.children])
  have hprint : (Node.stmt (.print ⟨5, 13⟩ (.thing ⟨11, 13⟩ "x"))).Clearless :=
    .intro rfl (by simpa [Node.children] using hthing)
  have hmade : (Turtle.styled 1 {}).listen.Made := .listen (.styled 1 {})
  obtain ⟨hprinted, hdrawn⟩ := nothing_taken_back ⟨.homing, (Turtle.styled 1 {}).listen, ⟨[.number 5]⟩, .ofSeed 1⟩
    "HOME PRINT :x" hmade
  rw [hrun] at hprinted hdrawn
  have hprogram : ∀ p, Machine.readProgram ⟨.homing, (Turtle.styled 1 {}).listen, ⟨[.number 5]⟩, .ofSeed 1⟩
      "HOME PRINT :x" = .ok p → ∀ s ∈ p, (Node.stmt s).Clearless := by
    intro p hp
    rw [hread] at hp
    obtain rfl := Except.ok.inj hp
    simp [hhome, hprint]
  have hstored : ∀ key p, Workspace.homing.procedures.get? key = some p → ∀ s ∈ p.body, (Node.stmt s).Clearless := by
    intro key p hp
    simp only [Workspace.homing, Table.ofList, List.foldl_cons, List.foldl_nil, Table.get?_insert] at hp
    by_cases hkey : key = fold "GO"
    · rw [if_pos hkey] at hp
      obtain rfl := Option.some.inj hp
      simp [hhome]
    · simp [hkey] at hp
  obtain ⟨lines, hsegments, hheard⟩ := hdrawn hprogram hstored
  exact ⟨_, _, _, hrun _ _ _, hmade, rfl, hprinted, lines, hsegments, hheard⟩

end Logo
