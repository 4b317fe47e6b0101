import Logo.Proofs.Parts
import Logo.Proofs.Reach
import Logo.Proofs.Takes.Grammar
import Logo.Session
import Mathlib

/-! Where faults are placed: at a node that belongs to what is executed or to a procedure that was there before, and
for a text that is run by itself, within the text. -/
namespace Logo

def Machine.Stores (m : Machine) (b : Node) : Prop :=
  ∃ key p s, m.workspace.procedures.get? key = some p ∧ s ∈ p.body ∧ (Node.stmt s).Contains b

namespace Region

theorem belongs_child {a b c : Node} {m : Machine} (h : a.Contains b ∨ m.Stores b) (hc : c ∈ b.children) :
    a.Contains c ∨ m.Stores c := by
  rcases h with h | ⟨key, p, s, hp, hs, h⟩
  · exact .inl (h.tail hc)
  · exact .inr ⟨key, p, s, hp, hs, h.tail hc⟩

def around (a : Node) (m : Machine) : Region where
  node b := a.Contains b ∨ m.Stores b
  procedure _ p := ∀ s ∈ p.body, a.Contains (.stmt s) ∨ m.Stores (.stmt s)
  child := belongs_child
  define h _ hs := belongs_child h (List.mem_map_of_mem hs)
  enter _ _ hp hs := hp _ hs

def inside (a : Node) (h : ∀ b, a.Contains b → b.invokes = false) : Region where
  node b := a.Contains b
  procedure _ _ := True
  child hb hc := hb.tail hc
  define _ := trivial
  enter hb hcallee _ _ := absurd (Node.invokes_of_callee hcallee) (by simp [h _ hb])

def bounded (low high : Nat) : Region :=
  hereditary (fun a => a.span.Within low high) (fun _ _ => True) fun _ => trivial

end Region

section
variable {source : String} {p : Program} {e : Halt} {m m' : Machine}

theorem Session.read_ok (h : m.readProgram source = .ok p) : Session.read source m = .ok p m := by
  have hread : Session.read source m = (pure p : Eval Program) m := by
    simp only [Session.read, Bind.bind, EStateM.bind, MonadState.get, getThe, MonadStateOf.get, EStateM.get, h]
  exact hread

theorem Session.read_error (h : m.readProgram source = .error e) : Session.read source m = .error e m := by
  have hread : Session.read source m = (throw e : Eval Program) m := by
    simp only [Session.read, Bind.bind, EStateM.bind, MonadState.get, getThe, MonadStateOf.get, EStateM.get, h]
  exact hread

/-- Running a text fails where it is read or where its program is run. -/
theorem Session.exists_of_run_error (h : Session.run source m = .error e m') :
    m.readProgram source = .error e ∨
      ∃ p, m.readProgram source = .ok p ∧ Eval.program fuel p none m = .error e m' := by
  have henter : Session.enter source m = .error e m' := by
    rcases Eval.error_of_bind (f := fun _ => pure ()) h with h | ⟨v, m₁, _, h⟩
    · exact h
    · cases h
  have hsplit := Eval.error_of_bind henter
  cases hread : m.readProgram source with
  | error e' =>
    simp only [Session.read_error hread] at hsplit
    rcases hsplit with hfail | ⟨p, m₁, hok, -⟩
    · cases hfail
      exact .inl rfl
    · cases hok
  | ok p =>
    simp only [Session.read_ok hread] at hsplit
    rcases hsplit with hfail | ⟨p', m₁, hok, hrun⟩
    · cases hfail
    · cases hok
      exact .inr ⟨p, rfl, hrun⟩

theorem Session.run_of_program (h : m.readProgram source = .ok p) (hrun : Eval.program fuel p none m = .error e m') :
    Session.run source m = .error e m' := by
  have henter : Session.enter source m = .error e m' := by
    simp only [Session.enter, Bind.bind, EStateM.bind, Session.read_ok h, hrun]
  simp only [Session.run, Functor.discard, Functor.mapConst, EStateM.map, Function.comp, henter]

theorem Machine.readProgram_ok_iff : m.readProgram source = .ok p ↔
    ∃ r, Logo.readProgram (tokenize source) m.workspace.arities.entries = .ok p r := by
  unfold readProgram
  cases Logo.readProgram (tokenize source) m.workspace.arities.entries <;> simp

theorem Machine.readProgram_error_iff : m.readProgram source = .error e ↔
    ∃ r, Logo.readProgram (tokenize source) m.workspace.arities.entries = .error e r := by
  unfold readProgram
  cases Logo.readProgram (tokenize source) m.workspace.arities.entries <;> simp

/-- A text that is not accepted is blamed on one of its tokens, of which the last is its end. -/
theorem token_of_readProgram_error {f : Fault} (h : m.readProgram source = .error (.fault f)) :
    ∃ t ∈ tokenize source, f.span? = some t.span := by
  obtain ⟨r, hread⟩ := Machine.readProgram_error_iff.mp h
  obtain ⟨read, htext, hbreaks⟩ := breaks_of_readProgram (Reader.start_behind_free source _) hread
  cases hbreaks with
  | @fault expected found hfound _ =>
    refine ⟨found, ?_, rfl⟩
    rw [(tokenize_eq source).1, List.mem_append, List.mem_singleton, ← htext]
    exact hfound

theorem within_of_readProgram_error {f : Fault} (h : m.readProgram source = .error (.fault f)) :
    ∃ s, f.span? = some s ∧ s.Within 0 source.utf8ByteSize := by
  obtain ⟨t, ht, hspan⟩ := token_of_readProgram_error h
  exact ⟨t.span, hspan, within_of_mem_tokenize ht⟩

/-- The nodes of an accepted program lie within its text. -/
theorem bounded_of_readProgram (h : m.readProgram source = .ok p) :
    ∀ s ∈ p, (Region.bounded 0 source.utf8ByteSize).node (.stmt s) := by
  intro s hs b hb
  obtain ⟨r, hread⟩ := Machine.readProgram_ok_iff.mp h
  have hspells := spells_of_readProgram (Reader.start_behind_free source _) hread
  obtain ⟨us, hus, hnode⟩ := hspells.program_contains hs hb
  have hall : ∀ t ∈ us, t.span.Within 0 source.utf8ByteSize :=
    fun t ht => ((tokenize_eq source).2 t (hus.subset ht)).2
  cases b <;> exact hnode.span_within hall rfl

end

/-- Every fault has the place of a node of what is executed or of a procedure stored before, and of the former if
no procedure is run. The failure of a node that is executed on the way is the failure of the whole, place included. A
text that is run in an empty workspace fails within the text. -/
theorem faults_placed_where_they_arise :
    (∀ n (a : Node) m f m', a.run n m = .error (.fault f) m' →
      ∃ b, (a.Contains b ∨ m.Stores b) ∧ f.span? = some b.span) ∧
    (∀ n (a : Node) m f m', (∀ b, a.Contains b → b.invokes = false) → a.run n m = .error (.fault f) m' →
      ∃ b, a.Contains b ∧ f.span? = some b.span) ∧
    (∀ k (a : Node) m j b m₁ e m₂, a.Reaches k m j b m₁ → b.run j m₁ = .error e m₂ → ∃ m₃, a.run k m = .error e m₃) ∧
    (∀ source (m : Machine) f m', m.workspace = {} → Session.run source m = .error (.fault f) m' →
      ∃ s, f.span? = some s ∧ s.start ≤ s.stop ∧ s.stop ≤ source.utf8ByteSize) := by
  refine ⟨fun n a m f m' h => ?_, fun n a m f m' hcalm h => ?_, fun k a m j b m₁ e m₂ h hb => h.fails hb,
    fun source m f m' hfresh h => ?_⟩
  · exact Node.blamed_of_run (R := .around a m) h (.inl .refl) fun key p hp s hs => .inr ⟨key, p, s, hp, hs, .refl⟩
  · exact Node.blamed_of_run (R := .inside a hcalm) h .refl fun _ _ _ => trivial
  · rcases Session.exists_of_run_error h with hread | ⟨p, hread, hrun⟩
    · obtain ⟨s, hs, hwithin⟩ := within_of_readProgram_error hread
      exact ⟨s, hs, hwithin.ordered, hwithin.below⟩
    · obtain ⟨a, m₁, hbegins, hfail⟩ := Program.exists_of_program_error hrun
      have hempty : (Region.bounded 0 source.utf8ByteSize).Holds m := by simp [Region.Holds, hfresh]
      obtain ⟨ha, hm₁⟩ := hbegins.within (bounded_of_readProgram hread) hempty
      obtain ⟨b, hb, hspan⟩ := Node.blamed_of_run hfail ha hm₁
      have hwithin := hb b .refl
      exact ⟨b.span, hspan, hwithin.ordered, hwithin.below⟩

theorem faults_placed_where_they_arise_unset :
    (∃ m f m' b, (Node.expr (.call ⟨0, 1⟩ "F" [])).run 4 m = .error (.fault f) m' ∧ f.span? = some ⟨26, 28⟩ ∧
      ((Node.expr (.call ⟨0, 1⟩ "F" [])).Contains b ∨ m.Stores b) ∧ f.span? = some b.span) ∧
    (∃ f m' b, (Node.stmt (.print ⟨0, 8⟩ (.thing ⟨6, 8⟩ "x"))).run 3 {} = .error (.fault f) m' ∧
      (Node.stmt (.print ⟨0, 8⟩ (.thing ⟨6, 8⟩ "x"))).Contains b ∧ f.span? = some b.span) ∧
    (∃ e m₁ m₃, (Node.expr (.thing ⟨6, 8⟩ "x")).run 2 {} = .error e m₁ ∧
      (Node.stmt (.print ⟨0, 8⟩ (.thing ⟨6, 8⟩ "x"))).run 3 {} = .error e m₃) ∧
    (∃ f m' s, Session.run "PRINT :x" {} = .error (.fault f) m' ∧ f.span? = some s ∧ s.start ≤ s.stop ∧
      s.stop ≤ "PRINT :x".utf8ByteSize) := by
  have hcall : (Node.expr (.call ⟨0, 1⟩ "F" [])).run 4
      { workspace := { procedures := .ofList [("F", ⟨"F", [], [.print ⟨20, 28⟩ (.thing ⟨26, 28⟩ "x")]⟩)] } } =
        .error (.fault ⟨.undefinedVariable "x", some ⟨26, 28⟩⟩)
          { workspace := { procedures := .ofList [("F", ⟨"F", [], [.print ⟨20, 28⟩ (.thing ⟨26, 28⟩ "x")]⟩)] } } := by
            cbv
  have hprint : (Node.stmt (.print ⟨0, 8⟩ (.thing ⟨6, 8⟩ "x"))).run 3 {} =
      .error (.fault ⟨.undefinedVariable "x", some ⟨6, 8⟩⟩) {} := rfl
  have hthing : (Node.expr (.thing ⟨6, 8⟩ "x")).run 2 {} =
      .error (.fault ⟨.undefinedVariable "x", some ⟨6, 8⟩⟩) {} := rfl
  have hcalm : ∀ b, (Node.stmt (.print ⟨0, 8⟩ (.thing ⟨6, 8⟩ "x"))).Contains b → b.invokes = false := by
    intro b hb
    rcases hb.cases_head with rfl | ⟨c, hc, hb⟩
    · rfl
    · obtain rfl : c = .expr (.thing ⟨6, 8⟩ "x") := by simpa [Node.children] using hc
      rcases hb.cases_head with rfl | ⟨d, hd, -⟩
      · rfl
      · simp [Node.children] at hd
  have hread : Machine.readProgram {} "PRINT :x" = .ok [.print ⟨0, 8⟩ (.thing ⟨6, 8⟩ "x")] := by cbv
  have hprogram : ∀ n, Eval.program (n + 2) [.print ⟨0, 8⟩ (.thing ⟨6, 8⟩ "x")] none {} =
      .error (.fault ⟨.undefinedVariable "x", some ⟨6, 8⟩⟩) {} := fun _ => rfl
  have hfuel : Session.fuel = Session.fuel - 2 + 2 := by decide
  have hrun := Session.run_of_program hread (hfuel ▸ hprogram (Session.fuel - 2))
  obtain ⟨hstored, hown, hkept, hfresh⟩ := faults_placed_where_they_arise
  obtain ⟨b, hb, hspan⟩ := hstored 4 _ _ _ _ hcall
  obtain ⟨c, hc, hspan'⟩ := hown 3 _ _ _ _ hcalm hprint
  obtain ⟨m₃, hm₃⟩ := hkept 3 _ _ 2 _ _ _ _ (.onward .here (Node.executes_print 2 _ _ _)) hthing
  obtain ⟨s, hs⟩ := hfresh "PRINT :x" {} _ _ rfl hrun
  exact ⟨⟨_, _, _, b, hcall, rfl, hb, hspan⟩, ⟨_, _, c, hprint, hc, hspan'⟩, ⟨_, _, m₃, hthing, hm₃⟩, _, _, s, hrun, hs⟩

end Logo
