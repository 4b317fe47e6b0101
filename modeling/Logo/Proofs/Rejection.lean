import Logo.CommandLine.Execute
import Logo.Proofs.Progress
import Logo.Proofs.Sessions

/-! Programs are rejected before any of them runs, and only then. Reading a program gives it or blames a token, and the
machine is not touched; no run blames a token. So checking a program tells beforehand whether running it would reject
it. -/
namespace Logo

def Halt.Rejects (h : Halt) : Prop := ∃ f, h = .fault f ∧ f.cause.isSyntactic = true

section
variable {m m' : Machine} {source : String} {h : Halt}

/-- Where reading fails, it is the text that is at fault. -/
theorem Machine.rejects_of_readProgram (hread : m.readProgram source = .error h) : h.Rejects := by
  obtain ⟨r, herror⟩ := Machine.readProgram_error_iff.mp hread
  obtain ⟨read, -, hbreaks⟩ := breaks_of_readProgram (Reader.start_behind_free source _) herror
  have hended := readProgram_ended (tokenize source) m.workspace.arities.entries
  rw [herror] at hended
  cases hended with
  | @fault f => exact ⟨f, rfl, syntactic_of_breaks hbreaks⟩

theorem Region.Raises.isSyntactic {R : Region} {c : Cause} (hc : R.Raises c) : c.isSyntactic = false := by
  cases hc with
  | other hother _ => exact hother
  | procedure _ _ => rfl
  | command _ _ => rfl
  | operation _ _ => rfl

/-- A run never says that the text is at fault. -/
theorem Eval.program_rejects_nothing {fuel : Nat} {p : Program} {last? : Option Value}
    (hfail : Eval.program fuel p last? m = .error h m') : ¬h.Rejects := by
  rintro ⟨f, rfl, hf⟩
  have hsame := Region.whole.agrees_program (p := p) (fun _ _ => trivial) fuel last? m fun _ _ _ => trivial
  rw [hfail] at hsame
  simp [hsame.admits.cause.isSyntactic] at hf

theorem Session.run_of_readProgram_error (hread : m.readProgram source = .error h) :
    Session.run source m = .error h m := by
  simp only [Session.run, Functor.discard, Functor.mapConst, EStateM.map, Function.comp, Session.enter_of_error hread]

theorem Session.run_rejects_iff :
    Session.run source m = .error h m' ∧ h.Rejects ↔ m.readProgram source = .error h ∧ m' = m := by
  constructor
  · rintro ⟨hrun, hrejects⟩
    rcases Session.exists_of_run_error hrun with hread | ⟨p, -, hprogram⟩
    · rw [Session.run_of_readProgram_error hread] at hrun
      cases hrun
      exact ⟨hread, rfl⟩
    · exact absurd hrejects (Eval.program_rejects_nothing hprogram)
  · rintro ⟨hread, rfl⟩
    exact ⟨Session.run_of_readProgram_error hread, Machine.rejects_of_readProgram hread⟩

end

namespace CommandLine
variable {m : Machine} {source : Source} {h : Halt}

/-- Without procedures to know of, checking a program reads what running it reads. -/
theorem checkSource_eq (hm : m.workspace.procedures = {}) : checkSource source = m.readProgram source.content := by
  have harities : m.workspace.arities = ({} : Machine).workspace.arities := by simp [Workspace.arities, hm]
  simp only [checkSource, Machine.readProgram, harities]

theorem runSource_halt_iff : (runSource source m).1 = some h ↔ ∃ m', Session.run source.content m = .error h m' := by
  unfold runSource
  cases Session.run source.content m <;> simp

end CommandLine

/-- A run fails with the text at fault exactly if reading fails, and then the fault is the same and the machine is as it
was. No program that has been read fails in this way. So for a machine without procedures a check fails exactly if the
run rejects the program, and both tell the same report. -/
theorem rejection_precedes_execution :
    (∀ source (m : Machine) h m',
      Session.run source m = .error h m' ∧ h.Rejects ↔ m.readProgram source = .error h ∧ m' = m) ∧
    (∀ fuel p last? (m : Machine) h m', Eval.program fuel p last? m = .error h m' → ¬h.Rejects) ∧
    ∀ (m : Machine) (source : Source) h, m.workspace.procedures = {} →
      (CommandLine.checkSource source = .error h ↔ (CommandLine.runSource source m).1 = some h ∧ h.Rejects) ∧
      (CommandLine.checkSource source = .error h → ∃ report : Report, report.source = source ∧ h = .fault report.fault ∧
        (∀ page, CommandLine.checkHalt page source false h = page report ++ "\n" ∧
          CommandLine.haltPage page source h = page report ++ "\n" ∧
          CommandLine.checkHalt page source true h = report.toJson.compact ++ "\n") ∧
        CommandLine.haltFields source h = [("error", report.toJson)]) := by
  refine ⟨fun _ _ _ _ => Session.run_rejects_iff, fun _ _ _ _ _ _ => Eval.program_rejects_nothing, ?_⟩
  intro m source h hm
  rw [CommandLine.checkSource_eq hm, CommandLine.runSource_halt_iff]
  refine ⟨⟨fun hread => ?_, ?_⟩, fun hread => ?_⟩
  · obtain ⟨hrun, hrejects⟩ := Session.run_rejects_iff.mpr ⟨hread, rfl⟩
    exact ⟨⟨m, hrun⟩, hrejects⟩
  · rintro ⟨⟨m', hrun⟩, hrejects⟩
    exact (Session.run_rejects_iff.mp ⟨hrun, hrejects⟩).1
  · obtain ⟨f, rfl, -⟩ := Machine.rejects_of_readProgram hread
    exact ⟨⟨f, source⟩, rfl, rfl, by
      simp [CommandLine.checkHalt, CommandLine.haltPage, CommandLine.haltFields]⟩

set_option maxRecDepth 4096 in
theorem rejection_precedes_execution_missing_input :
    (∃ h, ({} : Machine).readProgram "FD" = .error h ∧ Session.run "FD" {} = .error h {} ∧ h.Rejects ∧
      CommandLine.checkSource ⟨"fd.logo", "FD"⟩ = .error h ∧
      (CommandLine.runSource ⟨"fd.logo", "FD"⟩ {}).1 = some h ∧
      ∃ report : Report, CommandLine.haltPage Report.page ⟨"fd.logo", "FD"⟩ h = report.page ++ "\n") ∧
    ∃ p h m', Eval.program 2 p none {} = .error h m' ∧ ¬h.Rejects := by
  have hread : ({} : Machine).readProgram "FD" =
      .error (.fault ⟨.unexpected "input to FORWARD" "end of input", some ⟨2, 2⟩⟩) := by cbv
  have hfail : Eval.program 2 [.print ⟨0, 8⟩ (.thing ⟨6, 8⟩ "x")] none {} =
      .error (.fault ⟨.undefinedVariable "x", some ⟨6, 8⟩⟩) {} := rfl
  obtain ⟨hrun, hprogram, hcheck⟩ := rejection_precedes_execution
  obtain ⟨hfails, hrejects⟩ := (hrun _ _ _ _).mpr ⟨hread, rfl⟩
  obtain ⟨hiff, hreport⟩ := hcheck {} ⟨"fd.logo", "FD"⟩ _ rfl
  obtain ⟨report, -, -, hpage, -⟩ := hreport hread
  refine ⟨⟨_, hread, hfails, hrejects, hread, (hiff.mp hread).1, report, (hpage Report.page).2.1⟩, ?_⟩
  exact ⟨_, _, _, hfail, hprogram _ _ _ _ _ _ hfail⟩

end Logo
