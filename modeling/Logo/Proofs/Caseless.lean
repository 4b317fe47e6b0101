import Logo.Proofs.Renaming.Alike
import Logo.Proofs.Renaming.Scan

/-! The language does not see the case of letters. Two sources that differ only in it have the same tokens, read as
the same programs and do the same, up to the case of the names they keep and of the names in messages. -/
namespace Logo

structure Workspace.SameButCase (w w' : Workspace) : Prop where
  globals : w.globals.Same id w'.globals
  frames : List.Forall₂ (Table.Same id) w.frames w'.frames
  procedures : ∀ key, (w.procedures.get? key).map (Procedure.rename .caseless) =
    (w'.procedures.get? key).map (Procedure.rename .caseless)
  counters : w.counters = w'.counters

structure Machine.SameButCase (m m' : Machine) : Prop where
  workspace : m.workspace.SameButCase m'.workspace
  turtle : m.turtle = m'.turtle
  printed : m.printed = m'.printed
  random : m.random = m'.random

def Halt.SameButCase : Halt → Halt → Prop
  | .fault f, .fault f' => f.code = f'.code ∧ f.span? = f'.span? ∧ fold f.message = fold f'.message
  | .outOfFuel, .outOfFuel => True
  | _, _ => False

/-- Both readings fail in the same way, or both give one tree up to the case of its names. The procedures known
afterwards are the same. -/
def SameReading {α : Type} (rename : α → α) : EStateM.Result Halt Reader α → EStateM.Result Halt Reader α → Prop
  | .ok a r, .ok a' r' => rename a = rename a' ∧ r.arities.Same id r'.arities
  | .error e r, .error e' r' => e.SameButCase e' ∧ r.arities.Same id r'.arities
  | _, _ => False

def SameRun {α : Type} : EStateM.Result Halt Machine α → EStateM.Result Halt Machine α → Prop
  | .ok a m, .ok a' m' => a = a' ∧ m.SameButCase m'
  | .error e m, .error e' m' => e.SameButCase e' ∧ m.SameButCase m'
  | _, _ => False

theorem Machine.sameButCase_iff {m m' : Machine} : m.SameButCase m' ↔ m.Alike .caseless m' := by
  constructor
  · rintro ⟨⟨hglobals, hframes, hprocedures, hcounters⟩, hturtle, hprinted, hrandom⟩
    exact ⟨⟨hglobals, hframes, hprocedures, hcounters⟩, hturtle, hprinted, hrandom⟩
  · rintro ⟨⟨hglobals, hframes, hprocedures, hcounters⟩, hturtle, hprinted, hrandom⟩
    exact ⟨⟨hglobals, hframes, hprocedures, hcounters⟩, hturtle, hprinted, hrandom⟩

theorem Cause.fold_message_rename (c : Cause) : fold (c.rename .caseless).message = fold c.message := by
  have hfound : ∀ s, fold (Renaming.caseless.description s) = fold s := by
    intro s
    change fold (if s = "end of input" then s else fold s) = fold s
    split
    · rfl
    · exact fold_fold s
  cases c with
  | unexpected expected found =>
    change fold ("expected " ++ expected ++ ", found " ++ Renaming.caseless.description found) =
      fold ("expected " ++ expected ++ ", found " ++ found)
    rw [fold_append, hfound, ← fold_append]
  | unknownCommand name =>
    change fold ("I don't know how to " ++ fold name) = fold ("I don't know how to " ++ name)
    rw [fold_append, fold_fold, ← fold_append]
  | arity name expected got =>
    change fold (fold name ++ " expects " ++ toString expected ++ " inputs, got " ++ toString got) =
      fold (name ++ " expects " ++ toString expected ++ " inputs, got " ++ toString got)
    simp only [fold_append, fold_fold]
  | undefinedVariable name =>
    change fold (":" ++ fold name ++ " has no value") = fold (":" ++ name ++ " has no value")
    simp only [fold_append, fold_fold]
  | undefinedProcedure name =>
    change fold ("undefined procedure " ++ fold name) = fold ("undefined procedure " ++ name)
    rw [fold_append, fold_fold, ← fold_append]
  | type operation expected found => rfl
  | divisionByZero => rfl
  | indexOutOfBounds index length => rfl
  | emptyList operation => rfl
  | misplaced message => rfl
  | zeroStep => rfl

theorem Halt.sameButCase_of_rename {e e' : Halt} (h : e.rename .caseless = e'.rename .caseless) :
    e.SameButCase e' := by
  cases e with
  | outOfFuel =>
    cases e' with
    | outOfFuel => trivial
    | fault f' => cases h
  | fault f =>
    cases e' with
    | outOfFuel => cases h
    | fault f' =>
      have hf : f.rename .caseless = f'.rename .caseless := Halt.fault.inj h
      have hcause : f.cause.rename .caseless = f'.cause.rename .caseless := congrArg Fault.cause hf
      have hspan : f.span?.map Renaming.caseless.span = f'.span?.map Renaming.caseless.span := congrArg Fault.span? hf
      refine ⟨?_, by simpa [Renaming.caseless] using hspan, ?_⟩
      · rw [Fault.code, Fault.code, ← f.cause.code_rename .caseless, hcause, Cause.code_rename]
      · rw [Fault.message, Fault.message, ← f.cause.fold_message_rename, hcause, Cause.fold_message_rename]

section
variable {α : Type}

theorem sameReading_of_coincide {rename : α → α} {r r' : EStateM.Result Halt Reader α}
    (h : Coincide (fun r r' => r.arities.Same id r'.arities) (fun e e' => e.rename .caseless = e'.rename .caseless)
      (fun a a' => rename a = rename a') r r') : SameReading rename r r' := by
  cases r with
  | ok a s =>
    cases r' with
    | ok a' s' => exact h
    | error e' s' => exact h
  | error e s =>
    cases r' with
    | ok a' s' => exact h
    | error e' s' => exact ⟨Halt.sameButCase_of_rename h.1, h.2⟩

/-- Computations that one computation on renamed machines follows do the same up to case. -/
theorem sameRun_of_renames {x x' y : Eval α} (hx : Eval.Renames .caseless id x y)
    (hx' : Eval.Renames .caseless id x' y) {m m' : Machine} (hm : m.SameButCase m') : SameRun (x m) (x' m') := by
  have h := Eval.Renames.coincide hx hx' (Machine.sameButCase_iff.mp hm)
  generalize x m = r at h
  generalize x' m' = r' at h
  cases r with
  | ok a n =>
    cases r' with
    | ok a' n' => exact ⟨h.1, Machine.sameButCase_iff.mpr h.2⟩
    | error e' n' => exact h
  | error e n =>
    cases r' with
    | ok a' n' => exact h
    | error e' n' => exact ⟨Halt.sameButCase_of_rename h.1, Machine.sameButCase_iff.mpr h.2⟩

end

section
variable {s t : String}

theorem tokens_caseless (h : fold s = fold t) :
    (tokenize s).map (Token.rename .caseless) = (tokenize t).map (Token.rename .caseless) := by
  rw [← tokenize_fold, h, tokenize_fold]

theorem readProgram_caseless (h : fold s = fold t) (known : List (String × Nat)) :
    SameReading (List.map (Stmt.rename .caseless)) (readProgram (tokenize s) known)
      (readProgram (tokenize t) known) :=
  sameReading_of_coincide (readProgram_coincide (tokens_caseless h) known)

theorem readExpr_caseless (h : fold s = fold t) (known : List (String × Nat)) :
    SameReading (Expr.rename .caseless) (readExpr (tokenize s) known) (readExpr (tokenize t) known) :=
  sameReading_of_coincide (readExpr_coincide (tokens_caseless h) known)

theorem enter_caseless (h : fold s = fold t) :
    ∃ y, Eval.Renames .caseless id (Session.enter s) y ∧ Eval.Renames .caseless id (Session.enter t) y :=
  Session.enter_common (tokens_caseless h)

theorem evaluate_caseless (h : fold s = fold t) :
    ∃ y, Eval.Renames .caseless id (Session.evaluate s) y ∧ Eval.Renames .caseless id (Session.evaluate t) y :=
  Session.evaluate_common (tokens_caseless h)

end

/-- Sources that differ only in the case of ASCII letters have the same tokens up to the case of words, read as the
same programs and expressions up to the case of names, and do the same on machines that agree up to the case of
names, whether they are run as programs, entered as lines or evaluated as expressions. -/
theorem letter_case_ignored (s t : String) (h : fold s = fold t) :
    ((tokenize s).map fun k => (k.kind, k.span, fold k.text)) =
      ((tokenize t).map fun k => (k.kind, k.span, fold k.text)) ∧
    (∀ known,
      SameReading (List.map (Stmt.rename .caseless)) (readProgram (tokenize s) known) (readProgram (tokenize t) known) ∧
      SameReading (Expr.rename .caseless) (readExpr (tokenize s) known) (readExpr (tokenize t) known)) ∧
    ∀ m m' : Machine, m.SameButCase m' →
      SameRun (Session.run s m) (Session.run t m') ∧ SameRun (Session.enter s m) (Session.enter t m') ∧
        SameRun (Session.evaluate s m) (Session.evaluate t m') := by
  refine ⟨?_, fun known => ⟨readProgram_caseless h known, readExpr_caseless h known⟩, fun m m' hm => ?_⟩
  · have htokens := congrArg (List.map fun k : Token => (k.kind, k.span, k.text)) (tokens_caseless h)
    rwa [List.map_map, List.map_map] at htokens
  · obtain ⟨y, hs, ht⟩ := enter_caseless h
    obtain ⟨z, hs', ht'⟩ := evaluate_caseless h
    exact ⟨sameRun_of_renames hs.discard ht.discard hm, sameRun_of_renames hs ht hm, sameRun_of_renames hs' ht' hm⟩

/-- A procedure was stored under another spelling of its name, and a number is written with another `e`. -/
theorem letter_case_ignored_square :
    fold "Sq 1e2 print Xcor" = fold "sq 1E2 PRINT xcor" ∧
    SameRun
      (Session.run "Sq 1e2 print Xcor" { workspace := { procedures := .ofList [("SQ", ⟨"sq", ["Len"], []⟩)] } })
      (Session.run "sq 1E2 PRINT xcor" { workspace := { procedures := .ofList [("SQ", ⟨"Sq", ["len"], []⟩)] } }) := by
  have h : fold "Sq 1e2 print Xcor" = fold "sq 1E2 PRINT xcor" := by
    rw [fold_eq, fold_eq]
    decide
  have hname : fold "sq" = fold "Sq" := by
    rw [fold_eq, fold_eq]
    decide
  have hparam : fold "Len" = fold "len" := by
    rw [fold_eq, fold_eq]
    decide
  refine ⟨h, ((letter_case_ignored _ _ h).2.2 _ _ ?_).1⟩
  refine ⟨⟨.refl _, .nil, fun key => ?_, rfl⟩, rfl, rfl, rfl⟩
  simp only [Table.ofList, List.foldl_cons, List.foldl_nil, Table.get?_insert]
  split
  · simp only [Option.map, Procedure.rename, Renaming.caseless, List.map_cons, List.map_nil, hname, hparam]
  · rfl

end Logo
