import Logo.Eval
import Logo.Proofs.Causes

/-! Commands whose inputs have values of the wrong type. The command fails before the turtle moves, and says which
command it was. All commands but one blame the first input that is wrong. `SETPOS` blames its input only if that is a
list of the wrong length; a number, or a pair with a list in it, is blamed on the whole statement. -/
namespace Logo

def Value.isNumber : Value → Bool
  | number _ => true
  | list _ => false

namespace Command

/-- The value has the type that the command requires of its inputs: a number, or for `SETPOS` a list of two numbers. -/
def accepts : Command → Value → Bool
  | .setPos, .list [x, y] => x.isNumber && y.isNumber
  | .setPos, _ => false
  | _, v => v.isNumber

def mislays : Command → Value → Bool
  | .setPos, .number _ | .setPos, .list [_, _] => true
  | _, _ => false

variable {c : Command} {inputs : List (Value × Span)}

theorem accepts_of_ne (hc : c ≠ .setPos) (v : Value) : c.accepts v = v.isNumber := by
  unfold accepts
  split
  · exact absurd rfl hc
  · exact absurd rfl hc
  · rfl

theorem mislays_of_ne (hc : c ≠ .setPos) (v : Value) : c.mislays v = false := by
  unfold mislays
  split
  · exact absurd rfl hc
  · exact absurd rfl hc
  · rfl

theorem numbers_of_ne (hc : c ≠ .setPos) (inputs : List (Value × Span)) :
    c.numbers inputs = inputs.mapM fun u => (u.1.toNumber c.name).mapError (⟨·, some u.2⟩) := by
  unfold numbers
  split
  · exact absurd rfl hc
  · rfl

/-- The commands have their inputs checked from left to right. -/
theorem numbers_error {f : Fault} (hlength : inputs.length = c.arity) (h : c.numbers inputs = .error f) :
    ∃ (i : Nat) (v : Value) (s : Span) (expected found : String), inputs[i]? = some (v, s) ∧ c.accepts v = false ∧
      (∀ j < i, ∀ u, inputs[j]? = some u → c.accepts u.1 = true) ∧
      f = ⟨.type c.name expected found, if c.mislays v then none else some s⟩ := by
  by_cases hc : c = .setPos
  · subst hc
    obtain ⟨⟨v, s⟩, rfl⟩ := List.length_eq_one_iff.mp hlength
    cases v with
    | number n =>
      cases h
      exact ⟨0, .number n, s, _, _, rfl, rfl, by simp, rfl⟩
    | list items =>
      rcases items with _ | ⟨x, _ | ⟨y, _ | ⟨z, rest⟩⟩⟩
      case cons.cons.nil =>
        cases x <;> cases y <;> cases h <;> exact ⟨0, _, s, _, _, rfl, rfl, by simp, rfl⟩
      all_goals
        cases h
        exact ⟨0, _, s, _, _, rfl, rfl, by simp, rfl⟩
  · rw [numbers_of_ne hc] at h
    obtain ⟨i, ⟨v, s⟩, hi, hf, hbefore⟩ := exists_first_of_mapM_error h
    cases v with
    | number n => cases hf
    | list items =>
      cases hf
      simp only [accepts_of_ne hc, mislays_of_ne hc]
      refine ⟨i, .list items, s, _, _, hi, rfl, fun j hj u hu => ?_, rfl⟩
      obtain ⟨n, hn⟩ := hbefore j hj u hu
      obtain ⟨u, place⟩ := u
      cases u with
      | number n => rfl
      | list items => cases hn

theorem numbers_ok (hlength : inputs.length = c.arity) (h : ∀ u ∈ inputs, c.accepts u.1 = true) :
    ∃ numbers, c.numbers inputs = .ok numbers := by
  cases hnumbers : c.numbers inputs with
  | ok numbers => exact ⟨numbers, rfl⟩
  | error f =>
    obtain ⟨i, v, s, _, _, hi, hv, -⟩ := numbers_error hlength hnumbers
    simp [h _ (List.mem_of_getElem? hi)] at hv

end Command

/-- A row of computations has one result for each. -/
theorem length_of_mapM_ok {ε σ α β : Type} {f : α → EStateM ε σ β} {l : List α} {bs : List β} {s s' : σ}
    (h : l.mapM f s = .ok bs s') : bs.length = l.length := by
  induction l generalizing bs s with
  | nil =>
    cases h
    rfl
  | cons a l ih =>
    rw [List.mapM_cons] at h
    simp only [Bind.bind, EStateM.bind] at h
    cases ha : f a s with
    | error e t => simp [ha] at h
    | ok b t =>
      cases hl : l.mapM f t with
      | error e t' => simp [ha, hl] at h
      | ok cs t' =>
        simp only [ha, hl] at h
        cases h
        simp [ih hl]

namespace Eval
variable {n : Nat} {c : Command} {args : List Expr} {values : List Value} {m m₁ : Machine}
  (harity : args.length = c.arity) (hargs : args.mapM (expr n) m = .ok values m₁)
include harity hargs

/-- Once its inputs have values of the right types a command acts on the turtle. -/
theorem stmt_command_of_ok (span : Span) {numbers : List Float}
    (h : c.numbers (values.zip (args.map Expr.span)) = .ok numbers) :
    stmt (n + 1) (.command span c args) m = .ok .normal { m₁ with turtle := c.act numbers m₁.turtle } := by
  have hcommand : command (expr n) c args m = .ok () { m₁ with turtle := c.act numbers m₁.turtle } := by
    unfold command
    rw [if_neg (by simpa using harity)]
    simp only [Bind.bind, EStateM.bind, hargs, h]
    rfl
  simp only [stmt, stmtWith, locate, Bind.bind, EStateM.bind, hcommand]
  rfl

theorem stmt_command_of_error (span : Span) {f : Fault}
    (h : c.numbers (values.zip (args.map Expr.span)) = .error f) :
    stmt (n + 1) (.command span c args) m = .error (.fault (f.orAt span)) m₁ := by
  have hcommand : command (expr n) c args m = .error (.fault f) m₁ := by
    unfold command
    rw [if_neg (by simpa using harity)]
    simp only [Bind.bind, EStateM.bind, hargs, h]
    rfl
  simp only [stmt, stmtWith, locate, Bind.bind, EStateM.bind, hcommand]
  rfl

end Eval

/-- A command with the right number of inputs, all of which have got their values, succeeds if these have the right
types. Otherwise it fails with the machine as it was by then and with a complaint of the type that names the command.
The place is that of the first input with a value of the wrong type, except that `SETPOS` blames the statement for an
input that is a number or a pair. -/
theorem command_blames_first_mistyped_input {n : Nat} {c : Command} {args : List Expr} {values : List Value}
    {m m₁ : Machine} (harity : args.length = c.arity)
    (hargs : args.mapM (Eval.expr n) m = .ok values m₁) (span : Span) :
    ((∀ v ∈ values, c.accepts v = true) → ∃ m', Eval.stmt (n + 1) (.command span c args) m = .ok .normal m') ∧
    ∀ h m', Eval.stmt (n + 1) (.command span c args) m = .error h m' →
      m' = m₁ ∧ ∃ (i : Nat) (e : Expr) (v : Value) (expected found : String),
        args[i]? = some e ∧ values[i]? = some v ∧ c.accepts v = false ∧
        (∀ j < i, ∀ u, values[j]? = some u → c.accepts u = true) ∧
        h = .fault ⟨.type c.name expected found, some (if c.mislays v then span else e.span)⟩ := by
  have hlength : (values.zip (args.map Expr.span)).length = c.arity := by
    simp [length_of_mapM_ok hargs, harity]
  constructor
  · intro hall
    obtain ⟨numbers, hnumbers⟩ := Command.numbers_ok hlength fun u hu => hall u.1 (List.of_mem_zip hu).1
    exact ⟨_, Eval.stmt_command_of_ok harity hargs span hnumbers⟩
  · intro h m' hfails
    cases hnumbers : c.numbers (values.zip (args.map Expr.span)) with
    | ok numbers =>
      rw [Eval.stmt_command_of_ok harity hargs span hnumbers] at hfails
      cases hfails
    | error f =>
      rw [Eval.stmt_command_of_error harity hargs span hnumbers] at hfails
      obtain ⟨rfl, rfl⟩ := EStateM.Result.error.inj hfails
      obtain ⟨i, v, s, expected, found, hi, hv, hbefore, rfl⟩ := Command.numbers_error hlength hnumbers
      obtain ⟨hvalue, hspan⟩ := List.getElem?_zip_eq_some.mp hi
      obtain ⟨e, he, rfl⟩ := Option.map_eq_some_iff.mp ((List.getElem?_map ..).symm.trans hspan)
      refine ⟨rfl, i, e, v, expected, found, he, hvalue, hv, fun j hj u hu => ?_, ?_⟩
      · have hj' : j < args.length := by
          rw [← length_of_mapM_ok hargs]
          exact (List.getElem?_eq_some_iff.mp hu).1
        have hplace : (args.map Expr.span)[j]? = some args[j].span := by simp [hj']
        exact hbefore j hj (u, args[j].span) (List.getElem?_zip_eq_some.mpr ⟨hu, hplace⟩)
      · cases c.mislays v <;> rfl

/-- `SETXY 0 [1]` blames its second input. -/
theorem command_blames_first_mistyped_input_second :
    ∃ (args : List Expr) (values : List Value) (m m' : Machine) (h : Halt),
      args.length = Command.setXY.arity ∧ args.mapM (Eval.expr 2) m = .ok values m ∧
      values.map (Command.accepts .setXY) = [true, false] ∧
      Eval.stmt 3 (.command ⟨0, 11⟩ .setXY args) m = .error h m' ∧ m' = m ∧
      ∃ (i : Nat) (e : Expr) (v : Value) (expected found : String),
        args[i]? = some e ∧ values[i]? = some v ∧ Command.accepts .setXY v = false ∧
        (∀ j < i, ∀ u, values[j]? = some u → Command.accepts .setXY u = true) ∧
        h = .fault ⟨.type "SETXY" expected found, some e.span⟩ := by
  have hfails : Eval.stmt 3 (.command ⟨0, 11⟩ .setXY [.number ⟨6, 7⟩ 0, .list ⟨8, 11⟩ [.number ⟨9, 10⟩ 1]]) {} =
      .error (.fault ⟨.type "SETXY" "a number" (Value.list [.number 1]).text, some ⟨8, 11⟩⟩) {} := rfl
  have hargs : [.number ⟨6, 7⟩ 0, .list ⟨8, 11⟩ [.number ⟨9, 10⟩ 1]].mapM (Eval.expr 2) {} =
      .ok [.number 0, .list [.number 1]] {} := rfl
  have hblame := (command_blames_first_mistyped_input (c := .setXY) rfl hargs ⟨0, 11⟩).2 _ _ hfails
  exact ⟨_, _, _, _, _, rfl, hargs, rfl, hfails, hblame⟩

/-- `SETPOS 5` and `SETPOS [5 []]` blame the whole statement, though their one input is at fault. -/
theorem setPos_blames_statement :
    (∃ found, Command.accepts .setPos (.number 5) = false ∧
      Eval.stmt 3 (.command ⟨0, 8⟩ .setPos [.number ⟨7, 8⟩ 5]) {} =
        .error (.fault ⟨.type "SETPOS" "a list" found, some ⟨0, 8⟩⟩) {}) ∧
    ∃ found, Command.accepts .setPos (.list [.number 5, .list []]) = false ∧
      Eval.stmt 3 (.command ⟨0, 13⟩ .setPos [.list ⟨7, 13⟩ [.number ⟨8, 9⟩ 5, .list ⟨10, 12⟩ []]]) {} =
        .error (.fault ⟨.type "SETPOS" "a number" found, some ⟨0, 13⟩⟩) {} :=
  ⟨⟨_, rfl, rfl⟩, _, rfl, rfl⟩

end Logo
