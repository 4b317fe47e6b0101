import Logo.Operations

/-! What the operations on values can fail for. They blame the values they are given, never a name of the program,
and they complain of a number of inputs only if it is wrong. -/
namespace Logo

/-- The cause lies in values and in where a word stands; it names no variable and no procedure. -/
def Cause.isOfValues : Cause → Bool
  | type .. | divisionByZero | indexOutOfBounds .. | emptyList _ | misplaced _ | zeroStep => true
  | unexpected .. | unknownCommand _ | arity .. | undefinedVariable _ | undefinedProcedure _ => false

def FailsBy (P : Cause → Prop) {α : Type} (r : Except Cause α) : Prop := ∀ c, r = .error c → P c

namespace FailsBy
variable {P : Cause → Prop} {α β : Type}

theorem ok (a : α) : FailsBy P (.ok a : Except Cause α) := by
  intro c h
  cases h

theorem error {c : Cause} (h : P c) : FailsBy P (.error c : Except Cause α) := by
  intro c' hc
  cases hc
  exact h

theorem bind {r : Except Cause α} {k : α → Except Cause β} (hr : FailsBy P r) (hk : ∀ a, FailsBy P (k a)) :
    FailsBy P (r >>= k) := by
  cases r with
  | ok a => exact hk a
  | error c => exact .error (hr c rfl)

theorem ite {p : Prop} [Decidable p] {r r' : Except Cause α} (hr : FailsBy P r) (hr' : FailsBy P r') :
    FailsBy P (if p then r else r') := by
  by_cases hp : p <;> simpa [hp]

end FailsBy

abbrev FailsByValues {α : Type} (r : Except Cause α) : Prop := FailsBy (fun c => c.isOfValues = true) r

namespace Value

theorem toNumber_fails (operation : String) (v : Value) : FailsByValues (v.toNumber operation) := by
  cases v with
  | number n => exact .ok n
  | list items => exact .error rfl

theorem toList_fails (operation : String) (v : Value) : FailsByValues (v.toList operation) := by
  cases v with
  | number n => exact .error rfl
  | list items => exact .ok items

theorem toBool_fails (operation : String) (v : Value) : FailsByValues (v.toBool operation) :=
  .bind (v.toNumber_fails operation) fun _ => .ok _

end Value

theorem BinaryOp.apply_fails (op : BinaryOp) (a b : Value) : FailsByValues (op.apply a b) := by
  have hnumbers : ∀ {k : Float → Float → Except Cause Value}, (∀ x y, FailsByValues (k x y)) →
      FailsByValues (a.toNumber op.sign >>= fun x => b.toNumber op.sign >>= k x) := fun hk =>
    .bind (a.toNumber_fails _) fun x => .bind (b.toNumber_fails _) (hk x)
  cases op
  case eq | ne => exact .ok _
  case div | mod => exact hnumbers fun _ _ => .ite (.error rfl) (.ok _)
  all_goals exact hnumbers fun _ _ => .ok _

namespace Operation

theorem ofNumber_fails (op : Operation) (v : Value) (f : Float → Float) : FailsByValues (op.ofNumber v f) :=
  .bind (v.toNumber_fails _) fun _ => .ok _

theorem pick_fails (op : Operation) (v : Value) (f : List Value → Option Value) : FailsByValues (op.pick v f) := by
  refine .bind (v.toList_fails _) fun items => ?_
  cases f items with
  | some found => exact .ok found
  | none => exact .error rfl

theorem apply₁_fails {op : Operation} (hop : op.arity = 1) (hrandom : op ≠ .random) (v : Value) :
    FailsByValues (op.apply₁ v) := by
  cases op
  case sqrt | ln => exact .bind (v.toNumber_fails _) fun _ => .ite (.error rfl) (.ok _)
  case first | last => exact pick_fails _ v _
  case butFirst | butLast | count | isEmpty => exact .bind (v.toList_fails _) fun _ => .ok _
  case random => exact absurd rfl hrandom
  case power | remainder | item | fput | lput | isMember | position | sentence | list => simp [arity] at hop
  all_goals exact ofNumber_fails _ v _

theorem itemAt_fails (index : Float) (items : List Value) : FailsByValues (itemAt index items) := by
  unfold itemAt
  split
  · split
    · exact .ok _
    · exact .error rfl
  · exact .error rfl

theorem apply₂_fails {op : Operation} (hop : op.arity = 2) (a b : Value) : FailsByValues (op.apply₂ a b) := by
  have hlist : ∀ {k : List Value → Except Cause Value}, (∀ items, FailsByValues (k items)) →
      FailsByValues (b.toList op.name >>= k) := fun hk => .bind (b.toList_fails _) hk
  cases op
  case power => exact .bind (a.toNumber_fails _) fun _ => .bind (b.toNumber_fails _) fun _ => .ok _
  case remainder =>
    refine .bind (a.toNumber_fails _) fun _ => .bind (b.toNumber_fails _) fun y => ?_
    exact .ite (.error rfl) (.ok _)
  case item => exact .bind (a.toNumber_fails _) fun index => hlist fun items => itemAt_fails index items
  case fput | lput | isMember | position => exact hlist fun _ => .ok _
  case sentence | list => exact .ok _
  all_goals simp [arity] at hop

theorem apply_of_length_ne {op : Operation} {args : List Value} (h : args.length ≠ op.arity) :
    op.apply args = Eval.raise (.arity op.name op.arity args.length) := by
  unfold apply
  rw [if_pos h]

/-- With the right number of inputs an operation fails only for their values. -/
theorem apply_of_length {op : Operation} {args : List Value} (h : args.length = op.arity) :
    (∃ v : Value, op = .random ∧ op.apply args = (do drawBelow (← Eval.ofExcept (v.toNumber op.name)))) ∨
      ∃ r, op.apply args = Eval.ofExcept r ∧ FailsByValues r := by
  have hop : op.arity = 1 ∨ op.arity = 2 := by cases op <;> simp [arity]
  unfold apply
  rw [if_neg (by simpa using h)]
  rcases hop with hop | hop
  · obtain ⟨v, rfl⟩ := List.length_eq_one_iff.mp (h.trans hop)
    by_cases hrandom : op = .random
    · subst hrandom
      exact .inl ⟨v, rfl, rfl⟩
    · exact .inr ⟨op.apply₁ v, by cases op <;> first | rfl | exact absurd rfl hrandom, apply₁_fails hop hrandom v⟩
  · rw [hop] at h
    obtain ⟨a, b, rfl⟩ : ∃ a b, args = [a, b] := by
      rcases args with _ | ⟨a, _ | ⟨b, _ | ⟨c, rest⟩⟩⟩ <;> simp at h ⊢
    exact .inr ⟨op.apply₂ a b, by cases op <;> rfl, apply₂_fails hop a b⟩

end Operation

theorem Query.answer_fails (q : Query) (m : Machine) : FailsByValues (q.answer m) := by
  cases q
  case repCount =>
    obtain ⟨⟨globals, frames, procedures, counters⟩, turtle, printed, random⟩ := m
    cases counters with
    | nil => exact .error rfl
    | cons i outer => exact .ok _
  all_goals exact .ok _

theorem Workspace.declare_fails (w : Workspace) (name : String) : FailsByValues (w.declare name) := by
  obtain ⟨globals, frames, procedures, counters⟩ := w
  cases frames with
  | nil => exact .error rfl
  | cons frame outer => exact .ok _

/-- A row of computations fails at the first that fails. -/
theorem exists_first_of_mapM_error {α β ε : Type} {f : α → Except ε β} {l : List α} {e : ε}
    (h : l.mapM f = .error e) :
    ∃ (i : Nat) (a : α), l[i]? = some a ∧ f a = .error e ∧ ∀ j < i, ∀ b, l[j]? = some b → ∃ c, f b = .ok c := by
  induction l with
  | nil => simp [Pure.pure, Except.pure] at h
  | cons a l ih =>
    rw [List.mapM_cons] at h
    cases ha : f a with
    | error e' => exact ⟨0, a, rfl, by simpa [ha, Bind.bind, Except.bind] using h, by simp⟩
    | ok b =>
      cases hl : l.mapM f with
      | error e' =>
        obtain ⟨i, c, hc, hfc, hbefore⟩ := ih (by simpa [ha, hl, Bind.bind, Except.bind] using h)
        refine ⟨i + 1, c, hc, hfc, fun j hj d hd => ?_⟩
        cases j with
        | zero => exact ⟨b, by simpa [← Option.some.inj hd] using ha⟩
        | succ j => exact hbefore j (by omega) d hd
      | ok bs => simp [ha, hl, Bind.bind, Except.bind, Pure.pure, Except.pure] at h

theorem exists_of_mapM_error {α β ε : Type} {f : α → Except ε β} {l : List α} {e : ε}
    (h : l.mapM f = .error e) : ∃ a ∈ l, f a = .error e := by
  obtain ⟨i, a, ha, hf, -⟩ := exists_first_of_mapM_error h
  exact ⟨a, List.mem_of_getElem? ha, hf⟩

/-- Where the inputs of a command are at fault, their values are, and the place is that of an input, if there is one
yet. -/
theorem Command.numbers_blame {c : Command} {args : List (Value × Span)} {f : Fault} (h : c.numbers args = .error f) :
    f.cause.isOfValues = true ∧ ∀ s, f.span? = some s → s ∈ args.map Prod.snd := by
  unfold numbers at h
  split at h
  · next v span =>
    split at h
    · next cause hv =>
      cases h
      exact ⟨v.toList_fails _ cause hv, by simp⟩
    · next x y _ =>
      cases hxy : [x, y].mapM (Value.toNumber setPos.name) with
      | ok numbers => simp only [hxy] at h; cases h
      | error cause =>
        simp only [hxy] at h
        cases h
        obtain ⟨v, -, hv⟩ := exists_of_mapM_error hxy
        exact ⟨v.toNumber_fails _ cause hv, by simp⟩
    · cases h
      exact ⟨rfl, by simp⟩
  · obtain ⟨⟨v, span⟩, harg, hf⟩ := exists_of_mapM_error h
    cases hv : v.toNumber c.name with
    | ok n =>
      simp only [hv] at hf
      cases hf
    | error cause =>
      simp only [hv] at hf
      cases hf
      refine ⟨v.toNumber_fails _ cause hv, fun s hs => ?_⟩
      exact List.mem_map.mpr ⟨_, harg, Option.some.inj hs⟩

end Logo
