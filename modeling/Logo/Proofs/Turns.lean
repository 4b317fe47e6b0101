import Mathlib
import Logo.Proofs.Follows.Nodes
import Logo.Proofs.Number.Exact
import Logo.Proofs.Placed

/-! Counted loops. A loop turns as often as its count says, or up to the first turn that does not end normally. What it
does is what its turns do: it does not tell bodies apart that do the same in the turns that it starts. -/
namespace Logo

/-- How many turns a count asks for: none below 1, and from there on the whole part, as far as a word of 64 bits goes.
What is not a number asks for none. -/
def Number.turns (x : Float) : Nat :=
  if x < 1 then 0
  else match value? x with
    | some v => min (2 ^ 64 - 1) ⌊v⌋.toNat
    | none => if x.isNaN then 0 else 2 ^ 64 - 1

theorem Number.clampNat_eq_turns (x : Float) : clampNat (Nat.pow 2 64 - 1) x = turns x := by
  have htop : Nat.pow 2 64 - 1 = 2 ^ 64 - 1 := rfl
  unfold clampNat turns
  rw [htop]
  cases hx : decode x with
  | nan =>
    have hv : value? x = none := by rw [value?, hx]
    have hnot : ¬x < 1 := by
      rw [lt_iff_compare, hx]
      decide
    rw [toNat_toUInt64_of_nan hx, if_neg hnot, hv, isNaN_eq, hx]
    rfl
  | infinite negative =>
    have hv : value? x = none := by rw [value?, hx]
    rw [toNat_toUInt64_of_infinite hx, hv]
    cases negative with
    | true =>
      have hless : x < 1 := by
        rw [lt_iff_compare, hx]
        decide
      rw [if_pos hless]
      rfl
    | false =>
      have hnot : ¬x < 1 := by
        rw [lt_iff_compare, hx]
        decide
      rw [if_neg hnot, isNaN_eq, hx]
      decide
  | finite negative m q =>
    have hv : value? x = some (signed negative (m * 2 ^ q)) := by rw [value?, hx]
    rw [toNat_toUInt64 hv, hv]
    by_cases h : x < 1
    · have hfloor : ⌊signed negative (m * 2 ^ q)⌋ < 1 :=
        Int.floor_lt.mpr (by exact_mod_cast (lt_iff hv value?_one).mp h)
      rw [if_pos h]
      omega
    · rw [if_neg h]
      exact Nat.min_eq_right (Nat.min_le_left _ _)

/-! ### Turns -/

namespace Eval

inductive Begins (exec : Stmt → Eval Flow) : List Stmt → Machine → Stmt → Machine → Prop where
  | here {s rest m} : Begins exec (s :: rest) m s m
  | onward {s rest m m₁ s' m'} : exec s m = .ok .normal m₁ → Begins exec rest m₁ s' m' → Begins exec (s :: rest) m s' m'

/-- A loop entered from `m` has had `i` turns, which have all ended normally, and has come to `m'`. -/
inductive Turned (body : Eval Flow) (m : Machine) : Nat → Machine → Prop where
  | start : Turned body m 0 (m.onWorkspace Workspace.startCount)
  | turn {i m₁ m₂} : Turned body m i m₁ → body (m₁.onWorkspace (·.setCount (i + 1))) = .ok .normal m₂ →
    Turned body m (i + 1) m₂

/-- A loop of at most so many turns, entered from `m`, starts its turn number `i` from `m'`. The first has number 1. -/
inductive StartsTurn (body : Eval Flow) (times : Nat) (m : Machine) : Nat → Machine → Prop where
  | mk {i m₁} : i < times → Turned body m i m₁ → StartsTurn body times m (i + 1) (m₁.onWorkspace (·.setCount (i + 1)))

def leaveLoop : EStateM.Result Halt Machine Flow → EStateM.Result Halt Machine Flow
  | .ok flow m => .ok flow (m.onWorkspace Workspace.endCount)
  | .error e m => .error e (m.onWorkspace Workspace.endCount)

section
variable {exec exec' : Stmt → Eval Flow} {body body' : Eval Flow} {times i : Nat} {m m' : Machine}

theorem repeatTimes_eq (times : Nat) (body : Eval Flow) (m : Machine) :
    repeatTimes times body m = leaveLoop (repeatFrom body times 1 (m.onWorkspace Workspace.startCount)) := by
  unfold repeatTimes within leaveLoop Machine.onWorkspace
  cases repeatFrom body times 1 { m with workspace := m.workspace.startCount } <;> rfl

theorem repeatFrom_of_normal {left : Nat} (h : body (m.onWorkspace (·.setCount i)) = .ok .normal m') :
    repeatFrom body (left + 1) i m = repeatFrom body left (i + 1) m' := by
  unfold Machine.onWorkspace at h
  simp only [repeatFrom, modifyWorkspace, modify, modifyGet, MonadStateOf.modifyGet, EStateM.modifyGet, Bind.bind,
    EStateM.bind, h]

theorem repeatFrom_of_other {left : Nat} (h : ∀ m', body (m.onWorkspace (·.setCount i)) ≠ .ok .normal m') :
    repeatFrom body (left + 1) i m = body (m.onWorkspace (·.setCount i)) := by
  unfold Machine.onWorkspace at h ⊢
  simp only [repeatFrom, modifyWorkspace, modify, modifyGet, MonadStateOf.modifyGet, EStateM.modifyGet, Bind.bind,
    EStateM.bind]
  cases hbody : body { m with workspace := m.workspace.setCount i } with
  | error e m' => rfl
  | ok flow m' =>
    cases flow with
    | normal => exact absurd hbody (h m')
    | output v => rfl
    | stop => rfl

/-- After some turns the rest of the turns are left. -/
theorem Turned.repeatFrom_eq {left : Nat} (h : Turned body m i m') :
    repeatFrom body (i + left) 1 (m.onWorkspace Workspace.startCount) = repeatFrom body left (i + 1) m' := by
  induction h generalizing left with
  | start => rw [Nat.zero_add]
  | @turn i m₁ m₂ _ hbody ih =>
    have hleft : i + 1 + left = i + (left + 1) := by omega
    rw [hleft, ih, repeatFrom_of_normal hbody]

/-- A loop has all its turns, each of which ends normally, or its outcome is that of the first turn that does not. -/
theorem repeatTimes_cases (times : Nat) (body : Eval Flow) (m : Machine) :
    (∃ m', Turned body m times m' ∧ repeatTimes times body m = .ok .normal (m'.onWorkspace Workspace.endCount)) ∨
      ∃ i m', StartsTurn body times m i m' ∧ (∀ m'', body m' ≠ .ok .normal m'') ∧
        repeatTimes times body m = leaveLoop (body m') := by
  -- On the turns that are left.
  have hleft : ∀ left i m₁, Turned body m i m₁ → i + left = times →
      (∃ m', Turned body m times m' ∧ repeatFrom body left (i + 1) m₁ = .ok .normal m') ∨
        ∃ i' m', StartsTurn body times m i' m' ∧ (∀ m'', body m' ≠ .ok .normal m'') ∧
          repeatFrom body left (i + 1) m₁ = body m' := by
    intro left
    induction left with
    | zero =>
      rintro i m₁ hturned rfl
      exact .inl ⟨m₁, hturned, rfl⟩
    | succ left ih =>
      intro i m₁ hturned htimes
      have hi : i < times := by omega
      by_cases hnormal : ∃ m₂, body (m₁.onWorkspace (·.setCount (i + 1))) = .ok .normal m₂
      · obtain ⟨m₂, hbody⟩ := hnormal
        rw [repeatFrom_of_normal hbody]
        exact ih (i + 1) m₂ (.turn hturned hbody) (by omega)
      · have hother : ∀ m₂, body (m₁.onWorkspace (·.setCount (i + 1))) ≠ .ok .normal m₂ := fun m₂ h => hnormal ⟨m₂, h⟩
        exact .inr ⟨_, _, .mk hi hturned, hother, repeatFrom_of_other hother⟩
  rw [repeatTimes_eq]
  rcases hleft times 0 _ .start (by omega) with ⟨m', hturned, heq⟩ | ⟨i, m', hstarts, hother, heq⟩
  · exact .inl ⟨m', hturned, by rw [heq]; rfl⟩
  · exact .inr ⟨i, m', hstarts, hother, by rw [heq]⟩

/-- The first turn that does not end normally is the last. -/
theorem repeatTimes_of_starts (h : StartsTurn body times m i m') (hother : ∀ m'', body m' ≠ .ok .normal m'') :
    repeatTimes times body m = leaveLoop (body m') := by
  cases h with
  | @mk i m₁ hi hturned =>
    obtain ⟨left, rfl⟩ : ∃ left, times = i + (left + 1) := ⟨times - i - 1, by omega⟩
    rw [repeatTimes_eq, hturned.repeatFrom_eq, repeatFrom_of_other hother]

/-- A block does not tell ways of execution apart that do the same at the statements to which it comes. -/
theorem block_congr {stmts : List Stmt} (h : ∀ s m', Begins exec stmts m s m' → exec' s m' = exec s m') :
    block exec' stmts m = block exec stmts m := by
  induction stmts generalizing m with
  | nil => rfl
  | cons s rest ih =>
    simp only [block, Bind.bind, EStateM.bind, h s m .here]
    cases hs : exec s m with
    | error e m₁ => rfl
    | ok flow m₁ =>
      cases flow with
      | normal => exact ih fun s' m' hbegins => h s' m' (.onward hs hbegins)
      | output v => rfl
      | stop => rfl

theorem Turned.congr (h : ∀ i m', StartsTurn body times m i m' → body' m' = body m') (hturned : Turned body m i m')
    (hi : i ≤ times) : Turned body' m i m' := by
  induction hturned with
  | start => exact .start
  | @turn i m₁ m₂ hturned hbody ih =>
    exact .turn (ih (by omega)) ((h _ _ (.mk (by omega) hturned)).trans hbody)

/-- A loop does not tell bodies apart that do the same in the turns that it starts. -/
theorem repeatTimes_congr (h : ∀ i m', StartsTurn body times m i m' → body' m' = body m') :
    repeatTimes times body' m = repeatTimes times body m := by
  rcases repeatTimes_cases times body m with ⟨m', hturned, heq⟩ | ⟨i, m', hstarts, hother, heq⟩
  · have hall : repeatFrom body' (times + 0) 1 (m.onWorkspace Workspace.startCount) = .ok .normal m' :=
      (hturned.congr h le_rfl).repeatFrom_eq
    rw [Nat.add_zero] at hall
    rw [heq, repeatTimes_eq, hall]
    rfl
  · have hsame := h i m' hstarts
    have hstarts' : StartsTurn body' times m i m' := by
      cases hstarts with
      | mk hi hturned => exact .mk hi (hturned.congr h hi.le)
    rw [heq, repeatTimes_of_starts hstarts' (hsame ▸ hother), hsame]

/-! A statement that fails makes the block and the loop fail that come to it, if all else is done as before. -/

section
variable {e : Halt} {m₀ : Machine}

theorem block_fails (hexec : ∀ s m, exec' s m = exec s m ∨ exec' s m = .error e m₀) {stmts : List Stmt} {s : Stmt}
    (h : Begins exec stmts m s m') (hs : exec' s m' = .error e m₀) : block exec' stmts m = .error e m₀ := by
  induction h with
  | here => simp only [block, Bind.bind, EStateM.bind, hs]
  | @onward s₁ rest m m₁ s m' hs₁ _ ih =>
    rcases hexec s₁ m with hsame | hfails
    · simp only [block, Bind.bind, EStateM.bind, hsame, hs₁]
      exact ih hs
    · simp only [block, Bind.bind, EStateM.bind, hfails]

theorem block_same_or_fails (hexec : ∀ s m, exec' s m = exec s m ∨ exec' s m = .error e m₀) (stmts : List Stmt)
    (m : Machine) : block exec' stmts m = block exec stmts m ∨ block exec' stmts m = .error e m₀ := by
  by_cases h : ∃ s m', Begins exec stmts m s m' ∧ exec' s m' = .error e m₀
  · obtain ⟨s, m', hbegins, hs⟩ := h
    exact .inr (block_fails hexec hbegins hs)
  · refine .inl (block_congr fun s m' hbegins => ?_)
    exact (hexec s m').resolve_right fun hs => h ⟨s, m', hbegins, hs⟩

theorem repeatTimes_fails (hbody : ∀ m, body' m = body m ∨ body' m = .error e m₀) (h : StartsTurn body times m i m')
    (hfails : body' m' = .error e m₀) : repeatTimes times body' m = leaveLoop (.error e m₀) := by
  have hstop : ∀ {i m₁}, StartsTurn body' times m i m₁ → body' m₁ = .error e m₀ →
      repeatTimes times body' m = leaveLoop (.error e m₀) := by
    intro i m₁ hstarts hm₁
    rw [repeatTimes_of_starts hstarts (by simp [hm₁]), hm₁]
  -- Up to the failing turn the other loop has the same turns or has failed before.
  have hturns : ∀ {i m₁}, Turned body m i m₁ → i < times →
      Turned body' m i m₁ ∨ repeatTimes times body' m = leaveLoop (.error e m₀) := by
    intro i m₁ hturned
    induction hturned with
    | start => exact fun _ => .inl .start
    | @turn i m₁ m₂ _ hturn ih =>
      intro hi
      rcases ih (by omega) with hturned | hfailed
      · rcases hbody (m₁.onWorkspace (·.setCount (i + 1))) with hsame | hm₁
        · exact .inl (.turn hturned (hsame.trans hturn))
        · exact .inr (hstop (.mk (by omega) hturned) hm₁)
      · exact .inr hfailed
  cases h with
  | mk hi hturned =>
    rcases hturns hturned hi with hturned' | hfailed
    · exact hstop (.mk hi hturned') hfails
    · exact hfailed

end
end

/-- A count is evaluated first, and the turns follow. -/
theorem stmtWith_loop (eval : Expr → Eval Value) (exec : Stmt → Eval Flow) (run : Procedure → List Value → Eval Value)
    (turns : Nat) (span : Span) (count : Expr) (body : List Stmt) :
    stmtWith eval exec run turns (.loop span count body) =
      locate span (number eval "REPEAT" count >>= fun x => repeatTimes (Number.turns x) (block exec body)) := by
  simp only [← Number.clampNat_eq_turns]
  rfl

/-- A loop with a count is the turns that the count asks for. -/
theorem stmt_loop {n : Nat} {count : Expr} {x : Float} {m m₀ : Machine}
    (hcount : number (expr n) "REPEAT" count m = .ok x m₀) (span : Span) (body : List Stmt) :
    stmt (n + 1) (.loop span count body) m = repeatTimes (Number.turns x) (block (stmt n) body) m₀ := by
  have hplaced : Placed (number (expr n) "REPEAT" count >>=
      fun x => repeatTimes (Number.turns x) (block (stmt n) body)) :=
    (Placed.number n _ count).bind fun x => (Placed.block n body).repeatTimes _
  rw [stmt, stmtWith_loop, hplaced.locate_eq]
  simp only [Bind.bind, EStateM.bind, hcount]

end Eval
end Logo
