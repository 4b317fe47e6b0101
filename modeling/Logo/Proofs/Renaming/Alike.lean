import Logo.Proofs.Renaming.Eval

/-! What a renaming does not see, the language does not see. Two sources whose tokens a renaming makes equal are read as
trees that it makes equal, and do the same on machines that are alike up to it. -/
namespace Logo

namespace Table.Same
variable {α : Type} {t t' t'' : Table α}

theorem symm (h : t.Same id t') : t'.Same id t := by
  intro key
  rw [h, Option.map_id, id, id]

theorem trans (h : t.Same id t') (h' : t'.Same id t'') : t.Same id t'' := by
  intro key
  rw [h', h, Option.map_id, id, id]

end Table.Same

theorem sameFrames_of_common {fs gs us : List (Table Value)} (h : List.Forall₂ (Table.Same id) fs us)
    (h' : List.Forall₂ (Table.Same id) gs us) : List.Forall₂ (Table.Same id) fs gs := by
  induction h generalizing gs with
  | nil =>
    cases h'
    exact .nil
  | cons hf _ ih =>
    cases h' with
    | cons hg hgs => exact .cons (hf.trans hg.symm) (ih hgs)

variable (ρ : Renaming)

structure Workspace.Alike (w w' : Workspace) : Prop where
  globals : w.globals.Same id w'.globals
  frames : List.Forall₂ (Table.Same id) w.frames w'.frames
  procedures : ∀ key, (w.procedures.get? key).map (Procedure.rename ρ) =
    (w'.procedures.get? key).map (Procedure.rename ρ)
  counters : w.counters = w'.counters

structure Machine.Alike (m m' : Machine) : Prop where
  workspace : m.workspace.Alike ρ m'.workspace
  turtle : m.turtle = m'.turtle
  printed : m.printed = m'.printed
  random : m.random = m'.random

variable {ρ}

/-- Two workspaces are alike if both have the same renamed workspace. -/
theorem Workspace.alike_iff {w w' : Workspace} : w.Alike ρ w' ↔ ∃ u, w.Renamed ρ u ∧ w'.Renamed ρ u := by
  constructor
  · intro h
    refine ⟨{ w with procedures := w.procedures.map (Procedure.rename ρ) }, ?_, ?_⟩
    · exact ⟨.refl _, List.forall₂_same.mpr fun _ _ => .refl _, fun key => Table.get?_map _ _ key, rfl⟩
    · refine ⟨h.globals.symm, h.frames.flip.imp fun _ _ => .symm, fun key => ?_, h.counters⟩
      rw [Table.get?_map, h.procedures]
  · rintro ⟨u, h, h'⟩
    have hframes := sameFrames_of_common h.frames h'.frames
    refine ⟨h.globals.trans h'.globals.symm, hframes, fun key => ?_, h.counters.symm.trans h'.counters⟩
    rw [← h.procedures, h'.procedures]

theorem Machine.alike_iff {m m' : Machine} : m.Alike ρ m' ↔ ∃ n, m.Renamed ρ n ∧ m'.Renamed ρ n := by
  constructor
  · intro h
    obtain ⟨u, hu, hu'⟩ := Workspace.alike_iff.mp h.workspace
    exact ⟨{ m with workspace := u }, ⟨hu, rfl, rfl, rfl⟩, ⟨hu', h.turtle, h.printed, h.random⟩⟩
  · rintro ⟨n, h, h'⟩
    exact ⟨Workspace.alike_iff.mpr ⟨_, h.workspace, h'.workspace⟩, h.turtle.symm.trans h'.turtle,
      h.printed.symm.trans h'.printed, h.random.symm.trans h'.random⟩

def Coincide {ε σ α : Type} (states : σ → σ → Prop) (failures : ε → ε → Prop) (results : α → α → Prop) :
    EStateM.Result ε σ α → EStateM.Result ε σ α → Prop
  | .ok a s, .ok a' s' => results a a' ∧ states s s'
  | .error e s, .error e' s' => failures e e' ∧ states s s'
  | _, _ => False

theorem Coincide.imp {ε σ α : Type} {S S' : σ → σ → Prop} {E E' : ε → ε → Prop} {A : α → α → Prop}
    {r r' : EStateM.Result ε σ α} (h : Coincide S E A r r') (hs : ∀ s s', S s s' → S' s s')
    (he : ∀ e e', E e e' → E' e e') : Coincide S' E' A r r' := by
  cases r with
  | ok a s =>
    cases r' with
    | ok a' s' => exact ⟨h.1, hs _ _ h.2⟩
    | error e' s' => exact h
  | error e s =>
    cases r' with
    | ok a' s' => exact h
    | error e' s' => exact ⟨he _ _ h.1, hs _ _ h.2⟩

/-- Outcomes that one and the same outcome follows. -/
theorem Matches.coincide {ε σ α β : Type} {R : σ → σ → Prop} {g : ε → ε} {h : α → β} {r r' : EStateM.Result ε σ α}
    {r₀ : EStateM.Result ε σ β} (hr : Matches R g h r r₀) (hr' : Matches R g h r' r₀) :
    Coincide (fun s s' => ∃ s₀, R s s₀ ∧ R s' s₀) (fun e e' => g e = g e') (fun a a' => h a = h a') r r' := by
  cases r₀ with
  | ok a₀ s₀ =>
    obtain ⟨a, s, rfl, ha, hs⟩ := hr.of_ok
    obtain ⟨a', s', rfl, ha', hs'⟩ := hr'.of_ok
    exact ⟨ha.trans ha'.symm, s₀, hs, hs'⟩
  | error e₀ s₀ =>
    obtain ⟨e, s, rfl, he, hs⟩ := hr.of_error
    obtain ⟨e', s', rfl, he', hs'⟩ := hr'.of_error
    exact ⟨he.trans he'.symm, s₀, hs, hs'⟩

/-- Computations that one and the same computation follows do the same on machines that are alike. -/
theorem Eval.Renames.coincide {α : Type} {x x' y : Eval α} (hx : Eval.Renames ρ id x y) (hx' : Eval.Renames ρ id x' y)
    {m m' : Machine} (hm : m.Alike ρ m') :
    Coincide (Machine.Alike ρ) (fun e e' => e.rename ρ = e'.rename ρ) Eq (x m) (x' m') := by
  -- Both runs are compared with the one on the renamed machine.
  obtain ⟨n, hn, hn'⟩ := Machine.alike_iff.mp hm
  exact ((hx m n hn).coincide (hx' m' n hn')).imp (fun _ _ => Machine.alike_iff.mpr) fun _ _ h => h

section
variable {s t : String} (htokens : (tokenize s).map (Token.rename ρ) = (tokenize t).map (Token.rename ρ))
include htokens

theorem readProgram_coincide (known : List (String × Nat)) :
    Coincide (fun r r' => r.arities.Same id r'.arities) (fun e e' => e.rename ρ = e'.rename ρ)
      (fun p p' => p.map (Stmt.rename ρ) = p'.map (Stmt.rename ρ))
      (readProgram (tokenize s) known) (readProgram (tokenize t) known) := by
  have hs := readProgram_renames ρ (.refl (.ofList known)) (Reader.finish_rename _ (tokenize_ends s))
  have ht := readProgram_renames ρ (.refl (.ofList known)) (Reader.finish_rename _ (tokenize_ends t))
  rw [← htokens] at ht
  refine (hs.coincide ht).imp ?_ fun _ _ h => h
  rintro r r' ⟨r₀, hr, hr'⟩
  exact hr.arities.trans hr'.arities.symm

theorem readExpr_coincide (known : List (String × Nat)) :
    Coincide (fun r r' => r.arities.Same id r'.arities) (fun e e' => e.rename ρ = e'.rename ρ)
      (fun e e' => e.rename ρ = e'.rename ρ) (readExpr (tokenize s) known) (readExpr (tokenize t) known) := by
  have hs := readExpr_renames ρ (.refl (.ofList known)) (Reader.finish_rename _ (tokenize_ends s))
  have ht := readExpr_renames ρ (.refl (.ofList known)) (Reader.finish_rename _ (tokenize_ends t))
  rw [← htokens] at ht
  refine (hs.coincide ht).imp ?_ fun _ _ h => h
  rintro r r' ⟨r₀, hr, hr'⟩
  exact hr.arities.trans hr'.arities.symm

namespace Session

theorem enter_common : ∃ y, Eval.Renames ρ id (enter s) y ∧ Eval.Renames ρ id (enter t) y := by
  have hs := enterTokens_renames ρ _ (tokenize_ends s)
  have ht := enterTokens_renames ρ _ (tokenize_ends t)
  rw [← htokens, ← enter_eq] at ht
  rw [← enter_eq] at hs
  exact ⟨_, hs, ht⟩

theorem evaluate_common : ∃ y, Eval.Renames ρ id (evaluate s) y ∧ Eval.Renames ρ id (evaluate t) y := by
  have hs := evaluateTokens_renames ρ _ (tokenize_ends s)
  have ht := evaluateTokens_renames ρ _ (tokenize_ends t)
  rw [← htokens, ← evaluate_eq] at ht
  rw [← evaluate_eq] at hs
  exact ⟨_, hs, ht⟩

end Session
end

end Logo
