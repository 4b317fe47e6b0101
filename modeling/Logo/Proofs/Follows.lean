/-! Two computations side by side. The second runs on a state related to that of the first; it follows the first if
its outcome is the same up to given changes and leaves a related state. Sequences of followers follow sequences, so
that a relation of states goes through whole programs. -/
namespace Logo

def final {ε σ α : Type} : EStateM.Result ε σ α → σ
  | .ok _ s | .error _ s => s

/-- The second outcome is the first with its failure changed by `g` and its result by `h`, in related states. -/
inductive Matches {ε σ α β : Type} (R : σ → σ → Prop) (g : ε → ε) (h : α → β) :
    EStateM.Result ε σ α → EStateM.Result ε σ β → Prop where
  | ok {a : α} {s s' : σ} : R s s' → Matches R g h (.ok a s) (.ok (h a) s')
  | error {e : ε} {s s' : σ} : R s s' → Matches R g h (.error e s) (.error (g e) s')

namespace Matches
variable {ε σ α β : Type} {R : σ → σ → Prop} {g : ε → ε} {h : α → β} {r : EStateM.Result ε σ α} {s' : σ}

theorem of_ok {b : β} (hr : Matches R g h r (.ok b s')) : ∃ a s, r = .ok a s ∧ h a = b ∧ R s s' := by
  cases hr with
  | ok hs => exact ⟨_, _, rfl, rfl, hs⟩

theorem of_error {e' : ε} (hr : Matches R g h r (.error e' s')) : ∃ e s, r = .error e s ∧ g e = e' ∧ R s s' := by
  cases hr with
  | error hs => exact ⟨_, _, rfl, rfl, hs⟩

end Matches

/-- From related states the computation `y` does what `x` does, up to the changes `g` of failures and `h` of
results. -/
def Follows {ε σ α β : Type} (R : σ → σ → Prop) (g : ε → ε) (h : α → β) (x : EStateM ε σ α) (y : EStateM ε σ β) :
    Prop :=
  ∀ s s', R s s' → Matches R g h (x s) (y s')

namespace Follows
variable {ε σ α β γ δ : Type} {R : σ → σ → Prop} {g : ε → ε} {h : α → β} {k : γ → δ}

theorem pure {a : α} {b : β} (hab : h a = b) : Follows R g h (Pure.pure a) (Pure.pure b) := by
  intro s s' hs
  rw [← hab]
  exact .ok hs

theorem throw {e e' : ε} (he : g e = e') : Follows R g h (MonadExcept.throw e) (MonadExcept.throw e') := by
  intro s s' hs
  rw [← he]
  exact .error hs

/-- What is done with the state at hand. -/
theorem get {p : σ → EStateM ε σ γ} {q : σ → EStateM ε σ δ} (hp : ∀ s s', R s s' → Follows R g k (p s) (q s')) :
    Follows R g k (MonadState.get >>= p) (MonadState.get >>= q) :=
  fun s s' hs => hp s s' hs s s' hs

theorem set {s s' : σ} (hs : R s s') : Follows R g id (MonadStateOf.set s) (MonadStateOf.set s') :=
  fun _ _ _ => .ok hs

theorem modify {u u' : σ → σ} (hu : ∀ s s', R s s' → R (u s) (u' s')) : Follows R g id (modify u) (modify u') :=
  fun s s' hs => .ok (hu s s' hs)

theorem bind {x : EStateM ε σ α} {y : EStateM ε σ β} {p : α → EStateM ε σ γ} {q : β → EStateM ε σ δ}
    (hx : Follows R g h x y) (hp : ∀ a, Follows R g k (p a) (q (h a))) : Follows R g k (x >>= p) (y >>= q) := by
  intro s s' hs
  have hxy := hx s s' hs
  change Matches R g k (EStateM.bind x p s) (EStateM.bind y q s')
  unfold EStateM.bind
  cases hr : x s with
  | ok a t =>
    rw [hr] at hxy
    cases hr' : y s' with
    | ok b t' =>
      rw [hr'] at hxy
      cases hxy with
      | ok ht => exact hp a t t' ht
    | error e t' =>
      rw [hr'] at hxy
      cases hxy
  | error e t =>
    rw [hr] at hxy
    cases hr' : y s' with
    | ok b t' =>
      rw [hr'] at hxy
      cases hxy
    | error e' t' =>
      rw [hr'] at hxy
      cases hxy with
      | error ht => exact .error ht

theorem map {x : EStateM ε σ α} {y : EStateM ε σ β} {u : α → γ} {v : β → δ} (hx : Follows R g h x y)
    (huv : ∀ a, v (h a) = k (u a)) : Follows R g k (u <$> x) (v <$> y) :=
  hx.bind fun a => .pure (huv a).symm

theorem discard {x : EStateM ε σ α} {y : EStateM ε σ β} (hx : Follows R g h x y) :
    Follows R g id (Functor.discard x) (Functor.discard y) :=
  hx.map fun _ => rfl

theorem ite {p q : Prop} [Decidable p] [Decidable q] {x x' : EStateM ε σ α} {y y' : EStateM ε σ β} (hpq : p ↔ q)
    (hx : Follows R g h x y) (hx' : Follows R g h x' y') :
    Follows R g h (if p then x else x') (if q then y else y') := by
  by_cases hp : p
  · rwa [if_pos hp, if_pos (hpq.mp hp)]
  · rwa [if_neg hp, if_neg fun hq => hp (hpq.mpr hq)]

theorem mapM {p : γ → EStateM ε σ α} {q : δ → EStateM ε σ β} {l : List γ}
    (hp : ∀ c ∈ l, Follows R g h (p c) (q (k c))) : Follows R g (List.map h) (l.mapM p) ((l.map k).mapM q) := by
  induction l with
  | nil => exact .pure rfl
  | cons c l ih =>
    rw [List.map_cons, List.mapM_cons, List.mapM_cons]
    refine .bind (hp c (by simp)) fun a => .bind (ih fun d hd => hp d (by simp [hd])) fun as => ?_
    exact .pure rfl

theorem mapM_id {p q : γ → EStateM ε σ α} (h : ∀ c, Follows R g id (p c) (q c)) (l : List γ) :
    Follows R g id (l.mapM p) (l.mapM q) := by
  have hl : Follows R g (List.map id) (l.mapM p) ((l.map id).mapM q) := .mapM fun c _ => h c
  rwa [List.map_id, List.map_id_fun] at hl

theorem foldlM {p q : β → α → EStateM ε σ β} (h : ∀ b a, Follows R g id (p b a) (q b a)) (l : List α) (b : β) :
    Follows R g id (l.foldlM p b) (l.foldlM q b) := by
  induction l generalizing b with
  | nil => exact .pure rfl
  | cons a l ih =>
    rw [List.foldlM_cons, List.foldlM_cons]
    exact .bind (h b a) ih

theorem forM {p : γ → EStateM ε σ PUnit} {q : δ → EStateM ε σ PUnit} (h : ∀ c, Follows R g id (p c) (q (k c)))
    (l : List γ) : Follows R g id (l.forM p) ((l.map k).forM q) := by
  induction l with
  | nil => exact .pure rfl
  | cons c l ih => exact .bind (h c) fun _ => ih

end Follows
end Logo
