import Logo.Syntax.Grammar

/-! Parsers that read given tokens. A parser reads a list of tokens if it takes exactly these, whatever fit token comes
behind them, and keeps what it knows of procedures. Tokens here have no places. -/
namespace Logo

def Span.none : Span := ⟨0, 0⟩

def Reader.before (finish : Token) (known : Table Nat) (tokens : List Token) : Reader :=
  ⟨tokens, finish, .none, known⟩

/-- At the start of a text whose end has no place the reader stands before the whole of it. -/
theorem Reader.start_before {tokens : List Token} (htokens : ∀ t ∈ tokens, t.isFinish = false) {finish : Token}
    (hfinish : finish.isFinish = true) (hspan : finish.span = .none) (known : List (String × Nat)) :
    Reader.start (tokens ++ [finish]) known =
      .before finish (Arity.collect (tokens ++ [finish]) (.ofList known)) tokens := by
  have hnone : tokens.find? Token.isFinish = none := List.find?_eq_none.mpr fun t ht => by simp [htokens t ht]
  have hall : ∀ t ∈ tokens, (!t.isFinish) = true := fun t ht => by simp [htokens t ht]
  simp [start, ofTokens, before, hnone, List.takeWhile_append_of_pos hall, hfinish, hspan]

/-- The parser takes the tokens and gives `a`, if the token behind them is fit. -/
def Reads (finish : Token) (known : Table Nat) {α : Type} (x : Parse α) (tokens : List Token) (a : α)
    (fit : Token → Prop) : Prop :=
  ∀ more, fit (more.headD finish) →
    x (.before finish known (tokens ++ more)) = .ok a (.before finish known more)

namespace Reads
variable {finish : Token} {known : Table Nat} {α β γ : Type} {x : Parse α} {f : α → Parse β} {ts us : List Token}
  {a : α} {b : β} {t : Token} {fit fit' : Token → Prop}

theorem pure : Reads finish known (Pure.pure a) [] a fit := fun _ _ => rfl

/-- One parser after the other. Behind the first comes what the second reads, or else what comes behind both. -/
theorem bind (hx : Reads finish known x ts a fit) (hf : Reads finish known (f a) us b fit')
    (hfit : ∀ more, fit' (more.headD finish) → fit ((us ++ more).headD finish)) :
    Reads finish known (x >>= f) (ts ++ us) b fit' := by
  intro more hmore
  have hfirst := hx (us ++ more) (hfit more hmore)
  change EStateM.bind x f _ = _
  unfold EStateM.bind
  rw [List.append_assoc, hfirst]
  exact hf more hmore

/-- The second parser reads nothing. -/
theorem bindLast (hx : Reads finish known x ts a fit) (hf : Reads finish known (f a) [] b fit) :
    Reads finish known (x >>= f) ts b fit := by
  have h := hx.bind hf fun _ hmore => hmore
  rwa [List.append_nil] at h

/-- The second parser starts with a token that is fit for the first. -/
theorem bindCons (hx : Reads finish known x ts a fit) (hf : Reads finish known (f a) (t :: us) b fit') (ht : fit t) :
    Reads finish known (x >>= f) (ts ++ t :: us) b fit' :=
  hx.bind hf fun _ _ => ht

theorem map {g : α → β} (hx : Reads finish known x ts a fit) : Reads finish known (g <$> x) ts (g a) fit :=
  hx.bindLast (f := fun a => Pure.pure (g a)) .pure

theorem peek {f : Token → Parse β} (hf : Reads finish known (f t) (t :: ts) b fit) :
    Reads finish known (Parse.peek >>= f) (t :: ts) b fit :=
  fun more hmore => hf more hmore

/-- A look at the token behind all that is read. -/
theorem peekEnd {f : Token → Parse β} (hf : ∀ t, fit t → f t = Pure.pure b) :
    Reads finish known (Parse.peek >>= f) [] b fit := by
  intro more hmore
  change f (more.headD finish) (.before finish known more) = _
  rw [hf _ hmore]
  rfl

theorem get {f : Reader → Parse β} (hf : ∀ r, r.arities = known → Reads finish known (f r) ts b fit) :
    Reads finish known (MonadState.get >>= f) ts b fit :=
  fun more hmore => hf _ rfl more hmore

/-- The first parser does not care what comes behind. -/
theorem seq (hx : Reads finish known x ts a fun _ => True) (hf : Reads finish known (f a) us b fit) :
    Reads finish known (x >>= f) (ts ++ us) b fit :=
  hx.bind hf fun _ _ => trivial

/-- The first parser reads nothing. -/
theorem silent (hx : Reads finish known x [] a fun _ => True) (hf : Reads finish known (f a) us b fit) :
    Reads finish known (x >>= f) us b fit :=
  hx.seq hf

theorem advance (ht : t.span = .none) : Reads finish known Parse.advance [t] t fit := by
  intro more _
  change EStateM.Result.ok t (Reader.mk more finish t.span known) = _
  rw [ht]
  rfl

theorem skip (ht : t.span = .none) : Reads finish known (discard Parse.advance) [t] () fit := (advance ht).map

theorem spanFrom : Reads finish known (Parse.spanFrom .none) [] .none fit := fun _ _ => rfl

theorem expectMark {m : Mark} {expected : String} (ht : t.span = .none) (hm : t.isMark m = true) :
    Reads finish known (Parse.expectMark m expected) [t] () fit := by
  refine .peek ?_
  rw [if_pos hm]
  exact skip ht

theorem expectWord {expected : String} (ht : t.span = .none) (hw : t.isWord = true) :
    Reads finish known (Parse.expectWord expected) [t] t.text fit := by
  refine .peek ?_
  rw [if_pos hw]
  exact (skip ht).seq .pure

theorem skipMark {m : Mark} (ht : t.span = .none) (hm : t.isMark m = true) :
    Reads finish known (Parse.skipMark m) [t] () fit := by
  refine .peek ?_
  rw [if_pos hm]
  exact skip ht

theorem skipNoMark {m : Mark} : Reads finish known (Parse.skipMark m) [] () fun t => t.isMark m = false := by
  refine .peekEnd fun t ht => ?_
  rw [ht]
  rfl

/-- Each item of a series is read, and starts with a token that is fit behind the item before it. -/
def Each (finish : Token) (known : Table Nat) (p : Parse α) (written : γ → List Token) (value : γ → α)
    (fit : Token → Prop) (items : List γ) : Prop :=
  ∀ c ∈ items, Reads finish known p (written c) (value c) fit ∧ ∃ t ts, written c = t :: ts ∧ fit t

section
variable {p : Parse α} {written : γ → List Token} {value : γ → α} {items : List γ}

theorem Each.tail {c : γ} (h : Each finish known p written value fit (c :: items)) :
    Each finish known p written value fit items :=
  fun d hd => h d (List.mem_cons_of_mem c hd)

/-- The token behind an item of a series is the first of the next item, or the one behind the series. -/
theorem Each.next (h : Each finish known p written value fit items) (more : List Token)
    (hmore : fit (more.headD finish)) : fit ((items.flatMap written ++ more).headD finish) := by
  cases items with
  | nil => exact hmore
  | cons c rest =>
    obtain ⟨_, t, ts, hwritten, ht⟩ := h c (by simp)
    rw [List.flatMap_cons, hwritten]
    exact ht

theorem times (h : Each finish known p written value fit items) :
    Reads finish known (p.times items.length) (items.flatMap written) (items.map value) fit := by
  induction items with
  | nil => exact .pure
  | cons c rest ih =>
    have hrest := ih h.tail
    rw [List.flatMap_cons]
    refine (h c (by simp)).1.bind (bindLast hrest .pure) fun more hmore => h.tail.next more hmore

/-- A series up to a closing token. -/
theorem upTo {closes : Token → Bool} {closing : String} (h : Each finish known p written value fit items)
    (hopen : ∀ c ∈ items, ∀ t ts, written c = t :: ts → closes t = false ∧ t.isFinish = false)
    (ht : t.span = .none) (hcloses : closes t = true) (hfit : fit t) {fuel : Nat} (hfuel : items.length < fuel) :
    Reads finish known (p.upTo closes closing fuel) (items.flatMap written ++ [t]) (items.map value) fit' := by
  induction items generalizing fuel with
  | nil =>
    obtain ⟨fuel, rfl⟩ : ∃ k, fuel = k + 1 := ⟨fuel - 1, by simp at hfuel; omega⟩
    refine .peek ?_
    rw [if_pos hcloses]
    exact (skip ht).seq .pure
  | cons c rest ih =>
    obtain ⟨fuel, rfl⟩ : ∃ k, fuel = k + 1 := ⟨fuel - 1, by simp at hfuel; omega⟩
    obtain ⟨hc, u, us, hwritten, hu⟩ := h c (by simp)
    obtain ⟨hopens, hfinish⟩ := hopen c (by simp) u us hwritten
    have hfuel' : rest.length < fuel := by simpa using hfuel
    have hrest := ih h.tail (fun d hd => hopen d (by simp [hd])) hfuel'
    have hboth : Reads finish known (do return (← p) :: (← p.upTo closes closing fuel))
        (written c ++ (rest.flatMap written ++ [t])) (value c :: rest.map value) fit' := by
      refine hc.bind (bindLast hrest .pure) fun more _ => ?_
      rw [List.append_assoc]
      exact h.tail.next ([t] ++ more) hfit
    rw [List.flatMap_cons, List.append_assoc]
    rw [hwritten] at hboth ⊢
    refine .peek ?_
    rw [hopens, hfinish]
    exact hboth

end
end Reads
end Logo
