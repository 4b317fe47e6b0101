import Logo.Proofs.Blame
import Logo.Proofs.Effects
import Logo.Proofs.Tracks

/-! Effects are confined to the words that cause them. A program without commands leaves the turtle alone, one without
`PRINT` prints nothing, one without definitions leaves the procedures as they are. One without `RANDOM` neither moves
the random numbers nor depends on them. What stored procedures do counts with the program. -/
namespace Logo

namespace Node

def isCommand : Node → Bool
  | stmt (.command ..) => true
  | _ => false

def isPrint : Node → Bool
  | stmt (.print ..) => true
  | _ => false

def isDefinition : Node → Bool
  | stmt (.define ..) => true
  | _ => false

def isRandom : Node → Bool
  | expr (.operation _ .random _) => true
  | _ => false

end Node

structure Program.Lacks (p : Program) (m : Machine) (kind : Node → Bool) : Prop where
  own : ∀ s ∈ p, ∀ b, (Node.stmt s).Contains b → kind b = false
  stored : ∀ b, m.Stores b → kind b = false

def Region.lacking (kind : Node → Bool) : Region :=
  hereditary (fun a => kind a = false) (fun _ _ => True) fun _ => trivial

theorem Program.Lacks.holds {p : Program} {m : Machine} {kind : Node → Bool} (h : p.Lacks m kind) :
    (Region.lacking kind).Holds m :=
  fun key q hq => ⟨trivial, fun s hs b hb => h.stored b ⟨key, q, s, hq, hs, hb⟩⟩

/-! ### One run -/

def Machine.SameIn {α : Type} (part : Machine → α) (m m' : Machine) : Prop := part m' = part m

instance {α : Type} (part : Machine → α) : IsPreorder Machine (Machine.SameIn part) where
  refl _ := rfl
  trans _ _ _ h h' := h'.trans h

/-- What only one kind of nodes changes stays as it is without them. -/
theorem Program.Lacks.keeps {α : Type} {part : Machine → α} {p : Program} {m : Machine} {kind : Node → Bool}
    (h : p.Lacks m kind) (heffect : ∀ {a m m'}, kind a = false → a.Effect m m' → part m' = part m) (fuel : Nat) :
    part (final (Eval.program fuel p none m)) = part m := by
  have hsteps : (Region.lacking kind).Steps m (final (Eval.program fuel p none m)) :=
    Region.leads_program h.own fuel none m h.holds
  have hstep : ∀ a m₁ m₂, (Region.lacking kind).node a → a.Effect m₁ m₂ → Machine.SameIn part m₁ m₂ :=
    fun a _ _ ha h => heffect (ha a .refl) h
  exact hsteps.keeps hstep

namespace Node.Effect
variable {a : Node} {m m' : Machine}

theorem turtle_eq (ha : a.isCommand = false) (h : a.Effect m m') : m'.turtle = m.turtle := by
  cases h with
  | act => cases ha
  | _ => rfl

theorem printed_eq (ha : a.isPrint = false) (h : a.Effect m m') : m'.printed = m.printed := by
  cases h with
  | print => cases ha
  | _ => rfl

theorem procedures_eq (ha : a.isDefinition = false) (h : a.Effect m m') :
    m'.workspace.procedures = m.workspace.procedures := by
  cases h with
  | rebind w hw => exact hw
  | define => cases ha
  | _ => rfl

theorem random_eq (ha : a.isRandom = false) (h : a.Effect m m') : m'.random = m.random := by
  cases h with
  | draw => cases ha
  | _ => rfl

end Node.Effect

/-! ### Two runs -/

def reseed {α : Type} (r : Random) : EStateM.Result Halt Machine α → EStateM.Result Halt Machine α
  | .ok a m => .ok a { m with random := r }
  | .error e m => .error e { m with random := r }

theorem Workspace.mapBodies_id (w : Workspace) : w.mapBodies id = w := by
  have hprocedure : Procedure.mapBody id = id := rfl
  simp [mapBodies, Table.map, hprocedure]

theorem Stmt.mapBlocks_id (s : Stmt) : s.mapBlocks id = s := by
  cases s <;> rfl

abbrev Eval.Blind {α : Type} (x : Eval α) : Prop := Eval.Tracks id (fun _ _ => True) x x

theorem Node.runWith_blind {a : Node} (ha : a.isRandom = false) {r : Runner} (hr : ∀ b, Eval.Blind (r b)) (n : Nat) :
    Eval.Blind (runWith n r a) := by
  have hblock : ∀ body : List Stmt, Eval.Blind (Eval.block (fun s => r (.stmt s)) body) := by
    intro body
    have hfollows : Eval.Tracks id (fun _ _ => True) (Eval.block (fun s => r (.stmt s)) body)
        (Eval.block (fun s => r (.stmt s)) (body.map id)) := Eval.follows_block fun s _ => hr (.stmt s)
    rwa [List.map_id] at hfollows
  have hrun := fun (p : Procedure) args => Eval.invoke_tracks (hblock p.body) args
  cases a with
  | expr e =>
    refine Eval.exprWith_tracks hrun (fun e => hr (.expr e)) fun span args he => ?_
    subst he
    cases ha
  | stmt s =>
    have hstmt := Eval.stmtWith_tracks hrun (fun e => hr (.expr e)) hblock n s
    rwa [Stmt.mapBlocks_id] at hstmt

structure Region.Reseeded (R : Region) (m m' : Machine) : Prop where
  holds : R.Holds m
  same : ∃ r, m' = { m with random := r }

theorem Region.follows_run {a : Node} (ha : (Region.lacking Node.isRandom).node a) (n : Nat) :
    Follows (Region.lacking Node.isRandom).Reseeded id id (a.run n) (a.run n) := by
  obtain ⟨run, hagrees, hblind⟩ := exists_runner (R := .lacking Node.isRandom) (P := fun _ x => Eval.Blind x)
    (fun _ => .throw rfl) (fun n r hr b hb => Node.runWith_blind (hb b .refl) hr n) n
  have hrun : ∀ m, (Region.lacking Node.isRandom).Holds m → run a m = a.run n m := by
    intro m hm
    rcases (hagrees a ha m hm).eq_or_broken with heq | ⟨_, _, _, hfalse⟩
    · exact heq
    · exact hfalse.elim
  rintro m m' ⟨hm, random, rfl⟩
  have hmatches := hblind a m { m with random := random } ⟨m.workspace.mapBodies_id.symm, rfl, rfl, trivial⟩
  rw [hrun m hm, hrun { m with random := random } hm] at hmatches
  have hfinal := ((Region.lacking Node.isRandom).agrees_run n ha m hm).holds
  have hsame : ∀ m₁ m₂ : Machine, m₁.Tracks id (fun _ _ => True) m₂ → m₂ = { m₁ with random := m₂.random } := by
    rintro m₁ m₂ ⟨hworkspace, hturtle, hprinted, -⟩
    rw [m₁.workspace.mapBodies_id] at hworkspace
    rw [← hworkspace, ← hturtle, ← hprinted]
  generalize a.run n m = x at hmatches hfinal
  generalize a.run n { m with random := random } = y at hmatches
  cases hmatches with
  | ok htracks => exact .ok ⟨hfinal, _, hsame _ _ htracks⟩
  | error htracks => exact .error ⟨hfinal, _, hsame _ _ htracks⟩

/-- Without `RANDOM` a program does the same whatever the random numbers are. -/
theorem Program.Lacks.run_reseeded {p : Program} {m : Machine} (h : p.Lacks m Node.isRandom) (fuel : Nat) (r : Random) :
    Eval.program fuel p none { m with random := r } = reseed r (Eval.program fuel p none m) := by
  have hother : p.Lacks { m with random := r } Node.isRandom := ⟨h.own, h.stored⟩
  have hkept := hother.keeps Node.Effect.random_eq fuel
  have hfollows : Follows (Region.lacking Node.isRandom).Reseeded id id (Eval.program fuel p none)
      (Eval.program fuel p none) := by
    refine Eval.follows_program (fun e he => ?_) (fun s hs => ?_) none
    · exact Region.follows_run (Region.child _ (h.own _ he) (List.mem_singleton_self (Node.expr e))) fuel
    · exact Region.follows_run (h.own s hs) fuel
  have hmatches := hfollows m { m with random := r } ⟨h.holds, r, rfl⟩
  generalize Eval.program fuel p none m = x at hmatches
  generalize Eval.program fuel p none { m with random := r } = y at hmatches hkept
  cases hmatches with
  | ok hsame =>
    obtain ⟨-, r', rfl⟩ := hsame
    obtain rfl : r' = r := hkept
    rfl
  | error hsame =>
    obtain ⟨-, r', rfl⟩ := hsame
    obtain rfl : r' = r := hkept
    rfl

/-- Counting the program and the procedures in store, and whether the run succeeds or fails: without commands the turtle
is left as it is, without `PRINT` nothing is printed, without definitions the procedures stay the same, and without
`RANDOM` the random numbers stay the same and the outcome, but for them, does not depend on them. -/
theorem effects_confined (p : Program) (m : Machine) (fuel : Nat) :
    (p.Lacks m Node.isCommand → (final (Eval.program fuel p none m)).turtle = m.turtle) ∧
    (p.Lacks m Node.isPrint → (final (Eval.program fuel p none m)).printed = m.printed) ∧
    (p.Lacks m Node.isDefinition →
      (final (Eval.program fuel p none m)).workspace.procedures = m.workspace.procedures) ∧
    (p.Lacks m Node.isRandom → (final (Eval.program fuel p none m)).random = m.random ∧
      ∀ r, Eval.program fuel p none { m with random := r } = reseed r (Eval.program fuel p none m)) := by
  refine ⟨fun h => ?_, fun h => ?_, fun h => ?_, fun h => ⟨?_, h.run_reseeded fuel⟩⟩
  · exact h.keeps Node.Effect.turtle_eq fuel
  · exact h.keeps Node.Effect.printed_eq fuel
  · exact h.keeps Node.Effect.procedures_eq fuel
  · exact h.keeps Node.Effect.random_eq fuel

def Workspace.fetching : Workspace :=
  { procedures := .ofList [("F", ⟨"f", [], [.output ⟨5, 14⟩ (.thing ⟨12, 14⟩ "x")]⟩)] }

/-- One program prints and then fails in a procedure that it calls, the other calls the procedure only. -/
theorem effects_confined_fault : ∃ (m m' : Machine) (p p' : Program) (h : Halt),
    Eval.program 9 p none m = .error h m' ∧ m.printed.toList = [] ∧ m'.printed.toList = [.list []] ∧
    (p.Lacks m Node.isCommand ∧ m'.turtle = m.turtle) ∧
    (p'.Lacks m Node.isPrint ∧ (final (Eval.program 9 p' none m)).printed = m.printed) ∧
    (p.Lacks m Node.isDefinition ∧ m'.workspace.procedures = m.workspace.procedures) ∧
    p.Lacks m Node.isRandom ∧ m'.random = m.random ∧
      ∀ r, Eval.program 9 p none { m with random := r } = .error h { m' with random := r } := by
  have hcall : ∀ turtle printed random, Eval.stmt 9 (.call ⟨9, 10⟩ "f" []) ⟨.fetching, turtle, printed, random⟩ =
      .error (.fault ⟨.undefinedVariable "x", some ⟨12, 14⟩⟩) ⟨.fetching, turtle, printed, random⟩ := by
    intro turtle printed random
    cbv
  have hprint : ∀ m : Machine, Eval.stmt 9 (.print ⟨0, 8⟩ (.list ⟨6, 8⟩ [])) m =
      .ok .normal { m with printed := m.printed.push (.list []) } := fun _ => rfl
  have hprogram : ∀ turtle printed random, Eval.program 9
      [.print ⟨0, 8⟩ (.list ⟨6, 8⟩ []), .call ⟨9, 10⟩ "f" []] none ⟨.fetching, turtle, printed, random⟩ =
        .error (.fault ⟨.undefinedVariable "x", some ⟨12, 14⟩⟩)
          ⟨.fetching, turtle, printed.push (.list []), random⟩ := by
    intro turtle printed random
    simp only [Eval.program, Bind.bind, EStateM.bind, hprint, hcall]
  have hstored : ∀ turtle printed random b, Machine.Stores ⟨.fetching, turtle, printed, random⟩ b →
      b.isCommand = false ∧ b.isPrint = false ∧ b.isDefinition = false ∧ b.isRandom = false := by
    rintro turtle printed random b ⟨key, q, s, hq, hs, hb⟩
    simp only [Workspace.fetching, Table.ofList, List.foldl_cons, List.foldl_nil, Table.get?_insert] at hq
    by_cases hkey : key = fold "F"
    · rw [if_pos hkey] at hq
      obtain rfl := Option.some.inj hq
      obtain rfl : s = .output ⟨5, 14⟩ (.thing ⟨12, 14⟩ "x") := by simpa using hs
      revert b
      refine Node.forall_contains ⟨rfl, rfl, rfl, rfl⟩ fun c hc => ?_
      obtain rfl : c = .expr (.thing ⟨12, 14⟩ "x") := by simpa [Node.children] using hc
      exact Node.forall_contains ⟨rfl, rfl, rfl, rfl⟩ (by simp [Node.children])
    · simp [hkey] at hq
  have hcalls : ∀ b, (Node.stmt (.call ⟨9, 10⟩ "f" [])).Contains b →
      b.isCommand = false ∧ b.isPrint = false ∧ b.isDefinition = false ∧ b.isRandom = false :=
    Node.forall_contains ⟨rfl, rfl, rfl, rfl⟩ (by simp [Node.children])
  have hprints : ∀ b, (Node.stmt (.print ⟨0, 8⟩ (.list ⟨6, 8⟩ []))).Contains b →
      b.isCommand = false ∧ b.isDefinition = false ∧ b.isRandom = false := by
    refine Node.forall_contains ⟨rfl, rfl, rfl⟩ fun c hc => ?_
    obtain rfl : c = .expr (.list ⟨6, 8⟩ []) := by simpa [Node.children] using hc
    exact Node.forall_contains ⟨rfl, rfl, rfl⟩ (by simp [Node.children])
  have hown : ∀ s ∈ [Stmt.print ⟨0, 8⟩ (.list ⟨6, 8⟩ []), .call ⟨9, 10⟩ "f" []], ∀ b, (Node.stmt s).Contains b →
      b.isCommand = false ∧ b.isDefinition = false ∧ b.isRandom = false := by
    simp only [List.forall_mem_cons]
    exact ⟨hprints, fun b hb => ⟨(hcalls b hb).1, (hcalls b hb).2.2⟩, List.forall_mem_nil _⟩
  have hcommand : Program.Lacks [.print ⟨0, 8⟩ (.list ⟨6, 8⟩ []), .call ⟨9, 10⟩ "f" []] { workspace := .fetching }
      Node.isCommand := ⟨fun s hs b hb => (hown s hs b hb).1, fun b hb => (hstored _ _ _ b hb).1⟩
  have hdefinition : Program.Lacks [.print ⟨0, 8⟩ (.list ⟨6, 8⟩ []), .call ⟨9, 10⟩ "f" []] { workspace := .fetching }
      Node.isDefinition := ⟨fun s hs b hb => (hown s hs b hb).2.1, fun b hb => (hstored _ _ _ b hb).2.2.1⟩
  have hrandom : Program.Lacks [.print ⟨0, 8⟩ (.list ⟨6, 8⟩ []), .call ⟨9, 10⟩ "f" []] { workspace := .fetching }
      Node.isRandom := ⟨fun s hs b hb => (hown s hs b hb).2.2, fun b hb => (hstored _ _ _ b hb).2.2.2⟩
  have hquiet : Program.Lacks [.call ⟨9, 10⟩ "f" []] { workspace := .fetching } Node.isPrint := by
    refine ⟨?_, fun b hb => (hstored _ _ _ b hb).2.1⟩
    simp only [List.forall_mem_cons]
    exact ⟨fun b hb => (hcalls b hb).2.1, List.forall_mem_nil _⟩
  obtain ⟨hturtle, -, hprocedures, hdraw⟩ := effects_confined
    [.print ⟨0, 8⟩ (.list ⟨6, 8⟩ []), .call ⟨9, 10⟩ "f" []] { workspace := .fetching } 9
  obtain ⟨hsame, hreseed⟩ := hdraw hrandom
  have hquiet' := (effects_confined [.call ⟨9, 10⟩ "f" []] { workspace := .fetching } 9).2.1 hquiet
  have hturtle' := hturtle hcommand
  have hprocedures' := hprocedures hdefinition
  rw [hprogram] at hturtle' hprocedures' hsame
  have hreseed' : ∀ r, _ = reseed r _ := fun r => (hreseed r).trans (by rw [hprogram])
  exact ⟨_, _, _, _, _, hprogram _ _ _, rfl, rfl, ⟨hcommand, hturtle'⟩, ⟨hquiet, hquiet'⟩, ⟨hdefinition, hprocedures'⟩,
    hrandom, hsame, hreseed'⟩

end Logo
