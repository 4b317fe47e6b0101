import Logo.Proofs.Sessions

/-! Where the places of faults come from in a session. The body of a procedure keeps the places that it has in the text
that defined it, and these are blamed also if a later entry runs it. An entry that looks for no procedure of an earlier
one fails within its own text. -/
namespace Logo

namespace Machine
variable {m : Machine} {source : String} {b c : Node} {s : Span}

def Reads (m : Machine) (source : String) (b : Node) : Prop :=
  ∃ p, m.readProgram source = .ok p ∧ ∃ s ∈ p, (Node.stmt s).Contains b

def Marks (m : Machine) (source : String) (s : Span) : Prop :=
  (∃ t ∈ tokenize source, t.span = s) ∨ ∃ b, m.Reads source b ∧ b.span = s

theorem Reads.child (h : m.Reads source b) (hc : c ∈ b.children) : m.Reads source c := by
  obtain ⟨p, hread, s, hs, hb⟩ := h
  exact ⟨p, hread, s, hs, hb.tail hc⟩

theorem Reads.within (h : m.Reads source b) : b.span.Within 0 source.utf8ByteSize := by
  obtain ⟨p, hread, s, hs, hb⟩ := h
  exact bounded_of_readProgram hread s hs b hb

theorem Marks.within (h : m.Marks source s) : s.Within 0 source.utf8ByteSize := by
  rcases h with ⟨t, ht, rfl⟩ | ⟨b, hb, rfl⟩
  · exact within_of_mem_tokenize ht
  · exact hb.within

end Machine

/-! ### One entry -/

namespace Region

def known (m : Machine) (source : String) : Region :=
  hereditary (fun b => m.Reads source b ∨ m.Stores b) (fun _ _ => True) fun _ => trivial

/-- The nodes of the text's program, if they look for no procedure of the machine. The procedures of the machine may be
anything, and all others have bodies of such nodes. -/
def own (m : Machine) (source : String)
    (h : ∀ b name, m.Reads source b → b.callee? = some name → m.workspace.procedure? name = none) : Region where
  node b := m.Reads source b
  procedure key p := m.workspace.procedures.get? key = none → ∀ s ∈ p.body, m.Reads source (.stmt s)
  child := .child
  define hb _ _ hs := hb.child (List.mem_map_of_mem hs)
  enter hb hcallee hp hs := hp (h _ _ hb hcallee) _ hs

end Region

section
variable {R : Region} {m : Machine} {source : String} (hprogram : ∀ b, m.Reads source b → R.node b) (hm : R.Holds m)
include hprogram hm

theorem Session.holds_enter : R.Holds (final (Session.enter source m)) := by
  cases hread : m.readProgram source with
  | error h =>
    rw [Session.enter_of_error hread]
    exact hm
  | ok p =>
    rw [Session.enter_of_ok hread]
    exact (Region.agrees_program (fun s hs => hprogram _ ⟨p, hread, s, hs, .refl⟩) _ _ m hm).holds

/-- A text is blamed on one of its tokens in reading, and on a node of the region in running. -/
theorem Session.blamed_enter {f : Fault} {m' : Machine} (h : Session.enter source m = .error (.fault f) m') :
    ∃ s, f.span? = some s ∧ ((∃ t ∈ tokenize source, t.span = s) ∨ ∃ b, R.node b ∧ b.span = s) := by
  cases hread : m.readProgram source with
  | error e =>
    rw [Session.enter_of_error hread] at h
    cases h
    obtain ⟨t, ht, hspan⟩ := token_of_readProgram_error hread
    exact ⟨t.span, hspan, .inl ⟨t, ht, rfl⟩⟩
  | ok p =>
    rw [Session.enter_of_ok hread] at h
    obtain ⟨a, m₁, hbegins, hfail⟩ := Program.exists_of_program_error h
    obtain ⟨ha, hm₁⟩ := hbegins.within (fun s hs => hprogram _ ⟨p, hread, s, hs, .refl⟩) hm
    obtain ⟨b, hb, hspan⟩ := Node.blamed_of_run hfail ha hm₁
    exact ⟨b.span, hspan, .inr ⟨b, hb, rfl⟩⟩

end

namespace Region
variable {m : Machine} {source : String}

theorem known_of_reads {b : Node} (h : m.Reads source b) : (known m source).node b := by
  intro c hc
  obtain ⟨p, hread, s, hs, hb⟩ := h
  exact .inl ⟨p, hread, s, hs, hb.trans hc⟩

theorem known_holds : (known m source).Holds m := by
  intro key p hp
  exact ⟨trivial, fun s hs b hb => .inr ⟨key, p, s, hp, hs, hb⟩⟩

end Region

/-- What is stored behind an entry was stored before or stands in the entry's program. -/
theorem Session.stores_enter {m : Machine} {source : String} {b : Node}
    (h : (final (Session.enter source m)).Stores b) : m.Reads source b ∨ m.Stores b := by
  obtain ⟨key, p, s, hp, hs, hb⟩ := h
  have hbefore : (Region.known m source).Holds m := Region.known_holds
  have hbehind := Session.holds_enter (fun _ => Region.known_of_reads) hbefore
  exact (hbehind key p hp).2 s hs b hb

/-- An entry that looks for no stored procedure is blamed on its own text. -/
theorem Session.marks_enter {m m' : Machine} {source : String} {f : Fault}
    (hcalls : ∀ b name, m.Reads source b → b.callee? = some name → m.workspace.procedure? name = none)
    (h : Session.enter source m = .error (.fault f) m') : ∃ s, f.span? = some s ∧ m.Marks source s := by
  have hstored : (Region.own m source hcalls).Holds m := by
    intro key p hp hnone
    rw [hp] at hnone
    cases hnone
  exact Session.blamed_enter (R := .own m source hcalls) (fun _ hb => hb) hstored h

/-! ### All entries -/

def Machine.entered (m : Machine) (entries : List String) : Machine := m.after (entries.map .line)

theorem Machine.entered_append (m : Machine) (entries : List String) (entry : String) :
    m.entered (entries ++ [entry]) = final (Session.enter entry (m.entered entries)) := by
  simp [entered, after, Request.perform]

/-- The node was read from one of the entries, in the state of the session at that time. -/
def Machine.ReadFrom (m : Machine) (entries : List String) (earlier : String) (b : Node) : Prop :=
  ∃ before later, entries = before ++ earlier :: later ∧ (m.entered before).Reads earlier b

/-- In a session that starts with an empty workspace, all that is stored was read from one of its entries. -/
theorem Machine.readFrom_of_stores {m : Machine} (hm : m.workspace = {}) {entries : List String} {b : Node}
    (h : (m.entered entries).Stores b) : ∃ earlier, m.ReadFrom entries earlier b := by
  induction entries using List.reverseRecOn with
  | nil =>
    obtain ⟨key, p, s, hp, -⟩ := h
    simp [entered, after, hm] at hp
  | append_singleton entries entry ih =>
    rw [entered_append] at h
    rcases Session.stores_enter h with hread | hstored
    · exact ⟨entry, entries, [], rfl, hread⟩
    · obtain ⟨earlier, before, later, rfl, hread⟩ := ih hstored
      exact ⟨earlier, before, later ++ [entry], by simp, hread⟩

theorem Machine.ReadFrom.within {m : Machine} {entries : List String} {earlier : String} {b : Node}
    (h : m.ReadFrom entries earlier b) : b.span.Within 0 earlier.utf8ByteSize := by
  obtain ⟨before, later, -, hread⟩ := h
  exact hread.within

/-- In a session that starts with an empty workspace, the fault of an entry has a place. It is that of a token or a node
of the entry and lies within its text, or it is that of a node in a stored procedure, which was read from an earlier
entry and lies within the text of that one. If the entry looks for no procedure that is stored, the place is its own. -/
theorem entry_faults_placed_in_session (m : Machine) (hm : m.workspace = {}) (entries : List String) (entry : String)
    (f : Fault) (m' : Machine) (h : Session.enter entry (m.entered entries) = .error (.fault f) m') :
    ∃ s, f.span? = some s ∧
      ((m.entered entries).Marks entry s ∧ s.Within 0 entry.utf8ByteSize ∨
        ∃ b earlier, (m.entered entries).Stores b ∧ m.ReadFrom entries earlier b ∧ b.span = s ∧
          s.Within 0 earlier.utf8ByteSize) ∧
      ((∀ b name, (m.entered entries).Reads entry b → b.callee? = some name →
          (m.entered entries).workspace.procedure? name = none) →
        (m.entered entries).Marks entry s ∧ s.Within 0 entry.utf8ByteSize) := by
  obtain ⟨s, hs, hplace⟩ := Session.blamed_enter (fun _ => Region.known_of_reads) Region.known_holds h
  refine ⟨s, hs, ?_, fun hcalls => ?_⟩
  · have hown : (m.entered entries).Marks entry s → (m.entered entries).Marks entry s ∧ s.Within 0 entry.utf8ByteSize :=
      fun hmarks => ⟨hmarks, hmarks.within⟩
    rcases hplace with htoken | ⟨b, hb, rfl⟩
    · exact .inl (hown (.inl htoken))
    · rcases hb b .refl with hread | hstored
      · exact .inl (hown (.inr ⟨b, hread, rfl⟩))
      · obtain ⟨earlier, hfrom⟩ := Machine.readFrom_of_stores hm hstored
        exact .inr ⟨b, earlier, hstored, hfrom, rfl, hfrom.within⟩
  · obtain ⟨s', hs', hmarks⟩ := Session.marks_enter hcalls h
    obtain rfl : s' = s := Option.some.inj (hs'.symm.trans hs)
    exact ⟨hmarks, hmarks.within⟩

def Workspace.asking : Workspace := Workspace.define {} ⟨"F", [], [.print ⟨5, 13⟩ (.thing ⟨11, 13⟩ "x")]⟩

set_option maxRecDepth 4096 in
theorem Machine.entered_definition : Machine.entered {} ["TO F PRINT :x END"] = { workspace := .asking } := by
  have hread : Machine.readProgram {} "TO F PRINT :x END" =
      .ok [.define ⟨0, 17⟩ "F" [] [.print ⟨5, 13⟩ (.thing ⟨11, 13⟩ "x")]] := by cbv
  have hentered := Machine.entered_append {} [] "TO F PRINT :x END"
  rw [Machine.entered, Machine.entered, List.map_nil, Machine.after, Machine.after, List.foldl_nil,
    Session.enter_definition hread] at hentered
  exact hentered

set_option maxRecDepth 4096 in
/-- An entry that defines the procedure it calls, in a session with another definition. -/
theorem entry_faults_placed_in_session_own :
    (∀ b name, (Machine.entered {} ["TO F PRINT :x END"]).Reads "TO G PRINT :yes END G" b → b.callee? = some name →
      (Machine.entered {} ["TO F PRINT :x END"]).workspace.procedure? name = none) ∧
    ∃ f m' s, Session.enter "TO G PRINT :yes END G" (Machine.entered {} ["TO F PRINT :x END"]) = .error (.fault f) m' ∧
      f.span? = some s ∧ (Machine.entered {} ["TO F PRINT :x END"]).Marks "TO G PRINT :yes END G" s ∧
      s.Within 0 "TO G PRINT :yes END G".utf8ByteSize := by
  have hread : Machine.readProgram { workspace := .asking } "TO G PRINT :yes END G" =
      .ok [.define ⟨0, 19⟩ "G" [] [.print ⟨5, 15⟩ (.thing ⟨11, 15⟩ "yes")], .call ⟨20, 21⟩ "G" []] := by cbv
  have hcalls : ∀ b name, Machine.Reads { workspace := .asking } "TO G PRINT :yes END G" b → b.callee? = some name →
      ({ workspace := .asking } : Machine).workspace.procedure? name = none := by
    have hthing : ∀ c, (Node.expr (.thing ⟨11, 15⟩ "yes")).Contains c → ∀ name, c.callee? = some name → name = "G" :=
      Node.forall_contains (by simp [Node.callee?]) (by simp [Node.children])
    have hprint : ∀ c, (Node.stmt (.print ⟨5, 15⟩ (.thing ⟨11, 15⟩ "yes"))).Contains c →
        ∀ name, c.callee? = some name → name = "G" :=
      Node.forall_contains (by simp [Node.callee?]) (by simpa [Node.children] using hthing)
    have hdefine : ∀ c, (Node.stmt (.define ⟨0, 19⟩ "G" [] [.print ⟨5, 15⟩ (.thing ⟨11, 15⟩ "yes")])).Contains c →
        ∀ name, c.callee? = some name → name = "G" :=
      Node.forall_contains (by simp [Node.callee?]) (by simpa [Node.children] using hprint)
    have hcall : ∀ c, (Node.stmt (.call ⟨20, 21⟩ "G" [])).Contains c → ∀ name, c.callee? = some name → name = "G" :=
      Node.forall_contains (by simp [Node.callee?]) (by simp [Node.children])
    rintro b name ⟨p, hp, s, hs, hb⟩ hname
    rw [hread] at hp
    obtain rfl := Except.ok.inj hp
    have hg : name = "G" := by
      simp only [List.mem_cons, List.not_mem_nil, or_false] at hs
      rcases hs with rfl | rfl
      · exact hdefine b hb name hname
      · exact hcall b hb name hname
    rw [hg]
    cbv
  have hdefine : ∀ n, Eval.stmt (n + 3) (.define ⟨0, 19⟩ "G" [] [.print ⟨5, 15⟩ (.thing ⟨11, 15⟩ "yes")])
      { workspace := .asking } =
        .ok .normal { workspace := .define .asking ⟨"G", [], [.print ⟨5, 15⟩ (.thing ⟨11, 15⟩ "yes")]⟩ } := fun _ => rfl
  have hcall : ∀ n, Eval.stmt (n + 3) (.call ⟨20, 21⟩ "G" [])
      { workspace := .define .asking ⟨"G", [], [.print ⟨5, 15⟩ (.thing ⟨11, 15⟩ "yes")]⟩ } =
        .error (.fault ⟨.undefinedVariable "yes", some ⟨11, 15⟩⟩)
          { workspace := .define .asking ⟨"G", [], [.print ⟨5, 15⟩ (.thing ⟨11, 15⟩ "yes")]⟩ } := by
    intro n
    cbv
  have hfuel : Session.fuel = Session.fuel - 3 + 3 := by decide
  have henter := Session.enter_of_ok hread
  rw [hfuel] at henter
  simp only [Eval.program, Bind.bind, EStateM.bind, hdefine, hcall] at henter
  rw [← Machine.entered_definition] at hcalls henter
  obtain ⟨s, hs, -, hown⟩ := entry_faults_placed_in_session {} rfl _ _ _ _ henter
  exact ⟨hcalls, _, _, s, henter, hs, hown hcalls⟩

set_option maxRecDepth 4096 in
/-- A procedure of an earlier entry fails at a place that the entry which calls it does not have. -/
theorem stored_body_blamed_outside_entry :
    (∃ m', Session.enter "F" (Machine.entered {} ["TO F PRINT :x END"]) =
      .error (.fault ⟨.undefinedVariable "x", some ⟨11, 13⟩⟩) m') ∧
    "F".utf8ByteSize = 1 ∧ ¬ (Machine.entered {} ["TO F PRINT :x END"]).Marks "F" ⟨11, 13⟩ := by
  have hread : Machine.readProgram { workspace := .asking } "F" = .ok [.call ⟨0, 1⟩ "F" []] := by cbv
  have hcall : ∀ n, Eval.stmt (n + 3) (.call ⟨0, 1⟩ "F" []) { workspace := .asking } =
      .error (.fault ⟨.undefinedVariable "x", some ⟨11, 13⟩⟩) { workspace := .asking } := by
    intro n
    cbv
  have hfuel : Session.fuel = Session.fuel - 3 + 3 := by decide
  have henter := Session.enter_of_ok hread
  rw [hfuel] at henter
  simp only [Eval.program, Bind.bind, EStateM.bind, hcall] at henter
  rw [← Machine.entered_definition] at henter
  refine ⟨⟨_, henter⟩, by decide, fun hmarks => ?_⟩
  have hbelow : 13 ≤ "F".utf8ByteSize := hmarks.within.below
  exact absurd hbelow (by decide)

end Logo
