import Logo.Proofs.Follows
import Logo.Proofs.Lines

/-! What a session runs is what was typed. A line that is heard between entries may be blank or a directive; all other
lines are gathered, up to a line that quits, and the entries are these lines cut where nothing is left open. Where the
cuts fall depends on the lines alone, and not on what the entries do. -/
namespace Logo.Repl

structure Turn where
  session : Dialogue
  line : String

def Line.completed? : Line → Option String
  | .entry text => some text
  | _ => none

def Line.leaves? (pending : String) : Line → Option String
  | .blank => some pending
  | .directive d => if d = .quit then none else some pending
  | .more text => some text
  | .entry _ => some ""

/-- What a line does to the machine. An entry is run, and what it prints is told on its own. -/
def Line.machineAfter (m : Machine) : Line → Machine
  | .entry text => final (Session.enter text { m with printed := {} })
  | .directive .reset => m.reset
  | .directive .clear => { m with turtle := m.turtle.clear }
  | _ => m

/-- The machine that the run of an entry leaves, and what the session tells of the run. -/
inductive Told (page : Report → String) (text : String) :
    EStateM.Result Halt Machine (Option Value) → Machine × String → Prop where
  | done (v? : Option Value) (m : Machine) :
    Told page text (.ok v? m) (m, printedLines m.printed ++ printedLines ⟨v?.toList⟩)
  | failed (f : Fault) (m : Machine) :
    Told page text (.error (.fault f) m) (m, printedLines m.printed ++ page ⟨f, ⟨"<repl>", text⟩⟩ ++ "\n")
  | exhausted (m : Machine) : Told page text (.error .outOfFuel m) (m, printedLines m.printed)

namespace Turn
variable (t : Turn)

def kind : Line := classify t.session.pending t.line

def Aside : Prop :=
  t.session.pending = "" ∧ (Text.trim t.line = "" ∨ (Directive.ofText? (Text.trim t.line)).isSome)

instance : Decidable t.Aside := inferInstanceAs (Decidable (_ ∧ _))

def Quits : Prop := t.session.pending = "" ∧ Directive.ofText? (Text.trim t.line) = some .quit

end Turn

namespace Dialogue
variable (page : Report → String)

def turns (d : Dialogue) : List String → List Turn
  | [] => []
  | line :: rest => ⟨d, line⟩ :: (d.hear page line).elim [] fun next => next.1.turns rest

def entries (d : Dialogue) (input : List String) : List String :=
  (d.turns page input).filterMap fun t => t.kind.completed?

/-- The lines that were typed for the machine, without the blanks around them. -/
def typed (d : Dialogue) (input : List String) : List String :=
  ((d.turns page input).filter fun t => ¬ t.Aside).map fun t => Text.trim t.line

def remains (d : Dialogue) (input : List String) : String := (d.after page input).elim "" pending

end Dialogue

/-! ### One line -/

theorem gather_cases (pending text : String) :
    gather pending text = .more (pending ++ text ++ "\n") ∧ isIncomplete (pending ++ text ++ "\n") = true ∨
      gather pending text = .entry (pending ++ text ++ "\n") ∧ isIncomplete (pending ++ text ++ "\n") = false := by
  cases h : isIncomplete (pending ++ text ++ "\n") <;> simp [gather, h]

theorem classify_eq_blank_iff {pending line : String} :
    classify pending line = .blank ↔ pending = "" ∧ Text.trim line = "" := by
  have hgather : gather pending (Text.trim line) ≠ .blank := by
    rcases gather_cases pending (Text.trim line) with ⟨h, -⟩ | ⟨h, -⟩ <;> simp [h]
  by_cases hpending : pending = ""
  · subst hpending
    cases hdirective : Directive.ofText? (Text.trim line) <;> simp [classify, hdirective, hgather]
  · simp [classify, hpending, hgather]

theorem classify_eq_directive_iff {pending line : String} {directive : Directive} :
    classify pending line = .directive directive ↔
      pending = "" ∧ Directive.ofText? (Text.trim line) = some directive := by
  have hgather : gather pending (Text.trim line) ≠ .directive directive := by
    rcases gather_cases pending (Text.trim line) with ⟨h, -⟩ | ⟨h, -⟩ <;> simp [h]
  by_cases hpending : pending = ""
  · subst hpending
    by_cases htext : Text.trim line = ""
    · simp [classify, htext, Directive.ofText?]
    · cases hdirective : Directive.ofText? (Text.trim line) <;> simp [classify, htext, hdirective, hgather]
  · simp [classify, hpending, hgather]

theorem Turn.aside_iff {t : Turn} : t.Aside ↔ t.kind = .blank ∨ ∃ d, t.kind = .directive d := by
  simp only [kind, classify_eq_blank_iff, classify_eq_directive_iff, Aside, Option.isSome_iff_exists, and_or_left,
    exists_and_left]

theorem Turn.kind_of_not_aside {t : Turn} (h : ¬ t.Aside) :
    t.kind = gather t.session.pending (Text.trim t.line) := by
  rcases classify_cases t.session.pending t.line with ⟨-, hkind⟩ | hkind
  · exact absurd (aside_iff.mpr hkind) h
  · exact hkind

theorem submit_told (page : Report → String) (m : Machine) (text : String) :
    Told page text (Session.enter text { m with printed := {} }) (submit page m text) := by
  unfold submit
  split <;> simp only [*] <;> constructor

theorem Told.machine {page : Report → String} {text : String} {r : EStateM.Result Halt Machine (Option Value)}
    {told : Machine × String} (h : Told page text r told) : told.1 = final r := by
  cases h <;> rfl

namespace Dialogue
variable {page : Report → String}

theorem hear_pending (page : Report → String) (d : Dialogue) (line : String) :
    (d.hear page line).map (fun next => next.1.pending) = (classify d.pending line).leaves? d.pending := by
  unfold hear
  split <;> simp [Line.leaves?, *]

theorem hear_entry (page : Report → String) {d : Dialogue} {line text : String}
    (h : classify d.pending line = .entry text) :
    d.hear page line = some (⟨(submit page d.machine text).1, ""⟩, (submit page d.machine text).2) := by
  simp [hear, h]

/-- An aside completes no entry, and nothing is pending behind it either. -/
theorem hear_aside {d : Dialogue} {line : String} (h : Turn.Aside ⟨d, line⟩) :
    (classify d.pending line).completed? = none ∧ ∀ next, d.hear page line = some next → next.1.pending = "" := by
  have hkind : classify d.pending line = .blank ∨ ∃ directive, classify d.pending line = .directive directive :=
    Turn.aside_iff.mp h
  constructor
  · rcases hkind with hkind | ⟨directive, hkind⟩ <;> simp [hkind, Line.completed?]
  · intro next hline
    suffices hkept : next.1.pending = d.pending from hkept.trans h.1
    have hleaves := d.hear_pending page line
    rcases hkind with hkind | ⟨directive, hkind⟩
    · simpa [hline, hkind, Line.leaves?] using hleaves
    · by_cases hquit : directive = .quit
      · simp [hline, hkind, Line.leaves?, hquit] at hleaves
      · simpa [hline, hkind, Line.leaves?, hquit] using hleaves

theorem hear_more (page : Report → String) {d : Dialogue} {line text : String}
    (h : classify d.pending line = .more text) :
    d.hear page line = some (⟨d.machine, text⟩, "") := by
  simp [hear, h]

/-- Without an entry nothing is run: the machine stays as it is, forgets, or clears the drawing. -/
theorem hear_machine {d next : Dialogue} {line reply : String} (h : (classify d.pending line).completed? = none)
    (hline : d.hear page line = some (next, reply)) :
    next.machine ∈ [d.machine, d.machine.reset, { d.machine with turtle := d.machine.turtle.clear }] := by
  cases hkind : classify d.pending line with
  | entry text => simp [hkind, Line.completed?] at h
  | directive directive =>
    cases directive <;> simp only [hear, hkind, Option.some.injEq, Prod.mk.injEq, reduceCtorEq] at hline <;>
      simp [← hline.1]
  | _ =>
    simp only [hear, hkind, Option.some.injEq, Prod.mk.injEq] at hline
    simp [← hline.1]

theorem hear_eq_none_iff {d : Dialogue} {line : String} : d.hear page line = none ↔ Turn.Quits ⟨d, line⟩ := by
  rw [← Option.map_eq_none_iff (f := fun next => next.1.pending), hear_pending, Turn.Quits,
    ← classify_eq_directive_iff]
  cases classify d.pending line <;> simp [Line.leaves?]

theorem hear_machineAfter {d : Dialogue} {line : String} {next : Dialogue × String} (h : d.hear page line = some next) :
    next.1.machine = (classify d.pending line).machineAfter d.machine := by
  cases hkind : classify d.pending line with
  | entry text =>
    rw [hear_entry page hkind, Option.some.injEq] at h
    rw [← h]
    exact (submit_told page d.machine text).machine
  | directive directive =>
    cases directive <;> simp only [hear, hkind, Option.some.injEq, reduceCtorEq] at h <;>
      simp [← h, Line.machineAfter]
  | _ =>
    simp only [hear, hkind, Option.some.injEq] at h
    simp [← h, Line.machineAfter]

/-! ### All lines -/

/-- Where the session does not end, it hears the rest of the lines. -/
theorem turns_cons {d : Dialogue} {line : String} {next : Dialogue × String} (h : d.hear page line = some next)
    (rest : List String) : d.turns page (line :: rest) = ⟨d, line⟩ :: next.1.turns page rest := by
  simp [turns, h]

theorem after_cons (d : Dialogue) (line : String) (rest : List String) :
    d.after page (line :: rest) = (d.hear page line).bind fun next => next.1.after page rest := by
  simp [after, Option.bind_map]

theorem transcript_eq (page : Report → String) (d : Dialogue) (input : List String) :
    d.transcript page (input.map some) =
    ((d.turns page input).flatMap (fun t => t.session.prompt :: (t.session.hear page t.line).toList.map Prod.snd) ++
      (d.after page input).toList.map prompt, true) := by
  induction input generalizing d with
  | nil => simp [transcript, turns, after]
  | cons line rest ih =>
    cases h : d.hear page line with
    | none => simp [transcript, turns, after_cons, h]
    | some next => simp [transcript, turns_cons h, after_cons, h, ih]

/-- The lines are heard one after the other, and all of them unless one quits. -/
theorem turns_lines (page : Report → String) (d : Dialogue) (input : List String) :
    ∃ rest, input = (d.turns page input).map Turn.line ++ rest ∧ (rest = [] ∨ ∃ t ∈ d.turns page input, t.Quits) := by
  induction input generalizing d with
  | nil => exact ⟨[], by simp [turns]⟩
  | cons line rest ih =>
    cases h : d.hear page line with
    | none =>
      have hquits := hear_eq_none_iff.mp h
      exact ⟨rest, by simp [turns, h, hquits]⟩
    | some next =>
      obtain ⟨unheard, hlines, hend⟩ := ih next.1
      rw [turns_cons h]
      refine ⟨unheard, ?_, hend.imp_right ?_⟩
      · rw [List.map_cons, List.cons_append, ← hlines]
      · rintro ⟨t, ht, hquits⟩
        exact ⟨t, .tail _ ht, hquits⟩

/-- A line is heard by the machine that the lines before it leave, and what is heard behind it by the session that the
line leaves. -/
theorem turns_split {d : Dialogue} {input : List String} {earlier : List Turn} {t : Turn} {later : List Turn}
    (h : d.turns page input = earlier ++ t :: later) :
    t.session.machine = (earlier.map Turn.kind).foldl Line.machineAfter d.machine ∧
    later = (t.session.hear page t.line).elim [] fun next => next.1.turns page (input.drop (earlier.length + 1)) := by
  induction earlier generalizing d input with
  | nil =>
    cases input with
    | nil => simp [turns] at h
    | cons line rest =>
      simp only [turns, List.nil_append, List.cons.injEq] at h
      obtain ⟨rfl, rfl⟩ := h
      exact ⟨rfl, rfl⟩
  | cons t' earlier ih =>
    cases input with
    | nil => simp [turns] at h
    | cons line rest =>
      cases hline : d.hear page line with
      | none => simp [turns, hline] at h
      | some next =>
        rw [turns_cons hline, List.cons_append, List.cons.injEq] at h
        obtain ⟨hmachine, hlater⟩ := ih h.2
        refine ⟨?_, hlater⟩
        rw [hmachine, hear_machineAfter hline, ← h.1]
        rfl

theorem machine_of_after {d d' : Dialogue} {input : List String} (h : d.after page input = some d') :
    d'.machine = ((d.turns page input).map Turn.kind).foldl Line.machineAfter d.machine := by
  induction input generalizing d with
  | nil =>
    obtain rfl : d = d' := by simpa [after] using h
    rfl
  | cons line rest ih =>
    rw [after_cons, Option.bind_eq_some_iff] at h
    obtain ⟨next, hline, hrest⟩ := h
    rw [ih hrest, hear_machineAfter hline, turns_cons hline]
    rfl

/-- What a line is taken for depends on what is pending, and not on the machine. -/
theorem kinds_eq_of_pending {d e : Dialogue} (h : d.pending = e.pending) (input : List String) :
    (d.turns page input).map Turn.kind = (e.turns page input).map Turn.kind := by
  induction input generalizing d e with
  | nil => rfl
  | cons line rest ih =>
    have hkind : Turn.kind ⟨d, line⟩ = Turn.kind ⟨e, line⟩ := by simp only [Turn.kind, h]
    have hpending : (d.hear page line).map (fun next => next.1.pending) =
        (e.hear page line).map fun next => next.1.pending := by
      rw [hear_pending, hear_pending, h]
    cases hd : d.hear page line with
    | none =>
      rw [hd, Option.map_none, eq_comm, Option.map_eq_none_iff] at hpending
      simp [turns, hd, hpending, hkind]
    | some next =>
      rw [hd, Option.map_some, eq_comm, Option.map_eq_some_iff] at hpending
      obtain ⟨next', he, hnext⟩ := hpending
      rw [turns_cons hd, turns_cons he, List.map_cons, List.map_cons, hkind, ih hnext.symm]

end Dialogue

/-! ### Entries -/

theorem entryOf_flatten (groups : List (List String)) (tail : List String) :
    entryOf (groups.flatten ++ tail) = String.join (groups.map entryOf) ++ entryOf tail := by
  have happend : ∀ lines lines', entryOf (lines ++ lines') = entryOf lines ++ entryOf lines' := by
    intro lines lines'
    induction lines with
    | nil => simp [entryOf]
    | cons line lines ih => simp [entryOf, ih, String.append_assoc]
  have hjoin : ∀ text texts, String.join (text :: texts) = text ++ String.join texts := by
    intro text texts
    simp [String.join_eq]
  induction groups with
  | nil => simp [String.join_eq]
  | cons group groups ih =>
    simp only [List.flatten_cons, List.append_assoc, happend group, ih, List.map_cons, hjoin, String.append_assoc]

theorem entryOf_eq_empty {lines : List String} (h : entryOf lines = "") : lines = [] := by
  cases lines with
  | nil => rfl
  | cons line lines => simp [entryOf] at h

def StaysOpen (lines : List String) : Prop := ∀ p, p <+: lines → p ≠ [] → isIncomplete (entryOf p) = true

theorem staysOpen_nil : StaysOpen [] := by simp [StaysOpen]

theorem StaysOpen.concat {lines : List String} {text : String} (h : StaysOpen lines)
    (hopen : isIncomplete (entryOf (lines ++ [text])) = true) : StaysOpen (lines ++ [text]) := by
  intro p hp hne
  rcases List.prefix_concat_iff.mp hp with rfl | hp
  · exact hopen
  · exact h p hp hne

/-- Lines cut into groups, with a tail that waits for more. A group is as short as it can be: it leaves nothing open,
but whatever it begins with does. -/
structure Cut (lines : List String) (groups : List (List String)) (tail : List String) : Prop where
  flatten : groups.flatten ++ tail = lines
  whole : ∀ g ∈ groups, g ≠ [] ∧ isIncomplete (entryOf g) = false
  parts : ∀ g ∈ groups, ∀ p, p <+: g → p ≠ [] → p ≠ g → isIncomplete (entryOf p) = true
  rest : StaysOpen tail

theorem Cut.cons {lines group tail : List String} {groups : List (List String)} {text : String}
    (h : Cut lines groups tail) (hopen : StaysOpen group) (hclosed : isIncomplete (entryOf (group ++ [text])) = false) :
    Cut (group ++ text :: lines) ((group ++ [text]) :: groups) tail where
  flatten := by simp [← h.flatten]
  whole := by simpa [hclosed] using h.whole
  parts := by
    intro g hg p hp hne hproper
    rcases List.mem_cons.mp hg with rfl | hg
    · rcases List.prefix_concat_iff.mp hp with heq | hp
      · exact absurd heq hproper
      · exact hopen p hp hne
    · exact h.parts g hg p hp hne hproper
  rest := h.rest

namespace Dialogue

theorem remains_of_hear {d : Dialogue} {line : String} {next : Dialogue × String} (h : d.hear page line = some next)
    (rest : List String) : d.remains page (line :: rest) = next.1.remains page rest := by
  simp [remains, after_cons, h]

theorem entries_of_hear {d : Dialogue} {line : String} {next : Dialogue × String} (h : d.hear page line = some next)
    (rest : List String) :
    d.entries page (line :: rest) = (classify d.pending line).completed?.toList ++ next.1.entries page rest := by
  cases hentry : (classify d.pending line).completed? <;> simp [entries, turns_cons h, Turn.kind, hentry]

theorem typed_of_hear {d : Dialogue} {line : String} {next : Dialogue × String} (h : d.hear page line = some next)
    (rest : List String) : d.typed page (line :: rest) =
      if Turn.Aside ⟨d, line⟩ then next.1.typed page rest else Text.trim line :: next.1.typed page rest := by
  by_cases haside : Turn.Aside ⟨d, line⟩ <;> simp [typed, turns_cons h, haside]

/-- By induction on the input. The lines that are pending are carried along: each of their beginnings leaves something
open, as they were gathered line by line. -/
theorem exists_cut {d : Dialogue} {lines : List String} (hpending : d.pending = entryOf lines)
    (hopen : StaysOpen lines) (input : List String) : ∃ groups tail, Cut (lines ++ d.typed page input) groups tail ∧
      d.entries page input = groups.map entryOf ∧ d.remains page input = entryOf tail := by
  induction input generalizing d lines with
  | nil => exact ⟨[], lines, ⟨by simp [typed, turns], by simp, by simp, hopen⟩, rfl, by simpa [remains, after]⟩
  | cons line rest ih =>
    by_cases haside : Turn.Aside ⟨d, line⟩
    -- Between entries no lines are pending, and an aside leaves it so.
    · obtain ⟨hentry, hkept⟩ := hear_aside haside
      obtain rfl : lines = [] := entryOf_eq_empty (hpending.symm.trans haside.1)
      cases hline : d.hear page line with
      | none =>
        refine ⟨[], [], ⟨?_, by simp, by simp, hopen⟩, ?_, ?_⟩
        · simp [typed, turns, hline, haside]
        · simp [entries, turns, hline, Turn.kind, hentry]
        · simp [remains, after_cons, hline, entryOf]
      | some next =>
        simp only [typed_of_hear hline, if_pos haside, entries_of_hear hline, hentry, remains_of_hear hline]
        exact ih (hkept next hline) hopen
    · have hkind : classify d.pending line = gather (entryOf lines) (Text.trim line) :=
        hpending ▸ Turn.kind_of_not_aside haside
      rcases gather_cases (entryOf lines) (Text.trim line) with ⟨hmore, hincomplete⟩ | ⟨hentry, hcomplete⟩
      · rw [← entryOf_append] at hmore hincomplete
        have hline := hear_more page (hkind.trans hmore)
        obtain ⟨groups, tail, hcut, hentries, hremains⟩ :=
          ih (d := ⟨d.machine, entryOf (lines ++ [Text.trim line])⟩) rfl (hopen.concat hincomplete)
        refine ⟨groups, tail, ?_, ?_, ?_⟩
        · simpa [typed_of_hear hline, haside] using hcut
        · simpa [entries_of_hear hline, hkind, hmore, Line.completed?] using hentries
        · simpa [remains_of_hear hline] using hremains
      -- A group is complete, and the session starts over with whatever machine the entry leaves.
      · rw [← entryOf_append] at hentry hcomplete
        have hline := hear_entry page (hkind.trans hentry)
        have hfresh : Dialogue.pending ⟨(submit page d.machine (entryOf (lines ++ [Text.trim line]))).1, ""⟩ =
            entryOf [] := rfl
        obtain ⟨groups, tail, hcut, hentries, hremains⟩ := ih hfresh staysOpen_nil
        refine ⟨(lines ++ [Text.trim line]) :: groups, tail, ?_, ?_, ?_⟩
        · simpa [typed_of_hear hline, haside] using hcut.cons hopen hcomplete
        · simpa [entries_of_hear hline, hkind, hentry, Line.completed?] using hentries
        · simpa [remains_of_hear hline] using hremains

end Dialogue

/-- What is run is what was typed. The session writes a prompt for each line that it hears and, unless the line quits, a
reply; all lines are heard up to one that quits. A line that completes an entry has just this entry run, and tells what
it printed and its value or its fault; no other line has anything run. A line is taken for blank or for a directive
exactly if nothing is pending and it is blank or spells the directive. The other lines, trimmed and each with its
newline, are the entries and what waits in the end: a group of them is run as soon as it leaves nothing open. At every
line the machine is the one that the entries before it leave, run in order, with what directives forget or clear between
them. How the lines behind an entry are taken does not depend on what the entry did, be it done or failed. -/
theorem entries_are_what_was_typed (page : Report → String) (d : Dialogue) (hd : d.pending = "")
    (input : List String) :
    d.transcript page (input.map some) =
      ((d.turns page input).flatMap (fun t => t.session.prompt :: (t.session.hear page t.line).toList.map Prod.snd) ++
        (d.after page input).toList.map Dialogue.prompt, true) ∧
    (∃ rest, input = (d.turns page input).map Turn.line ++ rest ∧ (rest = [] ∨ ∃ t ∈ d.turns page input, t.Quits)) ∧
    (∀ t ∈ d.turns page input,
      (∀ text, t.kind = .entry text →
        ∃ told, Told page text (Session.enter text { t.session.machine with printed := {} }) told ∧
          t.session.hear page t.line = some (⟨told.1, ""⟩, told.2)) ∧
      (t.kind.completed? = none → ∀ next reply, t.session.hear page t.line = some (next, reply) → next.machine ∈
        [t.session.machine, t.session.machine.reset,
          { t.session.machine with turtle := t.session.machine.turtle.clear }]) ∧
      (t.kind = .blank ↔ t.session.pending = "" ∧ Text.trim t.line = "") ∧
      ∀ directive, t.kind = .directive directive ↔
        t.session.pending = "" ∧ Directive.ofText? (Text.trim t.line) = some directive) ∧
    String.join (d.entries page input) ++ d.remains page input = entryOf (d.typed page input) ∧
    (∃ groups tail, Cut (d.typed page input) groups tail ∧ d.entries page input = groups.map entryOf ∧
      d.remains page input = entryOf tail) ∧
    (∀ d', d.after page input = some d' →
      d'.machine = ((d.turns page input).map Turn.kind).foldl Line.machineAfter d.machine) ∧
    ∀ earlier t later, d.turns page input = earlier ++ t :: later →
      t.session.machine = (earlier.map Turn.kind).foldl Line.machineAfter d.machine ∧ (t.Quits → later = []) ∧
      ∀ text, t.kind = .entry text → ∀ machine, later.map Turn.kind =
        (Dialogue.turns page ⟨machine, ""⟩ (input.drop (earlier.length + 1))).map Turn.kind := by
  have hnil : d.pending = entryOf [] := hd
  obtain ⟨groups, tail, hcut, hentries, hremains⟩ := Dialogue.exists_cut hnil staysOpen_nil input
  refine ⟨d.transcript_eq page input, d.turns_lines page input, ?_, ?_, ⟨groups, tail, hcut, hentries, hremains⟩,
    fun d' => Dialogue.machine_of_after, ?_⟩
  · intro t _
    refine ⟨fun text hkind => ?_, fun h next reply => Dialogue.hear_machine h, classify_eq_blank_iff,
      fun directive => classify_eq_directive_iff⟩
    exact ⟨_, submit_told page t.session.machine text, Dialogue.hear_entry page hkind⟩
  · rw [hentries, hremains, ← entryOf_flatten, hcut.flatten, List.nil_append]
  · intro earlier t later hturns
    obtain ⟨hmachine, hlater⟩ := Dialogue.turns_split hturns
    refine ⟨hmachine, ?_, ?_⟩
    · intro hquits
      rw [hlater, Dialogue.hear_eq_none_iff.mpr hquits, Option.elim_none]
    · intro text hkind machine
      have hfresh : Dialogue.pending ⟨(submit page t.session.machine text).1, ""⟩ =
          Dialogue.pending ⟨machine, ""⟩ := rfl
      rw [hlater, Dialogue.hear_entry page hkind, Option.elim_some, Dialogue.kinds_eq_of_pending hfresh]

set_option maxRecDepth 4096 in
/-- A directive is text within a definition, and ends the session between entries. -/
theorem entries_are_what_was_typed_quit :
    Dialogue.entries Report.page ⟨{}, ""⟩ [" TO F ; ]", ":q", "END", "PRINT :y", ":q", "F"] =
      ["TO F ; ]\n:q\nEND\n", "PRINT :y\n"] ∧
    Dialogue.typed Report.page ⟨{}, ""⟩ [" TO F ; ]", ":q", "END", "PRINT :y", ":q", "F"] =
      ["TO F ; ]", ":q", "END", "PRINT :y"] ∧
    Dialogue.remains Report.page ⟨{}, ""⟩ [" TO F ; ]", ":q", "END", "PRINT :y", ":q", "F"] = "" ∧
    ∃ groups tail, Cut ["TO F ; ]", ":q", "END", "PRINT :y"] groups tail ∧
      ["TO F ; ]\n:q\nEND\n", "PRINT :y\n"] = groups.map entryOf ∧ "" = entryOf tail := by
  have hfirst : tokenize "TO F ; ]" = [⟨.word, "TO", ⟨0, 2⟩⟩, ⟨.word, "F", ⟨3, 4⟩⟩, .finishAt 8] := by cbv
  have hquit : tokenize ":q" = [⟨.mark .colon, ":", ⟨0, 1⟩⟩, ⟨.word, "q", ⟨1, 2⟩⟩, .finishAt 2] := by cbv
  have hend : tokenize "END" = [⟨.word, "END", ⟨0, 3⟩⟩, .finishAt 3] := by cbv
  have hprint : tokenize "PRINT :y" =
      [⟨.word, "PRINT", ⟨0, 5⟩⟩, ⟨.mark .colon, ":", ⟨6, 7⟩⟩, ⟨.word, "y", ⟨7, 8⟩⟩, .finishAt 8] := by cbv
  have hfold : fold "TO" = "TO" ∧ fold "F" = "F" ∧ fold "q" = "Q" ∧ fold "END" = "END" ∧ fold "PRINT" = "PRINT" ∧
      fold "y" = "Y" := by
    decide +kernel
  have hdefinitions : openDefinitions (tokenize "TO F ; ]") = 1 ∧ openDefinitions (tokenize ":q") = 0 ∧
      openDefinitions (tokenize "END") = -1 ∧ openDefinitions (tokenize "PRINT :y") = 0 := by
    simp [openDefinitions, definitionWeight, hfirst, hquit, hend, hprint, Token.isNamed, Token.isWord, hfold,
      Token.finishAt]
  have hbrackets : openBrackets (tokenize "TO F ; ]") = 0 ∧ openBrackets (tokenize ":q") = 0 ∧
      openBrackets (tokenize "END") = 0 ∧ openBrackets (tokenize "PRINT :y") = 0 := by
    simp [openBrackets, bracketWeight, hfirst, hquit, hend, hprint, Token.isMark, Token.finishAt]
  have hopen : isIncomplete "TO F ; ]\n" = true ∧ isIncomplete "TO F ; ]\n:q\n" = true ∧
      isIncomplete "TO F ; ]\n:q\nEND\n" = false ∧ isIncomplete "PRINT :y\n" = false := by
    have hlines : LeftOpen ["TO F ; ]"] ∧ LeftOpen ["TO F ; ]", ":q"] ∧ ¬ LeftOpen ["TO F ; ]", ":q", "END"] ∧
        ¬ LeftOpen ["PRINT :y"] := by
      simp [LeftOpen, hdefinitions, hbrackets]
    simpa [← isIncomplete_entryOf, entryOf] using hlines
  have htrim : Text.trim " TO F ; ]" = "TO F ; ]" ∧ Text.trim ":q" = ":q" ∧ Text.trim "END" = "END" ∧
      Text.trim "PRINT :y" = "PRINT :y" := by
    refine ⟨?_, ?_, ?_, ?_⟩ <;> cbv
  have hkinds : classify "" " TO F ; ]" = .more "TO F ; ]\n" ∧
      classify "TO F ; ]\n" ":q" = .more "TO F ; ]\n:q\n" ∧
      classify "TO F ; ]\n:q\n" "END" = .entry "TO F ; ]\n:q\nEND\n" ∧
      classify "" "PRINT :y" = .entry "PRINT :y\n" ∧ classify "" ":q" = .directive .quit := by
    simp [classify, gather, htrim, hopen, Directive.ofText?]
  have hentries : Dialogue.entries Report.page ⟨{}, ""⟩ [" TO F ; ]", ":q", "END", "PRINT :y", ":q", "F"] =
      ["TO F ; ]\n:q\nEND\n", "PRINT :y\n"] := by
    simp [Dialogue.entries, Dialogue.turns, Dialogue.hear, Turn.kind, hkinds, Line.completed?]
  have htyped : Dialogue.typed Report.page ⟨{}, ""⟩ [" TO F ; ]", ":q", "END", "PRINT :y", ":q", "F"] =
      ["TO F ; ]", ":q", "END", "PRINT :y"] := by
    simp [Dialogue.typed, Dialogue.turns, Dialogue.hear, Turn.Aside, hkinds, htrim, Directive.ofText?]
  have hremains : Dialogue.remains Report.page ⟨{}, ""⟩ [" TO F ; ]", ":q", "END", "PRINT :y", ":q", "F"] = "" := by
    simp [Dialogue.remains, Dialogue.after, Dialogue.hear, hkinds]
  have hcut := (entries_are_what_was_typed Report.page ⟨{}, ""⟩ rfl
    [" TO F ; ]", ":q", "END", "PRINT :y", ":q", "F"]).2.2.2.2.1
  rw [hentries, htyped, hremains] at hcut
  exact ⟨hentries, htyped, hremains, hcut⟩

end Logo.Repl
