import Logo.Proofs.Pieces
import Logo.Repl

/-! A text is scanned line by line. Nothing is cut across a newline, and behind one the scanner starts afresh, so the
tokens of two texts with a newline between them are the tokens of the one and, further on, the tokens of the other. The
counts that decide whether an entry is complete are then sums over its lines. -/
namespace Logo

def Token.shift (bytes : Nat) (t : Token) : Token :=
  { t with span := ⟨t.span.start + bytes, t.span.stop + bytes⟩ }

namespace Scan

theorem tokensFrom_shift (bytes offset : Nat) (cs : List Char) :
    tokensFrom (offset + bytes) cs = (tokensFrom offset cs).map (Token.shift bytes) := by
  induction offset, cs using piece_induction with
  | nil offset => simp [tokensFrom, Token.finishAt, Token.shift]
  | blank offset c cs hc ih =>
    rw [tokensFrom_blank hc, tokensFrom_blank hc, ← ih, Nat.add_right_comm]
  | token offset c cs kind text rest hpiece hsplit ih =>
    rw [tokensFrom_token hpiece hsplit, tokensFrom_token hpiece hsplit, List.map_cons, ← ih, Nat.add_right_comm]
    rfl
  | passed offset c cs text rest _ hpiece hsplit ih =>
    rw [tokensFrom_passed hpiece hsplit, tokensFrom_passed hpiece hsplit, ← ih, Nat.add_right_comm]

theorem tokensFrom_ne_nil (offset : Nat) (cs : List Char) : tokensFrom offset cs ≠ [] := by
  obtain ⟨inner, htokens, -⟩ := tokensFrom_eq offset cs
  simp [htokens]

/-- The newline ends every piece in front of it, comments too. -/
theorem tokensFrom_newline (ds : List Char) (offset : Nat) (cs : List Char) :
    tokensFrom offset (cs ++ '\n' :: ds) =
      (tokensFrom offset cs).dropLast ++ tokensFrom (offset + Text.byteLength cs + 1) ds := by
  have hnewline : ∀ c, isBlank c = false → ∀ cs, piece c (cs ++ '\n' :: ds) = piece c cs :=
    fun c hc => piece_append hc (ends_cons rfl ds) fun _ => rfl
  induction offset, cs using piece_induction with
  | nil offset =>
    rw [List.nil_append, tokensFrom_blank (c := '\n') rfl]
    simp only [tokensFrom]
    rfl
  | blank offset c cs hc ih =>
    rw [List.cons_append, tokensFrom_blank hc, tokensFrom_blank hc, ih, Text.byteLength_cons, Nat.add_assoc offset]
  | token offset c cs kind text rest hpiece hsplit ih =>
    have hpiece' := (hnewline c (classes_of_token hpiece).1 cs).trans hpiece
    have hsplit' := split_append hsplit ('\n' :: ds)
    rw [List.cons_append, tokensFrom_token hpiece' hsplit', tokensFrom_token hpiece hsplit, ih,
      List.dropLast_cons_of_ne_nil (tokensFrom_ne_nil _ _), List.cons_append, hsplit, Text.byteLength_append,
      Nat.add_assoc offset]
  | passed offset c cs text rest hc hpiece hsplit ih =>
    have hpiece' := (hnewline c hc cs).trans hpiece
    have hsplit' := split_append hsplit ('\n' :: ds)
    rw [List.cons_append, tokensFrom_passed hpiece' hsplit', tokensFrom_passed hpiece hsplit, ih, hsplit,
      Text.byteLength_append, Nat.add_assoc offset]

end Scan

theorem tokenize_newline (a b : String) : tokenize (a ++ "\n" ++ b) =
    (tokenize a).dropLast ++ (tokenize b).map (Token.shift (a.utf8ByteSize + 1)) := by
  have htext : (a ++ "\n" ++ b).toList = a.toList ++ '\n' :: b.toList := by simp [String.toList_append]
  simp only [tokenize, htext, Scan.tokensFrom_newline, ← Scan.tokensFrom_shift, Text.byteLength_toList, Nat.zero_add]

namespace Repl

def entryOf : List String → String
  | [] => ""
  | line :: lines => line ++ "\n" ++ entryOf lines

theorem entryOf_append (lines : List String) (text : String) :
    entryOf (lines ++ [text]) = entryOf lines ++ text ++ "\n" := by
  induction lines with
  | nil => simp [entryOf]
  | cons line lines ih => simp [entryOf, ih, String.append_assoc]

/-- A weight that neither places nor the end matter to is added up line by line. -/
theorem weight_entryOf {weight : Token → Int} (hshift : ∀ bytes t, weight (t.shift bytes) = weight t)
    (hfinish : ∀ n, weight (.finishAt n) = 0) (lines : List String) :
    ((tokenize (entryOf lines)).map weight).sum = (lines.map fun line => ((tokenize line).map weight).sum).sum := by
  have hinner : ∀ source, ((tokenize source).dropLast.map weight).sum = ((tokenize source).map weight).sum := by
    intro source
    simp [(tokenize_eq source).1, hfinish]
  induction lines with
  | nil => simp [entryOf, tokenize, Scan.tokensFrom, hfinish]
  | cons line lines ih =>
    have hmoved : weight ∘ Token.shift (line.utf8ByteSize + 1) = weight := funext (hshift _)
    simp only [entryOf, tokenize_newline, List.map_append, List.sum_append, List.map_map, hmoved, hinner, ih,
      List.map_cons, List.sum_cons]

theorem openBrackets_entryOf (lines : List String) :
    openBrackets (tokenize (entryOf lines)) = (lines.map fun line => openBrackets (tokenize line)).sum :=
  weight_entryOf (fun _ _ => rfl) (fun _ => rfl) lines

theorem openDefinitions_entryOf (lines : List String) :
    openDefinitions (tokenize (entryOf lines)) = (lines.map fun line => openDefinitions (tokenize line)).sum :=
  weight_entryOf (fun _ _ => rfl) (fun _ => rfl) lines

def LeftOpen (lines : List String) : Prop :=
  0 < (lines.map fun line => openDefinitions (tokenize line)).sum ∨
    0 < (lines.map fun line => openBrackets (tokenize line)).sum

instance (lines : List String) : Decidable (LeftOpen lines) := inferInstanceAs (Decidable (_ ∨ _))

theorem isIncomplete_entryOf (lines : List String) : isIncomplete (entryOf lines) = true ↔ LeftOpen lines := by
  simp [isIncomplete, LeftOpen, openDefinitions_entryOf, openBrackets_entryOf]

theorem gather_entryOf (lines : List String) (text : String) : gather (entryOf lines) text =
    if LeftOpen (lines ++ [text]) then .more (entryOf (lines ++ [text])) else .entry (entryOf (lines ++ [text])) := by
  simp only [gather, ← entryOf_append, isIncomplete_entryOf]

/-- Only between entries is a line anything but a part of one. -/
theorem classify_cases (pending line : String) :
    (pending = "" ∧ (classify pending line = .blank ∨ ∃ d, classify pending line = .directive d)) ∨
      classify pending line = gather pending (Text.trim line) := by
  unfold classify
  by_cases hpending : pending.isEmpty = true
  · simp only [if_pos hpending]
    by_cases htext : (Text.trim line).isEmpty = true
    · exact .inl ⟨by simpa using hpending, .inl (if_pos htext)⟩
    · simp only [if_neg htext]
      cases Directive.ofText? (Text.trim line) with
      | some d => exact .inl ⟨by simpa using hpending, .inr ⟨d, rfl⟩⟩
      | none => exact .inr rfl
  · exact .inr (if_neg hpending)

namespace Dialogue
variable {page : Report → String}

def after (page : Report → String) (d : Dialogue) (input : List String) : Option Dialogue :=
  input.foldlM (fun d line => (d.hear page line).map Prod.fst) d

/-- The pending text is made up of the last lines that were heard. -/
structure Gathers (heard lines : List String) (d : Dialogue) : Prop where
  last : lines <:+ heard
  pending : d.pending = entryOf lines

theorem gathers_nil {heard : List String} {d : Dialogue} (h : d.pending = "") : d.Gathers heard [] :=
  ⟨List.nil_suffix, h⟩

theorem Gathers.hear {heard lines : List String} {d d' : Dialogue} {line reply : String} (h : d.Gathers heard lines)
    (hline : d.hear page line = some (d', reply)) : ∃ lines', d'.Gathers (heard ++ [Text.trim line]) lines' := by
  rcases classify_cases d.pending line with ⟨hpending, hblank | ⟨directive, hdirective⟩⟩ | hgather
  · simp only [Dialogue.hear, hblank, Option.some.injEq, Prod.mk.injEq] at hline
    exact ⟨[], gathers_nil (hline.1 ▸ hpending)⟩
  · have hkept : d'.pending = d.pending := by
      cases directive <;> simp only [Dialogue.hear, hdirective, Option.some.injEq, Prod.mk.injEq, reduceCtorEq] at hline
      all_goals rw [← hline.1]
    exact ⟨[], gathers_nil (hkept.trans hpending)⟩
  · by_cases hopen : isIncomplete (d.pending ++ Text.trim line ++ "\n") = true
    · have hmore := hgather.trans (if_pos hopen)
      simp only [Dialogue.hear, hmore, Option.some.injEq, Prod.mk.injEq] at hline
      obtain ⟨last, hlast⟩ := h.last
      refine ⟨lines ++ [Text.trim line], ⟨last, by rw [← hlast, List.append_assoc]⟩, ?_⟩
      rw [← hline.1, entryOf_append, ← h.pending]
    · have hentry := hgather.trans (if_neg hopen)
      simp only [Dialogue.hear, hentry, Option.some.injEq, Prod.mk.injEq] at hline
      exact ⟨[], gathers_nil (hline.1 ▸ rfl)⟩

theorem Gathers.after {heard lines input : List String} {d d' : Dialogue} (h : d.Gathers heard lines)
    (hinput : d.after page input = some d') : ∃ lines', d'.Gathers (heard ++ input.map Text.trim) lines' := by
  induction input generalizing heard lines d with
  | nil =>
    obtain rfl : d = d' := by simpa [Dialogue.after] using hinput
    exact ⟨lines, by simpa using h⟩
  | cons line input ih =>
    simp only [Dialogue.after, List.foldlM_cons, Option.bind_eq_bind, Option.bind_eq_some_iff,
      Option.map_eq_some_iff] at hinput
    obtain ⟨e, ⟨⟨_, reply⟩, hline, rfl⟩, hrest⟩ := hinput
    obtain ⟨more, hmore⟩ := h.hear hline
    obtain ⟨lines', hlines⟩ := ih hmore hrest
    exact ⟨lines', by simpa using hlines⟩

end Dialogue

/-- Tokens are found line by line, and an entry goes on exactly as long as the lines of it that were heard last leave
something open. -/
theorem tokenize_by_lines :
    (∀ a b : String, tokenize (a ++ "\n" ++ b) =
      (tokenize a).dropLast ++ (tokenize b).map (Token.shift (a.utf8ByteSize + 1))) ∧
    (∀ lines : List String,
      openBrackets (tokenize (entryOf lines)) = (lines.map fun line => openBrackets (tokenize line)).sum ∧
      openDefinitions (tokenize (entryOf lines)) = (lines.map fun line => openDefinitions (tokenize line)).sum ∧
      (isIncomplete (entryOf lines) = true ↔ LeftOpen lines)) ∧
    ∀ (page : Report → String) (machine : Machine) (input : List String) (d : Dialogue),
      Dialogue.after page ⟨machine, ""⟩ input = some d →
      ∃ lines, lines <:+ input.map Text.trim ∧ d.pending = entryOf lines ∧ ∀ text, gather d.pending text =
        if LeftOpen (lines ++ [text]) then .more (entryOf (lines ++ [text]))
        else .entry (entryOf (lines ++ [text])) := by
  refine ⟨tokenize_newline, fun lines => ⟨openBrackets_entryOf lines, openDefinitions_entryOf lines,
    isIncomplete_entryOf lines⟩, ?_⟩
  intro page machine input d hinput
  have hstart : Dialogue.Gathers [] [] ⟨machine, ""⟩ := Dialogue.gathers_nil rfl
  obtain ⟨lines, hlast, hpending⟩ := hstart.after hinput
  refine ⟨lines, hlast, hpending, fun text => ?_⟩
  rw [hpending, gather_entryOf]

set_option maxRecDepth 4096 in
/-- A comment hides a bracket, but not behind the end of its line. -/
theorem tokenize_by_lines_comment : LeftOpen ["PRINT [ ; ]"] ∧ ¬ LeftOpen ["PRINT [ ; ]", "]"] ∧
    ∀ (page : Report → String) (machine : Machine),
    Dialogue.after page ⟨machine, ""⟩ [" PRINT [ ; ]"] = some ⟨machine, "PRINT [ ; ]\n"⟩ ∧
    ∃ lines, lines <:+ [" PRINT [ ; ]"].map Text.trim ∧ "PRINT [ ; ]\n" = entryOf lines ∧
      ∀ text, gather "PRINT [ ; ]\n" text = if LeftOpen (lines ++ [text]) then
        .more (entryOf (lines ++ [text])) else .entry (entryOf (lines ++ [text])) := by
  have hfold : fold "PRINT" = "PRINT" := by decide +kernel
  have hfirst : tokenize "PRINT [ ; ]" =
      [⟨.word, "PRINT", ⟨0, 5⟩⟩, ⟨.mark .leftBracket, "[", ⟨6, 7⟩⟩, .finishAt 11] := by cbv
  have hsecond : tokenize "]" = [⟨.mark .rightBracket, "]", ⟨0, 1⟩⟩, .finishAt 1] := by cbv
  have hopen : LeftOpen ["PRINT [ ; ]"] := by
    simp [LeftOpen, hfirst, openBrackets, bracketWeight, Token.isMark, Token.finishAt]
  have hclosed : ¬ LeftOpen ["PRINT [ ; ]", "]"] := by
    simp [LeftOpen, hfirst, hsecond, openBrackets, bracketWeight, Token.isMark, openDefinitions, definitionWeight,
      Token.isNamed, Token.isWord, hfold, Token.finishAt]
  refine ⟨hopen, hclosed, fun page machine => ?_⟩
  have htrim : Text.trim " PRINT [ ; ]" = "PRINT [ ; ]" := by cbv
  have hclassify : classify "" " PRINT [ ; ]" = gather (entryOf []) "PRINT [ ; ]" := by
    rw [classify, htrim]
    rfl
  have hmore : gather (entryOf []) "PRINT [ ; ]" = .more "PRINT [ ; ]\n" := by
    rw [gather_entryOf, List.nil_append, if_pos hopen]
    rfl
  have hinput : Dialogue.after page ⟨machine, ""⟩ [" PRINT [ ; ]"] = some ⟨machine, "PRINT [ ; ]\n"⟩ := by
    simp [Dialogue.after, Dialogue.hear, hclassify, hmore]
  exact ⟨hinput, tokenize_by_lines.2.2 page machine _ _ hinput⟩

end Repl
end Logo
