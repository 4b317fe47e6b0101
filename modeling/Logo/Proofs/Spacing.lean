import Logo.Proofs.Pieces
import Logo.Proofs.Reads.Expr
import Logo.Proofs.Renaming.Alike

/-! Layout carries no meaning. A source may be written anew as the texts of its tokens with single blanks between them,
without comments and without characters that belong to no token. It has the same tokens up to places, and neither
reading nor running looks at places, except to report them. -/
namespace Logo

def spaced (source : String) : String := " ".intercalate ((tokensIn source).map Token.text)

namespace Scan

/-- A token that is scanned alone is scanned as well in front of a blank or the end. -/
theorem Alone.tokensFrom {t : Token} (h : Alone t) {rest : List Char} (hrest : Ends rest) (offset : Nat) :
    (tokensFrom offset (t.text.toList ++ rest)).map (Token.rename .placeless) = t.rename .placeless ::
      (tokensFrom (offset + Text.byteLength t.text.toList) rest).map (Token.rename .placeless) := by
  obtain ⟨c, cs, htext, hpiece⟩ := h
  obtain ⟨hblank, hcomment⟩ := classes_of_token hpiece
  have hpiece' := (piece_append hblank hrest (fun hc => absurd hc hcomment) cs).trans hpiece
  have hsplit : c :: (cs ++ rest) = t.text.toList ++ rest := by rw [htext, List.cons_append]
  rw [← hsplit, tokensFrom_token hpiece' hsplit, List.map_cons, String.ofList_toList]
  rfl

/-- With blanks between their texts, such tokens are scanned one after the other. -/
theorem tokensFrom_spaced {ts : List Token} (h : ∀ t ∈ ts, Alone t) (offset : Nat) :
    (tokensFrom offset ([' '].intercalate (ts.map fun t => t.text.toList))).map (Token.rename .placeless) =
      ts.map (Token.rename .placeless) ++ [⟨.finish, "", .none⟩] := by
  induction ts generalizing offset with
  | nil => simp [Scan.tokensFrom, Token.finishAt, Token.rename, Renaming.placeless]
  | cons t ts ih =>
    have ht := h t (by simp)
    cases ts with
    | nil => simpa [Scan.tokensFrom, Token.finishAt, Token.rename, Renaming.placeless]
        using ht.tokensFrom ends_nil offset
    | cons u us =>
      have hblank : Ends (' ' :: [' '].intercalate ((u :: us).map fun t => t.text.toList)) := ends_cons rfl _
      have hnext := ht.tokensFrom hblank offset
      rw [tokensFrom_blank rfl, ih fun u hu => h u (by simp [hu])] at hnext
      simpa [List.intercalate_cons_cons] using hnext

end Scan

theorem tokens_spaced (s : String) :
    (tokenize s).map (Token.rename .placeless) = (tokenize (spaced s)).map (Token.rename .placeless) := by
  have htext : (spaced s).toList = [' '].intercalate ((tokensIn s).map fun t => t.text.toList) := by
    simp [spaced, Function.comp_def]
  rw [tokenize.eq_1 (spaced s), htext, Scan.tokensFrom_spaced (alone_tokensIn s), (tokenize_eq s).1, List.map_append]
  rfl

def Halt.SameCause : Halt → Halt → Prop
  | .fault f, .fault f' => f.cause = f'.cause ∧ f.span?.isSome = f'.span?.isSome
  | .outOfFuel, .outOfFuel => True
  | _, _ => False

theorem Cause.rename_placeless (c : Cause) : c.rename .placeless = c := by
  cases c <;> rfl

theorem Halt.sameCause_of_rename {e e' : Halt} (h : e.rename .placeless = e'.rename .placeless) : e.SameCause e' := by
  cases e with
  | outOfFuel =>
    cases e' with
    | outOfFuel => trivial
    | fault f' => cases h
  | fault f =>
    cases e' with
    | outOfFuel => cases h
    | fault f' =>
      have hf : f.rename .placeless = f'.rename .placeless := Halt.fault.inj h
      have hcause := congrArg Fault.cause hf
      have hspan := congrArg (Option.isSome ∘ Fault.span?) hf
      simpa [SameCause, Fault.rename, Cause.rename_placeless] using And.intro hcause hspan

section
variable {α : Type}

abbrev ReadAlike (rename : α → α) : EStateM.Result Halt Reader α → EStateM.Result Halt Reader α → Prop :=
  Coincide (fun r r' => r.arities.Same id r'.arities) Halt.SameCause fun a a' => rename a = rename a'

abbrev RunAlike : EStateM.Result Halt Machine α → EStateM.Result Halt Machine α → Prop :=
  Coincide (Machine.Alike .placeless) Halt.SameCause Eq

end

/-- A source has the tokens of its spaced form, reads as the same programs and expressions up to places, and does the
same on machines that are alike up to the places in their procedures. -/
theorem layout_ignored (s : String) :
    ((tokenize s).map fun t => (t.kind, t.text)) = ((tokenize (spaced s)).map fun t => (t.kind, t.text)) ∧
    (∀ known,
      ReadAlike (List.map (Stmt.rename .placeless)) (readProgram (tokenize s) known)
        (readProgram (tokenize (spaced s)) known) ∧
      ReadAlike (Expr.rename .placeless) (readExpr (tokenize s) known) (readExpr (tokenize (spaced s)) known)) ∧
    ∀ m m' : Machine, m.Alike .placeless m' →
      RunAlike (Session.run s m) (Session.run (spaced s) m') ∧
      RunAlike (Session.enter s m) (Session.enter (spaced s) m') ∧
        RunAlike (Session.evaluate s m) (Session.evaluate (spaced s) m') := by
  have htokens := tokens_spaced s
  refine ⟨?_, fun known => ⟨?_, ?_⟩, fun m m' hm => ?_⟩
  · have hparts := congrArg (List.map fun t : Token => (t.kind, t.text)) htokens
    rwa [List.map_map, List.map_map] at hparts
  · exact (readProgram_coincide htokens known).imp (fun _ _ h => h) fun _ _ => Halt.sameCause_of_rename
  · exact (readExpr_coincide htokens known).imp (fun _ _ h => h) fun _ _ => Halt.sameCause_of_rename
  · have hrun : ∀ {α : Type} {x x' y : Eval α}, Eval.Renames .placeless id x y → Eval.Renames .placeless id x' y →
        RunAlike (x m) (x' m') :=
      fun hx hx' => (Eval.Renames.coincide hx hx' hm).imp (fun _ _ h => h) fun _ _ => Halt.sameCause_of_rename
    obtain ⟨y, hs, ht⟩ := Session.enter_common htokens
    obtain ⟨z, hs', ht'⟩ := Session.evaluate_common htokens
    exact ⟨hrun hs.discard ht.discard, hrun hs ht, hrun hs' ht'⟩

set_option maxRecDepth 4096 in
/-- A comment and a character of no token are gone, and a procedure was stored from another place. -/
theorem layout_ignored_comment :
    spaced "SQ;[\né(PRINT<=:x)" = "SQ ( PRINT <= : x )" ∧
    RunAlike
      (Session.run "SQ;[\né(PRINT<=:x)"
        { workspace := { procedures := .ofList [("SQ", ⟨"sq", [], [.stop ⟨6, 10⟩]⟩)] } })
      (Session.run "SQ ( PRINT <= : x )"
        { workspace := { procedures := .ofList [("SQ", ⟨"sq", [], [.stop ⟨9, 13⟩]⟩)] } }) := by
  have hspaced : spaced "SQ;[\né(PRINT<=:x)" = "SQ ( PRINT <= : x )" := by cbv
  refine ⟨hspaced, ?_⟩
  rw [← hspaced]
  refine ((layout_ignored _).2.2 _ _ ?_).1
  refine ⟨⟨.refl _, .nil, fun key => ?_, rfl⟩, rfl, rfl, rfl⟩
  simp only [Table.ofList, List.foldl_cons, List.foldl_nil, Table.get?_insert]
  split <;> rfl

end Logo
