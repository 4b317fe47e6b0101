import Logo.Proofs.Number.Numeral
import Logo.Proofs.Pieces
import Logo.Proofs.RoundTrip
import Logo.Proofs.Sessions

/-! Printed values are read back. The text of a value whose numbers are finite is scanned into one token for each number
and bracket, these are read as a list literal, and its value is the one that was printed, up to the signs of zeros. -/
namespace Logo

namespace Value

mutual

def isFinite : Value → Bool
  | .number n => n.isFinite
  | .list items => allFinite items

def allFinite : List Value → Bool
  | [] => true
  | v :: vs => v.isFinite && allFinite vs

end

mutual

def unsigned : Value → Value
  | .number n => .number (Number.unsignZero n)
  | .list items => .list (unsignedAll items)

def unsignedAll : List Value → List Value
  | [] => []
  | v :: vs => v.unsigned :: unsignedAll vs

end

def bracket (m : Mark) (text : String) : Token := ⟨.mark m, text, .none⟩

mutual

def tokens : Value → List Token
  | .number n => [⟨.number (Number.unsignZero n), numberFormat.write n, .none⟩]
  | .list items => bracket .leftBracket "[" :: (tokensOfAll items ++ [bracket .rightBracket "]"])

def tokensOfAll : List Value → List Token
  | [] => []
  | v :: vs => v.tokens ++ tokensOfAll vs

end

mutual

def literal : Value → Expr
  | .number n => .number .none (Number.unsignZero n)
  | .list items => .list .none (literals items)

def literals : List Value → List Expr
  | [] => []
  | v :: vs => v.literal :: literals vs

end

section
variable (items : List Value)

theorem allFinite_iff : allFinite items = true ↔ ∀ v ∈ items, v.isFinite = true := by
  induction items with
  | nil => simp [allFinite]
  | cons v vs ih => simp [allFinite, ih]

theorem unsignedAll_eq_map : unsignedAll items = items.map unsigned := by
  induction items with
  | nil => rfl
  | cons v vs ih => rw [unsignedAll, ih, List.map_cons]

theorem tokensOfAll_eq_flatMap : tokensOfAll items = items.flatMap tokens := by
  induction items with
  | nil => rfl
  | cons v vs ih => rw [tokensOfAll, ih, List.flatMap_cons]

theorem literals_eq_map : literals items = items.map literal := by
  induction items with
  | nil => rfl
  | cons v vs ih => rw [literals, ih, List.map_cons]

theorem texts_eq_map : texts items = items.map text := by
  induction items with
  | nil => rfl
  | cons v vs ih => rw [texts, ih, List.map_cons]

end

/-- The first token of a printed value. -/
theorem exists_first_token (v : Value) : ∃ t ts, v.tokens = t :: ts ∧ t.span = .none ∧ t.isFinish = false ∧
    t.isMark .rightBracket = false ∧ Grammar.sign? t = none ∧ t.isNamed "NOT" = false := by
  cases v with
  | number n => exact ⟨_, _, rfl, rfl, rfl, rfl, rfl, rfl⟩
  | list items => exact ⟨_, _, rfl, rfl, rfl, rfl, rfl, rfl⟩

theorem length_tokens_of_mem {v : Value} {items : List Value} (h : v ∈ items) :
    v.tokens.length ≤ (tokensOfAll items).length := by
  rw [tokensOfAll_eq_flatMap, List.length_flatMap]
  exact List.le_sum_of_mem (List.mem_map_of_mem h)

theorem length_le_tokensOfAll (items : List Value) : items.length ≤ (tokensOfAll items).length := by
  induction items with
  | nil => simp
  | cons v vs ih =>
    obtain ⟨t, ts, ht, -⟩ := v.exists_first_token
    simp only [tokensOfAll, List.length_append, List.length_cons, ht]
    omega

end Value

/-! ### Scanning -/

namespace Scan
open Number

def Apart (rest : List Char) : Prop := ∀ c more, rest = c :: more → c = ' ' ∨ c = ']'

theorem apart_nil : Apart [] := by simp [Apart]

theorem Apart.parts {rest : List Char} (h : Apart rest) :
    fractionPart rest = [] ∧ exponentPart rest = [] ∧ ∀ c more, rest = c :: more → c.isDigit = false := by
  cases rest with
  | nil => exact ⟨rfl, rfl, by simp⟩
  | cons c more =>
    rcases h c more rfl with rfl | rfl
    · exact ⟨rfl, rfl, by rintro _ _ ⟨⟩; rfl⟩
    · exact ⟨rfl, rfl, by rintro _ _ ⟨⟩; rfl⟩

theorem unsignedPart_numeral {cs rest : List Char} {d : Nat} {e : Int} (h : Numeral cs d e) (hrest : Apart rest) :
    unsignedPart (cs ++ rest) = cs := by
  obtain ⟨hfraction, hexponent, hdigit⟩ := hrest.parts
  cases h with
  | whole _ hdigits =>
    have htake := (takeWhile_digits hdigits hdigit).1
    simp [unsignedPart, htake, hfraction, hexponent]
  | @point ds fs _ hdigits hfs =>
    have hpoint : ∀ c more, '.' :: (fs ++ rest) = c :: more → c.isDigit = false := by
      rintro _ _ ⟨⟩
      rfl
    have htake := (takeWhile_digits hdigits hpoint).1
    have htake' := (takeWhile_digits hfs hdigit).1
    have hdrop : (ds ++ '.' :: (fs ++ rest)).drop (ds ++ '.' :: fs).length = rest := by
      rw [show ds ++ '.' :: (fs ++ rest) = (ds ++ '.' :: fs) ++ rest by simp, List.drop_left]
    simp only [unsignedPart, List.append_assoc, List.cons_append, htake, List.drop_left, fractionPart, htake', hdrop,
      hexponent, List.append_nil]

/-- A numeral is taken as a whole. -/
theorem piece_written {c : Char} {cs rest : List Char} {x : Float} (h : Written (c :: cs) x) (hrest : Apart rest) :
    isBlank c = false ∧ piece c (cs ++ rest) = ⟨some (.number x), c :: cs⟩ := by
  have hread := h.read
  have hclasses : (isBlank c = false ∧ c ≠ ';' ∧ startsWord c = false) ∧ numeral c (cs ++ rest) = c :: cs := by
    generalize htext : c :: cs = text at h
    cases h with
    | plain hnumeral =>
      subst htext
      obtain ⟨_, _, ⟨⟩, hc⟩ := hnumeral.exists_head
      refine ⟨classes_of_isDigit hc, ?_⟩
      rw [numeral, if_pos hc]
      exact unsignedPart_numeral hnumeral hrest
    | negative hnumeral =>
      cases htext
      obtain ⟨d, ds, rfl, hd⟩ := hnumeral.exists_head
      refine ⟨⟨rfl, by decide, rfl⟩, ?_⟩
      have hstarts : startsDigits (d :: ds ++ rest) = true := by simpa [startsDigits] using hd
      rw [numeral, if_neg (by decide), if_pos ⟨.inr rfl, hstarts⟩, unsignedPart_numeral hnumeral hrest]
  obtain ⟨⟨hblank, hcomment, hword⟩, hnumeral⟩ := hclasses
  refine ⟨hblank, ?_⟩
  unfold piece
  simp only [hblank, hcomment, hword, hnumeral, hread, Bool.false_eq_true, if_false]

/-- The text starts with no blank, and up to places it is scanned into the tokens, whatever comes behind it that ends a
numeral. -/
structure Scans (text : List Char) (tokens : List Token) : Prop where
  dense : ∃ c cs, text = c :: cs ∧ isBlank c = false
  scans : ∀ offset rest, Apart rest → ∃ offset', (tokensFrom offset (text ++ rest)).map (Token.rename .placeless) =
    tokens ++ (tokensFrom offset' rest).map (Token.rename .placeless)

theorem scans_number {n : Float} (hn : n.isFinite = true) :
    Scans (Value.number n).text.toList (Value.number n).tokens := by
  have hwritten : Number.Written (Value.numberFormat.write n).toList (Number.unsignZero n) :=
    Number.Format.written_write (fun _ => rfl) rfl rfl hn
  obtain ⟨c, cs, htext⟩ := List.exists_cons_of_ne_nil hwritten.ne_nil
  have hlist : (Value.number n).text.toList = c :: cs := htext
  have htokens : (Value.number n).tokens = [⟨.number (Number.unsignZero n), String.ofList (c :: cs), .none⟩] := by
    rw [Value.tokens, ← htext, String.ofList_toList]
  rw [htext] at hwritten
  rw [hlist, htokens]
  constructor
  · exact ⟨c, cs, rfl, (piece_written hwritten apart_nil).1⟩
  · intro offset rest hrest
    refine ⟨offset + Text.byteLength (c :: cs), ?_⟩
    rw [List.cons_append, tokensFrom_token (piece_written hwritten hrest).2 rfl, List.map_cons]
    rfl

/-- A bracket at the head of a text. -/
theorem tokensFrom_bracket {c : Char} {m : Mark} (hpiece : ∀ cs, piece c cs = ⟨some (.mark m), [c]⟩) (offset : Nat)
    (rest : List Char) : ∃ offset', (tokensFrom offset (c :: rest)).map (Token.rename .placeless) =
      Value.bracket m (String.ofList [c]) :: (tokensFrom offset' rest).map (Token.rename .placeless) := by
  refine ⟨offset + Text.byteLength [c], ?_⟩
  rw [tokensFrom_token (hpiece rest) rfl, List.map_cons]
  rfl

/-- Items with a blank between each two of them, up to a closing bracket. -/
theorem scans_items {items : List Value} (h : ∀ v ∈ items, Scans v.text.toList v.tokens) (offset : Nat)
    (rest : List Char) :
    ∃ offset', (tokensFrom offset ([' '].intercalate (items.map fun v => v.text.toList) ++ ']' :: rest)).map
        (Token.rename .placeless) =
      Value.tokensOfAll items ++ (tokensFrom offset' (']' :: rest)).map (Token.rename .placeless) := by
  induction items generalizing offset with
  | nil => exact ⟨offset, rfl⟩
  | cons v vs ih =>
    have hv := (h v (by simp)).scans offset
    have hvs := ih fun w hw => h w (by simp [hw])
    cases vs with
    | nil =>
      have hclose : Apart (']' :: rest) := by
        rintro _ _ ⟨⟩
        exact .inr rfl
      obtain ⟨offset', htokens⟩ := hv _ hclose
      exact ⟨offset', by simpa [Value.tokensOfAll] using htokens⟩
    | cons w ws =>
      -- The next item follows the blank at once.
      obtain ⟨c, cs, hw, hc⟩ := (h w (by simp)).dense
      obtain ⟨more, hmore⟩ : ∃ more,
          [' '].intercalate ((w :: ws).map fun v => v.text.toList) ++ ']' :: rest = c :: more := by
        cases ws <;> simp [hw]
      have hblank : Apart (' ' :: c :: more) := by
        rintro _ _ ⟨⟩
        exact .inl rfl
      obtain ⟨offset₁, hfirst⟩ := hv _ hblank
      have hskip := tokensFrom_blank (c := ' ') rfl offset₁ (c :: more)
      obtain ⟨offset₂, hrest⟩ := hvs (offset₁ + ' '.utf8Size)
      refine ⟨offset₂, ?_⟩
      rw [hmore] at hrest
      rw [hskip, hrest] at hfirst
      have htext : [' '].intercalate ((v :: w :: ws).map fun v => v.text.toList) ++ ']' :: rest =
          v.text.toList ++ ' ' :: c :: more := by
        rw [← hmore]
        simp [List.intercalate_cons_cons]
      have htokens : Value.tokensOfAll (v :: w :: ws) = v.tokens ++ Value.tokensOfAll (w :: ws) := rfl
      rw [htext, hfirst, htokens, List.append_assoc]

theorem scans_text (v : Value) (hv : v.isFinite = true) : Scans v.text.toList v.tokens := by
  induction v using Value.induct with
  | number n => exact scans_number hv
  | list items ih =>
    have hitems := (Value.allFinite_iff items).mp hv
    have htext : (Value.list items).text.toList =
        '[' :: ([' '].intercalate (items.map fun v => v.text.toList) ++ [']']) := by
      simp [Value.text, Value.texts_eq_map, Function.comp_def]
    rw [htext]
    refine ⟨⟨_, _, rfl, rfl⟩, fun offset rest _ => ?_⟩
    have hleft : ∀ cs, piece '[' cs = ⟨some (.mark .leftBracket), ['[']⟩ := fun _ => rfl
    have hright : ∀ cs, piece ']' cs = ⟨some (.mark .rightBracket), [']']⟩ := fun _ => rfl
    obtain ⟨offset₁, hopen⟩ := tokensFrom_bracket hleft offset
      ([' '].intercalate (items.map fun v => v.text.toList) ++ ']' :: rest)
    obtain ⟨offset₂, hbody⟩ := scans_items (fun v hv => ih v hv (hitems v hv)) offset₁ rest
    obtain ⟨offset₃, hclose⟩ := tokensFrom_bracket hright offset₂ rest
    refine ⟨offset₃, ?_⟩
    rw [hclose] at hbody
    rw [hbody] at hopen
    simpa [Value.tokens] using hopen

end Scan

theorem tokenize_text {v : Value} (hv : v.isFinite = true) :
    (tokenize v.text).map (Token.rename .placeless) = v.tokens ++ [⟨.finish, "", .none⟩] := by
  obtain ⟨offset, h⟩ := (Scan.scans_text v hv).scans 0 [] Scan.apart_nil
  rw [List.append_nil] at h
  rw [tokenize, h, Scan.tokensFrom]
  rfl

/-! ### Reading -/

namespace Grammar
open Parse

/-- The tokens of a value are read as its literal, each paying for the brackets around it. -/
theorem primary_reads_value {finish : Token} {known : Table Nat} (v : Value) {n : Nat} (hn : v.tokens.length ≤ n) :
    Reads finish known (primary n) v.tokens v.literal fun _ => True := by
  induction v using Value.induct generalizing n with
  | number x =>
    obtain ⟨n, rfl⟩ : ∃ k, n = k + 1 := ⟨n - 1, by simp [Value.tokens] at hn; omega⟩
    exact .peek ((Reads.skip rfl).seq .pure)
  | list items ih =>
    have hlength := Value.length_le_tokensOfAll items
    simp only [Value.tokens, List.length_cons, List.length_append, List.length_nil] at hn
    obtain ⟨n, rfl⟩ : ∃ k, n = k + 1 := ⟨n - 1, by omega⟩
    have heach : Reads.Each finish known (primary n) Value.tokens Value.literal (fun _ => True) items := by
      intro v hv
      obtain ⟨t, ts, hfirst, -⟩ := v.exists_first_token
      have hv' := Value.length_tokens_of_mem hv
      exact ⟨ih v hv (by omega), t, ts, hfirst, trivial⟩
    have hopen : ∀ v ∈ items, ∀ t ts, v.tokens = t :: ts → t.isMark .rightBracket = false ∧ t.isFinish = false := by
      intro v _ t ts ht
      obtain ⟨u, us, hu, -, hfinish, hbracket, -⟩ := v.exists_first_token
      rw [ht] at hu
      cases hu
      exact ⟨hbracket, hfinish⟩
    have hitems : Reads finish known ((primary n).upTo (·.isMark .rightBracket) "`]`" n)
        (Value.tokensOfAll items ++ [Value.bracket .rightBracket "]"]) (Value.literals items) fun _ => True := by
      rw [Value.tokensOfAll_eq_flatMap, Value.literals_eq_map]
      exact .upTo heach hopen rfl rfl trivial (by omega)
    exact .peek ((Reads.skip rfl).seq (hitems.bindLast (Reads.spanFrom.bindLast .pure)))

theorem expr_reads_value {finish : Token} {known : Table Nat} (v : Value) {n : Nat} (hn : v.tokens.length + 5 ≤ n) :
    Reads finish known (expr n) v.tokens v.literal Stops := by
  obtain ⟨n, rfl⟩ : ∃ k, n = k + 5 := ⟨n - 5, by omega⟩
  obtain ⟨t, ts, hfirst, -, -, -, hsign, hnot⟩ := v.exists_first_token
  have hprimary : Reads finish known (primary (n + 1)) v.tokens v.literal Stops := fun more _ =>
    primary_reads_value v (by omega) more trivial
  rw [hfirst] at hprimary ⊢
  exact expr_of_primary hsign hnot hprimary

/-- An expression that is read up to the end is the whole text. -/
theorem wholeExpr_of_reads {finish : Token} {known : Table Nat} {n : Nat} {ts : List Token} {e : Expr}
    (h : Reads finish known (expr n) ts e Stops) (hfinish : finish.isFinish = true) :
    wholeExpr n (.before finish known ts) = .ok e (.before finish known []) := by
  have hend : Reads finish known (expr n) ts e fun t => t.isFinish = true := fun more hmore =>
    h more (stops_finish hmore)
  have hwhole : Reads finish known (wholeExpr n) ts e fun t => t.isFinish = true :=
    hend.bindLast (.peekEnd fun t ht => if_pos ht)
  simpa using hwhole [] hfinish

end Grammar

theorem Value.tokens_inner (v : Value) : ∀ t ∈ v.tokens, t.isFinish = false := by
  induction v using Value.induct with
  | number n => simp [tokens, Token.isFinish]
  | list items ih =>
    intro t ht
    simp only [tokens, tokensOfAll_eq_flatMap, List.mem_cons, List.mem_append, List.mem_flatMap, List.not_mem_nil,
      or_false] at ht
    rcases ht with rfl | ⟨v, hv, ht⟩ | rfl
    · rfl
    · exact ih v hv t ht
    · rfl

theorem readExpr_tokens (v : Value) (known : List (String × Nat)) (finish : Token) (hfinish : finish.isFinish = true)
    (hspan : finish.span = .none) : ∃ r, readExpr (v.tokens ++ [finish]) known = .ok v.literal r := by
  have hfuel : v.tokens.length + 5 ≤ Grammar.fuelFor (v.tokens ++ [finish]) := by
    rw [Grammar.fuelFor, List.length_append]
    omega
  rw [readExpr, Reader.start_before v.tokens_inner hfinish hspan]
  exact ⟨_, Grammar.wholeExpr_of_reads (Grammar.expr_reads_value v hfuel) hfinish⟩

/-- The printed form of a value is read as its literal, up to places. -/
theorem Machine.readExpr_text (m : Machine) {v : Value} (hv : v.isFinite = true) :
    ∃ e, m.readExpr v.text = .ok e ∧ e.rename .placeless = v.literal := by
  have hmatches := readExpr_renames .placeless (.refl (.ofList m.workspace.arities.entries))
    (Reader.finish_placeless (tokenize v.text))
  obtain ⟨r, hread⟩ := readExpr_tokens v m.workspace.arities.entries ⟨.finish, "", .none⟩ rfl rfl
  rw [tokenize_text hv, hread] at hmatches
  obtain ⟨e, r', he, hsame, -⟩ := hmatches.of_ok
  exact ⟨e, Machine.readExpr_ok_iff.mpr ⟨r', he⟩, hsame⟩

/-! ### Evaluation -/

theorem Eval.mapM_literals {f : Expr → Eval Value} {m : Machine} {items : List Value} {es : List Expr}
    (he : es.map (Expr.rename .placeless) = items.map Value.literal)
    (h : ∀ v ∈ items, ∀ e : Expr, e.rename .placeless = v.literal → f e m = .ok v.unsigned m) :
    es.mapM f m = .ok (items.map Value.unsigned) m := by
  induction items generalizing es with
  | nil =>
    rw [List.map_nil, List.map_eq_nil_iff] at he
    subst he
    rfl
  | cons v vs ih =>
    obtain ⟨e, rest, rfl, hv, hrest⟩ := List.map_eq_cons_iff.mp he
    rw [List.mapM_cons]
    simp only [Bind.bind, EStateM.bind, h v (by simp) e hv, ih hrest fun w hw => h w (by simp [hw])]
    rfl

/-- A literal has the value it was made from, and evaluating it changes nothing. -/
theorem Eval.expr_literal (v : Value) {e : Expr} (he : e.rename .placeless = v.literal) {n : Nat}
    (hn : v.tokens.length ≤ n) (m : Machine) : Eval.expr n e m = .ok v.unsigned m := by
  induction v using Value.induct generalizing e n with
  | number x =>
    obtain ⟨n, rfl⟩ : ∃ k, n = k + 1 := ⟨n - 1, by simp [Value.tokens] at hn; omega⟩
    cases e with
    | number span value =>
      cases he
      rfl
    | _ => cases he
  | list items ih =>
    simp only [Value.tokens, List.length_cons, List.length_append, List.length_nil] at hn
    obtain ⟨n, rfl⟩ : ∃ k, n = k + 1 := ⟨n - 1, by omega⟩
    cases e with
    | list span es =>
      simp only [Expr.rename, Value.literal, Expr.renameAll_eq_map, Value.literals_eq_map, Expr.list.injEq] at he
      have hitems : es.mapM (Eval.expr n) m = .ok (items.map Value.unsigned) m := by
        refine Eval.mapM_literals he.2 fun v hv e he => ih v hv he ?_
        have hlength := Value.length_tokens_of_mem hv
        omega
      rw [Value.unsigned, Value.unsignedAll_eq_map]
      simp only [Eval.expr, Eval.exprWith, Eval.locate, Bind.bind, EStateM.bind, hitems]
      rfl
    | _ => cases he

/-- Printed values can be read back: the text of a value whose numbers are all finite evaluates to the value, with each
`-0` replaced by `0`, and leaves the machine as it is. -/
theorem printed_value_evaluates_to_itself (v : Value) (hv : v.isFinite = true) (m : Machine) :
    Session.evaluate v.text m = .ok v.unsigned m := by
  obtain ⟨e, hread, he⟩ := m.readExpr_text hv
  have hlength : v.tokens.length ≤ Session.fuel + (tokenize v.text).length := by
    have hmap := congrArg List.length (tokenize_text hv)
    rw [List.length_map, List.length_append] at hmap
    omega
  rw [Session.evaluate_of_ok hread]
  exact Eval.expr_literal v he hlength m

/-- A zero that loses its sign, a fraction with a sign of its own, and a number beyond the exact whole ones. -/
theorem printed_value_evaluates_to_itself_nested :
    Value.isFinite (.list [.number (-0), .number (-0.5), .list [.number 1e16, .list []]]) = true ∧
    Session.evaluate "[0 -0.5 [10000000000000000 []]]" {} =
      .ok (.list [.number 0, .number (-0.5), .list [.number 1e16, .list []]]) {} := by
  have hfinite : Value.isFinite (.list [.number (-0), .number (-0.5), .list [.number 1e16, .list []]]) = true := by
    decide
  have htext : Value.text (.list [.number (-0), .number (-0.5), .list [.number 1e16, .list []]]) =
      "[0 -0.5 [10000000000000000 []]]" := by decide +kernel
  have hvalue : Value.unsigned (.list [.number (-0), .number (-0.5), .list [.number 1e16, .list []]]) =
      .list [.number 0, .number (-0.5), .list [.number 1e16, .list []]] := by
    have hzero : Number.unsignZero (-0) = 0 := by decide
    have hfraction : Number.unsignZero (-0.5) = -0.5 := by decide
    have hgreat : Number.unsignZero 1e16 = 1e16 := by decide
    simp only [Value.unsigned, Value.unsignedAll, hzero, hfraction, hgreat]
  have h := printed_value_evaluates_to_itself _ hfinite {}
  rw [htext, hvalue] at h
  exact ⟨hfinite, h⟩

end Logo
