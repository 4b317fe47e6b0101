import Logo.Proofs.Places
import Mathlib

/-! How far the scanner looks. It cuts a piece from the head of a text, and a blank ends every piece but blanks and
comments. So what lies behind a blank does not matter to the pieces in front of it, and the text of a token that stands
alone is scanned as that token. -/
namespace Logo

namespace Scan

def Ends (rest : List Char) : Prop := ∀ c more, rest = c :: more → isBlank c = true

theorem ends_nil : Ends [] := by simp [Ends]

theorem ends_cons {c : Char} (hc : isBlank c = true) (cs : List Char) : Ends (c :: cs) := by
  rintro d more ⟨⟩
  exact hc

section
variable {c : Char} (hc : isBlank c = true)
include hc

theorem ne_of_isBlank {x : Char} (hx : isBlank x = false) : c ≠ x := by
  rintro rfl
  rw [hc] at hx
  cases hx

theorem isAlphanum_of_isBlank : c.isAlphanum = false := by
  simp only [isBlank, Bool.or_eq_true, decide_eq_true_eq] at hc
  rcases hc with (((rfl | rfl) | rfl) | rfl) | rfl <;> decide

theorem isDigit_of_isBlank : c.isDigit = false := by
  have halphanum := isAlphanum_of_isBlank hc
  simp only [Char.isAlphanum, Bool.or_eq_false_iff] at halphanum
  exact halphanum.2

theorem continuesWord_of_isBlank : continuesWord c = false := by
  simp [continuesWord, isAlphanum_of_isBlank hc, ne_of_isBlank hc (x := '_') rfl, ne_of_isBlank hc (x := '?') rfl]

end

/-- A run of characters that does not go on in the rest. -/
theorem takeWhile_append_stop {p : Char → Bool} {rest : List Char} (h : rest.takeWhile p = []) (cs : List Char) :
    (cs ++ rest).takeWhile p = cs.takeWhile p := by
  induction cs with
  | nil => exact h
  | cons c cs ih => simp only [List.cons_append, List.takeWhile_cons, ih]

section
variable {rest : List Char} (hrest : Ends rest)
include hrest

theorem Ends.takeWhile {p : Char → Bool} (hp : ∀ c, isBlank c = true → p c = false) : rest.takeWhile p = [] := by
  cases rest with
  | nil => rfl
  | cons d more => simp [hp d (hrest d more rfl)]

theorem digits_append_ends (cs : List Char) : (cs ++ rest).takeWhile Char.isDigit = cs.takeWhile Char.isDigit :=
  takeWhile_append_stop (hrest.takeWhile fun _ => isDigit_of_isBlank) cs

theorem startsDigits_append (cs : List Char) : startsDigits (cs ++ rest) = startsDigits cs := by
  cases cs with
  | nil =>
    cases rest with
    | nil => rfl
    | cons d more => simpa [startsDigits] using isDigit_of_isBlank (hrest d more rfl)
  | cons c cs => rfl

theorem fractionPart_append (cs : List Char) : fractionPart (cs ++ rest) = fractionPart cs := by
  cases cs with
  | nil =>
    cases rest with
    | nil => rfl
    | cons d more =>
      have hd : d ≠ '.' := ne_of_isBlank (hrest d more rfl) rfl
      rw [List.nil_append, fractionPart.eq_2 _ fun _ he => hd (List.cons.inj he).1]
      rfl
  | cons c cs =>
    by_cases hc : c = '.'
    · subst hc
      simp only [List.cons_append, fractionPart, digits_append_ends hrest]
    · rw [List.cons_append, fractionPart.eq_2 _ fun _ he => hc (List.cons.inj he).1,
        fractionPart.eq_2 _ fun _ he => hc (List.cons.inj he).1]

theorem exponentPart_append (cs : List Char) : exponentPart (cs ++ rest) = exponentPart cs := by
  cases cs with
  | nil =>
    cases rest with
    | nil => rfl
    | cons d more =>
      have hblank := hrest d more rfl
      simp [exponentPart, ne_of_isBlank hblank (x := 'e') rfl, ne_of_isBlank hblank (x := 'E') rfl]
  | cons e cs =>
    cases cs with
    | nil =>
      cases rest with
      | nil => rfl
      | cons d more =>
        have hblank := hrest d more rfl
        simp [exponentPart, startsDigits, isDigit_of_isBlank hblank, ne_of_isBlank hblank (x := '+') rfl,
          ne_of_isBlank hblank (x := '-') rfl]
    | cons s ds =>
      have hds := digits_append_ends hrest ds
      have hsds := digits_append_ends hrest (s :: ds)
      have hstarts := startsDigits_append hrest ds
      have hstarts' := startsDigits_append hrest (s :: ds)
      simp only [List.cons_append] at hsds hstarts' ⊢
      simp only [exponentPart, hsds, hstarts', hds, hstarts]

theorem unsignedPart_append (cs : List Char) : unsignedPart (cs ++ rest) = unsignedPart cs := by
  have hwhole := List.takeWhile_prefix Char.isDigit (l := cs)
  have hdrop : ∀ part, part <+: cs → (cs ++ rest).drop part.length = cs.drop part.length ++ rest :=
    fun part hpart => List.drop_append_of_le_length hpart.length_le
  have hpart : cs.takeWhile Char.isDigit ++ fractionPart (cs.drop (cs.takeWhile Char.isDigit).length) <+: cs :=
    prefix_append hwhole (fractionPart_isPrefix _)
  simp only [unsignedPart, digits_append_ends hrest, hdrop _ hwhole, fractionPart_append hrest, hdrop _ hpart,
    exponentPart_append hrest]

theorem pointPart_append (cs : List Char) : pointPart (cs ++ rest) = pointPart cs := by
  have hdrop : (cs ++ rest).drop (fractionPart cs).length = cs.drop (fractionPart cs).length ++ rest :=
    List.drop_append_of_le_length (fractionPart_isPrefix cs).length_le
  simp only [pointPart, fractionPart_append hrest, hdrop, exponentPart_append hrest]

theorem numeral_append (c : Char) (cs : List Char) : numeral c (cs ++ rest) = numeral c cs := by
  have hunsigned := unsignedPart_append hrest (c :: cs)
  have hpoint := pointPart_append hrest (c :: cs)
  simp only [List.cons_append] at hunsigned hpoint
  simp only [numeral, hunsigned, hpoint, startsDigits_append hrest, unsignedPart_append hrest]

end

/-! ### Marks -/

theorem mark?_of_isAlpha {c : Char} (h : c.isAlpha) (cs : List Char) : mark? c cs = none := by
  unfold mark?
  split
  case h_17 => rfl
  all_goals exact absurd h (by decide)

/-- Only behind `<` and `>` does a mark depend on what follows. -/
theorem mark?_congr {c : Char} (hl : c ≠ '<') (hg : c ≠ '>') (cs ds : List Char) : mark? c cs = mark? c ds := by
  unfold mark?
  split
  case h_17 => split <;> first | rfl | (exfalso; simp_all)
  all_goals first | rfl | contradiction

theorem mark?_less {d : Char} (he : d ≠ '=') (hg : d ≠ '>') (ds : List Char) :
    mark? '<' (d :: ds) = some (.less, ['<']) :=
  mark?.eq_3 _ (fun _ h => he (List.cons.inj h).1) fun _ h => hg (List.cons.inj h).1

theorem mark?_greater {d : Char} (he : d ≠ '=') (ds : List Char) : mark? '>' (d :: ds) = some (.greater, ['>']) :=
  mark?.eq_5 _ fun _ h => he (List.cons.inj h).1

/-- At most one character behind the first is looked at. -/
theorem mark?_cons (c d : Char) (cs ds : List Char) : mark? c (d :: cs) = mark? c (d :: ds) := by
  by_cases hl : c = '<'
  · subst hl
    by_cases he : d = '='
    · subst he
      rfl
    · by_cases hg : d = '>'
      · subst hg
        rfl
      · rw [mark?_less he hg, mark?_less he hg]
  · by_cases hg : c = '>'
    · subst hg
      by_cases he : d = '='
      · subst he
        rfl
      · rw [mark?_greater he, mark?_greater he]
    · exact mark?_congr hl hg _ _

theorem mark?_append {rest : List Char} (hrest : Ends rest) (c : Char) (cs : List Char) :
    mark? c (cs ++ rest) = mark? c cs := by
  cases cs with
  | cons d ds => exact mark?_cons c d _ _
  | nil =>
    cases rest with
    | nil => rfl
    | cons d more =>
      have hblank := hrest d more rfl
      have he : d ≠ '=' := ne_of_isBlank hblank rfl
      by_cases hl : c = '<'
      · subst hl
        exact mark?_less he (ne_of_isBlank hblank rfl) more
      · by_cases hg : c = '>'
        · subst hg
          exact mark?_greater he more
        · exact mark?_congr hl hg _ _

/-! ### Pieces -/

inductive PieceOf (c : Char) (cs : List Char) : Piece → Prop where
  | blank : isBlank c = true → PieceOf c cs ⟨none, c :: cs.takeWhile isBlank⟩
  | comment : c = ';' → PieceOf c cs ⟨none, c :: cs.takeWhile (· ≠ '\n')⟩
  | word : startsWord c = true → PieceOf c cs ⟨some .word, c :: cs.takeWhile continuesWord⟩
  | number {d : Char} {ds : List Char} : numeral c cs = d :: ds →
    PieceOf c cs ⟨some (.number (Number.read (d :: ds))), d :: ds⟩
  | mark {m : Mark} {text : List Char} : numeral c cs = [] → mark? c cs = some (m, text) →
    PieceOf c cs ⟨some (.mark m), text⟩
  | other : isBlank c = false → c ≠ ';' → startsWord c = false → numeral c cs = [] → mark? c cs = none →
    PieceOf c cs ⟨none, [c]⟩

theorem pieceOf_piece (c : Char) (cs : List Char) : PieceOf c cs (piece c cs) := by
  unfold piece
  split
  · next h => exact .blank h
  · next hblank =>
    split
    · next h => exact .comment h
    · next hcomment =>
      split
      · next h => exact .word h
      · next hword =>
        split
        · next hnumeral =>
          split
          · next h => exact .mark hnumeral h
          · next h => exact .other (by simpa using hblank) hcomment (by simpa using hword) hnumeral h
        · next text hne =>
          cases hnumeral : numeral c cs with
          | nil => exact absurd hnumeral hne
          | cons d ds => exact .number hnumeral

/-- No token but a numeral starts with a digit. -/
theorem classes_of_isDigit {c : Char} (h : c.isDigit = true) : isBlank c = false ∧ c ≠ ';' ∧ startsWord c = false := by
  have hne : ∀ x : Char, x.isDigit = false → c ≠ x := by
    rintro x hx rfl
    rw [h] at hx
    cases hx
  have halpha : c.isAlpha = false := by
    simp only [Char.isDigit, Char.isAlpha, Char.isUpper, Char.isLower, UInt32.le_iff_toNat_le] at *
    grind
  refine ⟨?_, hne ';' rfl, ?_⟩
  · simp [isBlank, hne]
  · simp [startsWord, halpha, hne]

theorem classes_of_startsWord {c : Char} (h : startsWord c = true) : isBlank c = false ∧ c ≠ ';' := by
  have hne : ∀ x : Char, startsWord x = false → c ≠ x := by
    rintro x hx rfl
    rw [h] at hx
    cases hx
  refine ⟨?_, hne ';' rfl⟩
  simp [isBlank, hne ' ' rfl, hne '\t' rfl, hne '\r' rfl, hne '\n' rfl, hne '\x0c' rfl]

theorem classes_of_numeral {c d : Char} {cs ds : List Char} (h : numeral c cs = d :: ds) :
    isBlank c = false ∧ c ≠ ';' ∧ startsWord c = false := by
  unfold numeral at h
  split at h
  · next hc => exact classes_of_isDigit hc
  · split at h
    · next hc => rcases hc.1 with rfl | rfl <;> exact ⟨rfl, by decide, rfl⟩
    · split at h
      · next hc =>
        rw [hc.1]
        exact ⟨rfl, by decide, rfl⟩
      · cases h

theorem classes_of_mark? {c : Char} {cs text : List Char} {m : Mark} (h : mark? c cs = some (m, text)) :
    isBlank c = false ∧ c ≠ ';' ∧ startsWord c = false := by
  unfold mark? at h
  split at h <;> cases h <;> exact ⟨rfl, by decide, rfl⟩

theorem PieceOf.eq {c : Char} {cs : List Char} {p : Piece} (h : PieceOf c cs p) : piece c cs = p := by
  cases h with
  | blank hc => simp only [piece, hc, if_true]
  | comment hc =>
    subst hc
    rfl
  | word hc =>
    obtain ⟨hblank, hcomment⟩ := classes_of_startsWord hc
    simp [piece, hblank, hcomment, hc]
  | number hnumeral =>
    obtain ⟨hblank, hcomment, hword⟩ := classes_of_numeral hnumeral
    simp [piece, hblank, hcomment, hword, hnumeral]
  | mark hnumeral hmark =>
    obtain ⟨hblank, hcomment, hword⟩ := classes_of_mark? hmark
    simp [piece, hblank, hcomment, hword, hnumeral, hmark]
  | other hblank hcomment hword hnumeral hmark => simp [piece, hblank, hcomment, hword, hnumeral, hmark]

/-- What lies behind a blank does not matter to a piece in front of it. A comment goes on behind blanks, but not behind
a newline. -/
theorem piece_append {c : Char} {rest : List Char} (hc : isBlank c = false) (hrest : Ends rest)
    (hline : c = ';' → rest.takeWhile (· ≠ '\n') = []) (cs : List Char) : piece c (cs ++ rest) = piece c cs := by
  have hword := takeWhile_append_stop (hrest.takeWhile fun _ => continuesWord_of_isBlank) cs
  simp only [piece, hc, hword, numeral_append hrest, mark?_append hrest, Bool.false_eq_true, if_false]
  by_cases hcomment : c = ';'
  · simp only [if_pos hcomment, takeWhile_append_stop (hline hcomment)]
  · simp only [if_neg hcomment]

/-! ### One piece after the other -/

section
variable {c : Char} {cs text rest : List Char}

theorem drop_piece (hsplit : c :: cs = text ++ rest) (hne : text ≠ []) : cs.drop (text.length - 1) = rest := by
  cases text with
  | nil => exact absurd rfl hne
  | cons d ds => simp [(List.cons.inj hsplit).2]

theorem split_append (hsplit : c :: cs = text ++ rest) (ds : List Char) : c :: (cs ++ ds) = text ++ (rest ++ ds) := by
  rw [← List.append_assoc, ← hsplit, List.cons_append]

theorem tokensFrom_token {kind : Kind} (hpiece : piece c cs = ⟨some kind, text⟩) (hsplit : c :: cs = text ++ rest)
    (offset : Nat) : tokensFrom offset (c :: cs) =
      ⟨kind, String.ofList text, ⟨offset, offset + Text.byteLength text⟩⟩ ::
        tokensFrom (offset + Text.byteLength text) rest := by
  have hne := (piece_isPrefix c cs).2
  rw [hpiece] at hne
  simp only [tokensFrom, hpiece, drop_piece hsplit hne]

theorem tokensFrom_passed (hpiece : piece c cs = ⟨none, text⟩) (hsplit : c :: cs = text ++ rest) (offset : Nat) :
    tokensFrom offset (c :: cs) = tokensFrom (offset + Text.byteLength text) rest := by
  have hne := (piece_isPrefix c cs).2
  rw [hpiece] at hne
  simp only [tokensFrom, hpiece, drop_piece hsplit hne]

/-- Blanks may be passed over one at a time. -/
theorem tokensFrom_blank (hc : isBlank c = true) (offset : Nat) (cs : List Char) :
    tokensFrom offset (c :: cs) = tokensFrom (offset + c.utf8Size) cs := by
  have hsplit : ∀ ds : List Char, ds = ds.takeWhile isBlank ++ ds.dropWhile isBlank :=
    fun ds => List.takeWhile_append_dropWhile.symm
  rw [tokensFrom_passed (PieceOf.blank hc).eq (congrArg (c :: ·) (hsplit cs)), Text.byteLength_cons, ← Nat.add_assoc]
  cases cs with
  | nil => rfl
  | cons d ds =>
    by_cases hd : isBlank d = true
    · simp only [List.takeWhile_cons, List.dropWhile_cons, if_pos hd]
      rw [tokensFrom_passed (PieceOf.blank hd).eq (congrArg (d :: ·) (hsplit ds))]
    · simp only [List.takeWhile_cons, List.dropWhile_cons, if_neg hd]
      rfl

end

/-- Induction along the pieces of a text, blanks one at a time. -/
theorem piece_induction {P : Nat → List Char → Prop} (nil : ∀ offset, P offset [])
    (blank : ∀ offset c cs, isBlank c = true → P (offset + c.utf8Size) cs → P offset (c :: cs))
    (token : ∀ offset c cs kind text rest, piece c cs = ⟨some kind, text⟩ → c :: cs = text ++ rest →
      P (offset + Text.byteLength text) rest → P offset (c :: cs))
    (passed : ∀ offset c cs text rest, isBlank c = false → piece c cs = ⟨none, text⟩ → c :: cs = text ++ rest →
      P (offset + Text.byteLength text) rest → P offset (c :: cs))
    (offset : Nat) (cs : List Char) : P offset cs := by
  induction hlength : cs.length using Nat.strong_induction_on generalizing offset cs with
  | _ n ih =>
    subst hlength
    cases cs with
    | nil => exact nil offset
    | cons c cs =>
      cases hc : isBlank c with
      | true => exact blank offset c cs hc (ih cs.length (by simp) _ cs rfl)
      | false =>
        obtain ⟨⟨rest, hsplit⟩, hne⟩ := piece_isPrefix c cs
        have hshorter : rest.length < (c :: cs).length := by
          have hpos := List.length_pos_iff.mpr hne
          rw [← hsplit, List.length_append]
          omega
        have hrest := ih rest.length hshorter (offset + Text.byteLength (piece c cs).text) rest rfl
        cases hkind : (piece c cs).kind? with
        | some kind => exact token offset c cs kind _ rest (by rw [← hkind]) hsplit.symm hrest
        | none => exact passed offset c cs _ rest hc (by rw [← hkind]) hsplit.symm hrest

theorem classes_of_token {c : Char} {cs text : List Char} {kind : Kind} (h : piece c cs = ⟨some kind, text⟩) :
    isBlank c = false ∧ c ≠ ';' := by
  have hof := pieceOf_piece c cs
  rw [h] at hof
  cases hof with
  | word hc => exact classes_of_startsWord hc
  | number hnumeral =>
    obtain ⟨hblank, hcomment, -⟩ := classes_of_numeral hnumeral
    exact ⟨hblank, hcomment⟩
  | mark _ hmark =>
    obtain ⟨hblank, hcomment, -⟩ := classes_of_mark? hmark
    exact ⟨hblank, hcomment⟩

/-- Every token but the end was cut as a piece of the text. -/
theorem exists_piece (offset : Nat) (cs : List Char) :
    ∀ t ∈ tokensFrom offset cs, t.isFinish = false → ∃ c ds, piece c ds = ⟨some t.kind, t.text.toList⟩ := by
  induction offset, cs using piece_induction with
  | nil offset => simp [tokensFrom, Token.isFinish, Token.finishAt]
  | blank offset c cs hc ih => rwa [tokensFrom_blank hc]
  | token offset c cs kind text rest hpiece hsplit ih =>
    rw [tokensFrom_token hpiece hsplit]
    simp only [List.forall_mem_cons]
    exact ⟨fun _ => ⟨c, cs, by simpa using hpiece⟩, ih⟩
  | passed offset c cs text rest _ hpiece hsplit ih => rwa [tokensFrom_passed hpiece hsplit]

/-! ### Tokens alone -/

theorem startsDigits_takeWhile (cs : List Char) : startsDigits (cs.takeWhile Char.isDigit) = startsDigits cs := by
  cases cs with
  | nil => rfl
  | cons c cs => cases hc : c.isDigit <;> simp [startsDigits, hc]

theorem exponentPart_self (cs : List Char) : exponentPart (exponentPart cs) = exponentPart cs := by
  fun_cases exponentPart cs with
  | case1 e ds he hds => simp [exponentPart, he, startsDigits_takeWhile, hds, List.takeWhile_idem]
  | case2 e he s ds hs hsds =>
    have hsign : startsDigits (s :: ds.takeWhile Char.isDigit) = false := by simpa [startsDigits] using hsds
    simp [exponentPart, he, hsign, hs, startsDigits_takeWhile, List.takeWhile_idem]
  | _ => rfl

theorem digits_exponentPart (cs : List Char) : (exponentPart cs).takeWhile Char.isDigit = [] := by
  fun_cases exponentPart cs with
  | case1 e ds he hds => rcases he with rfl | rfl <;> rfl
  | case2 e he s ds hs hsds => rcases he with rfl | rfl <;> rfl
  | _ => rfl

theorem fractionPart_exponentPart (cs : List Char) : fractionPart (exponentPart cs) = [] := by
  fun_cases exponentPart cs with
  | case1 e ds he hds => rcases he with rfl | rfl <;> rfl
  | case2 e he s ds hs hsds => rcases he with rfl | rfl <;> rfl
  | _ => rfl

theorem fractionPart_self (cs ds : List Char) :
    fractionPart (fractionPart cs ++ exponentPart ds) = fractionPart cs := by
  fun_cases fractionPart cs with
  | case1 cs =>
    simp only [List.cons_append, fractionPart, takeWhile_append_stop (digits_exponentPart ds), List.takeWhile_idem]
  | case2 => exact fractionPart_exponentPart ds

theorem digits_fractionPart (cs ds : List Char) :
    (fractionPart cs ++ exponentPart ds).takeWhile Char.isDigit = [] := by
  fun_cases fractionPart cs with
  | case1 cs => rfl
  | case2 => exact digits_exponentPart ds

theorem unsignedPart_self (cs : List Char) : unsignedPart (unsignedPart cs) = unsignedPart cs := by
  have hparts : ∀ {whole fraction exponent : List Char}, (∀ c ∈ whole, c.isDigit = true) →
      (fraction ++ exponent).takeWhile Char.isDigit = [] → fractionPart (fraction ++ exponent) = fraction →
      exponentPart exponent = exponent →
      unsignedPart (whole ++ fraction ++ exponent) = whole ++ fraction ++ exponent := by
    intro whole fraction exponent hwhole hdigits hfraction hexponent
    have htake : (whole ++ fraction ++ exponent).takeWhile Char.isDigit = whole := by
      rw [List.append_assoc, List.takeWhile_append_of_pos hwhole, hdigits, List.append_nil]
    have hdrop : (whole ++ fraction ++ exponent).drop whole.length = fraction ++ exponent := by
      rw [List.append_assoc, List.drop_left]
    simp only [unsignedPart, htake, hdrop, hfraction, List.drop_left, hexponent]
  exact hparts (fun c hc => List.mem_takeWhile_imp hc) (digits_fractionPart _ _) (fractionPart_self _ _)
    (exponentPart_self _)

theorem pointPart_self (cs : List Char) : pointPart (pointPart cs) = pointPart cs := by
  simp only [pointPart, fractionPart_self, List.drop_left, exponentPart_self]

theorem startsDigits_unsignedPart {cs : List Char} (h : startsDigits cs = true) :
    startsDigits (unsignedPart cs) = true := by
  cases cs with
  | nil => cases h
  | cons c cs =>
    have hc : c.isDigit = true := by simpa [startsDigits] using h
    simp [startsDigits, unsignedPart, hc]

theorem startsDigits_append_of {cs : List Char} (h : startsDigits cs = true) (ds : List Char) :
    startsDigits (cs.takeWhile Char.isDigit ++ ds) = true := by
  cases cs with
  | nil => cases h
  | cons c cs =>
    have hc : c.isDigit = true := by simpa [startsDigits] using h
    simp [startsDigits, hc]

/-- A numeral alone is the same numeral. -/
theorem numeral_self {c d : Char} {cs ds : List Char} (h : numeral c cs = d :: ds) : numeral d ds = d :: ds := by
  have hhead : d = c := by
    obtain ⟨rest, hrest⟩ := h ▸ numeral_isPrefix c cs
    exact (List.cons.inj hrest).1
  subst hhead
  unfold numeral at h
  split at h
  · next hd =>
    rw [numeral, if_pos hd, ← h]
    exact unsignedPart_self _
  · next hd =>
    split at h
    · next hsign =>
      obtain rfl := (List.cons.inj h).2
      rw [numeral, if_neg hd, if_pos ⟨hsign.1, startsDigits_unsignedPart hsign.2⟩, unsignedPart_self]
    · next hsign =>
      split at h
      · next hpoint =>
        obtain ⟨rfl, hcs⟩ := hpoint
        have hds : startsDigits ds = true := by
          rw [← (List.cons.inj h).2]
          exact startsDigits_append_of hcs _
        rw [numeral, if_neg hd, if_neg (by simp), if_pos ⟨rfl, hds⟩, ← h]
        exact pointPart_self _
      · cases h

/-- A mark alone is the same mark. -/
theorem mark?_self {c : Char} {cs text : List Char} {m : Mark} (h : mark? c cs = some (m, text)) :
    ∃ ds, text = c :: ds ∧ mark? c ds = some (m, text) ∧ numeral c ds = [] := by
  unfold mark? at h
  split at h <;> cases h <;> exact ⟨_, rfl, rfl, rfl⟩

/-- The text of a token alone is scanned as that token. -/
theorem piece_self {c : Char} {cs text : List Char} {kind : Kind} (h : piece c cs = ⟨some kind, text⟩) :
    ∃ ds, text = c :: ds ∧ piece c ds = ⟨some kind, text⟩ := by
  have hof := pieceOf_piece c cs
  rw [h] at hof
  cases hof with
  | word hc =>
    have hword : PieceOf c (cs.takeWhile continuesWord)
        ⟨some .word, c :: (cs.takeWhile continuesWord).takeWhile continuesWord⟩ := .word hc
    rw [List.takeWhile_idem] at hword
    exact ⟨_, rfl, hword.eq⟩
  | number hnumeral =>
    obtain ⟨rest, hrest⟩ := hnumeral ▸ numeral_isPrefix c cs
    obtain ⟨rfl, -⟩ := List.cons.inj hrest
    exact ⟨_, rfl, (PieceOf.number (numeral_self hnumeral)).eq⟩
  | mark hnumeral hmark =>
    obtain ⟨ds, rfl, hmark', hnumeral'⟩ := mark?_self hmark
    exact ⟨ds, rfl, (PieceOf.mark hnumeral' hmark').eq⟩

/-- The text of the token alone is scanned as that token. -/
def Alone (t : Token) : Prop := ∃ c cs, t.text.toList = c :: cs ∧ piece c cs = ⟨some t.kind, t.text.toList⟩

end Scan

/-- The tokens of a text in front of its end are tokens by themselves. -/
theorem alone_tokensIn (source : String) : ∀ t ∈ tokensIn source, Scan.Alone t := by
  intro t ht
  obtain ⟨htokens, hinner⟩ := tokenize_eq source
  have hmem : t ∈ tokenize source := by simp [htokens, ht]
  obtain ⟨c, cs, hpiece⟩ := Scan.exists_piece 0 source.toList t hmem (hinner t ht).1
  obtain ⟨ds, htext, hself⟩ := Scan.piece_self hpiece
  exact ⟨c, ds, htext, hself⟩

end Logo
