import Logo.Proofs.Pieces
import Logo.Proofs.Renaming
import Logo.Token.Scan
import Mathlib

/-! Scanning and letter case. A text in upper case has the tokens of the text itself, with their words in upper case:
no class of characters that the scanner knows tells a letter from its other case, and an exponent may have either
mark. -/
namespace Logo

abbrev upper (cs : List Char) : List Char := cs.map Char.toUpper

section Letters
variable {c x : Char}

theorem toUpper_eq_or (c : Char) : c.toUpper = c ∨ c.isLower = true ∧ c.toUpper.isUpper = true := by
  by_cases h : c.isLower
  · exact .inr ⟨h, by simp [Char.isAlpha, h]⟩
  · exact .inl (Char.toUpper_eq_of_not_isLower h)

/-- What has one value on all small and all capital letters is blind to case. -/
theorem class_toUpper {β : Type} {p : Char → β} (b : β) (hl : ∀ c : Char, c.isLower → p c = b)
    (hu : ∀ c : Char, c.isUpper → p c = b) (c : Char) : p c.toUpper = p c := by
  rcases toUpper_eq_or c with h | ⟨h, h'⟩
  · rw [h]
  · rw [hl c h, hu _ h']

theorem toUpper_eq_iff (hx : x.isAlpha = false) : c.toUpper = x ↔ c = x := by
  have h := class_toUpper (p := (· == x)) false
    (fun c hc => beq_eq_false_iff_ne.mpr fun he => by simp [← he, Char.isAlpha, hc] at hx)
    (fun c hc => beq_eq_false_iff_ne.mpr fun he => by simp [← he, Char.isAlpha, hc] at hx) c
  rwa [Bool.eq_iff_iff, beq_iff_eq, beq_iff_eq] at h

theorem isDigit_toUpper (c : Char) : c.toUpper.isDigit = c.isDigit := by
  refine class_toUpper false (fun c h => ?_) (fun c h => ?_) c
  · simp only [Char.isLower, Char.isDigit, UInt32.le_iff_toNat_le] at *
    grind
  · simp only [Char.isUpper, Char.isDigit, UInt32.le_iff_toNat_le] at *
    grind

theorem isAlphanum_toUpper (c : Char) : c.toUpper.isAlphanum = c.isAlphanum := by
  simp only [Char.isAlphanum, Char.isAlpha_toUpper_eq_isAlpha, isDigit_toUpper]

theorem utf8Size_toUpper (c : Char) : c.toUpper.utf8Size = c.utf8Size := by
  refine class_toUpper 1 (fun c h => ?_) (fun c h => ?_) c
  · simp only [Char.isLower, Char.utf8Size, UInt32.le_iff_toNat_le] at *
    grind
  · simp only [Char.isUpper, Char.utf8Size, UInt32.le_iff_toNat_le] at *
    grind

end Letters

theorem takeWhile_upper {p : Char → Bool} (h : ∀ c : Char, p c.toUpper = p c) (cs : List Char) :
    (upper cs).takeWhile p = upper (cs.takeWhile p) := by
  rw [upper, List.takeWhile_map]
  exact congrArg _ (congrArg (List.takeWhile · cs) (funext h))

theorem dropWhile_upper {p : Char → Bool} (h : ∀ c : Char, p c.toUpper = p c) (cs : List Char) :
    (upper cs).dropWhile p = upper (cs.dropWhile p) := by
  rw [upper, List.dropWhile_map]
  exact congrArg _ (congrArg (List.dropWhile · cs) (funext h))

theorem byteLength_upper (cs : List Char) : Text.byteLength (upper cs) = Text.byteLength cs := by
  rw [Text.byteLength, List.foldl_map]
  simp only [utf8Size_toUpper]
  rfl

theorem toUpper_of_isDigit {c : Char} (h : c.isDigit) : c.toUpper = c := by
  refine Char.toUpper_eq_of_not_isLower fun hl => ?_
  simp only [Char.isLower, Char.isDigit, UInt32.le_iff_toNat_le] at *
  grind

theorem digits_upper (cs : List Char) : (upper cs).takeWhile Char.isDigit = cs.takeWhile Char.isDigit := by
  rw [takeWhile_upper isDigit_toUpper, upper]
  conv_rhs => rw [← List.map_id (cs.takeWhile Char.isDigit)]
  exact List.map_congr_left fun c hc => toUpper_of_isDigit (List.mem_takeWhile_imp hc)

theorem exponentMark_toUpper (c : Char) : c.toUpper = 'e' ∨ c.toUpper = 'E' ↔ c = 'e' ∨ c = 'E' := by
  rcases toUpper_eq_or c with h | ⟨hl, hu⟩
  · rw [h]
  · have hc : c.toUpper.toLower = c := by
      rw [Char.toLower_toUpper_eq_toLower, Char.toLower_eq_of_not_isUpper (Char.not_isUpper_of_isLower hl)]
    constructor
    · rintro (h | h)
      · rw [h] at hu
        exact absurd hu (by decide)
      · rw [h] at hc
        exact .inl hc.symm
    · rintro (rfl | rfl)
      · exact .inr rfl
      · exact absurd hl (by decide)

/-- Upper case neither makes nor removes a head that is no letter. -/
theorem upper_ne_cons {x : Char} (hx : x.isAlpha = false) {c : Char} {cs : List Char} (h : c ≠ x) (rest : List Char) :
    upper (c :: cs) ≠ x :: rest := by
  intro he
  exact h ((toUpper_eq_iff hx).mp (List.cons.inj he).1)

namespace Number

theorem readExponent_upper (cs : List Char) : readExponent (upper cs) = readExponent cs := by
  cases cs with
  | nil => rfl
  | cons mark cs =>
    have hmark := exponentMark_toUpper mark
    cases cs with
    | nil => exact ite_congr (propext hmark) (fun _ => rfl) fun _ => rfl
    | cons sign cs =>
      by_cases hm : sign = '-'
      · subst hm
        rw [readExponent.eq_2, ← digits_upper]
        exact ite_congr (propext hmark) (fun _ => rfl) fun _ => rfl
      · by_cases hp : sign = '+'
        · subst hp
          rw [readExponent.eq_3, ← digits_upper]
          exact ite_congr (propext hmark) (fun _ => rfl) fun _ => rfl
        -- The equation for a digit has to know that neither text starts with a sign.
        · have hsigned : ∀ mark, readExponent (mark :: upper (sign :: cs)) = _ := fun mark =>
            readExponent.eq_4 mark (upper (sign :: cs)) (upper_ne_cons rfl hm) (upper_ne_cons rfl hp)
          have hplain : ∀ mark, readExponent (mark :: sign :: cs) = _ := fun mark =>
            readExponent.eq_4 mark (sign :: cs) (fun _ he => hm (List.cons.inj he).1)
              fun _ he => hp (List.cons.inj he).1
          rw [hplain, ← digits_upper]
          exact (hsigned _).trans (ite_congr (propext hmark) (fun _ => rfl) fun _ => rfl)

theorem readMagnitude_upper (cs : List Char) : readMagnitude (upper cs) = readMagnitude cs := by
  simp only [readMagnitude, digits_upper, dropWhile_upper isDigit_toUpper]
  cases cs.dropWhile Char.isDigit with
  | nil => rfl
  | cons c rest =>
    by_cases hc : c = '.'
    · subst hc
      change ofDecimal (digitsValue (_ ++ (upper rest).takeWhile Char.isDigit))
        (readExponent ((upper rest).dropWhile Char.isDigit) - ((upper rest).takeWhile Char.isDigit).length) = _
      rw [dropWhile_upper isDigit_toUpper, digits_upper, readExponent_upper]
      rfl
    · split
      · next rest' he => exact absurd he (upper_ne_cons rfl hc rest')
      · split
        · next rest' he => exact absurd (List.cons.inj he).1 hc
        · rw [readExponent_upper]

theorem read_upper (cs : List Char) : read (upper cs) = read cs := by
  cases cs with
  | nil => rfl
  | cons c cs =>
    by_cases hm : c = '-'
    · subst hm
      exact congrArg Neg.neg (readMagnitude_upper cs)
    · by_cases hp : c = '+'
      · subst hp
        exact readMagnitude_upper cs
      · rw [read.eq_3 (upper (c :: cs)) (upper_ne_cons rfl hm) (upper_ne_cons rfl hp), readMagnitude_upper,
          read.eq_3 (c :: cs)]
        · intro rest he
          exact hm (List.cons.inj he).1
        · intro rest he
          exact hp (List.cons.inj he).1

end Number

namespace Scan

theorem isBlank_toUpper (c : Char) : isBlank c.toUpper = isBlank c := by
  simp (disch := decide) only [isBlank, toUpper_eq_iff]

theorem startsWord_toUpper (c : Char) : startsWord c.toUpper = startsWord c := by
  simp (disch := decide) only [startsWord, Char.isAlpha_toUpper_eq_isAlpha, toUpper_eq_iff]

theorem continuesWord_toUpper (c : Char) : continuesWord c.toUpper = continuesWord c := by
  simp (disch := decide) only [continuesWord, isAlphanum_toUpper, toUpper_eq_iff]

theorem startsDigits_upper (cs : List Char) : startsDigits (upper cs) = startsDigits cs := by
  cases cs with
  | nil => rfl
  | cons c cs => exact isDigit_toUpper c

theorem fractionPart_upper (cs : List Char) : fractionPart (upper cs) = upper (fractionPart cs) := by
  cases cs with
  | nil => rfl
  | cons c cs =>
    by_cases hc : c = '.'
    · subst hc
      exact congrArg ('.' :: ·) (takeWhile_upper isDigit_toUpper cs)
    · rw [fractionPart.eq_2 _ (upper_ne_cons rfl hc), fractionPart.eq_2 _ fun _ he => hc (List.cons.inj he).1]
      rfl

theorem exponentPart_upper (cs : List Char) : exponentPart (upper cs) = upper (exponentPart cs) := by
  cases cs with
  | nil => rfl
  | cons e cs =>
    simp only [List.map_cons, exponentPart, exponentMark_toUpper, startsDigits_upper, takeWhile_upper isDigit_toUpper]
    split
    · split
      · rfl
      · cases cs with
        | nil => rfl
        | cons sign ds =>
          simp (disch := decide) only [List.map_cons, startsDigits_upper, takeWhile_upper isDigit_toUpper,
            toUpper_eq_iff]
          split <;> rfl
    · rfl

theorem unsignedPart_upper (cs : List Char) : unsignedPart (upper cs) = upper (unsignedPart cs) := by
  simp only [unsignedPart, takeWhile_upper isDigit_toUpper, List.length_map, ← List.map_drop, fractionPart_upper,
    ← List.map_append, exponentPart_upper]

theorem pointPart_upper (cs : List Char) : pointPart (upper cs) = upper (pointPart cs) := by
  simp only [pointPart, fractionPart_upper, List.length_map, ← List.map_drop, exponentPart_upper, List.map_append]

theorem numeral_upper (c : Char) (cs : List Char) : numeral c.toUpper (upper cs) = upper (numeral c cs) := by
  simp (disch := decide) only [numeral, isDigit_toUpper, startsDigits_upper, toUpper_eq_iff]
  split
  · exact unsignedPart_upper (c :: cs)
  · split
    · exact congrArg (c.toUpper :: ·) (unsignedPart_upper cs)
    · split
      · exact pointPart_upper (c :: cs)
      · rfl

theorem mark?_upper (c : Char) (cs : List Char) : mark? c.toUpper (upper cs) = mark? c cs := by
  by_cases hl : c = '<'
  · subst hl
    cases cs with
    | nil => rfl
    | cons d ds =>
      by_cases he : d = '='
      · subst he
        rfl
      · by_cases hg : d = '>'
        · subst hg
          rfl
        · rw [mark?_less he hg]
          exact mark?_less (fun h => he ((toUpper_eq_iff rfl).mp h)) (fun h => hg ((toUpper_eq_iff rfl).mp h)) _
  · by_cases hg : c = '>'
    · subst hg
      cases cs with
      | nil => rfl
      | cons d ds =>
        by_cases he : d = '='
        · subst he
          rfl
        · rw [mark?_greater he]
          exact mark?_greater (fun h => he ((toUpper_eq_iff rfl).mp h)) _
    -- A character that has another upper case is a letter, and no letter is a mark.
    · rcases toUpper_eq_or c with hc | ⟨hlower, hupper⟩
      · rw [hc]
        exact mark?_congr hl hg _ _
      · rw [mark?_of_isAlpha (by simp [Char.isAlpha, hupper]), mark?_of_isAlpha (by simp [Char.isAlpha, hlower])]

theorem upper_mark {c : Char} {cs text : List Char} {m : Mark} (h : mark? c cs = some (m, text)) :
    upper text = text := by
  unfold mark? at h
  split at h <;> cases h <;> rfl

theorem piece_upper (c : Char) (cs : List Char) :
    piece c.toUpper (upper cs) = ⟨(piece c cs).kind?, upper (piece c cs).text⟩ := by
  have hsemicolon : c.toUpper = ';' ↔ c = ';' := toUpper_eq_iff rfl
  have hline : (upper cs).takeWhile (· ≠ '\n') = upper (cs.takeWhile (· ≠ '\n')) :=
    takeWhile_upper (fun d => by simp (disch := decide) only [ne_eq, toUpper_eq_iff]) cs
  simp only [piece, isBlank_toUpper, startsWord_toUpper, hsemicolon, takeWhile_upper isBlank_toUpper,
    takeWhile_upper continuesWord_toUpper, hline, numeral_upper, mark?_upper]
  split
  · rfl
  · split
    · rfl
    · split
      · rfl
      · cases hn : numeral c cs with
        | cons d ds =>
          have hread := Number.read_upper (d :: ds)
          simp only [List.map_cons] at hread ⊢
          rw [hread]
        | nil =>
          simp only [List.map_nil]
          split
          · next m text hm => rw [upper_mark hm]
          · rfl

end Scan

theorem toList_fold (s : String) : (fold s).toList = upper s.toList := by
  rw [fold_eq, String.toList_ofList]

theorem fold_append (s t : String) : fold (s ++ t) = fold s ++ fold t := by
  apply String.toList_injective
  simp only [toList_fold, String.toList_append, List.map_append]

def Renaming.caseless : Renaming where
  span s := s
  name := fold
  description s := if s = "end of input" then s else fold s
  span_merge _ _ := rfl
  fold_name := fold_fold
  name_folded _ h := h
  description_finish := rfl
  description_text s := by
    have hne : "`" ++ s ++ "`" ≠ "end of input" := by
      intro h
      have hhead := congrArg (fun t : String => t.toList.head?) h
      simp at hhead
    have hquote : fold "`" = "`" := by
      rw [fold_eq]
      decide
    rw [if_neg hne, fold_append, fold_append, hquote]

theorem rename_finishAt (offset : Nat) : (Token.finishAt offset).rename .caseless = .finishAt offset := by
  have hempty : fold "" = "" := by
    rw [fold_eq]
    rfl
  exact congrArg (Token.mk .finish · ⟨offset, offset⟩) hempty

theorem fold_ofList (cs : List Char) : fold (String.ofList cs) = String.ofList (upper cs) := by
  rw [fold_eq, String.toList_ofList]

theorem Scan.tokensFrom_upper (offset : Nat) (cs : List Char) :
    tokensFrom offset (upper cs) = (tokensFrom offset cs).map (Token.rename .caseless) := by
  fun_induction tokensFrom offset cs with
  | case1 offset =>
    rw [List.map_cons, rename_finishAt]
    rw [upper, List.map_nil, tokensFrom]
    rfl
  | case2 offset c cs p stop rest kind hk ih =>
    rw [upper, List.map_cons, tokensFrom]
    simp only [piece_upper, byteLength_upper, List.length_map, ← List.map_drop]
    rw [show (piece c cs).kind? = some kind from hk, List.map_cons, ← ih]
    refine congrArg (Token.mk kind · _ :: _) ?_
    exact (fold_ofList _).symm
  | case3 offset c cs p stop rest hk ih =>
    rw [upper, List.map_cons, tokensFrom]
    simp only [piece_upper, byteLength_upper, List.length_map, ← List.map_drop]
    rw [show (piece c cs).kind? = none from hk, ← ih]

/-- The tokens of a text in capital letters are its tokens, in capital letters. -/
theorem tokenize_fold (source : String) :
    tokenize (fold source) = (tokenize source).map (Token.rename .caseless) := by
  rw [tokenize, toList_fold]
  exact Scan.tokensFrom_upper 0 source.toList

end Logo
