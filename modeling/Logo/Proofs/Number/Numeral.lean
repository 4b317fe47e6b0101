import Logo.Proofs.Number.Shortest

/-! Numerals. What is written for a finite double is a plain decimal, with a minus sign before it or without, and it is
read as the double again; only the sign of a zero is lost. -/
namespace Logo.Number

/-- The characters are digits, with a point and further digits behind them or without, and stand for `d · 10^e`. -/
inductive Numeral : List Char → Nat → Int → Prop where
  | whole {ds : List Char} : ds ≠ [] → (∀ c ∈ ds, c.isDigit = true) → Numeral ds (digitsValue ds) 0
  | point {ds fs : List Char} : ds ≠ [] → (∀ c ∈ ds, c.isDigit = true) → (∀ c ∈ fs, c.isDigit = true) →
    Numeral (ds ++ '.' :: fs) (digitsValue (ds ++ fs)) (-fs.length)

/-! ### The value of digits -/

theorem digitsValue_append (ds fs : List Char) : digitsValue (ds ++ fs) = Nat.ofDigitChars 10 fs (digitsValue ds) :=
  Nat.ofDigitChars_append 0

theorem digitsValue_toDigits (n : Nat) : digitsValue (Nat.toDigits 10 n) = n :=
  Nat.ofDigitChars_toDigits (by norm_num) (by norm_num)

theorem ofDigitChars_zeros (k n : Nat) : Nat.ofDigitChars 10 (List.replicate k '0') n = n * 10 ^ k := by
  induction k generalizing n with
  | zero => simp [Nat.ofDigitChars]
  | succ k ih =>
    rw [List.replicate_succ, Nat.ofDigitChars_cons, ih, pow_succ]
    simp
    ring

theorem isDigit_toDigits (n : Nat) : ∀ c ∈ Nat.toDigits 10 n, c.isDigit = true :=
  fun _ hc => Nat.isDigit_of_mem_toDigits (by norm_num) (by norm_num) hc

theorem isDigit_zeros (k : Nat) : ∀ c ∈ List.replicate k '0', c.isDigit = true := by
  intro c hc
  rw [List.eq_of_mem_replicate hc]
  rfl

section
variable {s : List Char} (hdigits : ∀ c ∈ s, c.isDigit = true)
include hdigits

theorem Numeral.zerosBehind (hne : s ≠ []) (k : Nat) :
    Numeral (s ++ List.replicate k '0') (digitsValue s * 10 ^ k) 0 := by
  rw [← ofDigitChars_zeros, ← digitsValue_append]
  refine .whole (by simp [hne]) fun c hc => ?_
  exact (List.mem_append.mp hc).elim (hdigits c) (isDigit_zeros k c)

theorem Numeral.pointWithin (hne : s ≠ []) {k : Nat} (hk : k ≠ 0) :
    Numeral (s.take k ++ '.' :: s.drop k) (digitsValue s) (-(s.drop k).length) := by
  have htake : s.take k ≠ [] := by simp [List.take_eq_nil_iff, hk, hne]
  have hnumeral := Numeral.point htake (fun c hc => hdigits c (List.mem_of_mem_take hc)) fun c hc =>
    hdigits c (List.mem_of_mem_drop (i := k) hc)
  rwa [List.take_append_drop] at hnumeral

theorem Numeral.zerosBefore (k : Nat) :
    Numeral ('0' :: '.' :: (List.replicate k '0' ++ s)) (digitsValue s) (-(List.replicate k '0' ++ s).length) := by
  have hfraction : ∀ c ∈ List.replicate k '0' ++ s, c.isDigit = true := fun c hc =>
    (List.mem_append.mp hc).elim (isDigit_zeros k c) (hdigits c)
  have hzeros : digitsValue (['0'] ++ (List.replicate k '0' ++ s)) = digitsValue s := by
    rw [← List.append_assoc, digitsValue_append, digitsValue_append, ofDigitChars_zeros]
    simp [digitsValue, Nat.ofDigitChars]
  have hnumeral := Numeral.point (List.cons_ne_nil '0' []) (by simp) hfraction
  rwa [hzeros] at hnumeral

end

/-- The layout of a decimal is a numeral for it. The digits stay as they are unless the decimal is a whole number. -/
theorem Decimal.numeral_positional (D : Decimal) :
    ∃ d e, Numeral (D.positional "").toList d e ∧ (d * 10 ^ e : ℚ) = D.digits * 10 ^ D.exponent ∧
      (d = D.digits ∨ e = 0) := by
  obtain ⟨n, e⟩ := D
  have hdigits := isDigit_toDigits n
  have hvalue := digitsValue_toDigits n
  have hne : Nat.toDigits 10 n ≠ [] := Nat.toDigits_ne_nil
  unfold positional
  dsimp only
  generalize Nat.toDigits 10 n = s at hdigits hvalue hne
  subst hvalue
  split_ifs with hwhole hpoint
  · obtain ⟨k, rfl⟩ := Int.eq_ofNat_of_zero_le hwhole
    refine ⟨digitsValue s * 10 ^ k, 0, ?_, ?_, .inr rfl⟩
    · simpa using Numeral.zerosBehind hdigits hne k
    · push_cast
      simp
  · refine ⟨digitsValue s, e, ?_, rfl, .inl rfl⟩
    have hlength : -((s.drop (s.length + e).toNat).length : Int) = e := by
      rw [List.length_drop]
      omega
    have hnumeral := Numeral.pointWithin hdigits hne (k := (s.length + e).toNat) (by omega)
    rw [hlength] at hnumeral
    rwa [String.toList_ofList]
  · refine ⟨digitsValue s, e, ?_, rfl, .inl rfl⟩
    have hlength : -((List.replicate (-(s.length + e)).toNat '0' ++ s).length : Int) = e := by
      rw [List.length_append, List.length_replicate]
      omega
    have hnumeral := Numeral.zerosBefore hdigits (-(s.length + e)).toNat
    rw [hlength] at hnumeral
    rwa [String.toList_ofList]

/-! ### Reading and writing -/

theorem takeWhile_digits {ds : List Char} (hdigits : ∀ c ∈ ds, c.isDigit = true) {rest : List Char}
    (hrest : ∀ c more, rest = c :: more → c.isDigit = false) :
    (ds ++ rest).takeWhile Char.isDigit = ds ∧ (ds ++ rest).dropWhile Char.isDigit = rest := by
  have hnone : rest.takeWhile Char.isDigit = [] ∧ rest.dropWhile Char.isDigit = rest := by
    cases rest with
    | nil => exact ⟨rfl, rfl⟩
    | cons c more => simp [hrest c more rfl]
  rw [List.takeWhile_append_of_pos hdigits, List.dropWhile_append_of_pos hdigits, hnone.1, hnone.2, List.append_nil]
  exact ⟨rfl, rfl⟩

theorem Numeral.readMagnitude {cs : List Char} {d : Nat} {e : Int} (h : Numeral cs d e) :
    Number.readMagnitude cs = ofDecimal d e := by
  cases h with
  | whole _ hdigits =>
    have htake := List.takeWhile_eq_self_iff.mpr hdigits
    have hdrop := List.dropWhile_eq_nil_iff.mpr hdigits
    simp only [Number.readMagnitude, htake, hdrop, readExponent]
  | @point ds fs _ hdigits hfraction =>
    have hpoint : ∀ c more, '.' :: fs = c :: more → c.isDigit = false := by
      intro c more h
      cases h
      rfl
    obtain ⟨htake, hdrop⟩ := takeWhile_digits hdigits hpoint
    have htake' := List.takeWhile_eq_self_iff.mpr hfraction
    have hdrop' := List.dropWhile_eq_nil_iff.mpr hfraction
    simp only [Number.readMagnitude, htake, hdrop, htake', hdrop', readExponent, zero_sub]

/-- A numeral starts with a digit. -/
theorem Numeral.exists_head {cs : List Char} {d : Nat} {e : Int} (h : Numeral cs d e) :
    ∃ c rest, cs = c :: rest ∧ c.isDigit = true := by
  cases h with
  | whole hne hdigits =>
    obtain ⟨c, rest, rfl⟩ := List.exists_cons_of_ne_nil hne
    exact ⟨c, rest, rfl, hdigits c (by simp)⟩
  | point hne hdigits _ =>
    obtain ⟨c, rest, rfl⟩ := List.exists_cons_of_ne_nil hne
    exact ⟨c, _, rfl, hdigits c (by simp)⟩

inductive Written : List Char → Float → Prop where
  | plain {cs : List Char} {d : Nat} {e : Int} : Numeral cs d e → Written cs (ofDecimal d e)
  | negative {cs : List Char} {d : Nat} {e : Int} : Numeral cs d e → Written ('-' :: cs) (-ofDecimal d e)

theorem Written.read {cs : List Char} {x : Float} (h : Written cs x) : Number.read cs = x := by
  cases h with
  | plain h =>
    obtain ⟨c, rest, rfl, hc⟩ := h.exists_head
    have hminus : c ≠ '-' := by
      rintro rfl
      exact absurd hc (by decide)
    have hplus : c ≠ '+' := by
      rintro rfl
      exact absurd hc (by decide)
    rw [Number.read.eq_3 _ (by simp [hminus]) (by simp [hplus]), h.readMagnitude]
  | negative h => rw [Number.read, h.readMagnitude]

theorem Written.ne_nil {cs : List Char} {x : Float} (h : Written cs x) : cs ≠ [] := by
  cases h with
  | plain h =>
    obtain ⟨c, rest, rfl, -⟩ := h.exists_head
    simp
  | negative h => simp

namespace Format
variable {f : Format} (hpositional : ∀ k, f.positional k = true) (hmark : f.wholeMark = "")
include hpositional hmark

/-- The text of the magnitude of a double is a numeral for it. -/
theorem numeral_magnitude {m : Nat} {q : Int} (hq : Canonical m q) :
    ∃ d e, Numeral (f.magnitude m q).toList d e ∧ ofDecimal d e = double m q := by
  rcases Nat.eq_zero_or_pos m with rfl | hm
  · obtain rfl := hq.exponent_zero
    have hzero : (f.magnitude 0 (-1074)).toList = ['0'] := by simp [magnitude, hmark]
    rw [hzero]
    exact ⟨_, _, .whole (by simp) (by simp), rfl⟩
  · obtain ⟨hdigits, hlength, hround⟩ := Decimal.shortest_roundsTo f.tie hm hq
    obtain ⟨d, e, hnumeral, hvalue, hshape⟩ := (Decimal.shortest f.tie m q).numeral_positional
    have htext : f.magnitude m q = (Decimal.shortest f.tie m q).positional "" := by
      simp [magnitude, hm.ne', hpositional, hmark]
    rw [← hvalue] at hround
    have hd : 0 < d := by
      rcases Nat.eq_zero_or_pos d with rfl | hd
      · have hrange := (hround.range hm hq).1
        rw [Nat.cast_zero, zero_mul] at hrange
        exact absurd hrange (not_lt.mpr (by positivity))
      · exact hd
    have hlog : d.log2 < 1100 := by
      rw [Nat.log2_lt hd.ne']
      rcases hshape with hsame | rfl
      · exact (hsame ▸ hlength).trans_lt (by decide +kernel)
      · have hrange := (hround.range hm hq).2
        rw [zpow_zero, mul_one] at hrange
        have hless : d < 10 ^ 309 := by exact_mod_cast hrange
        exact hless.trans (by decide +kernel)
    rw [htext]
    exact ⟨d, e, hnumeral, ofDecimal_eq hm hq hd hlog hround⟩

end Format

theorem double_zero : double 0 (-1074) = 0 := rfl

def unsignZero (x : Float) : Float := if x = -0 then 0 else x

/-- What is written for a finite double stands for it, up to the sign of a zero. -/
theorem Format.written_write {f : Format} (hpositional : ∀ k, f.positional k = true) (hmark : f.wholeMark = "")
    (hzero : f.signedZero = false) {x : Float} (hx : x.isFinite = true) :
    Written (f.write x).toList (unsignZero x) := by
  obtain ⟨negative, m, q, hdecode⟩ := exists_decode_of_isFinite hx
  obtain ⟨hq, -⟩ := decode_finite hdecode
  obtain ⟨d, e, hnumeral, hread⟩ := numeral_magnitude hpositional hmark hq
  have hminus : decode (-0) = .finite true 0 (-1074) := by decide
  unfold write unsignZero
  rw [hdecode, hzero]
  cases negative with
  | false =>
    have hne : x ≠ -0 := by
      rintro rfl
      rw [hminus] at hdecode
      cases hdecode
    rw [if_neg hne, eq_double_of_decode hdecode, ← hread]
    exact .plain hnumeral
  | true =>
    rcases Nat.eq_zero_or_pos m with rfl | hm
    · obtain rfl := hq.exponent_zero
      have hsame := eq_neg_double_of_decode hdecode
      rw [double_zero] at hsame hread
      rw [if_pos hsame, ← hread]
      exact .plain hnumeral
    · have hne : x ≠ -0 := by
        rintro rfl
        rw [hminus, Decoded.finite.injEq] at hdecode
        omega
      rw [if_neg hne, eq_neg_double_of_decode hdecode, ← hread]
      simp only [hm.ne', bne_iff_ne, ne_eq, not_false_eq_true, Bool.or_false, Bool.true_and, if_true,
        String.toList_append]
      exact .negative hnumeral

end Logo.Number
