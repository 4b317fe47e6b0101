import Logo.Proofs.Number.Shortest
import Logo.Proofs.Number.Whole
import Logo.Value

/-! Whole numbers in decimal. The shortest decimal of a whole number of at most 53 bits is the number itself, so its
text is that of an integer. -/
namespace Logo.Number

/-! ### The shortest decimal -/

section
variable {m : Nat} {q : Int} {k : Nat}

/-- Whole numbers of at most 53 bits have no exponent above zero. -/
theorem Canonical.exponent_le_zero (hq : Canonical m q) (hvalue : (m : ℚ) * 2 ^ q = k) (hk : k < 2 ^ 53) : q ≤ 0 := by
  by_contra hpositive
  have hleading : (2 : ℚ) ^ 52 ≤ m := by exact_mod_cast hq.leading.resolve_right (by omega)
  have hpower : (2 : ℚ) ^ (1 : Int) ≤ 2 ^ q := zpow_le_zpow_right₀ (by norm_num) (by omega)
  have hlarge : (2 : ℚ) ^ 52 * 2 ^ (1 : Int) ≤ k := by
    rw [← hvalue]
    gcongr
  have hlarge' : 2 ^ 53 ≤ k := by
    norm_num at hlarge ⊢
    exact_mod_cast hlarge
  omega

/-- A whole number that rounds to another one of at most 53 bits is that number. -/
theorem RoundsTo.eq_of_whole {j : Nat} (h : RoundsTo j m q) (hvalue : (m : ℚ) * 2 ^ q = k) (hq : q ≤ 0) : j = k := by
  have hpos : (0 : ℚ) < 2 ^ q := by positivity
  have hone : (2 : ℚ) ^ q ≤ 1 := zpow_le_one_of_nonpos₀ (by norm_num) hq
  have hgap := gapBelow_le m q
  have hlow : (k : ℚ) - 1 / 2 ≤ j := by
    have hunits := (le_div_iff₀ hpos).mp h.low
    have hless : (m - 1 / 2) * (2 : ℚ) ^ q ≤ (m - gapBelow m q) * 2 ^ q := by gcongr
    linarith
  have hhigh : (j : ℚ) ≤ k + 1 / 2 := by
    have hunits := (div_le_iff₀ hpos).mp h.high
    linarith
  have hless : (j : ℚ) < k + 1 := by linarith
  have hgreater : (k : ℚ) < j + 1 := by linarith
  have hless' : j < k + 1 := by exact_mod_cast hless
  have hgreater' : k < j + 1 := by exact_mod_cast hgreater
  omega

namespace Decimal

/-- With all its digits before the point a whole number is found. -/
theorem exists_pick?_zero (tie : Tie) (hm : 0 < m) (hvalue : (m : ℚ) * 2 ^ q = k) :
    ∃ d, (Interval.around m q).pick? tie 0 = some d := by
  obtain ⟨hfloor, hnext⟩ := Interval.floorAt_bounds m q 0
  rw [hvalue, zpow_zero, div_one] at hfloor hnext
  have hfloor' : (Interval.around m q).floorAt 0 ≤ k := by exact_mod_cast hfloor
  have hnext' : k < (Interval.around m q).floorAt 0 + 1 := by exact_mod_cast hnext
  have hsame : (Interval.around m q).floorAt 0 = k := by omega
  apply Interval.exists_pick? hm
  rw [hsame, zpow_zero, mul_one, ← hvalue]
  exact .inl (.self m q)

/-- The shortest decimal of a whole number is the number, without digits behind the point. -/
theorem shortest_of_whole (tie : Tie) (hm : 0 < m) (hq : Canonical m q) (hvalue : (m : ℚ) * 2 ^ q = k)
    (hk : k < 2 ^ 53) : ∃ e : Nat, (shortest tie m q).exponent = e ∧ (shortest tie m q).digits * 10 ^ e = k := by
  obtain ⟨n, d, hn, -, hpick, hfirst, hshortest⟩ := exists_of_shortest tie hm hq
  obtain ⟨-, htop⟩ := top_bounds hm hq
  obtain ⟨_, hzero⟩ := exists_pick?_zero tie hm hvalue
  have hround := (Interval.pick?_sound hm hpick).1
  generalize (Interval.around m q).top m q = top at hpick hfirst hshortest htop hround
  have hpositive : 0 < top := by
    have hone : (10 : ℚ) ^ (0 : Int) ≤ m * 2 ^ q := by
      have hk' : (0 : ℚ) < k := by
        rw [← hvalue]
        positivity
      have hk'' : 1 ≤ k := by exact_mod_cast hk'
      rw [hvalue, zpow_zero]
      exact_mod_cast hk''
    exact (zpow_lt_zpow_iff_right₀ (by norm_num)).mp (hone.trans_lt htop)
  -- The search ends where the last digit before the point is picked, or earlier.
  have hplaces : (n : Int) ≤ top := by
    by_contra hlater
    have hnone := hfirst top.toNat (by omega) (by omega)
    rw [Int.toNat_of_nonneg hpositive.le, sub_self, hzero] at hnone
    cases hnone
  obtain ⟨e, he⟩ := Int.eq_ofNat_of_zero_le (sub_nonneg.mpr hplaces)
  rw [he] at hround hshortest
  have hsame : d * 10 ^ e = k := by
    have hwhole : RoundsTo ((d * 10 ^ e : Nat) : ℚ) m q := by
      push_cast
      exact_mod_cast hround
    exact hwhole.eq_of_whole hvalue (hq.exponent_le_zero hvalue hk)
  rw [hshortest]
  split_ifs with hlast
  · refine ⟨e + 1, rfl, ?_⟩
    rw [pow_succ', ← mul_assoc, Nat.div_mul_cancel (Nat.dvd_of_mod_eq_zero hlast), hsame]
  · exact ⟨e, rfl, hsame⟩

end Decimal
end

/-! ### The text -/

theorem toDigits_mul_pow {n : Nat} (hn : 0 < n) (e : Nat) :
    Nat.toDigits 10 (n * 10 ^ e) = Nat.toDigits 10 n ++ List.replicate e '0' := by
  induction e with
  | zero => simp
  | succ e ih =>
    have hlast := Nat.toDigits_append_toDigits (b := 10) (n := n * 10 ^ e) (d := 0) (by norm_num) (by positivity)
      (by norm_num)
    rw [pow_succ, ← mul_assoc, mul_comm _ 10, ← add_zero (10 * _), ← hlast, ih, List.replicate_succ', List.append_assoc]
    rfl

theorem Format.magnitude_of_whole {f : Format} (hpositional : ∀ k, f.positional k = true) (hmark : f.wholeMark = "")
    {m : Nat} {q : Int} {k : Nat} (hm : 0 < m) (hq : Canonical m q) (hvalue : (m : ℚ) * 2 ^ q = k) (hk : k < 2 ^ 53) :
    f.magnitude m q = String.ofList (Nat.toDigits 10 k) := by
  obtain ⟨e, he, hdigits⟩ := Decimal.shortest_of_whole f.tie hm hq hvalue hk
  obtain ⟨hpositive, -⟩ := Decimal.shortest_roundsTo f.tie hm hq
  unfold magnitude Decimal.positional
  simp only [hm.ne', if_false, hpositional, if_true, he, Int.natCast_nonneg, Int.toNat_natCast, hmark]
  rw [← hdigits, toDigits_mul_pow hpositive, String.append_empty]

end Logo.Number

namespace Logo.Value
open Number

/-- The text of a number, case by case: zero, whole numbers of fewer than sixteen digits as signed words, and plain
decimals. -/
def numberText (n : Float) : String :=
  if n == 0 then "0"
  else if fract n == 0 && n.abs < 1e15 then toString (Number.toInt64 n)
  else plain.write n

theorem write_of_whole {n : Float} {negative : Bool} {m k : Nat} {q : Int} (hdecode : decode n = .finite negative m q)
    (hm : 0 < m) (hvalue : (m : ℚ) * 2 ^ q = k) (hk : k < 2 ^ 53) :
    numberFormat.write n = toString (if negative then -(k : Int) else k) := by
  have htext : numberFormat.magnitude m q = String.ofList (Nat.toDigits 10 k) :=
    Format.magnitude_of_whole (fun _ => rfl) rfl hm (decode_finite hdecode).1 hvalue hk
  have hsigned : (m != 0 || numberFormat.signedZero) = true := by simp [hm.ne']
  unfold Format.write
  simp only [hdecode, hsigned, Bool.and_true, htext]
  cases negative with
  | false => rfl
  | true =>
    obtain ⟨j, rfl⟩ : ∃ j, k = j + 1 := by
      refine Nat.exists_eq_succ_of_ne_zero fun hzero => ?_
      have hpositive : (0 : ℚ) < m * 2 ^ q := by positivity
      rw [hvalue, hzero, Nat.cast_zero] at hpositive
      exact lt_irrefl 0 hpositive
    rfl

theorem write_eq_plain {n : Float} {negative : Bool} {m : Nat} {q : Int} (hdecode : decode n = .finite negative m q)
    (hm : 0 < m) : numberFormat.write n = plain.write n := by
  have hsigned : ∀ mark, (m != 0 || mark) = true := by simp [hm.ne']
  unfold Format.write
  simp only [hdecode, hsigned]
  rfl

theorem write_eq_toInt64 {n : Float} {negative : Bool} {m : Nat} {q : Int} (hdecode : decode n = .finite negative m q)
    (hm : 0 < m) (hfract : (fract n == 0) = true) (hlt : n.abs < 1e15) :
    numberFormat.write n = toString (Number.toInt64 n) := by
  have hbound : value? 1e15 = some (10 ^ 15) := by
    have hdecode : decode 1e15 = .finite false (10 ^ 15 * 8) (-3) := by decide
    rw [value?, hdecode]
    norm_num [signed]
  obtain ⟨z, hz⟩ := (fract_beq_zero_iff n).mp hfract
  rw [lt_iff (value?_abs hz) hbound] at hlt
  have hlt' : (z.natAbs : Int) < 10 ^ 15 := by
    rw [← Int.abs_eq_natAbs]
    exact_mod_cast hlt
  have hword : (Number.toInt64 n).toInt = z := by
    rw [toInt_toInt64 hz]
    omega
  have hsigned : signed negative (m * 2 ^ q) = z := by
    rw [value?, hdecode] at hz
    exact Option.some.inj hz
  have hnonneg : (0 : ℚ) ≤ m * 2 ^ q := by positivity
  have hmagnitude : (m : ℚ) * 2 ^ q = z.natAbs := by
    rw [Nat.cast_natAbs, Int.cast_abs, ← hsigned]
    cases negative <;> simp [signed, abs_of_nonneg hnonneg]
  have hsame : (if negative then -(z.natAbs : Int) else z.natAbs) = z := by
    rw [← Int.cast_inj (α := ℚ), ← hsigned]
    cases negative <;> simp [signed, hmagnitude]
  have htext : toString (Number.toInt64 n) = toString z := by
    rw [← hword]
    rfl
  rw [write_of_whole hdecode hm hmagnitude (by omega), hsame, htext]

/-- Whole numbers need no case of their own: the plain decimal of such a number is its integer. -/
theorem write_eq_numberText (n : Float) : numberFormat.write n = numberText n := by
  have hbeq : (n == 0) = (n.toModel.unpack.compare (0 : Float).toModel.unpack == some .eq) := rfl
  have hplain : (n == 0) = false → fract n = nan → numberText n = plain.write n := by
    intro hne hfract
    have hnan : (nan == 0) = false := by decide
    simp only [numberText, hne, hfract, hnan, Bool.false_and, Bool.false_eq_true, if_false]
  cases hx : decode n with
  | nan =>
    have hne : (n == 0) = false := by
      rw [hbeq, unpack_eq, hx]
      rfl
    rw [hplain hne (by rw [fract, hx])]
    unfold Format.write
    rw [hx]
    rfl
  | infinite negative =>
    have hne : (n == 0) = false := by
      rw [hbeq, unpack_eq, hx]
      cases negative <;> decide
    rw [hplain hne (by rw [fract, hx])]
    unfold Format.write
    rw [hx]
    rfl
  | finite negative m q =>
    have hvalue : value? n = some (signed negative (m * 2 ^ q)) := by rw [value?, hx]
    rcases Nat.eq_zero_or_pos m with rfl | hm
    · have hzero : (n == 0) = true := by
        rw [beq_iff hvalue value?_zero, signed_eq_zero]
        simp
      rw [numberText, if_pos hzero]
      unfold Format.write
      rw [hx]
      cases negative <;> rfl
    · have hne : ¬(n == 0) = true := by
        have hpositive : (0 : ℚ) < m * 2 ^ q := by positivity
        rw [beq_iff hvalue value?_zero, signed_eq_zero]
        exact hpositive.ne'
      rw [numberText, if_neg hne]
      split_ifs with hwhole
      · simp only [Bool.and_eq_true, decide_eq_true_eq] at hwhole
        exact write_eq_toInt64 hx hm hwhole.1 hwhole.2
      · exact write_eq_plain hx hm

theorem text_number (n : Float) : (Value.number n).text = numberText n := write_eq_numberText n

end Logo.Value
