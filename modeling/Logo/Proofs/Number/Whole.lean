import Logo.Proofs.Number.Exact

/-! Whole parts, fractions and signed words. Rounding down gives the floor of a value, the fraction of a double is zero
exactly for the whole numbers, and these become signed words as far as the words reach. -/
namespace Logo.Number
open Float.Model Float.Model.UnpackedFloat

/-! ### Rounding down -/

theorem Rounding.floor_signed (negative : Bool) (m : Nat) {d : Nat} (hd : 0 < d) :
    (⌊signed negative ((m : ℚ) / d)⌋ : ℚ) = signed negative (Rounding.down.magnitude negative m d) := by
  have hd' : (0 : ℚ) < d := by exact_mod_cast hd
  have hsplit := Nat.div_add_mod m d
  have hrest := Nat.mod_lt m hd
  cases negative with
  | false =>
    have hfloor : ⌊(m : ℚ) / d⌋ = (m / d : Nat) := Rat.floor_natCast_div_natCast m d
    simp only [signed, Bool.false_eq_true, if_false, magnitude, Bool.false_and, hfloor, Int.cast_natCast]
  | true =>
    obtain ⟨k, hk, hbelow, habove⟩ : ∃ k, Rounding.down.magnitude true m d = k ∧ m ≤ k * d ∧ k * d < m + d := by
      refine ⟨_, rfl, ?_⟩
      unfold magnitude
      simp only [Bool.true_and, bne_iff_ne]
      split_ifs with hzero
      · have hpositive := Nat.pos_of_ne_zero hzero
        constructor <;> linarith
      · rw [not_not] at hzero
        constructor <;> linarith
    have hfloor : ⌊-((m : ℚ) / d)⌋ = -(k : Int) := by
      rw [Int.floor_neg, neg_inj, Int.ceil_eq_iff, lt_div_iff₀ hd', div_le_iff₀ hd']
      have habove' : (k * d : ℚ) < m + d := by exact_mod_cast habove
      refine ⟨?_, by exact_mod_cast hbelow⟩
      push_cast
      linarith
    simp [signed, hfloor, hk]

theorem value?_round_down {x : Float} {v : ℚ} (hx : value? x = some v) : value? (round .down x) = some (⌊v⌋ : ℚ) := by
  obtain ⟨negative, m, q, hdecode, rfl⟩ := value?_eq_some_iff.mp hx
  have hq := (decode_finite hdecode).1
  unfold round
  rw [hdecode]
  dsimp only
  split_ifs with hwhole
  · obtain ⟨k, rfl⟩ := Int.eq_ofNat_of_zero_le hwhole
    obtain ⟨z, hz⟩ : ∃ z : Int, signed negative ((m : ℚ) * 2 ^ (k : Int)) = z := by
      cases negative
      · exact ⟨m * 2 ^ k, by simp [signed]⟩
      · exact ⟨-(m * 2 ^ k), by simp [signed]⟩
    rw [hx, hz, Int.floor_intCast]
  · -- Half the mantissa is left at most, so one more does not overflow it.
    have hd : 2 ≤ 2 ^ (-q).toNat := Nat.le_self_pow (by omega) 2
    have hbound : Rounding.down.magnitude negative m (2 ^ (-q).toNat) < 2 ^ 53 := by
      have hhalf : m / 2 ^ (-q).toNat ≤ m / 2 := Nat.div_le_div_left hd (by norm_num)
      have hm := hq.mantissa
      unfold Rounding.magnitude
      dsimp only
      split_ifs <;> omega
    have hquotient : (m : ℚ) * 2 ^ q = m / (2 ^ (-q).toNat : Nat) := by
      have hnat : q.toNat = 0 := by omega
      rw [zpow_eq_div, hnat]
      push_cast
      ring
    rw [Nat.pow_eq, value?_encode negative hbound (by norm_num) (by norm_num), zpow_zero, mul_one, hquotient,
      Rounding.floor_signed negative m (by omega)]

/-! ### Fractions -/

/-- What is behind the point of a number, with its sign. Infinities and NaN have no fraction. -/
def fract (x : Float) : Float :=
  match decode x with
  | .finite negative m q =>
    let rest := if 0 ≤ q then 0 else m % Nat.pow 2 (-q).toNat
    if rest = 0 then 0 else encode negative rest q
  | _ => nan

theorem fract_beq_zero_iff (x : Float) : (fract x == 0) = true ↔ ∃ z : Int, value? x = some (z : ℚ) := by
  have hnan : (nan == 0) = false := by decide
  have hzero : ((0 : Float) == 0) = true := by decide
  simp only [← toInt?_eq_some_iff]
  unfold fract toInt?
  cases hx : decode x with
  | nan => simp [hnan]
  | infinite negative => simp [hnan]
  | finite negative m q =>
    obtain ⟨hm, hleast, hgreatest, -⟩ := (decode_finite hx).1
    dsimp only
    by_cases hwhole : 0 ≤ q
    · simp [hwhole, hzero]
    · rw [if_neg hwhole, if_neg hwhole]
      by_cases hrest : m % Nat.pow 2 (-q).toNat = 0
      · simp only [hrest, if_true, hzero, true_iff]
        exact ⟨_, rfl⟩
      · have hpositive : (0 : ℚ) < (m % Nat.pow 2 (-q).toNat : Nat) * 2 ^ q := by
          have hcast : (0 : ℚ) < (m % Nat.pow 2 (-q).toNat : Nat) := by exact_mod_cast Nat.pos_of_ne_zero hrest
          positivity
        have hvalue := value?_encode negative ((Nat.mod_le m (Nat.pow 2 (-q).toNat)).trans_lt hm) hleast hgreatest
        rw [if_neg hrest, if_neg hrest, beq_iff hvalue value?_zero, signed_eq_zero]
        simp only [hpositive.ne', false_iff]
        simp

/-! ### Magnitudes -/

theorem abs_eq_double {x : Float} {negative : Bool} {m : Nat} {q : Int} (h : decode x = .finite negative m q) :
    x.abs = double m q := by
  have hunpack : x.toModel.unpack.abs = (double m q).toModel.unpack := by
    rw [unpack_eq, unpack_eq, h, decode_double (decode_finite h).1, Decoded.unpacked, Decoded.unpacked]
    split_ifs <;> rfl
  have hpack : UnpackedFloat.pack Format.binary64 x.toModel.unpack.abs = (double m q).toBits.toBitVec := by
    rw [hunpack]
    exact pack_unpack_of_valid (double m q).toModel.valid
  exact Float.toBits_inj.mp (congrArg UInt64.ofBitVec hpack)

theorem value?_abs {x : Float} {v : ℚ} (hx : value? x = some v) : value? x.abs = some |v| := by
  obtain ⟨negative, m, q, hdecode, rfl⟩ := value?_eq_some_iff.mp hx
  have hnonneg : (0 : ℚ) ≤ m * 2 ^ q := by positivity
  refine value?_eq_some_iff.mpr ⟨false, m, q, ?_, ?_⟩
  · rw [abs_eq_double hdecode, decode_double (decode_finite hdecode).1]
  · cases negative <;> simp [signed, abs_of_nonneg hnonneg]

/-! ### Signed words -/

/-- The whole part of a number as a signed word, cut to their range. -/
def toInt64 (x : Float) : Int64 := x.toModel.toInt64

theorem toInt64_eq (x : Float) :
    toInt64 x = Int64.ofIntClamp ((decode x).unpacked.toInt Int64.minValue.toInt Int64.maxValue.toInt) := by
  rw [← unpack_eq]
  rfl

theorem toInt_ofIntClamp (i : Int) : (Int64.ofIntClamp i).toInt = max (-2 ^ 63) (min (2 ^ 63 - 1) i) := by
  have hleast : Int64.minValue.toInt = -2 ^ 63 := by decide
  have hgreatest : Int64.maxValue.toInt = 2 ^ 63 - 1 := by decide
  unfold Int64.ofIntClamp
  split_ifs with hlow hhigh
  · rw [Int64.toInt_ofIntLE]
    omega
  · omega
  · omega

theorem toInt_toInt64 {x : Float} {z : Int} (hx : value? x = some (z : ℚ)) :
    (toInt64 x).toInt = max (-2 ^ 63) (min (2 ^ 63 - 1) z) := by
  obtain ⟨negative, m, q, hdecode, hz⟩ := value?_eq_some_iff.mp hx
  have htoInt : (decode x).unpacked.toInt Int64.minValue.toInt Int64.maxValue.toInt = z := by
    rw [hdecode, Decoded.unpacked]
    by_cases hm : 0 < m
    · rw [dif_pos hm, UnpackedFloat.toInt, roundToInt_eq]
      cases negative with
      | false =>
        have hvalue : (m : ℚ) * 2 ^ q = z := by simpa [signed] using hz.symm
        rw [hvalue, Int.floor_intCast]
        rfl
      | true =>
        have hvalue : (m : ℚ) * 2 ^ q = (-z : Int) := by
          push_cast
          simp [signed, hz]
        rw [hvalue, Int.floor_intCast]
        exact neg_neg z
    · obtain rfl : m = 0 := by omega
      have hzero : z = 0 := by
        cases negative <;> simpa [signed] using hz
      rw [dif_neg hm, hzero]
      rfl
  rw [toInt64_eq, htoInt, toInt_ofIntClamp]

end Logo.Number
