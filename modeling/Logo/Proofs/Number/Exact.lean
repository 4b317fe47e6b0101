import Logo.Number.Whole
import Logo.Proofs.Number.Nearest

/-! The exact values of doubles. The order of doubles is that of their values, the conversion to words takes the whole
part of the value, and whole numbers of at most 53 bits are values of doubles. -/
namespace Logo.Number
open Float.Model Float.Model.UnpackedFloat

def signed (negative : Bool) (v : ℚ) : ℚ := if negative then -v else v

theorem signed_eq_zero {negative : Bool} {v : ℚ} : signed negative v = 0 ↔ v = 0 := by
  cases negative <;> simp [signed]

/-- The number that a double stands for. Infinities and NaN stand for none. -/
def value? (x : Float) : Option ℚ :=
  match decode x with
  | .finite negative m q => some (signed negative (m * 2 ^ q))
  | _ => none

theorem value?_eq_some_iff {x : Float} {v : ℚ} :
    value? x = some v ↔ ∃ negative m q, decode x = .finite negative m q ∧ v = signed negative (m * 2 ^ q) := by
  unfold value?
  cases h : decode x with
  | nan => simp
  | infinite negative => simp
  | finite negative m q =>
    constructor
    · intro hv
      exact ⟨negative, m, q, rfl, (Option.some.inj hv).symm⟩
    · rintro ⟨negative', m', q', heq, rfl⟩
      cases heq
      rfl

def signOf (negative : Bool) : Sign := if negative then .negative else .positive

def Decoded.unpacked : Decoded → UnpackedFloat
  | .nan => .notANumber
  | .infinite negative => .infinity (signOf negative)
  | .finite negative m q => if h : 0 < m then .finite (signOf negative) m q h else .zero (signOf negative)

theorem sign_unpack (b : BitVec 64) :
    Sign.ofBitVec (@unpackSign Format.binary64 b) = signOf (decide (2 ^ 63 ≤ b.toNat)) := by
  have hlt := b.isLt
  have hsign := toNat_unpackSign b
  unfold Sign.ofBitVec signOf
  by_cases h : 2 ^ 63 ≤ b.toNat
  · have hne : @unpackSign Format.binary64 b ≠ 0#1 := by
      intro hzero
      rw [hzero] at hsign
      simp only [BitVec.toNat_ofNat] at hsign
      omega
    rw [if_neg hne, decide_eq_true h, if_pos rfl]
  · have hzero : @unpackSign Format.binary64 b = 0#1 := by
      apply BitVec.eq_of_toNat_eq
      rw [hsign, BitVec.toNat_ofNat]
      omega
    rw [if_pos hzero, decide_eq_false h]
    rfl

theorem toNat_leading {f : BitVec 52} : (1#1 ++ f).toNat = 2 ^ 52 + f.toNat := by
  have hlt := f.isLt
  rw [BitVec.toNat_append, ← Nat.shiftLeft_add_eq_or_of_lt hlt]
  rfl

theorem unpack_eq (x : Float) : x.toModel.unpack = (decode x).unpacked := by
  have hunpack : x.toModel.unpack = UnpackedFloat.unpack Format.binary64 x.toBits.toBitVec := rfl
  have hpower : (@unpackExponent Format.binary64 x.toBits.toBitVec).toNat = x.toBits.toNat / 2 ^ 52 % 2 ^ 11 :=
    toNat_unpackExponent _
  have hfraction : (@unpackMantissa Format.binary64 x.toBits.toBitVec).toNat = x.toBits.toNat % 2 ^ 52 :=
    toNat_unpackMantissa _
  have hones : @unpackExponent Format.binary64 x.toBits.toBitVec = -1#11 ↔
      x.toBits.toNat / 2 ^ 52 % 2 ^ 11 = 0x7ff := by
    rw [← BitVec.toNat_inj, hpower]
    rfl
  have hzeros : @unpackExponent Format.binary64 x.toBits.toBitVec = 0#11 ↔ x.toBits.toNat / 2 ^ 52 % 2 ^ 11 = 0 := by
    rw [← BitVec.toNat_inj, hpower]
    rfl
  have hwhole : @unpackMantissa Format.binary64 x.toBits.toBitVec = 0#52 ↔ x.toBits.toNat % 2 ^ 52 = 0 := by
    rw [← BitVec.toNat_inj, hfraction]
    rfl
  rw [hunpack]
  unfold UnpackedFloat.unpack decode
  simp only [sign_eq, power_eq, fraction_eq, Nat.pow_eq]
  by_cases h1 : x.toBits.toNat / 2 ^ 52 % 2 ^ 11 = 0x7ff
  · rw [if_pos (hones.mpr h1), if_pos h1]
    by_cases h2 : x.toBits.toNat % 2 ^ 52 = 0
    · rw [if_pos (hwhole.mpr h2), if_pos h2, sign_unpack]
      rfl
    · rw [if_neg (hwhole.not.mpr h2), if_neg h2]
      rfl
  · rw [if_neg (hones.not.mpr h1), if_neg h1]
    by_cases h2 : x.toBits.toNat / 2 ^ 52 % 2 ^ 11 = 0
    · rw [if_pos (hzeros.mpr h2), if_pos h2]
      by_cases h3 : x.toBits.toNat % 2 ^ 52 = 0
      · rw [dif_pos (hwhole.mpr h3), sign_unpack, h3]
        rfl
      · rw [dif_neg (hwhole.not.mpr h3), sign_unpack, Decoded.unpacked, dif_pos (Nat.pos_of_ne_zero h3)]
        simp only [hfraction, hpower, h2]
        rfl
    · rw [if_neg (hzeros.not.mpr h2), if_neg h2, sign_unpack, Decoded.unpacked, dif_pos (by omega)]
      simp only [hpower]
      have hm : (1#1 ++ @unpackMantissa Format.binary64 x.toBits.toBitVec).toNat =
          2 ^ 52 + x.toBits.toNat % 2 ^ 52 := by
        rw [← hfraction]
        exact toNat_leading
      simp only [hm]
      rfl

/-! ### Comparison -/

/-- Canonical doubles are ordered by their exponents first. -/
theorem Canonical.lt_of_exponent_lt {m m' : Nat} {q q' : Int} (h : Canonical m q) (h' : Canonical m' q') (hq : q < q') :
    (m : ℚ) * 2 ^ q < m' * 2 ^ q' := by
  have hleading : (2 : ℚ) ^ 52 ≤ m' := by exact_mod_cast h'.leading.resolve_right (by linarith [h.least])
  have hmantissa : (m : ℚ) < 2 ^ 53 := by exact_mod_cast h.mantissa
  have hstep : (2 : ℚ) ^ (q + 1) ≤ 2 ^ q' := zpow_le_zpow_right₀ (by norm_num) (by omega)
  have hpos : (0 : ℚ) < 2 ^ q := by positivity
  calc (m : ℚ) * 2 ^ q < 2 ^ 53 * 2 ^ q := by gcongr
    _ = 2 ^ 52 * 2 ^ (q + 1) := by
      rw [zpow_add₀ (by norm_num), zpow_one]
      ring
    _ ≤ m' * 2 ^ q' := by gcongr

theorem Canonical.compare_eq {m m' : Nat} {q q' : Int} (h : Canonical m q) (h' : Canonical m' q') :
    (compare q q').then (compare m m') = compare ((m : ℚ) * 2 ^ q) (m' * 2 ^ q') := by
  rcases lt_trichotomy q q' with hlt | heq | hgt
  · rw [compare_lt_iff_lt.mpr hlt, compare_lt_iff_lt.mpr (h.lt_of_exponent_lt h' hlt)]
    rfl
  · subst heq
    have hpos : (0 : ℚ) < 2 ^ q := by positivity
    have hsame : compare q q = .eq := compare_eq_iff_eq.mpr rfl
    rw [hsame, Ordering.eq_then]
    rcases lt_trichotomy m m' with hm | rfl | hm
    · have hvalue : (m : ℚ) * 2 ^ q < m' * 2 ^ q := by gcongr
      rw [compare_lt_iff_lt.mpr hm, compare_lt_iff_lt.mpr hvalue]
    · rw [compare_eq_iff_eq.mpr rfl, compare_eq_iff_eq.mpr rfl]
    · have hvalue : (m' : ℚ) * 2 ^ q < m * 2 ^ q := by gcongr
      rw [compare_gt_iff_gt.mpr hm, compare_gt_iff_gt.mpr hvalue]
  · rw [compare_gt_iff_gt.mpr hgt, compare_gt_iff_gt.mpr (h'.lt_of_exponent_lt h hgt)]
    rfl

theorem compare_neg_neg (v w : ℚ) : compare (-v) (-w) = (compare v w).swap := by
  rcases lt_trichotomy v w with h | rfl | h
  · rw [compare_lt_iff_lt.mpr h, compare_gt_iff_gt.mpr (neg_lt_neg h)]
    rfl
  · rw [compare_eq_iff_eq.mpr rfl, compare_eq_iff_eq.mpr rfl]
    rfl
  · rw [compare_gt_iff_gt.mpr h, compare_lt_iff_lt.mpr (neg_lt_neg h)]
    rfl

/-- The order of doubles is that of their values. -/
theorem compare_unpack {x y : Float} {v w : ℚ} (hx : value? x = some v) (hy : value? y = some w) :
    x.toModel.unpack.compare y.toModel.unpack = some (compare v w) := by
  obtain ⟨s, m, q, hdx, rfl⟩ := value?_eq_some_iff.mp hx
  obtain ⟨s', m', q', hdy, rfl⟩ := value?_eq_some_iff.mp hy
  have hcompare := (decode_finite hdx).1.compare_eq (decode_finite hdy).1
  have hpositive : ∀ {k : Nat} {e : Int}, 0 < k → (0 : ℚ) < k * 2 ^ e := by
    intro k e hk
    have hk' : (0 : ℚ) < k := by exact_mod_cast hk
    positivity
  rw [unpack_eq, unpack_eq, hdx, hdy, Decoded.unpacked, Decoded.unpacked]
  by_cases hm : 0 < m
  · have hv := hpositive (e := q) hm
    by_cases hm' : 0 < m'
    · have hw := hpositive (e := q') hm'
      rw [dif_pos hm, dif_pos hm']
      cases s <;> cases s'
      · exact congrArg some hcompare
      · exact congrArg some (compare_gt_iff_gt.mpr (by simp [signed]; linarith)).symm
      · exact congrArg some (compare_lt_iff_lt.mpr (by simp [signed]; linarith)).symm
      · exact congrArg some ((congrArg Ordering.swap hcompare).trans (compare_neg_neg _ _).symm)
    · obtain rfl : m' = 0 := by omega
      rw [dif_pos hm, dif_neg (by simp)]
      cases s
      · exact congrArg some (compare_gt_iff_gt.mpr (by simpa [signed] using hv)).symm
      · exact congrArg some (compare_lt_iff_lt.mpr (by simpa [signed] using hv)).symm
  · obtain rfl : m = 0 := by omega
    rw [dif_neg (by simp)]
    by_cases hm' : 0 < m'
    · have hw := hpositive (e := q') hm'
      rw [dif_pos hm']
      cases s'
      · exact congrArg some (compare_lt_iff_lt.mpr (by simpa [signed] using hw)).symm
      · exact congrArg some (compare_gt_iff_gt.mpr (by simpa [signed] using hw)).symm
    · obtain rfl : m' = 0 := by omega
      rw [dif_neg (by simp)]
      exact congrArg some (compare_eq_iff_eq.mpr (by simp [signed])).symm

/-- The order of all doubles, infinities and NaN included, as their readings tell it. -/
theorem lt_iff_compare (x y : Float) : x < y ↔ (decode x).unpacked.compare (decode y).unpacked = some .lt := by
  have hlt : x < y ↔ decide (x.toModel < y.toModel) = true := Iff.rfl
  have hcompare : x.toModel < y.toModel ↔ (x.toModel.unpack.compare y.toModel.unpack == some .lt) = true := Iff.rfl
  rw [hlt, decide_eq_true_iff, hcompare, unpack_eq, unpack_eq, beq_iff_eq]

theorem isNaN_eq (x : Float) : x.isNaN = (decode x).unpacked.isNaN := by
  have hisNaN : x.isNaN = x.toModel.unpack.isNaN := rfl
  rw [hisNaN, unpack_eq]

theorem lt_iff {x y : Float} {v w : ℚ} (hx : value? x = some v) (hy : value? y = some w) : x < y ↔ v < w := by
  rw [lt_iff_compare, ← unpack_eq, ← unpack_eq, compare_unpack hx hy]
  simp [compare_lt_iff_lt]

theorem le_iff_compare (x y : Float) :
    x ≤ y ↔ ((decode x).unpacked.compare (decode y).unpacked).any (·.isLE) = true := by
  have hle : x ≤ y ↔ decide (x.toModel ≤ y.toModel) = true := Iff.rfl
  have hcompare : x.toModel ≤ y.toModel ↔ (x.toModel.unpack.compare y.toModel.unpack).any (·.isLE) = true := Iff.rfl
  rw [hle, decide_eq_true_iff, hcompare, unpack_eq, unpack_eq]

theorem le_iff {x y : Float} {v w : ℚ} (hx : value? x = some v) (hy : value? y = some w) : x ≤ y ↔ v ≤ w := by
  rw [le_iff_compare, ← unpack_eq, ← unpack_eq, compare_unpack hx hy, Option.any_some, Ordering.isLE_iff_ne_gt]
  exact compare_le_iff_le

theorem beq_iff {x y : Float} {v w : ℚ} (hx : value? x = some v) (hy : value? y = some w) :
    (x == y) = true ↔ v = w := by
  have hbeq : (x == y) = (x.toModel.unpack.compare y.toModel.unpack == some .eq) := rfl
  rw [hbeq, compare_unpack hx hy]
  simp

/-! ### The whole part -/

theorem mantissa_shiftRight (em : ExtendedMantissa) (k : Nat) : (em >>> k).mantissa = em.mantissa / 2 ^ k := by
  induction k generalizing em with
  | zero => simp [HShiftRight.hShiftRight, Nat.repeat]
  | succ k ih =>
    have hstep : (em >>> (k + 1)).mantissa = (em >>> k).mantissa / 2 := rfl
    rw [hstep, ih, Nat.div_div_eq_div_mul, Nat.pow_succ]

theorem floor_eq (m : Nat) (q : Int) : ⌊(m : ℚ) * 2 ^ q⌋ = (m * 2 ^ q.toNat / 2 ^ (-q).toNat : Nat) := by
  have hvalue : (m : ℚ) * 2 ^ q = ((m * 2 ^ q.toNat : Nat) : ℚ) / (2 ^ (-q).toNat : Nat) := by
    rw [zpow_eq_div]
    push_cast
    ring
  rw [hvalue, Rat.floor_natCast_div_natCast]
  simp

/-- Conversion to whole numbers drops the fraction. -/
theorem roundToInt_eq (s : Sign) (m : Nat) (q : Int) : roundToInt s m q = s.apply ⌊(m : ℚ) * 2 ^ q⌋ := by
  have hmantissa : roundToInt s m q = s.apply ((ExtendedMantissa.ofMantissaAndAccuracy (m <<< (q - 0).toNat) .exact >>>
    (0 - (q - ((q - 0).toNat : Nat))).toNat).mantissa : Nat) := rfl
  have hshift : (0 - (q - ((q - 0).toNat : Nat))).toNat = (-q).toNat := by omega
  have hexact : (ExtendedMantissa.ofMantissaAndAccuracy (m <<< (q - 0).toNat) .exact).mantissa = m * 2 ^ q.toNat := by
    rw [sub_zero]
    exact Nat.shiftLeft_eq m q.toNat
  rw [hmantissa, mantissa_shiftRight, floor_eq, hshift, hexact]

theorem toNat_ofNatClamp (k : Nat) : (UInt64.ofNatClamp k).toNat = min (2 ^ 64 - 1) k := by
  have hsize : UInt64.size = 2 ^ 64 := rfl
  by_cases hk : k < UInt64.size
  · rw [UInt64.toNat_ofNatClamp_of_lt hk]
    omega
  · rw [UInt64.ofNatClamp, dif_neg hk, UInt64.toNat_ofNatLT]
    omega

/-- The whole part of a double, from 0 up to the greatest word. -/
theorem toNat_toUInt64 {x : Float} {v : ℚ} (hx : value? x = some v) :
    x.toUInt64.toNat = min (2 ^ 64 - 1) ⌊v⌋.toNat := by
  obtain ⟨s, m, q, hdecode, rfl⟩ := value?_eq_some_iff.mp hx
  have hunpack : x.toUInt64 = UInt64.ofNatClamp (x.toModel.unpack.toInt 0 (UInt64.size - 1)).toNat := rfl
  rw [hunpack, toNat_ofNatClamp, unpack_eq, hdecode, Decoded.unpacked]
  congr 1
  by_cases hm : 0 < m
  · rw [dif_pos hm, UnpackedFloat.toInt, roundToInt_eq]
    cases s
    · rfl
    · have hnonneg : (0 : ℚ) ≤ m * 2 ^ q := by positivity
      have hfloor : 0 ≤ ⌊(m : ℚ) * 2 ^ q⌋ := Int.floor_nonneg.mpr hnonneg
      have hfloor' : ⌊-((m : ℚ) * 2 ^ q)⌋ ≤ 0 := by
        have hle : ⌊-((m : ℚ) * 2 ^ q)⌋ ≤ ⌊(0 : ℚ)⌋ := Int.floor_le_floor (by linarith)
        simpa using hle
      simp only [signOf, signed, if_true, Sign.apply]
      omega
  · obtain rfl : m = 0 := by omega
    rw [dif_neg hm, UnpackedFloat.toInt]
    simp [signed]

theorem toNat_toUInt64_of_infinite {x : Float} {negative : Bool} (hx : decode x = .infinite negative) :
    x.toUInt64.toNat = if negative then 0 else 2 ^ 64 - 1 := by
  have hunpack : x.toUInt64 = UInt64.ofNatClamp (x.toModel.unpack.toInt 0 (UInt64.size - 1)).toNat := rfl
  rw [hunpack, toNat_ofNatClamp, unpack_eq, hx]
  cases negative <;> rfl

theorem toNat_toUInt64_of_nan {x : Float} (hx : decode x = .nan) : x.toUInt64.toNat = 0 := by
  have hunpack : x.toUInt64 = UInt64.ofNatClamp (x.toModel.unpack.toInt 0 (UInt64.size - 1)).toNat := rfl
  rw [hunpack, toNat_ofNatClamp, unpack_eq, hx]
  rfl

/-! ### Whole numbers -/

/-- The magnitude is a whole number if its denominator divides its numerator. -/
theorem magnitude_eq_iff {m k : Nat} {q : Int} :
    (m : ℚ) * 2 ^ q = k ↔ (if 0 ≤ q then some (m <<< q.toNat)
      else if m % Nat.pow 2 (-q).toNat = 0 then some (m / Nat.pow 2 (-q).toNat) else none) = some k := by
  rw [zpow_eq_div]
  by_cases hq : 0 ≤ q
  · have hneg : (-q).toNat = 0 := by omega
    rw [if_pos hq, hneg, pow_zero, div_one, Nat.shiftLeft_eq, Option.some.injEq]
    exact_mod_cast Iff.rfl
  · have hnat : q.toNat = 0 := by omega
    have hpos : 0 < 2 ^ (-q).toNat := by positivity
    have hpos' : (2 : ℚ) ^ (-q).toNat ≠ 0 := by positivity
    rw [if_neg hq, hnat, pow_zero, mul_one_div, div_eq_iff hpos', Nat.pow_eq]
    have hcast : (m : ℚ) = k * 2 ^ (-q).toNat ↔ m = k * 2 ^ (-q).toNat := by exact_mod_cast Iff.rfl
    rw [hcast]
    constructor
    · rintro rfl
      rw [if_pos (Nat.mul_mod_left _ _), Nat.mul_div_cancel _ hpos]
    · intro h
      by_cases hmod : m % 2 ^ (-q).toNat = 0
      · rw [if_pos hmod, Option.some.injEq] at h
        rw [← h, Nat.div_mul_cancel (Nat.dvd_of_mod_eq_zero hmod)]
      · rw [if_neg hmod] at h
        cases h

theorem toInt?_eq_some_iff {x : Float} {z : Int} : toInt? x = some z ↔ value? x = some (z : ℚ) := by
  unfold toInt? value?
  cases decode x with
  | nan => simp
  | infinite negative => simp
  | finite negative m q =>
    have hnonneg : (0 : ℚ) ≤ m * 2 ^ q := by positivity
    simp only [Option.map_eq_some_iff, Option.bind_eq_bind, Option.bind_eq_some_iff, Option.pure_def,
      ← magnitude_eq_iff, Option.some.injEq]
    constructor
    · rintro ⟨_, ⟨k, hk, rfl⟩, rfl⟩
      rw [hk]
      cases negative <;> simp [signed]
    · intro hv
      cases negative
      · have hz : (0 : ℚ) ≤ z := hv ▸ hnonneg
        obtain ⟨k, rfl⟩ := Int.eq_ofNat_of_zero_le (by exact_mod_cast hz)
        exact ⟨k, ⟨k, by exact_mod_cast hv, rfl⟩, rfl⟩
      · have hz : (z : ℚ) ≤ 0 := by
          rw [← hv]
          simpa [signed] using hnonneg
        obtain ⟨k, rfl⟩ := Int.exists_eq_neg_ofNat (by exact_mod_cast hz)
        refine ⟨k, ⟨k, ?_, rfl⟩, rfl⟩
        simpa [signed] using hv

theorem decode_double {m : Nat} {q : Int} (h : Canonical m q) : decode (double m q) = .finite false m q := by
  have hlt := h.magnitudeBits_lt
  have hword := h.toNat_toUInt64
  apply h.decode_eq
  rw [double, toBits_ofBits (by omega), hword, Bool.toNat_false]
  omega

/-- A fraction that is a double is its own nearest double. -/
theorem nearest_of_eq {n d m : Nat} {q : Int} (hn : 0 < n) (hd : 0 < d) (hq : Canonical m q)
    (h : (n : ℚ) / d = m * 2 ^ q) : nearest false n d = double m q := by
  apply nearest_eq hn hd hq
  rw [h]
  exact .self m q

/-- The bits of a nearest double, but for its sign, are those of the positive one. -/
theorem toBits_nearest {n d m : Nat} {q : Int} (hq : Canonical m q) (h : nearest false n d = double m q)
    (negative : Bool) : (nearest negative n d).toBits.toNat = negative.toNat * 2 ^ 63 + magnitudeBits m q := by
  have hlt := hq.magnitudeBits_lt
  obtain ⟨b, hb, hnearest⟩ : ∃ b ≤ 0x7ff0000000000000, ∀ negative, nearest negative n d =
      Float.ofBits (b.toUInt64 ||| if negative then 0x8000000000000000 else 0) := by
    refine ⟨_, ?_, fun negative => rfl⟩
    split_ifs <;> omega
  have hword : b.toUInt64.toNat = b := by
    simp only [Nat.toUInt64, UInt64.toNat_ofNat']
    omega
  have hdecode := decode_double hq
  rw [← h, hnearest] at hdecode
  simp only [Bool.false_eq_true, if_false, UInt64.or_zero] at hdecode
  have hfinite : b ≠ 0x7ff0000000000000 := by
    rintro rfl
    have hinfinite : decode (Float.ofBits (Nat.toUInt64 0x7ff0000000000000)) = .infinite false := by decide
    cases hinfinite.symm.trans hdecode
  have hbits : b = magnitudeBits m q := by
    have hpattern := (decode_finite hdecode).2
    rw [toBits_ofBits (by omega), hword, Bool.toNat_false] at hpattern
    omega
  have hsigned : (b.toUInt64 ||| if negative then 0x8000000000000000 else 0).toNat = negative.toNat * 2 ^ 63 + b := by
    cases negative with
    | false => simp [hword]
    | true =>
      have hor := Nat.two_pow_add_eq_or_of_lt (i := 63) (b := b) (by omega) 1
      rw [UInt64.toNat_or, hword, Nat.or_comm]
      simpa using hor.symm
  rw [hnearest, toBits_ofBits (by rw [hsigned]; cases negative <;> simp <;> omega), hsigned, hbits]

/-- Binary fractions of at most 53 bits are doubles, as far as these reach. -/
theorem exists_canonical {n : Nat} {k : Int} (hn : 0 < n) (h : n < 2 ^ 53) (hleast : -1074 ≤ k) (hgreatest : k ≤ 971) :
    ∃ m q, Canonical m q ∧ (n : ℚ) * 2 ^ k = m * 2 ^ q := by
  have hlog : n.log2 < 53 := (Nat.log2_lt hn.ne').mpr h
  have hlow := Nat.log2_self_le hn.ne'
  have hhigh := Nat.lt_log2_self (n := n)
  -- The mantissa is shifted until it is full, or until the exponent is the least one.
  obtain ⟨s, hs, hs', hleading⟩ : ∃ s : Nat, s ≤ 52 - n.log2 ∧ -1074 ≤ k - s ∧ (s = 52 - n.log2 ∨ k - s = -1074) :=
    ⟨min (52 - n.log2) (k + 1074).toNat, by omega, by omega, by omega⟩
  refine ⟨n * 2 ^ s, k - s, ⟨?_, hs', by omega, hleading.imp_left fun hfull => ?_⟩, ?_⟩
  · calc n * 2 ^ s < 2 ^ (n.log2 + 1) * 2 ^ s := by gcongr
      _ = 2 ^ (n.log2 + 1 + s) := (pow_add _ _ _).symm
      _ ≤ 2 ^ 53 := Nat.pow_le_pow_right (by norm_num) (by omega)
  · calc 2 ^ 52 = 2 ^ n.log2 * 2 ^ s := by
          rw [← pow_add]
          congr 1
          omega
      _ ≤ n * 2 ^ s := by gcongr
  · push_cast
    rw [mul_assoc, ← zpow_natCast, ← zpow_add₀ (by norm_num), add_sub_cancel]

/-- A binary fraction of at most 53 bits has itself as its nearest double. -/
theorem value?_encode {n : Nat} {k : Int} (negative : Bool) (h : n < 2 ^ 53) (hleast : -1074 ≤ k)
    (hgreatest : k ≤ 971) :
    value? (encode negative n k) = some (signed negative (n * 2 ^ k)) := by
  obtain ⟨m, q, hq, hdouble, hvalue⟩ : ∃ m q, Canonical m q ∧ nearest false (shift n k) (shift 1 (-k)) = double m q ∧
      (n : ℚ) * 2 ^ k = m * 2 ^ q := by
    rcases Nat.eq_zero_or_pos n with rfl | hn
    · refine ⟨0, -1074, ⟨by norm_num, by norm_num, by norm_num, .inr rfl⟩, ?_, by simp⟩
      simp [nearest, shift, double, magnitudeBits]
    · obtain ⟨m, q, hq, hvalue⟩ := exists_canonical hn h hleast hgreatest
      refine ⟨m, q, hq, nearest_of_eq (shift_pos hn k) (shift_pos Nat.one_pos _) hq ?_, hvalue⟩
      have hquotient := shift_div_shift n 1 (-k)
      rw [neg_neg] at hquotient
      rw [hquotient, ← hvalue, zpow_neg]
      simp
  exact value?_eq_some_iff.mpr ⟨negative, m, q, hq.decode_eq (toBits_nearest hq hdouble negative), by rw [hvalue]⟩

theorem value?_ofNat {n : Nat} (h : n < 2 ^ 53) : value? (ofNat n) = some (n : ℚ) := by
  have hexact := value?_encode false h (by norm_num : (-1074 : Int) ≤ 0) (by norm_num)
  simpa [ofNat, signed] using hexact

theorem ofNat_zero : ofNat 0 = 0 := rfl

theorem ofNat_one : ofNat 1 = 1 := by decide

theorem value?_zero : value? 0 = some 0 := by simpa [ofNat_zero] using value?_ofNat (n := 0) (by norm_num)

theorem value?_one : value? 1 = some 1 := by simpa [ofNat_one] using value?_ofNat (n := 1) (by norm_num)

/-- The whole part is positive from 1 on. -/
theorem toUInt64_pos_iff (x : Float) : 0 < x.toUInt64.toNat ↔ 1 ≤ x := by
  cases hx : decode x with
  | nan =>
    rw [toNat_toUInt64_of_nan hx, le_iff_compare, hx]
    decide
  | infinite negative =>
    rw [toNat_toUInt64_of_infinite hx, le_iff_compare, hx]
    cases negative <;> decide
  | finite negative m q =>
    have hvalue : value? x = some (signed negative (m * 2 ^ q)) := value?_eq_some_iff.mpr ⟨_, _, _, hx, rfl⟩
    rw [toNat_toUInt64 hvalue, le_iff value?_one hvalue, ← Int.cast_one, ← Int.le_floor]
    omega

end Logo.Number
