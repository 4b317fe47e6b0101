import Logo.Proofs.Number.Double

/-! The nearest double. The fractions that lie closer to a double than to any other, and those half way between two
doubles of which it is the even one, have it as their nearest double. -/
namespace Logo.Number

theorem zpow_eq_div (b : ℚ) (k : Int) : b ^ k = b ^ k.toNat / b ^ (-k).toNat := by
  rcases le_total 0 k with hk | hk
  · have hneg : (-k).toNat = 0 := by omega
    rw [hneg, pow_zero, div_one, ← zpow_natCast, Int.toNat_of_nonneg hk]
  · have hneg : k.toNat = 0 := by omega
    rw [hneg, pow_zero, ← zpow_natCast, Int.toNat_of_nonneg (by omega), zpow_neg, one_div, inv_inv]

theorem shift_div_shift (n d : Nat) (k : Int) : (shift n (-k) : ℚ) / shift d k = n / d / 2 ^ k := by
  have hpos : (0 : ℚ) < 2 ^ k.toNat := by positivity
  have hpos' : (0 : ℚ) < 2 ^ (-k).toNat := by positivity
  simp only [shift, Nat.pow_eq, Nat.cast_mul, Nat.cast_pow, Nat.cast_ofNat, zpow_eq_div 2 k]
  field_simp

theorem shift_pos {d : Nat} (hd : 0 < d) (k : Int) : 0 < shift d k := by
  simp only [shift, Nat.pow_eq]
  positivity

/-- The whole number within a half of a quotient, at a distance of a half only if it is even. -/
theorem divNearestEven_eq {a b k : Nat} (hb : 0 < b) (hlow : (k : ℚ) - 1 / 2 ≤ a / b) (hhigh : (a : ℚ) / b ≤ k + 1 / 2)
    (hodd : k % 2 = 1 → (k : ℚ) - 1 / 2 < a / b ∧ (a : ℚ) / b < k + 1 / 2) : divNearestEven a b = k := by
  have hb' : (0 : ℚ) < b := by exact_mod_cast hb
  have hsplit := Nat.div_add_mod a b
  have hrest := Nat.mod_lt a hb
  -- The bounds without fractions.
  have hlow' : 2 * k * b ≤ 2 * a + b := by
    rw [le_div_iff₀ hb'] at hlow
    have : (2 * k * b : ℚ) ≤ 2 * a + b := by linarith
    exact_mod_cast this
  have hhigh' : 2 * a ≤ 2 * k * b + b := by
    rw [div_le_iff₀ hb'] at hhigh
    have : (2 * a : ℚ) ≤ 2 * k * b + b := by linarith
    exact_mod_cast this
  have hodd' : k % 2 = 1 → 2 * k * b < 2 * a + b ∧ 2 * a < 2 * k * b + b := by
    intro hk
    obtain ⟨hlow, hhigh⟩ := hodd hk
    rw [lt_div_iff₀ hb'] at hlow
    rw [div_lt_iff₀ hb'] at hhigh
    have h : (2 * k * b : ℚ) < 2 * a + b := by linarith
    have h' : (2 * a : ℚ) < 2 * k * b + b := by linarith
    exact ⟨by exact_mod_cast h, by exact_mod_cast h'⟩
  unfold divNearestEven
  dsimp only
  generalize a / b = q at hsplit
  generalize a % b = r at hsplit hrest
  have hk : k = q ∨ k = q + 1 := by
    have hle : k < q + 2 := by
      by_contra hgt
      have hmul : (q + 2) * b ≤ k * b := Nat.mul_le_mul_right b (by omega)
      nlinarith
    have hge : q < k + 1 := by
      by_contra hlt
      have hmul : (k + 1) * b ≤ q * b := Nat.mul_le_mul_right b (by omega)
      nlinarith
    omega
  rcases hk with rfl | rfl
  · have hproduct : 2 * k * b = 2 * (b * k) := by ring
    simp only [hproduct] at hlow' hhigh' hodd'
    split_ifs <;> omega
  · have hproduct : 2 * (q + 1) * b = 2 * (b * q) + 2 * b := by ring
    simp only [hproduct] at hlow' hhigh' hodd'
    split_ifs <;> omega

/-- The logarithms of numerator and denominator leave two powers of two for a fraction to begin with. -/
theorem log2_sub_log2_bounds {n d : Nat} (hn : 0 < n) (hd : 0 < d) :
    (2 : ℚ) ^ ((n.log2 : Int) - d.log2 - 1) ≤ n / d ∧ (n : ℚ) / d < 2 ^ ((n.log2 : Int) - d.log2 + 1) := by
  have hd' : (0 : ℚ) < d := by exact_mod_cast hd
  have hnlow : (2 : ℚ) ^ (n.log2 : Int) ≤ n := by exact_mod_cast Nat.log2_self_le hn.ne'
  have hnhigh : (n : ℚ) < 2 ^ ((n.log2 : Int) + 1) := by exact_mod_cast Nat.lt_log2_self
  have hdlow : (2 : ℚ) ^ (d.log2 : Int) ≤ d := by exact_mod_cast Nat.log2_self_le hd.ne'
  have hdhigh : (d : ℚ) < 2 ^ ((d.log2 : Int) + 1) := by exact_mod_cast Nat.lt_log2_self
  rw [le_div_iff₀ hd', div_lt_iff₀ hd']
  constructor
  · calc (2 : ℚ) ^ ((n.log2 : Int) - d.log2 - 1) * d
        ≤ 2 ^ ((n.log2 : Int) - d.log2 - 1) * 2 ^ ((d.log2 : Int) + 1) := by gcongr
      _ = 2 ^ (n.log2 : Int) := by
        rw [← zpow_add₀ (by norm_num)]
        congr 1
        omega
      _ ≤ n := hnlow
  · calc (n : ℚ) < 2 ^ ((n.log2 : Int) + 1) := hnhigh
      _ = 2 ^ ((n.log2 : Int) - d.log2 + 1) * 2 ^ (d.log2 : Int) := by
        rw [← zpow_add₀ (by norm_num)]
        congr 1
        omega
      _ ≤ 2 ^ ((n.log2 : Int) - d.log2 + 1) * d := by gcongr

theorem shift_lt_shift_iff {n d : Nat} (hd : 0 < d) (k : Int) :
    shift n (-k) < shift d k ↔ (n : ℚ) / d < 2 ^ k := by
  have hshift : (0 : ℚ) < shift d k := by exact_mod_cast shift_pos hd k
  rw [← Nat.cast_lt (α := ℚ), ← div_lt_one hshift, shift_div_shift, div_lt_one (by positivity)]

/-- A positive fraction lies between its leading power of two and the next one. -/
theorem leadingPower_eq {n d : Nat} (hn : 0 < n) (hd : 0 < d) {k : Int} (hlow : (2 : ℚ) ^ k ≤ n / d)
    (hhigh : (n : ℚ) / d < 2 ^ (k + 1)) : leadingPower n d = k := by
  obtain ⟨hleast, hgreatest⟩ := log2_sub_log2_bounds hn hd
  have hupper : k < n.log2 - d.log2 + 1 := (zpow_lt_zpow_iff_right₀ (by norm_num)).mp (hlow.trans_lt hgreatest)
  have hlower : (n.log2 : Int) - d.log2 - 1 < k + 1 :=
    (zpow_lt_zpow_iff_right₀ (by norm_num)).mp (hleast.trans_lt hhigh)
  have hcompare : (n : ℚ) / d < 2 ^ ((n.log2 : Int) - d.log2) ↔ k < n.log2 - d.log2 := by
    constructor
    · intro hlt
      exact (zpow_lt_zpow_iff_right₀ (by norm_num)).mp (hlow.trans_lt hlt)
    · intro hlt
      exact hhigh.trans_le (zpow_le_zpow_right₀ (by norm_num) (by omega))
  unfold leadingPower
  simp only [shift_lt_shift_iff hd, hcompare]
  split_ifs <;> omega

/-- How far below `m · 2^q` the numbers begin that round to it, in units of `2^q`. Below a power of two the doubles lie
twice as dense. -/
def gapBelow (m : Nat) (q : Int) : ℚ := if m = 2 ^ 52 ∧ -1074 < q then 1 / 4 else 1 / 2

/-- The number rounds to `m · 2^q`. The ends of the interval go to the even neighbour. -/
structure RoundsTo (v : ℚ) (m : Nat) (q : Int) : Prop where
  low : m - gapBelow m q ≤ v / 2 ^ q
  high : v / 2 ^ q ≤ m + 1 / 2
  inner : m % 2 = 1 → m - gapBelow m q < v / 2 ^ q ∧ v / 2 ^ q < m + 1 / 2

theorem RoundsTo.of_lt {v : ℚ} {m : Nat} {q : Int} (hlow : m - gapBelow m q < v / 2 ^ q)
    (hhigh : v / 2 ^ q < m + 1 / 2) : RoundsTo v m q :=
  ⟨hlow.le, hhigh.le, fun _ => ⟨hlow, hhigh⟩⟩

theorem gapBelow_le (m : Nat) (q : Int) : gapBelow m q ≤ 1 / 2 := by
  unfold gapBelow
  split_ifs <;> norm_num

theorem gapBelow_pos (m : Nat) (q : Int) : 0 < gapBelow m q := by
  unfold gapBelow
  split_ifs <;> norm_num

theorem RoundsTo.self (m : Nat) (q : Int) : RoundsTo (m * 2 ^ q) m q := by
  have hgap := gapBelow_pos m q
  have hunits : (m : ℚ) * 2 ^ q / 2 ^ q = m := by field_simp
  apply RoundsTo.of_lt <;> linarith

section
variable {n d m : Nat} {q : Int}

/-- The nearest double from the weight of the last bit kept and the mantissa above it. -/
theorem nearest_of_mantissa {w : Int} {k : Nat} (hn : 0 < n) (hq : Canonical m q)
    (hweight : max (leadingPower n d - 52) (-1074) = w) (hmantissa : divNearestEven (shift n (-w)) (shift d w) = k)
    (hbits : (w + 1074).toNat * 2 ^ 52 + k = magnitudeBits m q) : nearest false n d = double m q := by
  have hlt := hq.magnitudeBits_lt
  unfold nearest
  simp only [hweight, hmantissa, if_neg hn.ne', Nat.pow_eq, hbits, min_eq_left hlt.le]
  simp [double]

theorem mantissa_eq {w : Int} {k : Nat} (hd : 0 < d) (hlow : (k : ℚ) - 1 / 2 ≤ n / d / 2 ^ w)
    (hhigh : (n : ℚ) / d / 2 ^ w ≤ k + 1 / 2)
    (hodd : k % 2 = 1 → (k : ℚ) - 1 / 2 < n / d / 2 ^ w ∧ (n : ℚ) / d / 2 ^ w < k + 1 / 2) :
    divNearestEven (shift n (-w)) (shift d w) = k := by
  rw [← shift_div_shift n d w] at hlow hhigh hodd
  exact divNearestEven_eq (shift_pos hd w) hlow hhigh hodd

/-- Just below a power of two the mantissa is twice as fine, and it rounds up to the power. -/
theorem nearest_of_carry (hn : 0 < n) (hd : 0 < d) (hq : Canonical (2 ^ 52) q) (hgreater : -1074 < q)
    (hlow : (2 : ℚ) ^ 52 - 1 / 4 ≤ n / d / 2 ^ q) (hhigh : (n : ℚ) / d / 2 ^ q < 2 ^ 52) :
    nearest false n d = double (2 ^ 52) q := by
  have hpos : (0 : ℚ) < 2 ^ q := by positivity
  have hpower : leadingPower n d = q + 51 := by
    apply leadingPower_eq hn hd
    · rw [zpow_add₀ (by norm_num), mul_comm, ← le_div_iff₀ hpos]
      norm_num at hlow ⊢
      linarith
    · rw [show q + 51 + 1 = 52 + q by ring, zpow_add₀ (by norm_num), ← div_lt_iff₀ hpos]
      exact_mod_cast hhigh
  have hhalf : (n : ℚ) / d / 2 ^ (q - 1) = 2 * (n / d / 2 ^ q) := by
    rw [zpow_sub₀ (by norm_num), zpow_one]
    field_simp
  refine nearest_of_mantissa (w := q - 1) (k := 2 ^ 53) hn hq ?_ (mantissa_eq hd ?_ ?_ (by norm_num)) ?_
  · omega
  · rw [hhalf]
    push_cast
    linarith
  · rw [hhalf]
    push_cast
    linarith
  · unfold magnitudeBits
    omega

/-- The weight of the last bit kept: that of a full mantissa, or that of the subnormal doubles. -/
theorem weight_eq (hn : 0 < n) (hd : 0 < d) (hleast : -1074 ≤ q) (hhigh : (n : ℚ) / d / 2 ^ q < 2 ^ 53)
    (hfull : (2 : ℚ) ^ 52 ≤ n / d / 2 ^ q ∨ q = -1074) : max (leadingPower n d - 52) (-1074) = q := by
  have hpos : (0 : ℚ) < 2 ^ q := by positivity
  have hv : (0 : ℚ) < n / d := by positivity
  obtain ⟨k, hlow, hnext⟩ := exists_mem_Ico_zpow hv (by norm_num : (1 : ℚ) < 2)
  rw [leadingPower_eq hn hd hlow hnext]
  have hk : k < 53 + q := by
    have hless : (n : ℚ) / d < 2 ^ (53 + q) := by
      rw [zpow_add₀ (by norm_num), ← div_lt_iff₀ hpos]
      exact_mod_cast hhigh
    exact (zpow_lt_zpow_iff_right₀ (by norm_num)).mp (hlow.trans_lt hless)
  rcases hfull with hfull | hsubnormal
  · have hk' : 52 + q < k + 1 := by
      have hless : (2 : ℚ) ^ (52 + q) ≤ n / d := by
        rw [zpow_add₀ (by norm_num), ← le_div_iff₀ hpos]
        exact_mod_cast hfull
      exact (zpow_lt_zpow_iff_right₀ (by norm_num)).mp (hless.trans_lt hnext)
    omega
  · omega

/-- A fraction that rounds to a double has it as its nearest double. -/
theorem nearest_eq (hn : 0 < n) (hd : 0 < d) (hq : Canonical m q) (h : RoundsTo (n / d) m q) :
    nearest false n d = double m q := by
  have hgap := gapBelow_le m q
  by_cases hcarry : (n : ℚ) / d / 2 ^ q < 2 ^ 52 ∧ -1074 < q
  · obtain ⟨hless, hgreater⟩ := hcarry
    have hm : m = 2 ^ 52 := by
      have hleading : 2 ^ 52 ≤ m := hq.leading.resolve_right (by omega)
      have hsmall : (m : ℚ) < 2 ^ 52 + 1 := by linarith [h.low]
      have hsmall' : m < 2 ^ 52 + 1 := by exact_mod_cast hsmall
      omega
    subst hm
    have hlow := h.low
    rw [gapBelow, if_pos ⟨rfl, hgreater⟩] at hlow
    exact nearest_of_carry hn hd hq hgreater (by exact_mod_cast hlow) hless
  · have hhigh : (n : ℚ) / d / 2 ^ q < 2 ^ 53 := by
      have hm : (m : ℚ) + 1 ≤ 2 ^ 53 := by exact_mod_cast hq.mantissa
      linarith [h.high]
    have hfull : (2 : ℚ) ^ 52 ≤ n / d / 2 ^ q ∨ q = -1074 := by
      rcases not_and_or.mp hcarry with hless | hgreater
      · exact .inl (not_lt.mp hless)
      · exact .inr (by linarith [hq.least])
    have hweight := weight_eq hn hd hq.least hhigh hfull
    have hlow : (m : ℚ) - 1 / 2 ≤ n / d / 2 ^ q := by linarith [h.low]
    refine nearest_of_mantissa hn hq hweight (mantissa_eq hd hlow h.high fun hodd => ?_) rfl
    obtain ⟨hlow', hhigh'⟩ := h.inner hodd
    exact ⟨by linarith, hhigh'⟩

end
end Logo.Number
