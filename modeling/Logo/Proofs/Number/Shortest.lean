import Logo.Number.Decimal
import Logo.Proofs.Number.Nearest

/-! The shortest decimal of a double. It is found with at most seventeen digits, it rounds to the double, and it is
within the range in which decimals are read. -/
namespace Logo.Number
namespace Decimal

/-! ### Intervals -/

namespace Interval
variable {m : Nat} {q : Int}

theorem unit_pos (m : Nat) (q : Int) : 0 < (around m q).unit := by
  simp only [around, Nat.pow_eq]
  positivity

/-- The middle of the interval is the double. -/
theorem value_div_unit (m : Nat) (q : Int) : ((around m q).value : ℚ) / (around m q).unit = m * 2 ^ q := by
  have hpos : (0 : ℚ) < 2 ^ (-q).toNat := by positivity
  simp only [around, Nat.pow_eq, Nat.cast_mul, Nat.cast_pow, Nat.cast_ofNat, zpow_eq_div 2 q]
  field_simp

theorem low_eq (hm : 0 < m) : ((around m q).low : ℚ) = (m - gapBelow m q) * (4 * 2 ^ q.toNat) := by
  unfold gapBelow
  simp only [around, Nat.pow_eq]
  split_ifs with hbelow
  all_goals
    rw [Nat.cast_mul, Nat.cast_sub (by omega)]
    push_cast
    ring

theorem high_eq (m : Nat) (q : Int) : ((around m q).high : ℚ) = (m + 1 / 2) * (4 * 2 ^ q.toNat) := by
  simp only [around, Nat.pow_eq]
  push_cast
  ring

/-- The interval holds the fractions that round to the double. -/
theorem holds_iff (hm : 0 < m) {c r : Nat} (hr : 0 < r) :
    (around m q).holds c r = true ↔ RoundsTo (c / ((around m q).unit * r)) m q := by
  have hdenominator : (0 : ℚ) < 4 * 2 ^ q.toNat * r := by positivity
  have hquotient : (c : ℚ) / ((around m q).unit * r) / 2 ^ q = c / (4 * 2 ^ q.toNat * r) := by
    have hs : (0 : ℚ) < 2 ^ (-q).toNat := by positivity
    simp only [around, Nat.pow_eq, Nat.cast_mul, Nat.cast_pow, Nat.cast_ofNat, zpow_eq_div 2 q]
    field_simp
  -- The comparisons of the interval, over the rationals.
  have hlowle : (around m q).low * r ≤ c ↔ m - gapBelow m q ≤ (c : ℚ) / (4 * 2 ^ q.toNat * r) := by
    rw [le_div_iff₀ hdenominator, ← mul_assoc, ← low_eq hm]
    exact_mod_cast Iff.rfl
  have hhighle : c ≤ (around m q).high * r ↔ (c : ℚ) / (4 * 2 ^ q.toNat * r) ≤ m + 1 / 2 := by
    rw [div_le_iff₀ hdenominator, ← mul_assoc, ← high_eq]
    exact_mod_cast Iff.rfl
  have hlowlt : (around m q).low * r < c ↔ m - gapBelow m q < (c : ℚ) / (4 * 2 ^ q.toNat * r) := by
    rw [lt_div_iff₀ hdenominator, ← mul_assoc, ← low_eq hm]
    exact_mod_cast Iff.rfl
  have hhighlt : c < (around m q).high * r ↔ (c : ℚ) / (4 * 2 ^ q.toNat * r) < m + 1 / 2 := by
    rw [div_lt_iff₀ hdenominator, ← mul_assoc, ← high_eq]
    exact_mod_cast Iff.rfl
  have hclosed : (around m q).closed = decide (m % 2 = 0) := rfl
  unfold holds
  rw [hclosed]
  by_cases heven : m % 2 = 0
  · simp only [heven, decide_true, if_true, Bool.and_eq_true, decide_eq_true_eq, hlowle, hhighle, ← hquotient]
    exact ⟨fun h => ⟨h.1, h.2, by omega⟩, fun h => ⟨h.low, h.high⟩⟩
  · simp only [heven, decide_false, Bool.false_eq_true, if_false, Bool.and_eq_true, decide_eq_true_eq, hlowlt,
      hhighlt, ← hquotient]
    exact ⟨fun h => .of_lt h.1 h.2, fun h => h.inner (by omega)⟩

def floorAt (i : Interval) (e : Int) : Nat := i.value * Nat.pow 10 (-e).toNat / (i.unit * Nat.pow 10 e.toNat)

theorem floorAt_bounds (m : Nat) (q e : Int) :
    ((around m q).floorAt e : ℚ) ≤ m * 2 ^ q / 10 ^ e ∧ m * 2 ^ q / 10 ^ e < ((around m q).floorAt e : ℚ) + 1 := by
  have hunit : (0 : ℚ) < (around m q).unit := by exact_mod_cast unit_pos m q
  have hquotient : (m * 2 ^ q / 10 ^ e : ℚ) = ((around m q).value * Nat.pow 10 (-e).toNat : Nat) /
      ((around m q).unit * Nat.pow 10 e.toNat : Nat) := by
    have hp : (0 : ℚ) < 10 ^ e.toNat := by positivity
    have hr : (0 : ℚ) < 10 ^ (-e).toNat := by positivity
    rw [← value_div_unit, zpow_eq_div 10 e]
    simp only [Nat.pow_eq]
    push_cast
    field_simp
  rw [hquotient, floorAt, ← Nat.floor_div_eq_div (K := ℚ)]
  exact ⟨Nat.floor_le (by positivity), Nat.lt_floor_add_one _⟩

/-- The interval holds a multiple of `10^e` if it rounds to the double. -/
theorem holds_multiple (hm : 0 < m) (c : Nat) (e : Int) :
    (around m q).holds (c * ((around m q).unit * Nat.pow 10 e.toNat)) (Nat.pow 10 (-e).toNat) = true ↔
      RoundsTo (c * 10 ^ e) m q := by
  have hunit : (0 : ℚ) < (around m q).unit := by exact_mod_cast unit_pos m q
  have hr : (0 : ℚ) < 10 ^ (-e).toNat := by positivity
  rw [holds_iff hm (by simp only [Nat.pow_eq]; positivity)]
  have hquotient : (c * ((around m q).unit * Nat.pow 10 e.toNat) : Nat) /
      ((around m q).unit * (Nat.pow 10 (-e).toNat : Nat) : ℚ) = c * 10 ^ e := by
    rw [zpow_eq_div 10 e]
    simp only [Nat.pow_eq]
    push_cast
    field_simp
  rw [hquotient]

/-- The comparison of a power of ten with the double. -/
theorem ten_zpow_le_iff (m : Nat) (q k : Int) :
    (around m q).unit * Nat.pow 10 k.toNat ≤ (around m q).value * Nat.pow 10 (-k).toNat ↔
      (10 : ℚ) ^ k ≤ m * 2 ^ q := by
  have hunit : (0 : ℚ) < (around m q).unit := by exact_mod_cast unit_pos m q
  have hr : (0 : ℚ) < 10 ^ (-k).toNat := by positivity
  rw [← value_div_unit, zpow_eq_div 10 k, div_le_div_iff₀ hr hunit]
  simp only [Nat.pow_eq]
  rw [mul_comm (_ ^ _)]
  exact_mod_cast Iff.rfl

/-- What is picked rounds to the double, and is one of its two neighbours. -/
theorem pick?_sound (hm : 0 < m) {tie : Tie} {e : Int} {d : Nat} (h : (around m q).pick? tie e = some d) :
    RoundsTo (d * 10 ^ e) m q ∧ (d = (around m q).floorAt e ∨ d = (around m q).floorAt e + 1) := by
  rw [← holds_multiple hm]
  unfold pick? at h
  unfold floorAt
  dsimp only at h ⊢
  split_ifs at h with hboth hbelow habove
  all_goals simp_all

/-- If one of the two neighbours rounds to the double, one is picked. -/
theorem exists_pick? (hm : 0 < m) (tie : Tie) (e : Int)
    (h : RoundsTo ((around m q).floorAt e * 10 ^ e) m q ∨ RoundsTo (((around m q).floorAt e + 1 : Nat) * 10 ^ e) m q) :
    ∃ d, (around m q).pick? tie e = some d := by
  rw [← holds_multiple hm, ← holds_multiple hm] at h
  unfold floorAt at h
  unfold pick?
  dsimp only
  split_ifs with hboth hbelow habove
  all_goals simp_all

end Interval

/-! ### Powers of ten and two -/

/-- As far as doubles reach, 30103 / 100000 is close enough to the decimal logarithm of two. -/
theorem ten_pow_le_two_pow : ∀ n < 1100,
    10 ^ (n * 30103 / 100000) ≤ 2 ^ n ∧ 2 ^ (n + 1) ≤ 10 ^ (n * 30103 / 100000 + 2) := by
  decide +kernel

theorem two_pow_le_ten_pow : ∀ n < 1075, 2 ^ n ≤ 10 ^ ((n * 30103 + 99999) / 100000) ∧
    10 ^ ((n * 30103 + 99999) / 100000) ≤ 50 * 2 ^ n := by
  decide +kernel

theorem ten_zpow_le_two_zpow {k : Int} (hlow : -1075 < k) (hhigh : k < 1100) :
    (10 : ℚ) ^ (k * 30103 / 100000) ≤ 2 ^ k ∧ (2 : ℚ) ^ (k + 1) ≤ 10 ^ (k * 30103 / 100000 + 2) := by
  rcases le_or_gt 0 k with hk | hk
  · obtain ⟨n, rfl⟩ := Int.eq_ofNat_of_zero_le hk
    obtain ⟨hle, hge⟩ := ten_pow_le_two_pow n (by omega)
    exact ⟨by exact_mod_cast hle, by exact_mod_cast hge⟩
  · obtain ⟨n, rfl⟩ : ∃ n : Nat, k = -n := ⟨(-k).toNat, by omega⟩
    obtain ⟨hle, hge⟩ := two_pow_le_ten_pow n (by omega)
    have hexponent : -(n : Int) * 30103 / 100000 = -((n * 30103 + 99999) / 100000 : Nat) := by omega
    have hle' : (2 : ℚ) ^ n ≤ 10 ^ ((n * 30103 + 99999) / 100000) := by exact_mod_cast hle
    have hge' : (10 : ℚ) ^ ((n * 30103 + 99999) / 100000) ≤ 50 * 2 ^ n := by exact_mod_cast hge
    rw [hexponent]
    generalize (n * 30103 + 99999) / 100000 = j at hle' hge'
    rw [zpow_add₀ (by norm_num), zpow_add₀ (by norm_num), zpow_neg, zpow_neg, zpow_natCast, zpow_natCast]
    refine ⟨inv_anti₀ (by positivity) hle', ?_⟩
    rw [inv_mul_le_iff₀ (by positivity), ← mul_assoc, mul_comm _ (10 ^ j)⁻¹, mul_assoc, le_inv_mul_iff₀ (by positivity)]
    norm_num
    linarith

/-! ### Finding digits -/

section
variable {m : Nat} {q : Int}

theorem two_zpow_log2_bounds (hm : 0 < m) (q : Int) :
    (2 : ℚ) ^ (m.log2 + q : Int) ≤ m * 2 ^ q ∧ (m * 2 ^ q : ℚ) < 2 ^ (m.log2 + q + 1 : Int) := by
  constructor
  · rw [zpow_add₀ (by norm_num)]
    gcongr
    exact_mod_cast Nat.log2_self_le hm.ne'
  · rw [show (m.log2 + q + 1 : Int) = (m.log2 + 1 : Nat) + q by push_cast; ring, zpow_add₀ (by norm_num)]
    gcongr
    exact_mod_cast Nat.lt_log2_self

/-- The double lies below the power of ten on top of it, and not below the one before. -/
theorem top_bounds (hm : 0 < m) (hq : Canonical m q) : (10 : ℚ) ^ ((Interval.around m q).top m q - 1) ≤ m * 2 ^ q ∧
    (m * 2 ^ q : ℚ) < 10 ^ (Interval.around m q).top m q := by
  have hlog : m.log2 < 53 := (Nat.log2_lt hm.ne').mpr hq.mantissa
  have hleast := hq.least
  have hgreatest := hq.greatest
  obtain ⟨hlow, hhigh⟩ := ten_zpow_le_two_zpow (k := m.log2 + q) (by omega) (by omega)
  obtain ⟨hmlow, hmhigh⟩ := two_zpow_log2_bounds hm q
  unfold Interval.top
  dsimp only
  generalize (m.log2 + q : Int) * 30103 / 100000 = k at hlow hhigh
  simp only [Interval.ten_zpow_le_iff]
  split_ifs with htop
  · exact ⟨by simpa using htop, hmhigh.trans_le (by simpa [add_assoc] using hhigh)⟩
  · exact ⟨by simpa using hlow.trans hmlow, not_le.mp htop⟩

/-- Of two neighbours of a mantissa that lie less than the width of its interval apart, one rounds to it. -/
theorem roundsTo_of_neighbours {x y : ℚ} (hm : m < 2 ^ 53) (hbelow : x / 2 ^ q ≤ m) (habove : (m : ℚ) < y / 2 ^ q)
    (hstep : y / 2 ^ q - x / 2 ^ q ≤ m / 10 ^ 16) : RoundsTo x m q ∨ RoundsTo y m q := by
  by_cases hpower : m = 2 ^ 52 ∧ -1074 < q
  · have hgap : gapBelow m q = 1 / 4 := if_pos hpower
    have hsmall : (m : ℚ) / 10 ^ 16 < 1 / 2 := by
      rw [hpower.1]
      norm_num
    exact .inr (.of_lt (by linarith) (by linarith))
  · have hgap : gapBelow m q = 1 / 2 := if_neg hpower
    have hsmall : (m : ℚ) / 10 ^ 16 < 1 := by
      have hlt : (m : ℚ) < 2 ^ 53 := by exact_mod_cast hm
      rw [div_lt_one (by norm_num)]
      exact hlt.trans (by norm_num)
    by_cases hnear : (m : ℚ) - x / 2 ^ q < 1 / 2
    · exact .inl (.of_lt (by linarith) (by linarith))
    · exact .inr (.of_lt (by linarith) (by linarith))

/-- Seventeen digits are enough: the multiples of their last place lie closer together than the doubles do. -/
theorem exists_pick?_seventeen (tie : Tie) (hm : 0 < m) (hq : Canonical m q) :
    ∃ d, (Interval.around m q).pick? tie ((Interval.around m q).top m q - 17) = some d := by
  apply Interval.exists_pick? hm
  obtain ⟨htop, -⟩ := top_bounds hm hq
  generalize (Interval.around m q).top m q = top at htop
  obtain ⟨hfloor, hnext⟩ := Interval.floorAt_bounds m q (top - 17)
  generalize (Interval.around m q).floorAt (top - 17) = a at hfloor hnext
  have hu : (0 : ℚ) < 2 ^ q := by positivity
  have hs : (0 : ℚ) < 10 ^ (top - 17) := by positivity
  apply roundsTo_of_neighbours hq.mantissa
  · rw [div_le_iff₀ hu]
    exact (le_div_iff₀ hs).mp hfloor
  · rw [lt_div_iff₀ hu]
    push_cast
    exact (div_lt_iff₀ hs).mp hnext
  · have hstep : ((a + 1 : Nat) * 10 ^ (top - 17) / 2 ^ q - a * 10 ^ (top - 17) / 2 ^ q : ℚ) =
        10 ^ (top - 17) / 2 ^ q := by
      push_cast
      ring
    rw [hstep, div_le_div_iff₀ hu (by norm_num)]
    calc (10 : ℚ) ^ (top - 17) * 10 ^ 16 = 10 ^ (top - 1) := by
          rw [← zpow_natCast, ← zpow_add₀ (by norm_num)]
          congr 1
          push_cast
          ring
      _ ≤ m * 2 ^ q := htop

/-- The shortest decimal is picked among the multiples of the first power of ten that has one to pick, and a zero at its
end is dropped. -/
theorem exists_of_shortest (tie : Tie) (hm : 0 < m) (hq : Canonical m q) :
    ∃ n d : Nat, 1 ≤ n ∧ n ≤ 17 ∧ (Interval.around m q).pick? tie ((Interval.around m q).top m q - n) = some d ∧
      (∀ j : Nat, 1 ≤ j → j < n → (Interval.around m q).pick? tie ((Interval.around m q).top m q - j) = none) ∧
      shortest tie m q = if d % 10 = 0 then ⟨d / 10, (Interval.around m q).top m q - n + 1⟩
        else ⟨d, (Interval.around m q).top m q - n⟩ := by
  obtain ⟨last, hlast⟩ := exists_pick?_seventeen tie hm hq
  unfold shortest
  dsimp only
  generalize hfind : (List.range' 1 17).findSome? _ = found
  cases found with
  | none =>
    have hnone := List.findSome?_eq_none_iff.mp hfind 17 (by simp)
    simp [hlast] at hnone
  | some decimal =>
    obtain ⟨before, n, behind, hsplit, hpick, hfirst⟩ := List.findSome?_eq_some_iff.mp hfind
    obtain ⟨d, hd, rfl⟩ := Option.map_eq_some_iff.mp hpick
    obtain ⟨k, hk, rfl, hbehind⟩ := List.range'_eq_append_iff.mp hsplit
    obtain ⟨rfl, hcount, -⟩ := List.range'_eq_cons_iff.mp hbehind.symm
    refine ⟨_, d, by omega, by omega, hd, fun j hj hlt => ?_, rfl⟩
    exact Option.map_eq_none_iff.mp (hfirst j (by simp only [List.mem_range'_1]; omega))

/-- The digits picked up to the `n`-th place. -/
theorem pick?_bounds {tie : Tie} (hm : 0 < m) (hq : Canonical m q) {n d : Nat} (hn : 1 ≤ n)
    (h : (Interval.around m q).pick? tie ((Interval.around m q).top m q - n) = some d) : 0 < d ∧ d ≤ 10 ^ n := by
  obtain ⟨hlow, hhigh⟩ := top_bounds hm hq
  obtain ⟨-, hneighbour⟩ := Interval.pick?_sound hm h
  generalize (Interval.around m q).top m q = top at hlow hhigh hneighbour
  obtain ⟨hfloor, hnext⟩ := Interval.floorAt_bounds m q (top - n)
  have hs : (0 : ℚ) < 10 ^ (top - n) := by positivity
  have hone : (1 : ℚ) ≤ m * 2 ^ q / 10 ^ (top - n) := by
    rw [one_le_div hs]
    exact (zpow_le_zpow_right₀ (by norm_num) (by omega)).trans hlow
  have hten : (m * 2 ^ q / 10 ^ (top - n) : ℚ) < 10 ^ n := by
    rw [div_lt_iff₀ hs, ← zpow_natCast, ← zpow_add₀ (by norm_num), add_sub_cancel]
    exact hhigh
  have hpositive : 0 < (Interval.around m q).floorAt (top - n) := by
    have hlt : (0 : ℚ) < (Interval.around m q).floorAt (top - n) := by linarith
    exact_mod_cast hlt
  have hless : (Interval.around m q).floorAt (top - n) < 10 ^ n := by
    exact_mod_cast hfloor.trans_lt hten
  omega

/-- The shortest decimal of a positive double rounds to it. -/
theorem shortest_roundsTo (tie : Tie) (hm : 0 < m) (hq : Canonical m q) :
    0 < (shortest tie m q).digits ∧ (shortest tie m q).digits ≤ 10 ^ 17 ∧
      RoundsTo ((shortest tie m q).digits * 10 ^ (shortest tie m q).exponent) m q := by
  obtain ⟨n, d, hn, hn', hpick, -, hshortest⟩ := exists_of_shortest tie hm hq
  obtain ⟨hpositive, hdigits⟩ := pick?_bounds hm hq hn hpick
  obtain ⟨hround, -⟩ := Interval.pick?_sound hm hpick
  have hseventeen : d ≤ 10 ^ 17 := hdigits.trans (Nat.pow_le_pow_right (by norm_num) hn')
  rw [hshortest]
  split_ifs with hzero
  · refine ⟨by dsimp only; omega, by dsimp only; omega, ?_⟩
    have hd : (d : ℚ) = (d / 10 : Nat) * 10 := by exact_mod_cast (by omega : d = d / 10 * 10)
    rw [hd, mul_assoc, mul_comm 10, ← zpow_add_one₀ (by norm_num)] at hround
    exact hround
  · exact ⟨hpositive, hseventeen, hround⟩

end
end Decimal

/-! ### Reading decimals -/

section
variable {m : Nat} {q : Int} {d : Nat} {e : Int}

/-- A number that rounds to a positive double lies in the range of doubles. -/
theorem RoundsTo.range {v : ℚ} (hm : 0 < m) (hq : Canonical m q) (h : RoundsTo v m q) :
    (10 : ℚ) ^ (-324 : Int) < v ∧ v < 10 ^ (309 : Int) := by
  have hpos : (0 : ℚ) < 2 ^ q := by positivity
  have hgap := gapBelow_le m q
  have hm' : (1 : ℚ) ≤ m := by exact_mod_cast hm
  have hmlt : (m : ℚ) + 1 ≤ 2 ^ 53 := by exact_mod_cast hq.mantissa
  have hlow : 2 ^ (q - 1) ≤ v := by
    rw [zpow_sub_one₀ (by norm_num), mul_comm, ← le_div_iff₀ hpos]
    linarith [h.low]
  have hhigh : v ≤ 2 ^ (53 + q) := by
    rw [zpow_add₀ (by norm_num), ← div_le_iff₀ hpos]
    have hlast := h.high
    norm_num at hmlt hlast ⊢
    linarith
  have hleast : (2 : ℚ) ^ (-1075 : Int) ≤ 2 ^ (q - 1) := by
    have hq' := hq.least
    exact zpow_le_zpow_right₀ (by norm_num) (by omega)
  have hgreatest : (2 : ℚ) ^ (53 + q) ≤ 2 ^ (1024 : Int) := by
    have hq' := hq.greatest
    exact zpow_le_zpow_right₀ (by norm_num) (by omega)
  constructor
  · have hpowers : (2 : ℚ) ^ 1075 < 10 ^ 324 := by exact_mod_cast (by decide +kernel : 2 ^ 1075 < 10 ^ 324)
    calc (10 : ℚ) ^ (-324 : Int) = (10 ^ 324)⁻¹ := zpow_neg_coe_of_pos 10 (by norm_num)
      _ < (2 ^ 1075)⁻¹ := inv_strictAnti₀ (by positivity) hpowers
      _ = 2 ^ (-1075 : Int) := (zpow_neg_coe_of_pos 2 (by norm_num)).symm
      _ ≤ v := hleast.trans hlow
  · have hpowers : (2 : ℚ) ^ (1024 : Int) < 10 ^ (309 : Int) := by
      exact_mod_cast (by decide +kernel : 2 ^ 1024 < 10 ^ 309)
    exact (hhigh.trans hgreatest).trans_lt hpowers

/-- A decimal that rounds to a double is read as the double. -/
theorem ofDecimal_eq (hm : 0 < m) (hq : Canonical m q) (hd : 0 < d) (hlog : d.log2 < 1100)
    (h : RoundsTo (d * 10 ^ e) m q) : ofDecimal d e = double m q := by
  obtain ⟨hleast, hgreatest⟩ := h.range hm hq
  have hten : (0 : ℚ) < 10 ^ e := by positivity
  obtain ⟨hlow, hhigh⟩ := Decimal.ten_pow_le_two_pow d.log2 hlog
  have hlow' : (10 : ℚ) ^ (e + (d.log2 * 30103 / 100000 : Nat)) ≤ d * 10 ^ e := by
    rw [add_comm, zpow_add₀ (by norm_num)]
    gcongr
    exact_mod_cast hlow.trans (Nat.log2_self_le hd.ne')
  have hhigh' : (d * 10 ^ e : ℚ) < 10 ^ (e + (d.log2 * 30103 / 100000 : Nat) + 2) := by
    rw [add_assoc, add_comm, zpow_add₀ (by norm_num)]
    gcongr
    exact_mod_cast Nat.lt_log2_self.trans_le hhigh
  have hupper : ¬310 < e + (d.log2 * 30103 / 100000 : Nat) := by
    have := (zpow_lt_zpow_iff_right₀ (by norm_num)).mp (hlow'.trans_lt hgreatest)
    omega
  have hlower : ¬e + (d.log2 * 30103 / 100000 : Nat) < -330 := by
    have := (zpow_lt_zpow_iff_right₀ (by norm_num)).mp (hleast.trans hhigh')
    omega
  have hquotient : ((d * Nat.pow 10 e.toNat : Nat) : ℚ) / (Nat.pow 10 (-e).toNat : Nat) = d * 10 ^ e := by
    rw [zpow_eq_div 10 e]
    simp only [Nat.pow_eq]
    push_cast
    ring
  have hnumerator : 0 < d * Nat.pow 10 e.toNat := by
    simp only [Nat.pow_eq]
    positivity
  have hdenominator : 0 < Nat.pow 10 (-e).toNat := by
    simp only [Nat.pow_eq]
    positivity
  unfold ofDecimal
  dsimp only
  rw [if_neg hd.ne', if_neg hupper, if_neg hlower]
  exact nearest_eq hnumerator hdenominator hq (hquotient ▸ h)

end
end Logo.Number
