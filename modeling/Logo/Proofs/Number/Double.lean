import Logo.Number.Binary
import Mathlib

/-! Finite doubles and their bit patterns. A double `±m · 2^q` has one mantissa and one exponent, and these make up its
bits. -/
namespace Logo.Number
open Float.Model Float.Model.UnpackedFloat

/-- `m · 2^q` is a double, with as many bits in its mantissa as there can be. -/
structure Canonical (m : Nat) (q : Int) : Prop where
  mantissa : m < 2 ^ 53
  least : -1074 ≤ q
  greatest : q ≤ 971
  leading : 2 ^ 52 ≤ m ∨ q = -1074

def magnitudeBits (m : Nat) (q : Int) : Nat := (q + 1074).toNat * 2 ^ 52 + m

def double (m : Nat) (q : Int) : Float := Float.ofBits (magnitudeBits m q).toUInt64

theorem Canonical.magnitudeBits_lt {m : Nat} {q : Int} (h : Canonical m q) :
    magnitudeBits m q < 0x7ff0000000000000 := by
  obtain ⟨hm, hleast, hgreatest, -⟩ := h
  have hexponent : (q + 1074).toNat ≤ 2045 := by omega
  unfold magnitudeBits
  omega

theorem Canonical.toNat_toUInt64 {m : Nat} {q : Int} (h : Canonical m q) :
    (magnitudeBits m q).toUInt64.toNat = magnitudeBits m q := by
  have hlt := h.magnitudeBits_lt
  simp only [Nat.toUInt64, UInt64.toNat_ofNat']
  omega

/-- Zero has the least exponent. -/
theorem Canonical.exponent_zero {q : Int} (h : Canonical 0 q) : q = -1074 := h.leading.resolve_left (by norm_num)

section
variable (bits : UInt64)

theorem sign_eq : (bits >>> 63 == 1) = decide (2 ^ 63 ≤ bits.toNat) := by
  have hlt := bits.toNat_lt
  have hshift : (bits >>> 63).toNat = bits.toNat / 2 ^ 63 := by
    simp [UInt64.toNat_shiftRight, Nat.shiftRight_eq_div_pow]
  have hone : bits >>> 63 = 1 ↔ (bits >>> 63).toNat = 1 := by rw [← UInt64.toNat_inj]; rfl
  rw [Bool.eq_iff_iff, beq_iff_eq, decide_eq_true_iff, hone, hshift]
  omega

theorem power_eq : ((bits >>> 52) &&& 0x7ff).toNat = bits.toNat / 2 ^ 52 % 2 ^ 11 := by
  rw [UInt64.toNat_and, UInt64.toNat_shiftRight]
  exact (Nat.and_two_pow_sub_one_eq_mod _ 11).trans (by simp [Nat.shiftRight_eq_div_pow])

theorem fraction_eq : (bits &&& 0xfffffffffffff).toNat = bits.toNat % 2 ^ 52 := by
  rw [UInt64.toNat_and]
  exact Nat.and_two_pow_sub_one_eq_mod _ 52

end

/-- A finite double has a canonical mantissa and exponent, which its bits spell out. -/
theorem decode_finite {x : Float} {negative : Bool} {m : Nat} {q : Int} (h : decode x = .finite negative m q) :
    Canonical m q ∧ x.toBits.toNat = negative.toNat * 2 ^ 63 + magnitudeBits m q := by
  have hbits := x.toBits.toNat_lt
  unfold decode at h
  simp only [sign_eq, power_eq, fraction_eq, Nat.pow_eq] at h
  generalize x.toBits.toNat = b at h hbits
  have hsign : (decide (2 ^ 63 ≤ b)).toNat = b / 2 ^ 63 := by
    by_cases hb : 2 ^ 63 ≤ b
    · rw [decide_eq_true hb, Bool.toNat_true]
      omega
    · rw [decide_eq_false hb, Bool.toNat_false]
      omega
  split at h
  · split at h <;> cases h
  · split at h
    · cases h
      refine ⟨⟨by omega, by omega, by omega, by omega⟩, ?_⟩
      rw [hsign, magnitudeBits]
      omega
    · cases h
      refine ⟨⟨by omega, by omega, by omega, by omega⟩, ?_⟩
      rw [hsign, magnitudeBits]
      omega

/-- The bits of a canonical mantissa and exponent are read as these. -/
theorem Canonical.decode_eq {x : Float} {negative : Bool} {m : Nat} {q : Int} (h : Canonical m q)
    (hbits : x.toBits.toNat = negative.toNat * 2 ^ 63 + magnitudeBits m q) : decode x = .finite negative m q := by
  obtain ⟨hm, hleast, hgreatest, hleading⟩ := h
  have hexponent : (q + 1074).toNat ≤ 2045 := by omega
  have hnegative : decide (2 ^ 63 ≤ negative.toNat * 2 ^ 63 + magnitudeBits m q) = negative := by
    unfold magnitudeBits
    cases negative
    · exact decide_eq_false (by simp only [Bool.toNat_false]; omega)
    · exact decide_eq_true (by simp only [Bool.toNat_true]; omega)
  unfold decode
  simp only [sign_eq, power_eq, fraction_eq, hbits, hnegative, Nat.pow_eq]
  unfold magnitudeBits
  rw [if_neg (by omega)]
  split_ifs with hzero
  · congr 1 <;> omega
  · congr 1 <;> omega

theorem eq_double_of_decode {x : Float} {m : Nat} {q : Int} (h : decode x = .finite false m q) : x = double m q := by
  obtain ⟨-, hbits⟩ := decode_finite h
  have hpattern : x.toBits = (magnitudeBits m q).toUInt64 := by
    rw [← UInt64.ofNat_toNat (x := x.toBits), hbits]
    simp [Nat.toUInt64]
  rw [double, ← hpattern, Float.ofBits_toBits]

section
variable (b : BitVec 64)

theorem toNat_unpackSign : (@unpackSign Format.binary64 b).toNat = b.toNat / 2 ^ 63 % 2 := by
  rw [unpackSign_def, BitVec.extractLsb'_toNat, Nat.shiftRight_eq_div_pow]
  rfl

theorem toNat_unpackExponent : (@unpackExponent Format.binary64 b).toNat = b.toNat / 2 ^ 52 % 2 ^ 11 := by
  rw [unpackExponent_def, BitVec.extractLsb'_toNat, Nat.shiftRight_eq_div_pow]

theorem toNat_unpackMantissa : (@unpackMantissa Format.binary64 b).toNat = b.toNat % 2 ^ 52 := by
  rw [unpackMantissa_def, BitVec.extractLsb'_toNat, Nat.shiftRight_zero]

end

/-- Patterns that differ in the sign alone stand for a number and its negation. -/
theorem unpack_neg {b b' : BitVec 64} (hsign : b.toNat = b'.toNat + 2 ^ 63) :
    UnpackedFloat.unpack Format.binary64 b = (UnpackedFloat.unpack Format.binary64 b').neg := by
  have hlt := b.isLt
  have hexponent : @unpackExponent Format.binary64 b = @unpackExponent Format.binary64 b' := by
    apply BitVec.eq_of_toNat_eq
    rw [toNat_unpackExponent, toNat_unpackExponent]
    omega
  have hmantissa : @unpackMantissa Format.binary64 b = @unpackMantissa Format.binary64 b' := by
    apply BitVec.eq_of_toNat_eq
    rw [toNat_unpackMantissa, toNat_unpackMantissa]
    omega
  have hone : @unpackSign Format.binary64 b = 1#1 := by
    apply BitVec.eq_of_toNat_eq
    rw [toNat_unpackSign, BitVec.toNat_ofNat]
    omega
  have hzero : @unpackSign Format.binary64 b' = 0#1 := by
    apply BitVec.eq_of_toNat_eq
    rw [toNat_unpackSign, BitVec.toNat_ofNat]
    omega
  unfold UnpackedFloat.unpack
  simp only [hexponent, hmantissa, hone, hzero]
  split_ifs <;> rfl

/-- A pattern that is below those of infinity and NaN, but for its sign, stays as it is. -/
theorem toBits_ofBits {b : UInt64} (h : b.toNat % 2 ^ 63 < 0x7ff0000000000000) : (Float.ofBits b).toBits = b := by
  have hnumber : @isNaNBits Format.binary64 b.toBitVec = false := by
    have hpower : @unpackExponent Format.binary64 b.toBitVec ≠ -1#11 := by
      intro hones
      have hfield := congrArg BitVec.toNat hones
      rw [toNat_unpackExponent, UInt64.toNat_toBitVec] at hfield
      have hlast : (-1#11).toNat = 2047 := rfl
      omega
    exact decide_eq_false fun hnan => hpower hnan.1
  have hpack := @pack_unpack Format.binary64 b.toBitVec (by decide)
  rw [hnumber] at hpack
  exact congrArg UInt64.ofBitVec hpack

theorem eq_neg_double_of_decode {x : Float} {m : Nat} {q : Int} (h : decode x = .finite true m q) :
    x = -double m q := by
  obtain ⟨hcanonical, hbits⟩ := decode_finite h
  have hlt := hcanonical.magnitudeBits_lt
  have hmagnitude := hcanonical.toNat_toUInt64
  have hdouble : (double m q).toBits = (magnitudeBits m q).toUInt64 := toBits_ofBits (by omega)
  have hunpack : UnpackedFloat.unpack Format.binary64 x.toBits.toBitVec =
      (UnpackedFloat.unpack Format.binary64 (double m q).toBits.toBitVec).neg := by
    apply unpack_neg
    rw [hdouble, UInt64.toNat_toBitVec, UInt64.toNat_toBitVec, hbits, hmagnitude, Bool.toNat_true]
    omega
  have hpack : UnpackedFloat.pack Format.binary64 (UnpackedFloat.unpack Format.binary64 x.toBits.toBitVec) =
      x.toBits.toBitVec := pack_unpack_of_valid x.toModel.valid
  rw [hunpack] at hpack
  exact Float.toBits_inj.mp (congrArg UInt64.ofBitVec hpack.symm)

theorem exists_decode_of_isFinite {x : Float} (h : x.isFinite = true) :
    ∃ negative m q, decode x = .finite negative m q := by
  have hpower : ((x.toBits >>> 52) &&& 0x7ff).toNat ≠ 0x7ff := by
    intro hones
    have hfield : @unpackExponent Format.binary64 x.toBits.toBitVec = -1#11 := by
      apply BitVec.eq_of_toNat_eq
      rw [toNat_unpackExponent, UInt64.toNat_toBitVec, ← power_eq, hones]
      rfl
    have hunpack : (UnpackedFloat.unpack Format.binary64 x.toBits.toBitVec).isFinite = false := by
      unfold UnpackedFloat.unpack
      simp only [hfield, if_true]
      split_ifs <;> rfl
    exact absurd (h.symm.trans hunpack) (by simp)
  unfold decode
  simp only [if_neg hpower]
  split_ifs <;> exact ⟨_, _, _, rfl⟩

end Logo.Number
