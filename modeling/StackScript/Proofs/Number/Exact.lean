import StackScript.Number.Magnitude
import StackScript.Proofs.Number.Literal

/-!
# The exact value of a number

A finite binary64 number is a rational.  `exactValue?` takes it from the number taken apart, and
`FloatFields.exact` says that the fields of the bit pattern give the same one: a sign and a
magnitude.
-/

namespace StackScript

open Float.Model Float.Model.UnpackedFloat

/-- A sign as a factor. -/
def signFactor (isNegative : Bool) : ℚ := if isNegative then -1 else 1

/-- The rational that a number taken apart stands for. -/
def rational? : UnpackedFloat → Option ℚ
  | .finite sign mantissa exponent _ => some (signFactor (sign == .negative) * (mantissa * 2 ^ exponent))
  | .zero _ => some 0
  | .infinity _ | .notANumber => none

/-- The rational that a number is; none for infinities and for what is not a number. -/
def exactValue? (x : Float) : Option ℚ := rational? x.toModel.unpack

namespace Magnitude

theorem denominator_pos (m : Magnitude) : 0 < m.denominator := Nat.pow_pos (by norm_num)

theorem numerator_pos {m : Magnitude} (nonzero : m.significand ≠ 0) : 0 < m.numerator :=
  Nat.mul_pos (Nat.pos_of_ne_zero nonzero) (Nat.pow_pos (by norm_num))

/-- A magnitude is the fraction of its numerator and denominator. -/
theorem numerator_div_denominator (m : Magnitude) :
    (m.numerator : ℚ) / m.denominator = m.significand * 2 ^ m.exponent := by
  have parts : m.exponent = m.exponent.toNat - (-m.exponent).toNat := by omega
  simp only [numerator, denominator, Nat.pow_eq]
  conv_rhs => rw [parts]
  rw [zpow_sub₀ (by norm_num)]
  push_cast
  rw [zpow_natCast, zpow_natCast, mul_div_assoc]

end Magnitude

namespace FloatFields

/-- The fields of a bit pattern. -/
def ofBits (bits : Number.Bits) : FloatFields :=
  ⟨Sign.ofBitVec (unpackSign bits) == .negative, (unpackExponent bits).toNat, (unpackMantissa bits).toNat⟩

/-- The fields are read off the bits of a number. -/
theorem ofFloat_eq (x : Float) : ofFloat x = ofBits x.toModel.toBits.toBitVec := by
  have exponent (bits : Number.Bits) : (unpackExponent bits).toNat = bits.toNat / 2 ^ 52 % 2 ^ 11 := by
    simp only [unpackExponent, BitVec.toNat_cast, BitVec.extractLsb_toNat]
    rw [Nat.shiftRight_eq_div_pow]
  have mantissa (bits : Number.Bits) : (unpackMantissa bits).toNat = bits.toNat % 2 ^ 52 := by
    simp only [unpackMantissa, BitVec.toNat_cast, BitVec.extractLsb_toNat]
    rw [Nat.shiftRight_zero]
  have sign (bits : Number.Bits) :
      (Sign.ofBitVec (unpackSign bits) == .negative) = decide (2 ^ 63 ≤ bits.toNat) := by
    have bit : (unpackSign bits).toNat = bits.toNat / 2 ^ 63 % 2 := by
      simp only [unpackSign, BitVec.toNat_cast, BitVec.extractLsb_toNat]
      rw [Nat.shiftRight_eq_div_pow]
    have clear : unpackSign bits = 0#1 ↔ bits.toNat < 2 ^ 63 := by
      have bound : bits.toNat < 2 ^ 64 := bits.isLt
      rw [← BitVec.toNat_inj, bit, BitVec.toNat_ofNat]
      omega
    rw [Sign.ofBitVec]
    by_cases positive : unpackSign bits = 0#1
    · rw [if_pos positive, decide_eq_false (not_le.mpr (clear.mp positive))]
      rfl
    · rw [if_neg positive, decide_eq_true (not_lt.mp (mt clear.mpr positive))]
      rfl
  rw [ofBits, exponent, mantissa, sign]
  rfl

/-- A bit pattern stands for the magnitude of its fields, with their sign. -/
theorem rational?_unpack (bits : Number.Bits) :
    rational? (UnpackedFloat.unpack .binary64 bits) =
      if (ofBits bits).isSpecial then none
      else some (signFactor (ofBits bits).isNegative *
        ((Magnitude.ofFields (ofBits bits)).significand * 2 ^ (Magnitude.ofFields (ofBits bits)).exponent)) := by
  have special : (ofBits bits).isSpecial = true ↔ unpackExponent bits = -1#_ := by
    rw [isSpecial, beq_iff_eq, ← BitVec.toNat_inj]
    rfl
  have subnormal : (ofBits bits).exponent = 0 ↔ unpackExponent bits = 0#_ := by
    rw [← BitVec.toNat_inj]
    rfl
  have zero : (ofBits bits).fraction = 0 ↔ unpackMantissa bits = 0#_ := by
    rw [← BitVec.toNat_inj]
    rfl
  unfold UnpackedFloat.unpack Magnitude.ofFields
  dsimp only
  by_cases ones : unpackExponent bits = -1#_
  · rw [if_pos ones, if_pos (special.mpr ones)]
    split <;> rfl
  rw [if_neg ones, if_neg (mt special.mp ones)]
  by_cases none : unpackExponent bits = 0#_
  · rw [if_pos none, if_pos (subnormal.mpr none)]
    split
    · rename_i empty
      rw [zero.mpr empty]
      simp [rational?]
    · rw [none]
      rfl
  · rw [if_neg none, if_neg (mt subnormal.mp none)]
    simp only [rational?, Number.toNat_leading]
    rfl

/-- The fields of a finite number other than zero are its sign and its magnitude. -/
theorem exact {x : Float} {v : ℚ} (exact : exactValue? x = some v) (nonzero : v ≠ 0) :
    (ofFloat x).isSpecial = false ∧ (Magnitude.ofFields (ofFloat x)).significand ≠ 0 ∧
      v = signFactor (ofFloat x).isNegative *
        ((Magnitude.ofFields (ofFloat x)).numerator / (Magnitude.ofFields (ofFloat x)).denominator) := by
  rw [Magnitude.numerator_div_denominator]
  replace exact := (rational?_unpack _).symm.trans exact
  rw [← ofFloat_eq] at exact
  split at exact
  · cases exact
  · rename_i finite
    have same := (Option.some.inj exact).symm
    refine ⟨Bool.eq_false_iff.mpr finite, fun empty => nonzero ?_, same⟩
    rw [same, empty]
    simp

end FloatFields

end StackScript
