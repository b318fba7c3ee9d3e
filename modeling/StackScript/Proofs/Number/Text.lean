import StackScript.Proofs.Number.Pointed
import StackScript.Proofs.Number.Rounding

/-!
# The text form of numbers shows them rounded

The text of a finite number other than zero is a numeral that denotes the number rounded to eight
significant digits (`Number.text_rounded`).  Its scientific form is rounded to find the exponent,
and its positional form is rounded once more; both have the same digits.
-/

namespace StackScript
namespace Number

/-! ## Exponents -/

theorem readInteger?_integerText (n : ℤ) : readInteger? (integerText n) = some n := by
  have nonempty : (Nat.toDigits 10 n.natAbs).isEmpty = false := List.isEmpty_eq_false_iff.mpr Nat.toDigits_ne_nil
  have all : (Nat.toDigits 10 n.natAbs).all Char.isDigit = true := List.all_eq_true.mpr fun c mem =>
    Nat.isDigit_of_mem_toDigits (by norm_num) (by norm_num) mem
  have read : (if (Nat.toDigits 10 n.natAbs).isEmpty || !(Nat.toDigits 10 n.natAbs).all Char.isDigit then none
      else some (digitsValue (Nat.toDigits 10 n.natAbs))) = some n.natAbs := by
    rw [nonempty, all, digitsValue_toDigits]
    rfl
  unfold integerText
  split
  · rename_i negative
    simp only [readInteger?, read, Option.map_some, Option.some.injEq, Int.ofNat_eq_natCast]
    omega
  · rename_i nonneg
    -- A digit is no sign.
    have unsigned {c : Char} (sign : c.isDigit = false) (digits : List Char) :
        Nat.toDigits 10 n.natAbs ≠ c :: digits := by
      intro same
      rw [same, List.all_cons, sign] at all
      cases all
    unfold readInteger?
    dsimp only
    split
    · rename_i same
      exact absurd same (unsigned rfl _)
    · rename_i same
      exact absurd same (unsigned rfl _)
    · rw [read, Option.map_some, Option.some.injEq, Int.ofNat_eq_natCast]
      omega

theorem splitExponent_append {front : List Char} (free : 'e' ∉ front) (exponent : List Char) :
    splitExponent (front ++ 'e' :: exponent) = (front, (readInteger? exponent).getD 0) := by
  have inside : ∀ c ∈ front, (c != 'e') = true := fun c mem => bne_iff_ne.mpr fun same => free (same ▸ mem)
  have stops : ∀ c ∈ ('e' :: exponent).head?, (c != 'e') = false := by simp
  rw [splitExponent, dropWhile_run inside stops, takeWhile_run inside stops]

theorem exponent_not_mem_pointed (isNegative : Bool) (decimals n : ℕ) :
    'e' ∉ Numeral.signChars isNegative ++ pointed decimals n := by
  have none {text : List Char} (digits : ∀ c ∈ text, c.isDigit) : 'e' ∉ text := fun mem =>
    Bool.false_ne_true (digits 'e' mem)
  have whole := none (isDigit_wholeDigits decimals n)
  have fraction : 'e' ∉ Numeral.fractionChars (fractionDigits decimals n) := by
    have digits := none (isDigit_fractionDigits decimals n)
    generalize fractionDigits decimals n = text at digits
    cases text with
    | nil => exact digits
    | cons c text => simpa [Numeral.fractionChars_cons] using digits
  have sign : 'e' ∉ Numeral.signChars isNegative := by cases isNegative <;> simp [Numeral.signChars]
  rw [pointed_eq]
  simp only [List.mem_append, not_or]
  exact ⟨sign, whole, fraction⟩

/-- The digits of an exponent, two at least. -/
def exponentDigits (exponent : ℤ) : List Char :=
  List.replicate (2 - (Nat.toDigits 10 exponent.natAbs).length) '0' ++ Nat.toDigits 10 exponent.natAbs

/-- The exponent of a numeral. -/
def exponentParts (exponent : ℤ) : Bool × List Char := (decide (exponent < 0), exponentDigits exponent)

theorem two_le_length_exponentDigits (exponent : ℤ) : 2 ≤ (exponentDigits exponent).length := by
  simp only [exponentDigits, List.length_append, List.length_replicate]
  omega

theorem exponentText_eq (exponent : ℤ) :
    'e' :: exponentText exponent = Numeral.exponentChars (some (exponentParts exponent)) := by
  simp only [exponentText, exponentParts, exponentDigits, Numeral.exponentChars, decide_eq_true_eq]

theorem exponentValue_pointed (isNegative : Bool) (decimals n : ℕ) (exponent : ℤ) :
    (Numeral.pointed isNegative decimals n (some (exponentParts exponent))).exponentValue = exponent := by
  have value : digitsValue (exponentDigits exponent) = exponent.natAbs := by
    rw [exponentDigits, digitsValue_zeros_append, digitsValue_toDigits]
  unfold Numeral.exponentValue Numeral.pointed exponentParts
  by_cases negative : exponent < 0
  · simp only [decide_eq_true negative, value]
    omega
  · simp only [decide_eq_false negative, value]
    omega

end Number

/-! ## Both forms -/

namespace Numeral

open Number

/-- How a rounded decimal of eight digits is written. -/
def ofDecimal (isNegative : Bool) (d : Decimal) : Numeral :=
  if d.exponent < -4 ∨ 8 ≤ d.exponent then
    pointed isNegative 7 d.significand (some (exponentParts d.exponent))
  else pointed isNegative (7 - d.exponent).toNat d.significand none

variable (isNegative : Bool) (d : Decimal)

theorem wellFormed_ofDecimal : (ofDecimal isNegative d).WellFormed := by
  unfold ofDecimal
  split
  · refine wellFormed_pointed isNegative _ _ fun e mem => ?_
    cases mem
    refine ⟨List.ne_nil_of_length_pos ?_, fun c => isDigit_zeros_append⟩
    exact zero_lt_two.trans_le (two_le_length_exponentDigits d.exponent)
  · exact wellFormed_pointed isNegative _ _ (by simp)

theorem value_ofDecimal : (ofDecimal isNegative d).value =
    signFactor isNegative * (d.significand * 10 ^ (d.exponent - 7)) := by
  unfold ofDecimal
  split
  · rw [value_pointed, exponentValue_pointed]
    rfl
  · rename_i near
    rw [value_pointed]
    congr 3
    show (0 : ℤ) - ((7 - d.exponent).toNat : ℤ) = d.exponent - 7
    omega

theorem exponent_ofDecimal : (ofDecimal isNegative d).exponent =
    if d.exponent < -4 ∨ 8 ≤ d.exponent then some (exponentParts d.exponent) else none := by
  unfold ofDecimal
  split <;> rfl

theorem exponentValue_ofDecimal (far : d.exponent < -4 ∨ 8 ≤ d.exponent) :
    (ofDecimal isNegative d).exponentValue = d.exponent := by
  rw [ofDecimal, if_pos far, exponentValue_pointed]

theorem length_significantDigits_ofDecimal (eight : d.significand < 10 ^ 8) :
    (ofDecimal isNegative d).significantDigits.length ≤ 8 := by
  have digits : (Nat.toDigits 10 d.significand).length ≤ 8 :=
    (Nat.length_toDigits_le_iff (by norm_num) (by norm_num)).mpr eight
  unfold ofDecimal
  split <;> exact (length_significantDigits_pointed ..).trans digits

theorem getLast?_fraction_ofDecimal : (ofDecimal isNegative d).fraction.getLast? ≠ some '0' := by
  unfold ofDecimal
  split <;> exact getLast?_fraction_pointed _ _ _

end Numeral

namespace Number

/-- A magnitude is rounded and written; where it is rounded once more, it keeps its digits. -/
theorem finiteText_eq (isNegative : Bool) {m : Magnitude} (nonzero : m.significand ≠ 0) :
    finiteText isNegative m = (Numeral.ofDecimal isNegative (.round 7 m.numerator m.denominator)).chars := by
  have same := Decimal.roundScaled_round (Magnitude.numerator_pos nonzero) m.denominator_pos 7
  have scientific : Numeral.signChars isNegative ++ scientificText (significantDigits - 1) m =
      Numeral.signChars isNegative ++ pointed 7 (Decimal.round 7 m.numerator m.denominator).significand ++
        'e' :: integerText (Decimal.round 7 m.numerator m.denominator).exponent := (List.append_assoc ..).symm
  unfold finiteText Numeral.ofDecimal
  dsimp only
  rw [show (if isNegative = true then ['-'] else []) = Numeral.signChars isNegative from rfl, scientific,
    splitExponent_append (exponent_not_mem_pointed _ _ _), readInteger?_integerText, Option.getD_some]
  generalize Decimal.round 7 m.numerator m.denominator = d at same
  simp only [Bool.or_eq_true, decide_eq_true_eq]
  by_cases far : d.exponent < -4 ∨ 8 ≤ d.exponent
  · rw [if_pos far, trimFraction_pointed, exponentText_eq]
    exact if_pos far
  · have fixed : fixedText (7 - d.exponent).toNat m = pointed (7 - d.exponent).toNat d.significand := by
      rw [fixedText, show ((7 - d.exponent).toNat : ℤ) = ((7 : ℕ) : ℤ) - d.exponent by omega, same]
    refine (if_neg far).trans ((congrArg (fun text => trimFraction (_ ++ text)) fixed).trans ?_)
    rw [trimFraction_pointed, if_neg far]
    exact (List.append_nil _).symm

/-- A finite number other than zero is rounded and written. -/
theorem toList_text {x : Float} {v : ℚ} (exact : exactValue? x = some v) (nonzero : v ≠ 0) :
    ∃ (isNegative : Bool) (numerator denominator : ℕ), 0 < numerator ∧ 0 < denominator ∧
      v = signFactor isNegative * (numerator / denominator) ∧
      (text x).toList = (Numeral.ofDecimal isNegative (.round 7 numerator denominator)).chars := by
  obtain ⟨finite, some, same⟩ := FloatFields.exact exact nonzero
  refine ⟨_, _, _, Magnitude.numerator_pos some, Magnitude.denominator_pos _, same, ?_⟩
  rw [← finiteText_eq _ some]
  unfold text
  dsimp only
  rw [finite, if_neg Bool.false_ne_true, if_neg some, String.toList_ofList]

/-- The text of a finite number other than zero is a numeral that denotes the number rounded to eight
significant digits.  It has an exponent exactly if that of the rounded number is less than -4 or
greater than 7; it is that one then, with a sign and two digits at least.  There are at most eight
significant digits, and the fraction does not end in a zero. -/
theorem text_rounded {x : Float} {v : ℚ} (exact : exactValue? x = some v) (nonzero : v ≠ 0) :
    let exponent := Int.log 10 |significant 8 v|
    ∃ n : Numeral, (text x).toList = n.chars ∧ Numeral.read? (text x).toList = some n ∧
      n.value = significant 8 v ∧
      (n.exponent.isSome ↔ exponent < -4 ∨ 8 ≤ exponent) ∧
      (∀ e ∈ n.exponent, 2 ≤ e.2.length ∧ n.exponentValue = exponent) ∧
      n.significantDigits.length ≤ 8 ∧ n.fraction.getLast? ≠ some '0' := by
  obtain ⟨isNegative, numerator, denominator, up, down, same, written⟩ := toList_text exact nonzero
  have value := Decimal.value_round up down 7
  have exponent := Decimal.exponent_round up down 7
  obtain ⟨-, eight⟩ := Decimal.round_significand up down 7
  have rounded : significant 8 v = signFactor isNegative * significant 8 (numerator / denominator) := by
    cases isNegative with
    | false => rw [same, signFactor, if_neg Bool.false_ne_true, one_mul, one_mul]
    | true => rw [same, signFactor, if_pos rfl, neg_one_mul, significant_neg, neg_one_mul]
  have magnitude : |significant 8 v| = significant 8 (numerator / denominator) := by
    have positive : 0 ≤ significant 8 (numerator / denominator : ℚ) := by
      rw [← value]
      positivity
    rw [rounded]
    cases isNegative <;> simp [signFactor, abs_of_nonneg positive]
  dsimp only
  rw [magnitude, exponent]
  have read := Numeral.read?_chars (Numeral.wellFormed_ofDecimal isNegative (.round 7 numerator denominator))
  refine ⟨_, written, written ▸ read, ?_, ?_, ?_, Numeral.length_significantDigits_ofDecimal _ _ eight,
    Numeral.getLast?_fraction_ofDecimal _ _⟩
  · rw [Numeral.value_ofDecimal, rounded, ← value]
    rfl
  · rw [Numeral.exponent_ofDecimal]
    split <;> simp_all
  · intro e mem
    rw [Numeral.exponent_ofDecimal] at mem
    split at mem
    · rename_i far
      cases mem
      exact ⟨two_le_length_exponentDigits _, Numeral.exponentValue_ofDecimal _ _ far⟩
    · cases mem

/-- Rounding 99999999.5 carries into the next power of ten, which is past the positional form. -/
theorem text_rounded_carried :
    exactValue? 99999999.5 = some (199999999 / 2) ∧ text 99999999.5 = "1e+08" ∧
      ∃ n : Numeral, Numeral.read? (text 99999999.5).toList = some n ∧ n.value = significant 8 (199999999 / 2) := by
  have exact : exactValue? 99999999.5 = some (199999999 / 2) := by decide +kernel
  obtain ⟨n, -, read, value, -⟩ := text_rounded exact (by norm_num)
  exact ⟨exact, by decide +kernel, n, read, value⟩

end Number
end StackScript
