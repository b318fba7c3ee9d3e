import StackScript.Proofs.Number.Numeral

/-!
# Digits with a point

The digits of a natural number with a point among them denote that number divided by a power of
ten.  Zeros that are trimmed from the end do not change the value, and what is left is a numeral
(`Numeral.pointed`) that ends neither in a point nor, behind a point, in a zero.
-/

namespace StackScript
namespace Number

/-! ## Digits -/

theorem digitsValue_toDigits (n : ℕ) : digitsValue (Nat.toDigits 10 n) = n := Nat.ofDigitChars_ten_toDigits

theorem digitsValue_zeros_append (count : ℕ) (digits : List Char) :
    digitsValue (List.replicate count '0' ++ digits) = digitsValue digits := by
  have split := Nat.ofDigitChars_append (b := 10) (l := List.replicate count '0') (m := digits) 0
  rw [Nat.ofDigitChars_replicate_zero, Nat.mul_zero] at split
  exact split

theorem digitsValue_append_zeros (digits : List Char) (count : ℕ) :
    digitsValue (digits ++ List.replicate count '0') = 10 ^ count * digitsValue digits := by
  have split := Nat.ofDigitChars_append (b := 10) (l := digits) (m := List.replicate count '0') 0
  rw [Nat.ofDigitChars_replicate_zero] at split
  exact split

theorem isDigit_zeros_append {count n : ℕ} {c : Char}
    (mem : c ∈ List.replicate count '0' ++ Nat.toDigits 10 n) : c.isDigit := by
  rcases List.mem_append.mp mem with zero | digit
  · rw [(List.mem_replicate.mp zero).2]
    rfl
  · exact Nat.isDigit_of_mem_toDigits (by norm_num) (by norm_num) digit

/-! ## Trimming -/

section

variable {c : Char} {front back text : List Char}

/-- A text ends in a run of the character, and that is what is trimmed. -/
theorem exists_trimEnd (c : Char) (text : List Char) : ∃ count,
    text = trimEnd c text ++ List.replicate count c ∧ (trimEnd c text).getLast? ≠ some c := by
  obtain ⟨body, rest, same, inside, stops⟩ := exists_run (· == c) text.reverse
  have left : trimEnd c text = rest.reverse := by rw [trimEnd, same, dropWhile_run inside stops]
  have run : body = List.replicate body.length c :=
    List.eq_replicate_of_mem fun d mem => beq_iff_eq.mp (inside d mem)
  refine ⟨body.length, ?_, ?_⟩
  · rw [left, ← List.reverse_reverse text, same, List.reverse_append]
    conv_lhs => rw [run, List.reverse_replicate]
  · rw [left, List.getLast?_reverse]
    intro last
    simpa using stops c last

theorem trimEnd_append :
    trimEnd c (front ++ back) = if trimEnd c back = [] then trimEnd c front else front ++ trimEnd c back := by
  unfold trimEnd
  rw [List.reverse_append, List.dropWhile_append]
  by_cases empty : back.reverse.dropWhile (· == c) = []
  · rw [empty]
    rfl
  · rw [if_neg (mt List.isEmpty_iff.mp empty), if_neg (mt List.reverse_eq_nil_iff.mp empty),
      List.reverse_append, List.reverse_reverse]

/-- A text without the character at its end stays as it is. -/
theorem trimEnd_eq_self (last : text.getLast? ≠ some c) : trimEnd c text = text := by
  obtain ⟨count, same, -⟩ := exists_trimEnd c text
  cases count with
  | zero => simpa using same.symm
  | succ count =>
      rw [same, List.replicate_succ', ← List.append_assoc, List.getLast?_append] at last
      exact absurd rfl last

end

/-! ## Digits with a point -/

section

variable (decimals n : ℕ)

/-- The digits of a number, with zeros in front so that one is left of the point. -/
def paddedDigits : List Char :=
  List.replicate (decimals + 1 - (Nat.toDigits 10 n).length) '0' ++ Nat.toDigits 10 n

/-- Those before the point. -/
def wholeDigits : List Char := (paddedDigits decimals n).take ((paddedDigits decimals n).length - decimals)

/-- Those behind the point. -/
def fractionDigits : List Char := (paddedDigits decimals n).drop ((paddedDigits decimals n).length - decimals)

theorem lt_length_paddedDigits : decimals < (paddedDigits decimals n).length := by
  simp only [paddedDigits, List.length_append, List.length_replicate]
  omega

theorem wholeDigits_append : wholeDigits decimals n ++ fractionDigits decimals n = paddedDigits decimals n :=
  List.take_append_drop _ _

theorem wholeDigits_ne_nil : wholeDigits decimals n ≠ [] := by
  have long := lt_length_paddedDigits decimals n
  intro empty
  have length := congrArg List.length empty
  rw [wholeDigits, List.length_take, List.length_nil] at length
  omega

theorem length_fractionDigits : (fractionDigits decimals n).length = decimals := by
  have long := lt_length_paddedDigits decimals n
  rw [fractionDigits, List.length_drop]
  omega

theorem isDigit_wholeDigits : ∀ c ∈ wholeDigits decimals n, c.isDigit := fun _ mem =>
  isDigit_zeros_append (List.mem_of_mem_take mem)

theorem isDigit_fractionDigits : ∀ c ∈ fractionDigits decimals n, c.isDigit := fun _ mem =>
  isDigit_zeros_append (List.mem_of_mem_drop mem)

theorem pointed_eq :
    pointed decimals n = wholeDigits decimals n ++ Numeral.fractionChars (fractionDigits decimals n) := by
  have length := length_fractionDigits decimals n
  unfold pointed
  dsimp only
  split
  · rename_i none
    rw [none, List.length_eq_zero_iff] at length
    rw [none, length, Numeral.fractionChars, ← length, wholeDigits_append]
    rfl
  · rename_i some
    change wholeDigits decimals n ++ '.' :: fractionDigits decimals n = _
    cases fraction : fractionDigits decimals n with
    | nil =>
        rw [fraction] at length
        exact absurd length.symm some
    | cons c rest => rfl

theorem isDigit_trimEnd {c : Char} (mem : c ∈ trimEnd '0' (fractionDigits decimals n)) : c.isDigit := by
  obtain ⟨count, same, -⟩ := exists_trimEnd '0' (fractionDigits decimals n)
  refine isDigit_fractionDigits decimals n c ?_
  rw [same]
  exact List.mem_append_left _ mem

theorem point_not_mem {text : List Char} (digits : ∀ c ∈ text, c.isDigit) : '.' ∉ text := fun mem =>
  Bool.false_ne_true (digits '.' mem)

/-- Trimming drops the zeros behind a point, and the point if nothing else is behind it. -/
theorem trimFraction_pointed (isNegative : Bool) :
    trimFraction (Numeral.signChars isNegative ++ pointed decimals n) =
      Numeral.signChars isNegative ++ wholeDigits decimals n ++
        Numeral.fractionChars (trimEnd '0' (fractionDigits decimals n)) := by
  have unpointed : '.' ∉ Numeral.signChars isNegative ++ wholeDigits decimals n := by
    have whole := point_not_mem (isDigit_wholeDigits decimals n)
    cases isNegative <;> simpa [Numeral.signChars] using whole
  have kept := point_not_mem fun c => isDigit_trimEnd decimals n (c := c)
  rw [pointed_eq, ← List.append_assoc]
  generalize Numeral.signChars isNegative ++ wholeDigits decimals n = front at unpointed ⊢
  generalize fractionDigits decimals n = fraction at kept
  have ends (text : List Char) (free : '.' ∉ text) : text.getLast? ≠ some '.' := fun last =>
    free (List.mem_of_getLast? last)
  cases fraction with
  | nil =>
      have free : (front ++ []).contains '.' = false := by simpa using unpointed
      rw [Numeral.fractionChars, trimFraction, free]
      rfl
  | cons c rest =>
      have point : (front ++ '.' :: c :: rest).contains '.' = true := by simp
      have split : front ++ '.' :: c :: rest = (front ++ ['.']) ++ c :: rest := by simp
      rw [Numeral.fractionChars_cons, trimFraction, point, if_pos rfl, split, trimEnd_append]
      by_cases zeros : trimEnd '0' (c :: rest) = []
      · have stays : trimEnd '0' (front ++ ['.']) = front ++ ['.'] := trimEnd_eq_self (by simp)
        have drops : trimEnd '.' ['.'] = [] := rfl
        rw [if_pos zeros, stays, trimEnd_append, if_pos drops, trimEnd_eq_self (ends _ unpointed), zeros,
          Numeral.fractionChars, List.append_nil]
      · rw [if_neg zeros]
        generalize trimEnd '0' (c :: rest) = digits at kept zeros ⊢
        obtain ⟨d, digits, rfl⟩ := List.exists_cons_of_ne_nil zeros
        rw [trimEnd_eq_self]
        · simp [Numeral.fractionChars]
        · rw [List.getLast?_append, List.getLast?_eq_getLast_of_ne_nil zeros]
          intro last
          exact ends _ kept ((List.getLast?_eq_getLast_of_ne_nil zeros).trans last)

end

end Number

/-! ## The numeral that is left -/

namespace Numeral

open Number

/-- The digits of `n` with a point before the last `decimals` of them, without trailing zeros. -/
def pointed (isNegative : Bool) (decimals n : ℕ) (exponent : Option (Bool × List Char)) : Numeral :=
  ⟨isNegative, wholeDigits decimals n, trimEnd '0' (fractionDigits decimals n), exponent⟩

variable (isNegative : Bool) (decimals n : ℕ) {exponent : Option (Bool × List Char)}

theorem wellFormed_pointed (digits : ∀ e ∈ exponent, e.2 ≠ [] ∧ ∀ c ∈ e.2, c.isDigit) :
    (pointed isNegative decimals n exponent).WellFormed :=
  ⟨⟨wholeDigits_ne_nil decimals n, isDigit_wholeDigits decimals n⟩, fun _ => isDigit_trimEnd decimals n, digits⟩

theorem value_pointed : (pointed isNegative decimals n exponent).value =
    signFactor isNegative * (n * 10 ^ ((pointed isNegative decimals n exponent).exponentValue - decimals)) := by
  obtain ⟨count, same, -⟩ := exists_trimEnd '0' (fractionDigits decimals n)
  have all : digitsValue (wholeDigits decimals n ++ fractionDigits decimals n) = n := by
    rw [wholeDigits_append, paddedDigits, digitsValue_zeros_append, digitsValue_toDigits]
  have length := length_fractionDigits decimals n
  rw [same, ← List.append_assoc, digitsValue_append_zeros] at all
  rw [same, List.length_append, List.length_replicate] at length
  rw [value]
  generalize (pointed isNegative decimals n exponent).exponentValue = e
  simp only [pointed]
  generalize trimEnd '0' (fractionDigits decimals n) = kept at all length
  generalize wholeDigits decimals n = front at all
  have place : e - (kept.length : ℤ) = count + (e - decimals) := by omega
  rw [place, zpow_add₀ (by norm_num), zpow_natCast, ← all]
  push_cast
  ring

/-- A numeral of so many digits has at most as many significant ones. -/
theorem length_significantDigits_pointed :
    (pointed isNegative decimals n exponent).significantDigits.length ≤ (Nat.toDigits 10 n).length := by
  have bounded {digits front : List Char} (zeros : ℕ) : front <+: List.replicate zeros '0' ++ digits →
      (front.dropWhile (· == '0')).length ≤ digits.length := by
    induction zeros generalizing front with
    | zero => exact fun h => (List.length_dropWhile_le ..).trans h.length_le
    | succ zeros ih =>
        intro h
        cases front with
        | nil => exact Nat.zero_le _
        | cons c front =>
            obtain ⟨rfl, others⟩ := List.cons_prefix_cons.mp h
            rw [List.dropWhile_cons_of_pos (by rfl)]
            exact ih others
  obtain ⟨count, same, -⟩ := exists_trimEnd '0' (fractionDigits decimals n)
  refine bounded (decimals + 1 - (Nat.toDigits 10 n).length) ⟨List.replicate count '0', ?_⟩
  simp only [pointed]
  rw [List.append_assoc, ← same]
  exact wholeDigits_append decimals n

theorem getLast?_fraction_pointed : (pointed isNegative decimals n exponent).fraction.getLast? ≠ some '0' :=
  (exists_trimEnd '0' (fractionDigits decimals n)).choose_spec.2

end Numeral

end StackScript
