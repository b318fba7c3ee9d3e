import Mathlib
import StackScript.Number.Decimal

/-!
# Rounding to significant digits

`significant count q` is the rational `q` rounded to a number of significant decimal digits,
a tie going to the even neighbour.  `Decimal.round` computes it in natural numbers
(`Decimal.value_round`).  Rounding the number once more, to as many decimals as its rounded form
has, gives the same digits (`Decimal.roundScaled_round`), also where the first rounding carries
into the next power of ten and there is one decimal less.
-/

namespace StackScript

/-! ## Rounding to an integer -/

/-- The integer nearest to a rational; of two that are equally near, the even one. -/
def nearestEven (q : ℚ) : ℤ :=
  if q - ⌊q⌋ < 1 / 2 then ⌊q⌋
  else if 1 / 2 < q - ⌊q⌋ then ⌊q⌋ + 1
  else if Even ⌊q⌋ then ⌊q⌋ else ⌊q⌋ + 1

/-- No integer is nearer, and a tie is even. -/
theorem nearestEven_near (q : ℚ) :
    |q - nearestEven q| < 1 / 2 ∨ |q - nearestEven q| = 1 / 2 ∧ Even (nearestEven q) := by
  have low := Int.floor_le q
  have high := Int.lt_floor_add_one q
  unfold nearestEven
  split
  · left
    rw [abs_of_nonneg (by linarith)]
    assumption
  · split
    · left
      push_cast
      rw [abs_of_nonpos (by linarith)]
      linarith
    · have half : q - ⌊q⌋ = 1 / 2 := by linarith
      right
      split
      · exact ⟨by rw [half]; norm_num, by assumption⟩
      · rename_i odd
        refine ⟨?_, by rw [Int.even_add_one]; exact odd⟩
        push_cast
        rw [abs_of_nonpos (by linarith)]
        linarith

/-- There is only one such integer. -/
theorem eq_nearestEven {q : ℚ} {n : ℤ} (near : |q - n| < 1 / 2 ∨ |q - n| = 1 / 2 ∧ Even n) :
    nearestEven q = n := by
  -- Both are within a half, so they differ by one at most, and then both are ties.
  have other := nearestEven_near q
  generalize nearestEven q = m at other
  have close {k : ℤ} (h : |q - k| < 1 / 2 ∨ |q - k| = 1 / 2 ∧ Even k) : |q - k| ≤ 1 / 2 :=
    h.elim le_of_lt fun tie => le_of_eq tie.1
  obtain ⟨below, above⟩ := abs_le.mp (close near)
  obtain ⟨below', above'⟩ := abs_le.mp (close other)
  have upper : m ≤ n + 1 := by exact_mod_cast (by linarith : (m : ℚ) ≤ n + 1)
  have lower : n ≤ m + 1 := by exact_mod_cast (by linarith : (n : ℚ) ≤ m + 1)
  by_contra differ
  have beside : m = n + 1 ∨ n = m + 1 := by omega
  have tie : |q - n| = 1 / 2 ∧ |q - m| = 1 / 2 := by
    rcases beside with rfl | rfl
    · push_cast at below' above' ⊢
      exact ⟨by rw [abs_of_nonneg] <;> linarith, by rw [abs_of_nonpos] <;> linarith⟩
    · push_cast at below above ⊢
      exact ⟨by rw [abs_of_nonpos] <;> linarith, by rw [abs_of_nonneg] <;> linarith⟩
  have evenN : Even n := (near.resolve_left (by rw [tie.1]; exact lt_irrefl _)).2
  have evenM : Even m := (other.resolve_left (by rw [tie.2]; exact lt_irrefl _)).2
  rcases beside with rfl | rfl
  · exact Int.even_add_one.mp evenM evenN
  · exact Int.even_add_one.mp evenN evenM

theorem nearestEven_neg (q : ℚ) : nearestEven (-q) = -nearestEven q := by
  have mirrored : |-q - ((-nearestEven q : ℤ) : ℚ)| = |q - nearestEven q| := by
    push_cast
    rw [← abs_neg, show -(-q - -(nearestEven q : ℚ)) = q - nearestEven q by ring]
  exact eq_nearestEven (by rw [mirrored, even_neg]; exact nearestEven_near q)

theorem nearestEven_le {q : ℚ} {n : ℤ} (h : q ≤ n) : nearestEven q ≤ n := by
  by_contra above
  have next : (n : ℚ) + 1 ≤ nearestEven q := by exact_mod_cast not_le.mp above
  rcases nearestEven_near q with near | ⟨near, -⟩
  · linarith [(abs_lt.mp near).1]
  · linarith [(abs_le.mp (le_of_eq near)).1]

theorem le_nearestEven {q : ℚ} {n : ℤ} (h : (n : ℚ) ≤ q) : n ≤ nearestEven q := by
  have mirrored : nearestEven (-q) ≤ -n := nearestEven_le (by push_cast; linarith)
  rw [nearestEven_neg] at mirrored
  omega

/-! ## Significant digits -/

/-- Exponent of the last of so many significant digits. -/
def lastPlace (count : ℕ) (q : ℚ) : ℤ := Int.log 10 |q| + 1 - count

/-- A rational rounded to so many significant digits. -/
def significant (count : ℕ) (q : ℚ) : ℚ :=
  nearestEven (q / 10 ^ lastPlace count q) * 10 ^ lastPlace count q

theorem significant_neg (count : ℕ) (q : ℚ) : significant count (-q) = -significant count q := by
  have place : lastPlace count (-q) = lastPlace count q := by rw [lastPlace, lastPlace, abs_neg]
  rw [significant, significant, place, neg_div, nearestEven_neg]
  push_cast
  ring

theorem log_eq_of_bounds {e : ℤ} {q : ℚ} (low : (10 : ℚ) ^ e ≤ q) (high : q < 10 ^ (e + 1)) :
    Int.log 10 q = e := by
  have pos : 0 < q := lt_of_lt_of_le (by positivity) low
  have atLeast : e ≤ Int.log 10 q := (Int.zpow_le_iff_le_log (by norm_num) pos).mp (by exact_mod_cast low)
  have below : Int.log 10 q < e + 1 := (Int.lt_zpow_iff_log_lt (by norm_num) pos).mp (by exact_mod_cast high)
  omega

namespace Decimal

/-! ## Rounding in natural numbers -/

theorem nearestEven_div {numerator denominator : ℕ} (pos : 0 < denominator) :
    nearestEven (numerator / denominator) = roundHalfEven numerator denominator := by
  have parts := Nat.div_add_mod numerator denominator
  have rest := Nat.mod_lt numerator pos
  unfold roundHalfEven
  dsimp only
  generalize numerator / denominator = quotient at parts
  generalize numerator % denominator = remainder at parts rest
  have scale : (0 : ℚ) < denominator := by exact_mod_cast pos
  have whole : (numerator : ℚ) / denominator = quotient + remainder / denominator := by
    rw [← parts]
    push_cast
    field_simp
  rw [whole]
  have nonneg : (0 : ℚ) ≤ remainder / denominator := by positivity
  have small : (remainder : ℚ) / denominator < 1 := (div_lt_one scale).mpr (by exact_mod_cast rest)
  split
  · rename_i below
    have half : (remainder : ℚ) / denominator < 1 / 2 := by
      rw [div_lt_div_iff₀ scale two_pos]
      exact_mod_cast (by omega : remainder * 2 < 1 * denominator)
    refine eq_nearestEven (.inl ?_)
    push_cast
    rw [add_sub_cancel_left, abs_of_nonneg nonneg]
    exact half
  split
  · rename_i above
    have half : 1 / 2 < (remainder : ℚ) / denominator := by
      rw [div_lt_div_iff₀ two_pos scale]
      exact_mod_cast (by omega : 1 * denominator < remainder * 2)
    refine eq_nearestEven (.inl ?_)
    push_cast
    rw [abs_of_nonpos (by linarith)]
    linarith
  · have half : (remainder : ℚ) / denominator = 1 / 2 := by
      rw [div_eq_div_iff scale.ne' two_ne_zero]
      exact_mod_cast (by omega : remainder * 2 = 1 * denominator)
    rw [half]
    refine eq_nearestEven (.inr ?_)
    rcases Nat.mod_two_eq_zero_or_one quotient with even | odd
    · rw [even]
      push_cast
      exact ⟨by norm_num, by rw [add_zero]; exact_mod_cast Nat.even_iff.mpr even⟩
    · rw [odd]
      push_cast
      refine ⟨by norm_num, ?_⟩
      exact_mod_cast (Nat.odd_iff.mpr odd).add_one

theorem digitCount_eq (n : ℕ) : digitCount n = Nat.log 10 n + 1 := by
  have bounded (k : ℕ) (pos : 0 < k) : digitCount n ≤ k ↔ n < 10 ^ k :=
    Nat.length_toDigits_le_iff (by norm_num) pos
  refine le_antisymm ?_ ?_
  · exact (bounded _ (Nat.succ_pos _)).mpr (Nat.lt_pow_succ_log_self (by norm_num) n)
  · have pos : 0 < digitCount n := Nat.length_toDigits_pos
    have less := (bounded _ pos).mp (le_refl _)
    exact Nat.log_lt_of_lt_pow' pos.ne' less

theorem clog_succ {n : ℕ} (pos : 0 < n) : Nat.clog 10 (n + 1) = Nat.log 10 n + 1 := by
  refine eq_of_forall_ge_iff fun k => ?_
  rw [Nat.clog_le_iff_le_pow (by norm_num), Nat.succ_le_iff, ← Nat.log_lt_iff_lt_pow (by norm_num) pos.ne']
  exact Nat.lt_iff_add_one_le

section

variable {numerator denominator : ℕ} (up : 0 < numerator) (down : 0 < denominator)

include up down

theorem leadingExponent_eq : leadingExponent numerator denominator = Int.log 10 (numerator / denominator : ℚ) := by
  have above : (0 : ℚ) < numerator := by exact_mod_cast up
  have below : (0 : ℚ) < denominator := by exact_mod_cast down
  unfold leadingExponent
  split
  · rename_i large
    rw [Int.log_of_one_le_right 10 ((one_le_div₀ below).mpr (by exact_mod_cast large)),
      Nat.floor_div_eq_div, digitCount_eq]
    push_cast
    ring
  · rename_i small
    have least : 1 ≤ (denominator - 1) / numerator := (Nat.one_le_div_iff up).mpr (by omega)
    have ceil : ⌈(denominator : ℚ) / numerator⌉₊ = (denominator - 1) / numerator + 1 := by
      rw [Nat.ceil_eq_iff (Nat.add_one_ne_zero _), Nat.add_sub_cancel, lt_div_iff₀ above, div_le_iff₀ above]
      have parts := Nat.div_add_mod (denominator - 1) numerator
      have rest := Nat.mod_lt (denominator - 1) up
      constructor
      · exact_mod_cast (by rw [Nat.mul_comm]; omega :
          (denominator - 1) / numerator * numerator < denominator)
      · exact_mod_cast (by rw [Nat.add_mul, Nat.mul_comm]; omega :
          denominator ≤ ((denominator - 1) / numerator + 1) * numerator)
    rw [Int.log_of_right_le_one 10 ((div_le_one₀ below).mpr (by exact_mod_cast (by omega : numerator ≤ denominator))),
      inv_div, ceil, clog_succ least, digitCount_eq]

omit up in
theorem roundScaled_eq (numerator : ℕ) (shift : ℤ) :
    (roundScaled numerator denominator shift : ℤ) = nearestEven (numerator / denominator * 10 ^ shift) := by
  have scaled : ((numerator * 10 ^ shift.toNat : ℕ) : ℚ) / ((denominator * 10 ^ (-shift).toNat : ℕ) : ℚ) =
      numerator / denominator * 10 ^ shift := by
    have parts : shift = shift.toNat - (-shift).toNat := by omega
    conv_rhs => rw [parts]
    rw [zpow_sub₀ (by norm_num)]
    push_cast
    rw [zpow_natCast, zpow_natCast, div_mul_div_comm]
  rw [← scaled, nearestEven_div (Nat.mul_pos down (by positivity))]
  rfl

/-! ## Both roundings -/

/-- The number with its point moved behind so many digits. -/
theorem scaled_bounds (digits : ℕ) :
    ((10 ^ digits : ℤ) : ℚ) ≤ numerator / denominator *
        10 ^ ((digits : ℤ) - Int.log 10 (numerator / denominator : ℚ)) ∧
      (numerator / denominator : ℚ) * 10 ^ ((digits : ℤ) - Int.log 10 (numerator / denominator : ℚ)) <
        ((10 ^ (digits + 1) : ℤ) : ℚ) := by
  have pos : (0 : ℚ) < numerator / denominator := by
    have : (0 : ℚ) < numerator := by exact_mod_cast up
    have : (0 : ℚ) < denominator := by exact_mod_cast down
    positivity
  have low := Int.zpow_log_le_self (b := 10) (by norm_num) pos
  have high := Int.lt_zpow_succ_log_self (b := 10) (by norm_num) (numerator / denominator : ℚ)
  generalize Int.log 10 (numerator / denominator : ℚ) = k at low high
  have shifted (e : ℤ) : (10 : ℚ) ^ e * 10 ^ ((digits : ℤ) - k) = 10 ^ (e + digits - k) := by
    rw [← zpow_add₀ (by norm_num)]
    congr 1
    ring
  have scale : (0 : ℚ) < 10 ^ ((digits : ℤ) - k) := by positivity
  constructor
  · have := mul_le_mul_of_nonneg_right low scale.le
    push_cast at this ⊢
    rw [shifted, show k + digits - k = (digits : ℤ) by ring, zpow_natCast] at this
    exact this
  · have := mul_lt_mul_of_pos_right high scale
    push_cast at this ⊢
    rw [shifted, show k + 1 + digits - k = ((digits + 1 : ℕ) : ℤ) by push_cast; ring, zpow_natCast] at this
    exact this

/-- A rounded decimal has the digits that were asked for. -/
theorem round_significand (digits : ℕ) :
    10 ^ digits ≤ (round digits numerator denominator).significand ∧
      (round digits numerator denominator).significand < 10 ^ (digits + 1) := by
  obtain ⟨low, high⟩ := scaled_bounds up down digits
  have scaled := roundScaled_eq down numerator (digits - leadingExponent numerator denominator)
  rw [← leadingExponent_eq up down] at low high
  have atLeast := le_nearestEven low
  have atMost := nearestEven_le high.le
  rw [← scaled] at atLeast atMost
  have atLeast : 10 ^ digits ≤ roundScaled numerator denominator (digits - leadingExponent numerator denominator) := by
    exact_mod_cast atLeast
  have atMost : roundScaled numerator denominator (digits - leadingExponent numerator denominator) ≤
      10 ^ (digits + 1) := by
    exact_mod_cast atMost
  unfold round
  dsimp only
  split
  · exact ⟨le_refl _, Nat.pow_lt_pow_succ (by norm_num)⟩
  · rename_i carries
    exact ⟨atLeast, lt_of_le_of_ne atMost carries⟩

/-- It is the number rounded to these digits. -/
theorem value_round (digits : ℕ) :
    ((round digits numerator denominator).significand : ℚ) *
        10 ^ ((round digits numerator denominator).exponent - digits) =
      significant (digits + 1) (numerator / denominator) := by
  have scaled := roundScaled_eq down numerator (digits - leadingExponent numerator denominator)
  rw [leadingExponent_eq up down] at scaled
  have place : lastPlace (digits + 1) (numerator / denominator : ℚ) =
      leadingExponent numerator denominator - digits := by
    rw [lastPlace, abs_of_nonneg (by positivity), leadingExponent_eq up down]
    push_cast
    ring
  have moved : (numerator / denominator : ℚ) / 10 ^ (leadingExponent numerator denominator - digits) =
      numerator / denominator * 10 ^ ((digits : ℤ) - leadingExponent numerator denominator) := by
    rw [div_eq_mul_inv, ← zpow_neg, neg_sub]
  rw [significant, place, moved, leadingExponent_eq up down, ← scaled, ← leadingExponent_eq up down]
  unfold round
  dsimp only
  split
  · rename_i carries
    have one : leadingExponent numerator denominator + 1 - digits =
        1 + (leadingExponent numerator denominator - digits) := by ring
    simp only [Nat.pow_eq] at carries ⊢
    rw [carries, one, zpow_add₀ (by norm_num)]
    push_cast
    ring
  · norm_num

/-- Rounded to as many decimals as it has then, the number has the same digits. -/
theorem roundScaled_round (digits : ℕ) :
    roundScaled numerator denominator (digits - (round digits numerator denominator).exponent) =
      (round digits numerator denominator).significand := by
  unfold round
  dsimp only
  split
  · rename_i carries
    simp only [Nat.pow_eq] at carries ⊢
    -- The number is at most half a unit of its last digit below the next power of ten.
    have scaled := roundScaled_eq down numerator (digits - leadingExponent numerator denominator)
    obtain ⟨-, high⟩ := scaled_bounds up down digits
    rw [← leadingExponent_eq up down] at high
    rw [carries] at scaled
    have near := nearestEven_near
      (numerator / denominator * 10 ^ ((digits : ℤ) - leadingExponent numerator denominator))
    rw [← scaled] at near
    have close := abs_le.mp (near.elim le_of_lt fun tie => le_of_eq tie.1)
    have fewer := roundScaled_eq down numerator
      (digits - (leadingExponent numerator denominator + 1))
    have tenth : (numerator / denominator : ℚ) * 10 ^ ((digits : ℤ) - (leadingExponent numerator denominator + 1)) =
        numerator / denominator * 10 ^ ((digits : ℤ) - leadingExponent numerator denominator) / 10 := by
      rw [← sub_sub, zpow_sub_one₀ (by norm_num)]
      ring
    rw [tenth] at fewer
    generalize (numerator / denominator : ℚ) * 10 ^ ((digits : ℤ) - leadingExponent numerator denominator) = q
      at high close fewer
    have rounded : nearestEven (q / 10) = (10 ^ digits : ℕ) := by
      refine eq_nearestEven (.inl ?_)
      push_cast at close high ⊢
      rw [pow_succ] at close high
      rw [abs_lt]
      constructor <;> linarith
    rw [rounded] at fewer
    exact_mod_cast fewer
  · rfl

/-- Its exponent is the decimal exponent of the rounded number. -/
theorem exponent_round (digits : ℕ) :
    Int.log 10 (significant (digits + 1) (numerator / denominator)) =
      (round digits numerator denominator).exponent := by
  obtain ⟨low, high⟩ := round_significand up down digits
  rw [← value_round up down]
  generalize (round digits numerator denominator).significand = s at low high
  generalize (round digits numerator denominator).exponent = e
  have scale : (0 : ℚ) < 10 ^ (e - digits) := by positivity
  refine log_eq_of_bounds ?_ ?_
  · calc (10 : ℚ) ^ e = 10 ^ digits * 10 ^ (e - digits) := by
          rw [← zpow_natCast, ← zpow_add₀ (by norm_num), add_sub_cancel]
      _ ≤ s * 10 ^ (e - digits) := mul_le_mul_of_nonneg_right (by exact_mod_cast low) scale.le
  · calc (s : ℚ) * 10 ^ (e - digits) < 10 ^ (digits + 1) * 10 ^ (e - digits) :=
          mul_lt_mul_of_pos_right (by exact_mod_cast high) scale
      _ = 10 ^ (e + 1) := by
          rw [← zpow_natCast, ← zpow_add₀ (by norm_num)]
          congr 1
          push_cast
          ring

end

end Decimal
end StackScript
