/-!
# Rounding a fraction to decimal digits

`Decimal.round` rounds a positive fraction to a given number of significant
decimal digits.  The value is exact, a tie goes to the even neighbour, and a
carry into a new digit raises the exponent by one.
-/

namespace StackScript

/-- A decimal in scientific form: the digits of `significand` with the point
after the first of them, times `10 ^ exponent`. -/
structure Decimal where
  significand : Nat
  exponent : Int
deriving DecidableEq, Repr

namespace Decimal

/-- The quotient rounded to the nearest natural number, a tie to the even
one. -/
def roundHalfEven (numerator denominator : Nat) : Nat :=
  let quotient := numerator / denominator
  let remainder := numerator % denominator
  if 2 * remainder < denominator then quotient
  else if denominator < 2 * remainder then quotient + 1
  else quotient + quotient % 2

/-- Number of decimal digits of a natural number; zero has one. -/
def digitCount (n : Nat) : Nat := (Nat.toDigits 10 n).length

/-- The integer `e` with `10 ^ e ≤ numerator / denominator < 10 ^ (e + 1)`, for
a positive fraction. -/
def leadingExponent (numerator denominator : Nat) : Int :=
  if denominator ≤ numerator then digitCount (numerator / denominator) - 1
  else -(digitCount ((denominator - 1) / numerator) : Int)

/-- The fraction times `10 ^ shift`, rounded to a natural number. -/
def roundScaled (numerator denominator : Nat) (shift : Int) : Nat :=
  roundHalfEven (numerator * Nat.pow 10 shift.toNat) (denominator * Nat.pow 10 (-shift).toNat)

/-- A positive fraction rounded to `digits + 1` significant digits. -/
def round (digits numerator denominator : Nat) : Decimal :=
  let exponent := leadingExponent numerator denominator
  let significand := roundScaled numerator denominator (digits - exponent)
  if significand = Nat.pow 10 (digits + 1) then ⟨Nat.pow 10 digits, exponent + 1⟩
  else ⟨significand, exponent⟩

end Decimal
end StackScript
