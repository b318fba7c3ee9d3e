/-!
# Binary64 numbers as exact fractions

A finite binary64 number is, up to its sign, a natural number times a power of
two.  `Magnitude.ofFloat` reads both from the bit pattern, so that text forms
can be computed in exact natural-number arithmetic.
-/

namespace StackScript

/-- The fields of a binary64 bit pattern. -/
structure FloatFields where
  isNegative : Bool
  /-- The eleven exponent bits. -/
  exponent : Nat
  /-- The fifty-two fraction bits. -/
  fraction : Nat
deriving DecidableEq, Repr

namespace FloatFields

/-- Splits the bit pattern of a number. -/
def ofFloat (x : Float) : FloatFields :=
  let bits := x.toBits.toNat
  ⟨Nat.pow 2 63 ≤ bits, bits / Nat.pow 2 52 % Nat.pow 2 11, bits % Nat.pow 2 52⟩

/-- Whether the pattern stands for an infinity or for no number. -/
def isSpecial (fields : FloatFields) : Bool := fields.exponent == Nat.pow 2 11 - 1

end FloatFields

/-- The magnitude `significand * 2 ^ exponent`. -/
structure Magnitude where
  significand : Nat
  exponent : Int
deriving DecidableEq, Repr

namespace Magnitude

/-- Magnitude of a finite number.  Exponent field zero holds the subnormal
numbers, which lack the leading one bit. -/
def ofFields (fields : FloatFields) : Magnitude :=
  if fields.exponent = 0 then ⟨fields.fraction, -1074⟩
  else ⟨Nat.pow 2 52 + fields.fraction, (fields.exponent : Int) - 1075⟩

/-- Numerator of the magnitude as a fraction. -/
def numerator (m : Magnitude) : Nat := m.significand * Nat.pow 2 m.exponent.toNat

/-- Denominator of the magnitude as a fraction. -/
def denominator (m : Magnitude) : Nat := Nat.pow 2 (-m.exponent).toNat

end Magnitude
end StackScript
