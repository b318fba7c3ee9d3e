import StackScript.Number.Decimal
import StackScript.Number.Literal
import StackScript.Number.Magnitude

/-!
# Text form of numbers

A number is written with at most eight significant digits and without trailing
zeros in its fraction.  Its scientific form tells the decimal exponent that it has
after rounding.  If that lies from -4 up to 7, the number is rounded again, to as
many decimals as eight digits leave, and written positionally; otherwise the
scientific form is taken.
-/

namespace StackScript
namespace Number

/-- Digits that are written, at most. -/
def significantDigits : Nat := 8

/-- The least decimal exponent that is written positionally. -/
def leastPositionalExponent : Int := -4

/-- The digits of a natural number with a point before the last `decimals` of them,
and with at least one digit before the point. -/
def pointed (decimals n : Nat) : List Char :=
  let digits := Nat.toDigits 10 n
  let padded := List.replicate (decimals + 1 - digits.length) '0' ++ digits
  let wholeDigits := padded.length - decimals
  if decimals = 0 then padded
  else padded.take wholeDigits ++ '.' :: padded.drop wholeDigits

/-- An integer in decimal. -/
def integerText (n : Int) : List Char :=
  if n < 0 then '-' :: Nat.toDigits 10 n.natAbs else Nat.toDigits 10 n.natAbs

/-- A magnitude rounded to `decimals` digits behind the first one, and its exponent. -/
def scientificText (decimals : Nat) (m : Magnitude) : List Char :=
  let d := Decimal.round decimals m.numerator m.denominator
  pointed decimals d.significand ++ 'e' :: integerText d.exponent

/-- A magnitude rounded to `decimals` digits behind the point. -/
def fixedText (decimals : Nat) (m : Magnitude) : List Char :=
  pointed decimals (Decimal.roundScaled m.numerator m.denominator decimals)

/-- The integer that a text denotes. -/
def readInteger? (text : List Char) : Option Int :=
  let natural? (digits : List Char) : Option Nat :=
    if digits.isEmpty || !digits.all Char.isDigit then none else some (digitsValue digits)
  match text with
  | '-' :: digits => (natural? digits).map fun n => -Int.ofNat n
  | '+' :: digits => (natural? digits).map Int.ofNat
  | digits => (natural? digits).map Int.ofNat

/-- The parts of a text in scientific form: what stands before the `e`, and the
exponent behind it. -/
def splitExponent (text : List Char) : List Char × Int :=
  match text.dropWhile (· != 'e') with
  | [] => (text, 0)
  | _ :: exponent => (text.takeWhile (· != 'e'), (readInteger? exponent).getD 0)

/-- The text without the given characters at its end. -/
def trimEnd (c : Char) (text : List Char) : List Char :=
  (text.reverse.dropWhile (· == c)).reverse

/-- Drops trailing zeros behind a point, and the point if nothing is left behind it. -/
def trimFraction (text : List Char) : List Char :=
  if text.contains '.' then trimEnd '.' (trimEnd '0' text) else text

/-- An exponent: a sign and at least two digits. -/
def exponentText (exponent : Int) : List Char :=
  let digits := Nat.toDigits 10 exponent.natAbs
  let padded := List.replicate (2 - digits.length) '0' ++ digits
  (if exponent < 0 then '-' else '+') :: padded

/-- Text of a finite number other than zero, from its sign and its magnitude. -/
def finiteText (isNegative : Bool) (m : Magnitude) : List Char :=
  let sign := if isNegative then ['-'] else []
  let (mantissa, exponent) := splitExponent (sign ++ scientificText (significantDigits - 1) m)
  if exponent < leastPositionalExponent || (significantDigits : Int) ≤ exponent then
    trimFraction mantissa ++ 'e' :: exponentText exponent
  else
    let decimals := ((significantDigits : Int) - 1 - exponent).toNat
    trimFraction (sign ++ fixedText decimals m)

/-- Text form of a number.  The sign of zero shows; that of a value that is not
a number does not. -/
def text (x : Float) : String :=
  let fields := FloatFields.ofFloat x
  let magnitude := Magnitude.ofFields fields
  let sign := if fields.isNegative then ['-'] else []
  if fields.isSpecial then
    if fields.fraction = 0 then String.ofList (sign ++ ['i', 'n', 'f']) else "nan"
  else if magnitude.significand = 0 then String.ofList (sign ++ ['0'])
  else String.ofList (finiteText fields.isNegative magnitude)

end Number
end StackScript
