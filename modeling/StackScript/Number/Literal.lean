/-!
# Number literals

A literal is a run of decimal digits, with a point and more digits if it has a
fraction.  It denotes the binary64 number nearest to its decimal value, a tie
going to the even significand; a value too large for the format denotes
infinity.
-/

namespace StackScript
namespace Number

/-- Value of a run of decimal digits. -/
def digitsValue (digits : List Char) : Nat :=
  digits.foldl (fun value digit => 10 * value + (digit.toNat - '0'.toNat)) 0

/-- The number that a literal denotes; none for text of another form. -/
def ofLiteral? (lexeme : String) : Option Float :=
  let whole := lexeme.toList.takeWhile Char.isDigit
  match whole, lexeme.toList.dropWhile Char.isDigit with
  | [], _ => none
  | _, [] => some (Float.ofScientific (digitsValue whole) false 0)
  | _, '.' :: fraction =>
    if fraction.isEmpty || !fraction.all Char.isDigit then none
    else some (Float.ofScientific (digitsValue (whole ++ fraction)) true fraction.length)
  | _, _ => none

end Number
end StackScript
