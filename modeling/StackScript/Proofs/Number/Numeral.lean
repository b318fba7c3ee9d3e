import StackScript.Number.Text
import StackScript.Proofs.Number.Exact
import StackScript.Proofs.Text.Run

/-!
# Numerals

A `Numeral` is a number as it is written in decimal: a sign, digits, a point with more digits,
and an exponent.  `Numeral.read?` reads one from a text, and what is written is read back
(`Numeral.read?_chars`).  A text that ends in a point, or has no digit where one belongs, is no
numeral.
-/

namespace StackScript

/-- A number as it is written in decimal. -/
structure Numeral where
  isNegative : Bool
  /-- Digits before the point. -/
  whole : List Char
  /-- Digits behind the point; there is no point if there are none. -/
  fraction : List Char
  /-- Whether the exponent is negative, and its digits; none in plain decimal form. -/
  exponent : Option (Bool × List Char)
deriving DecidableEq

namespace Numeral

/-- The mark of a negative number. -/
def signChars (isNegative : Bool) : List Char := if isNegative then ['-'] else []

/-- A point, and the digits behind it. -/
def fractionChars : List Char → List Char
  | [] => []
  | digits => '.' :: digits

theorem fractionChars_cons (c : Char) (digits : List Char) :
    fractionChars (c :: digits) = '.' :: c :: digits := rfl

/-- An exponent with its sign. -/
def exponentChars : Option (Bool × List Char) → List Char
  | none => []
  | some (isNegative, digits) => 'e' :: (if isNegative then '-' else '+') :: digits

/-- How a numeral is written. -/
def chars (n : Numeral) : List Char :=
  signChars n.isNegative ++ n.whole ++ fractionChars n.fraction ++ exponentChars n.exponent

/-- The exponent; zero in plain decimal form. -/
def exponentValue (n : Numeral) : ℤ :=
  match n.exponent with
  | none => 0
  | some (true, digits) => -(Number.digitsValue digits : ℤ)
  | some (false, digits) => Number.digitsValue digits

/-- The rational that a numeral denotes. -/
def value (n : Numeral) : ℚ :=
  signFactor n.isNegative *
    (Number.digitsValue (n.whole ++ n.fraction) * 10 ^ (n.exponentValue - n.fraction.length))

/-- The digits from the first one that is not zero. -/
def significantDigits (n : Numeral) : List Char := (n.whole ++ n.fraction).dropWhile (· == '0')

/-! ## Reading -/

/-- A run of at least one digit, and what follows it. -/
def readDigits? (text : List Char) : Option (List Char × List Char) :=
  match text.takeWhile Char.isDigit with
  | [] => none
  | digits => some (digits, text.dropWhile Char.isDigit)

/-- The sign in front of a text, and what follows it. -/
def readSign : List Char → Bool × List Char
  | '-' :: text => (true, text)
  | text => (false, text)

/-- The digits behind a point, and what follows them. -/
def readFraction? : List Char → Option (List Char × List Char)
  | '.' :: text => readDigits? text
  | text => some ([], text)

/-- The exponent that a text is. -/
def readExponent? : List Char → Option (Option (Bool × List Char))
  | [] => some none
  | 'e' :: '-' :: text => if readDigits? text = some (text, []) then some (some (true, text)) else none
  | 'e' :: '+' :: text => if readDigits? text = some (text, []) then some (some (false, text)) else none
  | _ => none

/-- The numeral that a text is. -/
def read? (text : List Char) : Option Numeral := do
  let (isNegative, text) := readSign text
  let (whole, text) ← readDigits? text
  let (fraction, text) ← readFraction? text
  let exponent ← readExponent? text
  return ⟨isNegative, whole, fraction, exponent⟩

/-- There are digits where they belong. -/
structure WellFormed (n : Numeral) : Prop where
  whole : n.whole ≠ [] ∧ ∀ c ∈ n.whole, c.isDigit
  fraction : ∀ c ∈ n.fraction, c.isDigit
  exponent : ∀ e ∈ n.exponent, e.2 ≠ [] ∧ ∀ c ∈ e.2, c.isDigit

theorem readDigits?_append {digits rest : List Char} (some : digits ≠ []) (all : ∀ c ∈ digits, c.isDigit)
    (ends : ∀ c ∈ rest.head?, c.isDigit = false) : readDigits? (digits ++ rest) = Option.some (digits, rest) := by
  rw [readDigits?, takeWhile_run all ends, dropWhile_run all ends]
  cases digits with
  | nil => exact absurd rfl some
  | cons => rfl

/-- A digit is no sign. -/
theorem readSign_digits {digits : List Char} (some : digits ≠ []) (all : ∀ c ∈ digits, c.isDigit)
    (rest : List Char) : readSign (digits ++ rest) = (false, digits ++ rest) := by
  cases digits with
  | nil => exact absurd rfl some
  | cons c digits =>
      have digit : c.isDigit := all c List.mem_cons_self
      unfold readSign
      split
      · rename_i minus
        cases minus
        cases digit
      · rfl

theorem readExponent?_chars {exponent : Option (Bool × List Char)}
    (digits : ∀ e ∈ exponent, e.2 ≠ [] ∧ ∀ c ∈ e.2, c.isDigit) :
    readExponent? (exponentChars exponent) = some exponent := by
  match exponent with
  | none => rfl
  | some (isNegative, text) =>
      obtain ⟨some, all⟩ := digits _ rfl
      have whole : readDigits? text = Option.some (text, []) := by
        have ends : ∀ c ∈ ([] : List Char).head?, c.isDigit = false := by simp
        have read := readDigits?_append some all ends
        rwa [List.append_nil] at read
      cases isNegative <;> exact if_pos whole

/-- What is written is read back. -/
theorem read?_chars {n : Numeral} (h : n.WellFormed) : read? n.chars = some n := by
  obtain ⟨isNegative, whole, fraction, exponent⟩ := n
  obtain ⟨⟨some, all⟩, digits, behind⟩ := h
  have notExponent : ∀ c ∈ (exponentChars exponent).head?, c.isDigit = false := by
    cases exponent <;> simp [exponentChars]
  have notFraction : ∀ c ∈ (fractionChars fraction ++ exponentChars exponent).head?, c.isDigit = false := by
    cases fraction with
    | nil => exact notExponent
    | cons => simp [fractionChars]
  have sign : readSign (signChars isNegative ++ (whole ++ (fractionChars fraction ++ exponentChars exponent))) =
      (isNegative, whole ++ (fractionChars fraction ++ exponentChars exponent)) := by
    cases isNegative with
    | true => rfl
    | false => exact readSign_digits some all _
  have point : readFraction? (fractionChars fraction ++ exponentChars exponent) =
      Option.some (fraction, exponentChars exponent) := by
    cases fraction with
    | nil =>
        cases exponent <;> rfl
    | cons c fraction => exact readDigits?_append (List.cons_ne_nil _ _) digits notExponent
  simp only [read?, chars, List.append_assoc, sign, readDigits?_append some all notFraction, point,
    readExponent?_chars behind, Option.bind_eq_bind, Option.bind_some, pure]

end Numeral

end StackScript
