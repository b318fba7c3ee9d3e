import StackScript.Proofs.Number.Numeral

/-!
# Reading JSON

`Json.decode?` reads a text as one JSON value.  It takes every form that a value may have: blanks
between the parts, all escapes in strings, surrogate pairs among them, and numbers with fractions
and exponents.  It refuses control characters in strings, unpaired surrogates, leading zeros, and
anything but blanks behind the value.
-/

namespace StackScript
namespace Json

/-- A JSON value. -/
inductive Value where
  | null
  | bool (b : Bool)
  | number (q : ℚ)
  | string (text : String)
  | array (items : List Value)
  /-- The fields as they are written, in their order. -/
  | object (fields : List (String × Value))

/-- A reader takes a value off the front of a text. -/
abbrev Reader (α : Type) : Type := List Char → Option (α × List Char)

def isBlank (c : Char) : Bool := c == ' ' || c == '\t' || c == '\n' || c == '\r'

def skipBlanks (text : List Char) : List Char := text.dropWhile isBlank

/-! ## Strings -/

/-- The value of a hexadecimal digit. -/
def hexValue? (c : Char) : Option Nat :=
  if c.isDigit then some (c.toNat - '0'.toNat)
  else if 'a' ≤ c ∧ c ≤ 'f' then some (c.toNat - 'a'.toNat + 10)
  else if 'A' ≤ c ∧ c ≤ 'F' then some (c.toNat - 'A'.toNat + 10)
  else none

/-- Four hexadecimal digits. -/
def codeUnit? : Reader Nat
  | a :: b :: c :: d :: text => do
    return ((((← hexValue? a) * 16 + (← hexValue? b)) * 16 + (← hexValue? c)) * 16 + (← hexValue? d), text)
  | _ => none

/-- The second code unit of a surrogate pair. -/
def lowSurrogate? : Reader Nat
  | '\\' :: 'u' :: text => do
    let (low, text) ← codeUnit? text
    if 0xDC00 ≤ low ∧ low < 0xE000 then some (low - 0xDC00, text) else none
  | _ => none

/-- The character behind a backslash and a `u`. -/
def unicode? : Reader Char := fun text => do
  let (unit, text) ← codeUnit? text
  if 0xD800 ≤ unit ∧ unit < 0xDC00 then
    let (low, text) ← lowSurrogate? text
    return (Char.ofNat (0x10000 + (unit - 0xD800) * 0x400 + low), text)
  else if 0xDC00 ≤ unit ∧ unit < 0xE000 then none
  else return (Char.ofNat unit, text)

/-- The character that is written as this one behind a backslash. -/
def unescape? : Char → Option Char
  | '"' => some '"'
  | '\\' => some '\\'
  | '/' => some '/'
  | 'b' => some '\x08'
  | 'f' => some '\x0c'
  | 'n' => some '\n'
  | 'r' => some '\r'
  | 't' => some '\t'
  | _ => none

/-- A character inside a string. -/
def character? : Reader Char
  | '\\' :: 'u' :: text => unicode? text
  | '\\' :: c :: text => (unescape? c).map (·, text)
  | c :: text => if c = '\\' ∨ c = '"' ∨ c.toNat < 32 then none else some (c, text)
  | [] => none

/-- What is left of a string, with its closing quote. -/
def characters? : Nat → Reader (List Char)
  | 0, _ => none
  | _ + 1, '"' :: text => some ([], text)
  | fuel + 1, text => do
    let (c, text) ← character? text
    let (characters, text) ← characters? fuel text
    return (c :: characters, text)

/-- A string. -/
def string? : Reader String
  | '"' :: text => (characters? text.length text).map fun (characters, rest) => (String.ofList characters, rest)
  | _ => none

/-! ## Numbers -/

/-- The exponent of a number, if there is one. -/
def exponent? : Reader (Option (Bool × List Char))
  | c :: text =>
    if c = 'e' ∨ c = 'E' then do
      let (isNegative, text) :=
        match text with
        | '-' :: text => (true, text)
        | '+' :: text => (false, text)
        | text => (false, text)
      let (digits, text) ← Numeral.readDigits? text
      return (some (isNegative, digits), text)
    else some (none, c :: text)
  | [] => some (none, [])

/-- A number. -/
def number? : Reader ℚ := fun text => do
  let (isNegative, text) := Numeral.readSign text
  let (whole, text) ← Numeral.readDigits? text
  if whole.head? = some '0' ∧ whole ≠ ['0'] then none
  else
    let (fraction, text) ← Numeral.readFraction? text
    let (exponent, text) ← exponent? text
    return (Numeral.value ⟨isNegative, whole, fraction, exponent⟩, text)

/-! ## Values -/

/-- Items with commas between them, and the mark that closes them; there is one item at least. -/
def separated? {α : Type} (item? : Reader α) (close : Char) : Nat → Reader (List α)
  | 0, _ => none
  | fuel + 1, text => do
    let (item, text) ← item? text
    match skipBlanks text with
    | [] => none
    | c :: text =>
      if c = close then return ([item], text)
      else if c = ',' then
        let (items, text) ← separated? item? close fuel text
        return (item :: items, text)
      else none

/-- Items with commas between them, and the mark that closes them. -/
def items? {α : Type} (item? : Reader α) (close : Char) : Reader (List α) := fun text =>
  match skipBlanks text with
  | [] => none
  | c :: rest => if c = close then some ([], rest) else separated? item? close text.length text

/-- A field of an object. -/
def field? (value? : Reader Value) : Reader (String × Value) := fun text => do
  let (name, text) ← string? (skipBlanks text)
  match skipBlanks text with
  | ':' :: text =>
    let (value, text) ← value? text
    return ((name, value), text)
  | _ => none

/-- A value that is nested at most so deep. -/
def value? : Nat → Reader Value
  | 0, _ => none
  | depth + 1, text =>
    match skipBlanks text with
    | 'n' :: 'u' :: 'l' :: 'l' :: rest => some (.null, rest)
    | 't' :: 'r' :: 'u' :: 'e' :: rest => some (.bool true, rest)
    | 'f' :: 'a' :: 'l' :: 's' :: 'e' :: rest => some (.bool false, rest)
    | '[' :: text => (items? (value? depth) ']' text).map fun (items, rest) => (.array items, rest)
    | '{' :: text => (items? (field? (value? depth)) '}' text).map fun (fields, rest) => (.object fields, rest)
    | '"' :: text => (string? ('"' :: text)).map fun (text, rest) => (.string text, rest)
    | text => (number? text).map fun (q, rest) => (.number q, rest)

/-- The value that a text is. -/
def decode? (text : String) : Option Value := do
  let (value, rest) ← value? text.length text.toList
  if skipBlanks rest = [] then return value else none

end Json
end StackScript
