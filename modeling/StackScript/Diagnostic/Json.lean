import StackScript.Diagnostic.Basic

/-!
# Diagnostics as JSON

The JSON form is one object on one line, with its fields in a fixed order and
without blanks.  Quotes, backslashes and control characters are escaped; every
other character stands for itself.
-/

namespace StackScript
namespace Json

/-- A lower-case hexadecimal digit. -/
def hexDigit (n : Nat) : Char := (Nat.toDigits 16 (n % 16)).headD '0'

/-- How a character is written inside a string. -/
def escape (c : Char) : List Char :=
  match c with
  | '"' => ['\\', '"']
  | '\\' => ['\\', '\\']
  | '\x08' => ['\\', 'b']
  | '\t' => ['\\', 't']
  | '\n' => ['\\', 'n']
  | '\x0c' => ['\\', 'f']
  | '\r' => ['\\', 'r']
  | c =>
    if c.toNat < 32 then ['\\', 'u', '0', '0', hexDigit (c.toNat / 16), hexDigit c.toNat]
    else [c]

/-- A JSON string. -/
def quote (text : String) : String :=
  String.ofList ('"' :: (text.toList.flatMap escape ++ ['"']))

/-- A field of an object. -/
def field (name value : String) : String := "\"" ++ name ++ "\":" ++ value

/-- An object with the given fields. -/
def object (fields : List String) : String :=
  "\x7b" ++ String.intercalate "," fields ++ "\x7d"

/-- An array with the given items. -/
def array (items : List String) : String := "[" ++ String.intercalate "," items ++ "]"

/-- Fields of a label that depend on its span. -/
def spanFields (label : Label) (source : Option LineTable) : List String :=
  if label.span.isKnown then
    let column :=
      match source with
      | some source => [field "col" (toString (source.locate label.span.start).column)]
      | none => []
    [field "start" (toString label.span.start), field "end" (toString label.span.stop)] ++ column
  else []

/-- A label. -/
def labelObject (label : Label) (source : Option LineTable) : String :=
  object ([field "line" (toString label.line), field "message" (quote label.message)] ++
    spanFields label source)

/-- The JSON form of a report. -/
def render (d : Diagnostic) : String :=
  let label :=
    match d.label with
    | some label => [field "label" (labelObject label d.source)]
    | none => []
  object ([field "severity" (quote "error"), field "kind" (quote d.kind),
    field "message" (quote d.message)] ++ label ++ [field "notes" (array (d.notes.map quote))])

end Json
end StackScript
