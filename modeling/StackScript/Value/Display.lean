import StackScript.Number.Text
import StackScript.Value.Basic

/-!
# How values are written

The text of a value is what printing it writes, and what it contributes to the
sum of a string and a number.
-/

namespace StackScript

/-- The name of a routine in listings; a script has none of its own. -/
def Routine.displayName (r : Routine) : String :=
  match r.name with
  | some name => name.chars
  | none => "script"

namespace Value

/-- The text of a value. -/
def display (v : Value) : String :=
  match v.datum with
  | .null => "null"
  | .bool true => "true"
  | .bool false => "false"
  | .number x => Number.text x
  | .string text => text.chars
  | .routine r =>
    match r.name with
    | some name => "<fn " ++ name.chars ++ ">"
    | none => "<script>"
  | .native _ => "<native fn>"

end Value
end StackScript
