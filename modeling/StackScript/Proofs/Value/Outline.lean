import Mathlib
import StackScript.Bytecode.Chunk

/-!
# What can be told of a value without identities and lines

An outline keeps the text of a string but not which object it is, and the name, arity, code
and constants of a routine but neither its identity nor its lines.
-/

namespace StackScript

/-- A datum without identities of strings and routines, and without lines. -/
inductive Outline where
  | null
  | bool (b : Bool)
  | number (x : Float)
  | string (chars : String)
  /-- Each constant comes with its mark. -/
  | routine (name : Option String) (arity : Nat) (code : Array UInt8)
      (constants : List (Outline × Bool))
  | native (id : Nat) (name : String)

mutual

/-- The outline of a datum. -/
def Datum.outline : Datum → Outline
  | .null => .null
  | .bool b => .bool b
  | .number x => .number x
  | .string text => .string text.chars
  | .routine r => r.outline
  | .native n => .native n.id n.name.chars

/-- The outline of a value, with its mark. -/
def Value.outline : Value → Outline × Bool
  | ⟨datum, assignable⟩ => (datum.outline, assignable)

/-- The outline of a routine. -/
def Routine.outline : Routine → Outline
  | ⟨_, name, arity, ⟨code, ⟨constants⟩, _⟩⟩ =>
    .routine (name.map Text.chars) arity code (Value.outlines constants)

/-- The outlines of values, one by one. -/
def Value.outlines : List Value → List (Outline × Bool)
  | [] => []
  | v :: vs => v.outline :: Value.outlines vs

end

theorem Value.outlines_eq (vs : List Value) : Value.outlines vs = vs.map Value.outline := by
  induction vs with
  | nil => rfl
  | cons v vs ih =>
      rw [Value.outlines, ih]
      rfl

theorem Value.outline_eq (v : Value) : v.outline = (v.datum.outline, v.assignable) := by
  cases v
  rfl

theorem Routine.outline_eq (r : Routine) :
    r.outline = .routine (r.name.map Text.chars) r.arity r.chunk.code
      (r.chunk.constants.toList.map Value.outline) := by
  obtain ⟨id, name, arity, ⟨code, ⟨constants⟩, lines⟩⟩ := r
  rw [Routine.outline, Value.outlines_eq]

/-- Equality of data that are not routines, told from their outlines. -/
def Outline.same : Outline → Outline → Bool
  | .null, .null => true
  | .bool a, .bool b => a == b
  | .number a, .number b => a == b
  | .string a, .string b => a == b
  | .native a _, .native b _ => a == b
  | _, _ => false

theorem Datum.same_eq (d e : Datum) (plain : ∀ r, e ≠ .routine r) :
    d.same e = d.outline.same e.outline := by
  cases e with
  | routine r => exact absurd rfl (plain r)
  | _ =>
      cases d with
      | routine r =>
          have outline : (Datum.routine r).outline = r.outline := rfl
          rw [outline, Routine.outline_eq]
          rfl
      | _ => rfl

/-- Where a constant is found in a pool, unless it is a routine, can be told from the
outlines of the pool. -/
theorem findIdx?_outline (constants : Array Value) {v : Value} (plain : v.asRoutine? = none) :
    constants.findIdx? (· == v) =
      (constants.toList.map Value.outline).findIdx? fun u => u.1.same v.outline.1 := by
  have none : ∀ r, v.datum ≠ .routine r := by
    intro r same
    rw [Value.asRoutine?, same] at plain
    cases plain
  have each (u : Value) : (u == v) = u.outline.1.same v.outline.1 := by
    rw [Value.outline_eq, Value.outline_eq]
    exact Datum.same_eq _ _ none
  obtain ⟨constants⟩ := constants
  rw [List.findIdx?_map, List.findIdx?_toArray, funext each]
  rfl

end StackScript
