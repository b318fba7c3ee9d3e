import StackScript.Value.Text

/-!
# Values

A value is null, a truth value, a number, a string, or something that can be
called: a routine compiled from source, or a function of the host.  Routines
hold bytecode, and bytecode holds values in its constant pool, so the types are
defined together.

A value also says whether the variable that holds it may be assigned to.  This
mark belongs to the binding and takes no part in equality.
-/

namespace StackScript

/-- A function of the host, known to scripts by its identity and name. -/
structure Native where
  id : Nat
  name : Text
deriving DecidableEq, Repr

mutual

/-- What a value is. -/
inductive Datum where
  | null
  | bool (b : Bool)
  | number (x : Float)
  | string (text : Text)
  | routine (r : Routine)
  | native (n : Native)

/-- A datum, and whether the variable that holds it may be assigned to. -/
structure Value where
  datum : Datum
  assignable : Bool

/-- The body of one routine.  Lines are recorded as pairs of an offset and the
line of the bytes from there on, only where the line changes. -/
structure Chunk where
  code : Array UInt8
  constants : Array Value
  lines : Array (Nat × Nat)

/-- A compiled function, or a whole script, which has no name. -/
structure Routine where
  /-- Identity: every routine built gets a number of its own. -/
  id : Nat
  name : Option Text
  arity : Nat
  chunk : Chunk

end

namespace Datum

/-- Equality as scripts see it: numbers compare as numbers, so that no
not-a-number equals itself; strings compare by their characters; routines and
host functions by identity. -/
def same : Datum → Datum → Bool
  | null, null => true
  | bool a, bool b => a == b
  | number a, number b => a == b
  | string a, string b => a.chars == b.chars
  | routine a, routine b => a.id == b.id
  | native a, native b => a.id == b.id
  | _, _ => false

/-- Null, false and zero do not hold as conditions; everything else does. -/
def isFalsey : Datum → Bool
  | null => true
  | bool b => !b
  | number x => x == 0.0
  | _ => false

end Datum

namespace Value

/-- A datum in an ordinary, assignable binding. -/
def of (datum : Datum) : Value := ⟨datum, true⟩

def null : Value := of .null

def bool (b : Bool) : Value := of (.bool b)

def number (x : Float) : Value := of (.number x)

def string (text : Text) : Value := of (.string text)

def routine (r : Routine) : Value := of (.routine r)

def native (n : Native) : Value := of (.native n)

instance : Inhabited Value := ⟨null⟩

instance : BEq Value := ⟨fun a b => a.datum.same b.datum⟩

/-- Whether the value does not hold as a condition. -/
def isFalsey (v : Value) : Bool := v.datum.isFalsey

/-- Whether the value is null. -/
def isNull (v : Value) : Bool :=
  match v.datum with
  | .null => true
  | _ => false

/-- The value as bound by a constant declaration. -/
def constant (v : Value) : Value := ⟨v.datum, false⟩

/-- The value as copied out of a variable. -/
def copy (v : Value) : Value := ⟨v.datum, true⟩

/-- The number that the value is, if it is one. -/
def asNumber? (v : Value) : Option Float :=
  match v.datum with
  | .number x => some x
  | _ => none

/-- The string that the value is, if it is one. -/
def asText? (v : Value) : Option Text :=
  match v.datum with
  | .string text => some text
  | _ => none

/-- The routine that the value is, if it is one. -/
def asRoutine? (v : Value) : Option Routine :=
  match v.datum with
  | .routine r => some r
  | _ => none

end Value

/-- What a program and the machine that runs it have built so far: the string
table, and how many routines have got an identity. -/
structure Heap where
  texts : TextTable
  routines : Nat

namespace Heap

def empty : Heap := ⟨.empty, 0⟩

/-- The string object for the given characters. -/
def intern (heap : Heap) (chars : String) : Text × Heap :=
  let (text, texts) := heap.texts.intern chars
  (text, { heap with texts })

/-- A routine with an identity of its own. -/
def allocate (heap : Heap) (name : Option Text) (arity : Nat) (chunk : Chunk) :
    Routine × Heap :=
  (⟨heap.routines, name, arity, chunk⟩, { heap with routines := heap.routines + 1 })

end Heap
end StackScript
