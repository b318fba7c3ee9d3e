import Std.Data.TreeMap.Basic

/-!
# Interned strings

Every string that a program can reach is an object of one table, which holds
each sequence of characters at most once.  Objects are numbered in the order in
which they entered the table, so within one table equal characters and equal
numbers mean the same.
-/

namespace StackScript

/-- A string object. -/
structure Text where
  /-- Identity of the object within its table. -/
  id : Nat
  chars : String
deriving DecidableEq, Repr

/-- The table of all string objects. -/
structure TextTable where
  entries : Std.TreeMap String Text

namespace TextTable

/-- A table without strings. -/
def empty : TextTable := ⟨∅⟩

/-- Number of string objects. -/
def size (table : TextTable) : Nat := table.entries.size

/-- The object for the given characters, entered into the table if it is not
there yet. -/
def intern (table : TextTable) (chars : String) : Text × TextTable :=
  match table.entries[chars]? with
  | some text => (text, table)
  | none =>
    let text : Text := ⟨table.size, chars⟩
    (text, ⟨table.entries.insert chars text⟩)

end TextTable
end StackScript
