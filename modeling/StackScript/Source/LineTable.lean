import StackScript.Boundary

/-!
# Lines of a source text

A line table splits a text at its line feeds and remembers the byte offset at
which each line begins.  It answers two questions: at which line and column a
byte offset lies, and what a line says.  Lines and columns count from one, and
columns count bytes.
-/

namespace StackScript

/-- One line of a text. -/
structure Line where
  /-- Byte offset of the first character. -/
  start : Nat
  /-- The characters up to the line feed, without the carriage returns that
  end the line. -/
  text : String
deriving DecidableEq, Repr

/-- The lines of a text, in order. -/
structure LineTable where
  lines : Array Line
deriving DecidableEq, Repr

/-- A place in a text, counted from one. -/
structure Position where
  line : Nat
  column : Nat
deriving DecidableEq, Repr

namespace LineTable

/-- A line from its characters in reverse order. -/
def lineOfReverse (start : Nat) (reversed : List Char) : Line :=
  ⟨start, String.ofList (reversed.dropWhile (· == '\r')).reverse⟩

/-- Reads on from byte `offset`, inside a line that began at `start` and whose
characters so far are `reversed`. -/
def collect : List Char → (offset start : Nat) → (reversed : List Char) →
    Array Line → Array Line
  | [], _, start, reversed, done => done.push (lineOfReverse start reversed)
  | c :: rest, offset, start, reversed, done =>
    if c = '\n' then
      collect rest (offset + 1) (offset + 1) [] (done.push (lineOfReverse start reversed))
    else
      collect rest (offset + c.utf8Size) start (c :: reversed) done

/-- The line table of a text: one line more than it has line feeds. -/
def ofString (text : String) : LineTable :=
  ⟨collect text.toList 0 0 [] #[]⟩

/-- Byte offset at which the line of the given index begins. -/
def startAt (table : LineTable) (index : Nat) : Nat :=
  (table.lines[index]?.map Line.start).getD 0

/-- Place of a byte offset: the last line that begins at or before it.  Offsets
past the end count on along the last line. -/
def locate (table : LineTable) (offset : Nat) : Position :=
  let index := boundary (fun i => table.startAt i ≤ offset) 0 table.lines.size - 1
  ⟨index + 1, offset - table.startAt index + 1⟩

/-- What the line of the given number says; empty when there is no such line. -/
def lineText (table : LineTable) : Nat → String
  | 0 => ""
  | number + 1 => (table.lines[number]?.map Line.text).getD ""

end LineTable
end StackScript
