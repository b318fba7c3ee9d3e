/-!
# Output

Output goes to a sink, which keeps the bytes that reached it.  A sink may take
only so many bytes in all: the first byte past its limit fails, and the bytes
before it stay written.  Flushing a sink may fail as well.
-/

namespace StackScript

/-- A destination of output. -/
structure Sink where
  /-- What has been written. -/
  written : ByteArray
  /-- Number of bytes taken in all, and what a write past them reports. -/
  limit : Option (Nat × String)
  /-- What a flush reports, if flushing fails. -/
  flushFailure : Option String

/-- Computations that write output, and may fail with a message. -/
abbrev Output := EStateM String Sink

namespace Sink

/-- An empty sink that takes everything. -/
def empty : Sink := ⟨.empty, none, none⟩

/-- Writes a text, as far as it fits. -/
def write (text : String) : Output Unit := fun sink =>
  match sink with
  | ⟨written, none, flushFailure⟩ =>
    .ok () ⟨written ++ text.toUTF8, none, flushFailure⟩
  | ⟨written, some (most, failure), flushFailure⟩ =>
    let bytes := text.toUTF8
    let room := most - written.size
    if bytes.size ≤ room then
      .ok () ⟨written ++ bytes, some (most, failure), flushFailure⟩
    else
      .error failure ⟨written ++ bytes.extract 0 room, some (most, failure), flushFailure⟩

/-- Writes a text and a line feed. -/
def writeLine (text : String) : Output Unit := write (text ++ "\n")

/-- Makes sure that everything written has arrived. -/
def flush : Output Unit := fun sink =>
  match sink.flushFailure with
  | none => .ok () sink
  | some failure => .error failure sink

end Sink
end StackScript
