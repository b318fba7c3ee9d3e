/-!
# Spans of source text

Positions in a source text are byte offsets of its UTF-8 form.  A span is a
half-open range of them; the empty span at offset zero stands for a message
that has no position.
-/

namespace StackScript

/-- A half-open range of byte offsets. -/
structure Span where
  /-- Offset of the first byte. -/
  start : Nat
  /-- Offset just after the last byte. -/
  stop : Nat
deriving DecidableEq, Repr

namespace Span

/-- The span of something without a position. -/
def unknown : Span := ⟨0, 0⟩

/-- Number of bytes covered; zero when the range is reversed. -/
def length (span : Span) : Nat := span.stop - span.start

/-- Whether the span covers no byte. -/
def isEmpty (span : Span) : Bool := span.length == 0

/-- Whether the span is a position at all. -/
def isKnown (span : Span) : Bool := span != unknown

end Span
end StackScript
