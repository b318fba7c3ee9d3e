import StackScript.Diagnostic.Basic

/-!
# Diagnostics for a terminal

The pretty form shows the message, the place, the source line with carets under
the labelled text, and the notes.  It is laid out once, as lines of segments, and
each segment says how it is painted; with colours off the paint is left out and
nothing else changes.
-/

namespace StackScript
namespace Pretty

/-- Ways to paint a text. -/
inductive Paint where
  | bold | boldRed | cyan | dim
deriving DecidableEq, Repr

/-- Parameters of the terminal sequence that switches a paint on. -/
def Paint.code : Paint → String
  | bold => "1"
  | boldRed => "1;31"
  | cyan => "36"
  | dim => "2"

/-- A piece of a line. -/
structure Segment where
  paint : Option Paint
  text : String
deriving DecidableEq, Repr

/-- A piece without paint. -/
def plain (text : String) : Segment := ⟨none, text⟩

/-- A painted piece. -/
def painted (paint : Paint) (text : String) : Segment := ⟨some paint, text⟩

/-- Text of a piece. -/
def Segment.render (color : Bool) (segment : Segment) : String :=
  match color, segment.paint with
  | true, some paint => "\x1b[" ++ paint.code ++ "m" ++ segment.text ++ "\x1b[0m"
  | _, _ => segment.text

/-- A run of blanks. -/
def blanks (count : Nat) : String := String.ofList (List.replicate count ' ')

/-- The heading of a report. -/
def headingLine (d : Diagnostic) : List Segment :=
  [painted .boldRed (d.kind ++ " error"), plain ": ", painted .bold d.message]

/-- Place in the source to which a label points. -/
def labelPosition (label : Label) (source : LineTable) : Position :=
  if label.span.isKnown then source.locate label.span.start else ⟨label.line, 1⟩

/-- The carets under the labelled text, and the text of the label. -/
def caretSegments (label : Label) (column : Nat) : List Segment :=
  let carets := String.ofList (List.replicate (max 1 label.span.length) '^')
  let front := [plain (" " ++ blanks (column - 1)), painted .boldRed carets]
  if label.message.isEmpty then front else front ++ [plain " ", painted .boldRed label.message]

/-- The labelled source line with its place and carets. -/
def excerptLines (label : Label) (source : LineTable) : List (List Segment) :=
  let position := labelPosition label source
  let number := toString position.line
  let bar := painted .cyan "|"
  let margin := [plain (blanks number.length ++ " "), bar]
  let place := plain (" " ++ number ++ ":" ++ toString position.column)
  let text := plain (" " ++ source.lineText position.line)
  let carets :=
    if label.span.isKnown then [margin ++ caretSegments label position.column] else []
  [[plain "  ", painted .cyan "-->", place],
    margin,
    [painted .cyan number, plain " ", bar, text]] ++ carets ++ [margin]

/-- What a report shows of its place. -/
def placeLines (d : Diagnostic) : List (List Segment) :=
  match d.label, d.source with
  | some label, some source => excerptLines label source
  | some label, none =>
    [[plain "  ", painted .cyan "-->", plain (" line " ++ toString label.line)]]
  | none, _ => []

/-- A note. -/
def noteLine (note : String) : List Segment :=
  [plain "  ", painted .dim "=", plain (" " ++ note)]

/-- All lines of a report. -/
def layout (d : Diagnostic) : List (List Segment) :=
  headingLine d :: placeLines d ++ d.notes.map noteLine

/-- Text of one line. -/
def renderLine (color : Bool) (line : List Segment) : String :=
  String.join (line.map (Segment.render color)) ++ "\n"

/-- The pretty form of a report. -/
def render (color : Bool) (d : Diagnostic) : String :=
  String.join ((layout d).map (renderLine color))

end Pretty
end StackScript
