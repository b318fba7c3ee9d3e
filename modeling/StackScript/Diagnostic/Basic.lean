import StackScript.Compile.Problem
import StackScript.Machine.Fault
import StackScript.Source.LineTable

/-!
# Diagnostics

A diagnostic is an error report before it is given a form.  It has a message and
notes, and it may have a label, which points into the source.  Compile errors
know their span; runtime errors know only their line and carry their trace as
notes.
-/

namespace StackScript

/-- A pointer into the source. -/
structure Label where
  line : Nat
  /-- Unknown if only the line is known. -/
  span : Span
  message : String
deriving DecidableEq, Repr

/-- An error report. -/
structure Diagnostic where
  /-- Category shown before the message. -/
  kind : String
  message : String
  label : Option Label
  notes : List String
  /-- Lines of the source, if it is at hand. -/
  source : Option LineTable
deriving DecidableEq, Repr

namespace Diagnostic

/-- A report with nothing but a message. -/
def error (kind message : String) : Diagnostic := ⟨kind, message, none, [], none⟩

/-- The report with its source attached. -/
def withSource (d : Diagnostic) (source : LineTable) : Diagnostic :=
  { d with source := some source }

/-- Line of the label. -/
def line? (d : Diagnostic) : Option Nat := d.label.map Label.line

/-- Label text for the location of a compile error. -/
def locationLabel : ErrorLocation → String
  | .token lexeme => "at '" ++ lexeme ++ "'"
  | .atEnd => "at end of input"
  | .lexical => ""

/-- The report of a compile error. -/
def ofCompileError (e : CompileError) : Diagnostic :=
  { error "compile" e.message with
    label := some ⟨e.line, e.span, locationLabel e.location⟩ }

/-- The report of a runtime error. -/
def ofRuntimeError (e : RuntimeError) : Diagnostic :=
  { error "runtime" e.fault.message with
    label := some ⟨e.line, .unknown, ""⟩
    notes := e.trace.map TraceEntry.describe }

end Diagnostic
end StackScript
