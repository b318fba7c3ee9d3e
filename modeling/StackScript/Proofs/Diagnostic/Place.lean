import StackScript.Diagnostic.Json
import StackScript.Diagnostic.Pretty
import StackScript.Proofs.Parsing.Located
import StackScript.Proofs.Source.LineTable

/-!
# All formats show one place

The scanner counts lines, the line table looks them up, and the formats take their place
from one or the other.  For a compile error they agree: each shows the line and the column
of the first byte of the token in question.  The span of that token is never the one that
stands for no position, for that one would be the end of an empty source.
-/

namespace StackScript

open Token (byteLength)

/-- An empty source has no errors. -/
theorem Compiler.errors_closing_empty (heap : Heap) : (closing "" heap).errors = #[] := by
  have tokens : Token.scan "" = [⟨.eof, "", 1, ⟨0, 0⟩⟩] := by
    simp [Token.scan, Token.collect]
  rw [closing, declarations, tokens]
  rfl

/-- The span of a token of a source is a position, unless the source is empty. -/
theorem Token.Begins.isKnown {t : Token} {before after : List Char} (h : t.Begins before after)
    (some : before ++ after ≠ []) : t.span.isKnown = true := by
  rw [Span.isKnown, bne_iff_ne]
  intro unknown
  by_cases last : t.kind = .eof
  · rw [h.last last, List.append_nil] at some
    have pos := byteLength_pos some
    rw [← h.start, unknown] at pos
    exact Nat.lt_irrefl 0 pos
  · have pos := h.proper last
    rw [unknown] at pos
    exact Nat.lt_irrefl 0 pos

/-- A token that begins behind a part of a text is on the line of that place. -/
theorem Token.Begins.line_behind {t : Token} {before after : List Char}
    (h : t.Begins before after) : t.line = (Position.behind before).line := h.line

namespace Diagnostic

/-- A report shows a place: it has a span, and JSON and pretty form have the line and the
column of the place. -/
structure Shows (d : Diagnostic) (place : Position) : Prop where
  known : ∃ label, d.label = some label ∧ label.span.isKnown = true
  /-- The label of the JSON form. -/
  json : ∃ fields message start stop, Json.render d = Json.object (fields ++
    [Json.field "label" (Json.object [Json.field "line" (toString place.line),
      Json.field "message" message, Json.field "start" start, Json.field "end" stop,
      Json.field "col" (toString place.column)]),
    Json.field "notes" (Json.array (d.notes.map Json.quote))])
  /-- The second line of the pretty form. -/
  pretty : ∀ color, ∃ rest, Pretty.render color d =
    Pretty.renderLine color (Pretty.headingLine d) ++
      Pretty.renderLine color [Pretty.plain "  ", Pretty.painted .cyan "-->",
        Pretty.plain (" " ++ toString place.line ++ ":" ++ toString place.column)] ++ rest

/-- A labelled report shows the place of its span if its line is the line of that place. -/
theorem shows_of_label {d : Diagnostic} {label : Label} {source : LineTable} {place : Position}
    (labelled : d.label = some label) (attached : d.source = some source)
    (known : label.span.isKnown = true) (located : source.locate label.span.start = place)
    (line : label.line = place.line) : d.Shows place where
  known := ⟨label, labelled, known⟩
  json := by
    refine ⟨[Json.field "severity" (Json.quote "error"), Json.field "kind" (Json.quote d.kind),
      Json.field "message" (Json.quote d.message)], Json.quote label.message,
      toString label.span.start, toString label.span.stop, ?_⟩
    simp only [Json.render, labelled, attached, Json.labelObject, Json.spanFields, known, located,
      line, if_true]
    rfl
  pretty color := by
    have position : Pretty.labelPosition label source = place := by
      rw [Pretty.labelPosition, if_pos known, located]
    obtain ⟨others, layout⟩ : ∃ others, Pretty.layout d = Pretty.headingLine d ::
        [Pretty.plain "  ", Pretty.painted .cyan "-->",
          Pretty.plain (" " ++ toString place.line ++ ":" ++ toString place.column)] ::
            others := by
      simp only [Pretty.layout, Pretty.placeLines, labelled, attached, Pretty.excerptLines,
        position, List.cons_append]
      exact ⟨_, rfl⟩
    refine ⟨String.join (others.map (Pretty.renderLine color)), ?_⟩
    simp only [Pretty.render, layout, List.map_cons, String.join_cons, String.append_assoc]

end Diagnostic

/-- An error of a source has a span. -/
theorem Compiler.isKnown_of_failed {source : String} {heap : Heap} {errors : Array CompileError}
    (failed : (compile source heap).result = .error errors) :
    ∀ e ∈ errors, e.span.isKnown = true := by
  intro e mem
  obtain ⟨t, there, at_⟩ := (Compiler.noted_of_failed failed).located e mem
  obtain ⟨before, after, split, begins⟩ := Token.within_of_mem_scan there
  rw [at_.span]
  apply begins.isKnown
  intro none
  have empty : source = "" := String.toList_eq_nil_iff.mp (split.trans none)
  subst empty
  rw [Compiler.compile_eq, Compiler.errors_closing_empty] at failed
  cases failed

/-- Every error of a source that does not compile has a span, and the plain, the JSON and the
pretty form show the same place: that of the first byte of the token it is at. -/
theorem formats_show_token (source : String) (heap : Heap) {errors : Array CompileError}
    (failed : (compile source heap).result = .error errors) :
    ∀ e ∈ errors, ∃ t ∈ Token.scan source, e.At t ∧
      ∃ before after, source.toList = before ++ after ∧ t.span.start = byteLength before ∧
        ((Diagnostic.ofCompileError e).withSource (.ofString source)).Shows (.behind before) ∧
        e.describe = "[line " ++ toString (Position.behind before).line ++ "] Error" ++
          e.location.describe ++ ": " ++ e.message := by
  intro e mem
  obtain ⟨t, there, at_⟩ := (Compiler.noted_of_failed failed).located e mem
  obtain ⟨before, after, split, begins⟩ := Token.within_of_mem_scan there
  have line : e.line = (Position.behind before).line := at_.line.trans begins.line_behind
  refine ⟨t, there, at_, before, after, split, begins.start, ?_, ?_⟩
  · refine Diagnostic.shows_of_label rfl rfl ?_ ?_ line
    · exact Compiler.isKnown_of_failed failed e mem
    · show (LineTable.ofString source).locate e.span.start = _
      rw [at_.span, begins.start]
      exact LineTable.locate_ofString split
  · rw [CompileError.describe, line]

/-- An error behind a string that goes over two lines. -/
theorem formats_show_token_sample : ∃ errors,
    (compile "print \"a\nb\" @;" .empty).result = .error errors ∧ errors.size = 1 ∧
      ∀ e ∈ errors, ∃ t ∈ Token.scan "print \"a\nb\" @;", e.At t ∧
        ∃ before after, "print \"a\nb\" @;".toList = before ++ after ∧
          t.span.start = byteLength before ∧
          ((Diagnostic.ofCompileError e).withSource (.ofString "print \"a\nb\" @;")).Shows
            (.behind before) ∧
          e.describe = "[line " ++ toString (Position.behind before).line ++ "] Error" ++
            e.location.describe ++ ": " ++ e.message := by
  have one : (Compiler.closing "print \"a\nb\" @;" .empty).errors.size = 1 := by decide +kernel
  have failed := Compiler.failed_of_size one
  exact ⟨_, failed, one, formats_show_token _ _ failed⟩

end StackScript
