import StackScript.Proofs.Diagnostic.Place
import StackScript.Proofs.Source.LineText

/-!
# Carets under the shown line

Under the line that it shows, a report of a compile error has a caret for each byte of the
token in question, beginning below its first byte.  They stay beneath the line just when the
token is on one line and stands before the carriage returns that are not shown
(`carets_beneath_token`).  A string may go on over more lines, and then the carets go on too
(`carets_leave_line`).
-/

namespace StackScript

open Token (byteLength)

namespace Token

/-- The last character of a piece that makes a token is not blank. -/
theorem Front.last_visible {text slice rest : List Char} {kind : TokenKind}
    (front : Front text ⟨.lexeme kind, slice, rest⟩) :
    ∀ c ∈ slice.getLast?, isBlank c = false := by
  have word {d : Char} (part : isWordPart d = true) : isBlank d = false := by
    by_contra blank
    rw [(of_isBlank (Bool.eq_true_of_not_eq_false blank)).1] at part
    cases part
  have digit {d : Char} (part : d.isDigit = true) : isBlank d = false := (of_isDigit part).1
  have last {c d : Char} {body : List Char} (mem : c ∈ (d :: body).getLast?) :
      c = d ∨ c ∈ body := List.mem_cons.mp (List.mem_of_getLast? mem)
  cases front with
  | word first inside =>
      intro c mem
      rcases last mem with rfl | more
      · exact of_isWordStart first
      · exact word (inside c more)
  | whole first inside =>
      intro c mem
      rcases last mem with rfl | more
      · exact digit first
      · exact digit (inside c more)
  | @fraction c d body more _ first inside point inside' =>
      intro e mem
      rw [← List.cons_append, List.getLast?_append_of_ne_nil _ (List.cons_ne_nil _ _),
        List.getLast?_cons_cons] at mem
      rcases last mem with rfl | there
      · exact digit point
      · exact digit (inside' e there)
  | closed inside =>
      intro c mem
      rw [← List.cons_append, List.getLast?_concat] at mem
      cases mem
      decide
  | @pair c d _ _ known =>
      intro e mem
      obtain rfl : d = e := Option.some.inj mem
      by_contra blank
      rw [ofPair_blank (Bool.eq_true_of_not_eq_false blank) c] at known
      cases known
  | mark known =>
      intro c mem
      cases mem
      exact (of_ofCharacter known).1

/-- Only a string that is not closed may end with a blank, and it ends with the text. -/
theorem Renders.last_visible {t : Token} {slice rest : List Char} (renders : t.Renders slice rest)
    (more : rest ≠ []) : ∀ c ∈ slice.getLast?, isBlank c = false := by
  cases renders with
  | last => exact absurd rfl more
  | lexeme front => exact front.last_visible
  | unclosed => exact absurd rfl more
  | stray front =>
      cases front with
      | stray blank =>
          intro c mem
          cases mem
          exact blank

/-- No token is a single blank. -/
theorem Renders.not_blank {t : Token} {c : Char} {rest : List Char} (renders : t.Renders [c] rest) :
    isBlank c = false := by
  cases renders with
  | lexeme front => exact front.last_visible c rfl
  | unclosed => decide
  | stray front =>
      cases front with
      | stray blank => exact blank

/-- Only the end marker has no characters, and it stands behind all of them. -/
theorem Renders.nil_of_nil {t : Token} {rest : List Char} (renders : t.Renders [] rest) :
    rest = [] := by
  by_cases last : t.kind = .eof
  · exact renders.nil_of_eof last
  · exact absurd rfl (renders.slice_ne_nil last)

/-- Only a token at the end of a text may have a carriage return before its end. -/
theorem Renders.ends_visible {t : Token} {before slice rest : List Char}
    (renders : t.Renders slice rest)
    (visible : rest = [] → (before ++ slice).getLast? ≠ some '\r') :
    (before ++ slice).getLast? ≠ some '\r' := by
  intro ends
  by_cases last : rest = []
  · exact visible last ends
  · have some : slice ≠ [] := by
      rintro rfl
      exact last renders.nil_of_nil
    rw [List.getLast?_append_of_ne_nil _ some] at ends
    exact absurd (renders.last_visible last _ ends) (by decide)

end Token

/-! ## Places in a line -/

theorem prefix_rdropWhile {α : Type} {p : α → Bool} {front : List α}
    (stays : ∀ c ∈ front.getLast?, p c = false) (back : List α) :
    front <+: (front ++ back).rdropWhile p := by
  induction back using List.reverseRecOn with
  | nil =>
      rw [List.append_nil]
      have same : front.rdropWhile p = front := by
        rw [List.rdropWhile_eq_self_iff]
        intro some
        rw [stays _ (List.getLast?_eq_getLast_of_ne_nil some)]
        exact Bool.false_ne_true
      rw [same]
  | append_singleton back c ih =>
      rw [← List.append_assoc, List.rdropWhile_concat]
      split
      · exact ih
      · rw [List.append_assoc]
        exact List.prefix_append front _

theorem eq_nil_of_byteLength {text : List Char} (none : byteLength text = 0) : text = [] := by
  by_contra some
  exact absurd (Token.byteLength_pos some) (by omega)

theorem byteLength_le_of_prefix {front text : List Char} (h : front <+: text) :
    byteLength front ≤ byteLength text := by
  obtain ⟨back, rfl⟩ := h
  rw [Token.byteLength_append]
  exact Nat.le_add_right ..

/-- A line that ends with a carriage return is longer than what it says. -/
theorem byteLength_trimmed_lt {line : List Char} (ends : line.getLast? = some '\r') :
    byteLength (trimmed line) < byteLength line := by
  obtain ⟨front, rfl⟩ := List.getLast?_eq_some_iff.mp ends
  have fewer := byteLength_le_of_prefix (List.rdropWhile_prefix (· == '\r') front)
  have width : byteLength ['\r'] = 1 := rfl
  rw [trimmed, List.rdropWhile_concat_pos _ _ _ (by decide), Token.byteLength_append, width]
  omega

theorem byteLength_trimmed_le (line : List Char) : byteLength (trimmed line) ≤ byteLength line :=
  byteLength_le_of_prefix (List.rdropWhile_prefix _ line)

/-- A run of carets stands beneath a line, or it is a single one just behind its end. -/
def Beneath (length indent count : Nat) : Prop :=
  indent + count ≤ length ∨ count = 1 ∧ indent = length

section

variable {before slice after : List Char}

/-- A token without line feeds is part of the line on which it begins. -/
theorem takeWhile_slice (one : '\n' ∉ slice) :
    (slice ++ after).takeWhile (· != '\n') = slice ++ after.takeWhile (· != '\n') :=
  List.takeWhile_append_of_pos (forall_bne one)

/-- The end of a line that goes on to the end of a token is the end of the token. -/
theorem getLast?_line (ends : (before ++ slice).getLast? = some '\r') :
    (before.rtakeWhile (· != '\n') ++ slice).getLast? = some '\r' := by
  rw [List.getLast?_append] at ends ⊢
  cases some : slice.getLast? with
  | some c =>
      rw [some] at ends
      exact ends
  | none =>
      rw [some, Option.none_or] at ends
      obtain ⟨front, rfl⟩ := List.getLast?_eq_some_iff.mp ends
      rw [List.rtakeWhile_concat_pos _ _ _ (by decide), List.getLast?_concat]
      rfl

/-- A token on one line that stands before the carriage returns at its end is beneath it. -/
theorem beneath_of_visible (one : '\n' ∉ slice) (visible : (before ++ slice).getLast? ≠ some '\r')
    (last : slice = [] → after = []) :
    Beneath (byteLength (trimmed (before.rtakeWhile (· != '\n') ++
      (slice ++ after).takeWhile (· != '\n')))) (byteLength (before.rtakeWhile (· != '\n')))
      (max 1 (byteLength slice)) := by
  have stays : ∀ c ∈ (before.rtakeWhile (· != '\n') ++ slice).getLast?, (c == '\r') = false := by
    intro c mem
    rw [beq_eq_false_iff_ne]
    rintro rfl
    apply visible
    have whole := List.rdropWhile_append_rtakeWhile (p := (· != '\n')) (l := before)
    rw [← whole, List.append_assoc, List.getLast?_append, Option.mem_def.mp mem]
    rfl
  rw [takeWhile_slice one, ← List.append_assoc]
  have kept := byteLength_le_of_prefix
    (prefix_rdropWhile stays (after.takeWhile (· != '\n')))
  by_cases ended : slice = []
  · -- a caret behind the end of the text
    right
    rw [last ended, ended] at kept ⊢
    have most := byteLength_trimmed_le (before.rtakeWhile (· != '\n') ++ [] ++ [])
    simp only [List.takeWhile_nil, List.append_nil, Token.byteLength_nil] at kept most ⊢
    exact ⟨rfl, Nat.le_antisymm kept most⟩
  · left
    have some := Token.byteLength_pos ended
    rw [Token.byteLength_append] at kept
    rw [Nat.max_eq_right some]
    exact kept

/-- A token with a line feed is longer than the rest of its line. -/
theorem not_beneath_of_lineFeed (feed : '\n' ∈ slice) (single : slice ≠ ['\n']) :
    ¬Beneath (byteLength (trimmed (before.rtakeWhile (· != '\n') ++
      (slice ++ after).takeWhile (· != '\n')))) (byteLength (before.rtakeWhile (· != '\n')))
      (max 1 (byteLength slice)) := by
  obtain ⟨front, back, rfl, one⟩ := List.eq_append_cons_of_mem feed
  have line : (front ++ '\n' :: back ++ after).takeWhile (· != '\n') = front := by
    rw [List.append_assoc, takeWhile_slice one]
    simp
  have most := byteLength_trimmed_le (before.rtakeWhile (· != '\n') ++ front)
  have width : '\n'.utf8Size = 1 := rfl
  rw [line]
  simp only [Token.byteLength_append, Token.byteLength_cons, width] at most ⊢
  rintro (inside | ⟨one, -⟩)
  · omega
  · -- the line feed is all there is
    apply single
    rw [@eq_nil_of_byteLength front (by omega),
      @eq_nil_of_byteLength back (by omega)]
    rfl

/-- A token that ends with a carriage return at the end of the text is not shown as a whole. -/
theorem not_beneath_of_return (one : '\n' ∉ slice) (ends : (before ++ slice).getLast? = some '\r')
    (single : slice ≠ ['\r']) :
    ¬Beneath (byteLength (trimmed (before.rtakeWhile (· != '\n') ++
      (slice ++ []).takeWhile (· != '\n')))) (byteLength (before.rtakeWhile (· != '\n')))
      (max 1 (byteLength slice)) := by
  have shorter := byteLength_trimmed_lt (getLast?_line ends)
  rw [takeWhile_slice one, List.takeWhile_nil, List.append_nil]
  rw [Token.byteLength_append] at shorter
  rintro (inside | ⟨width, same⟩)
  · omega
  · rw [same] at shorter
    by_cases ended : slice = []
    · rw [ended] at shorter
      exact absurd shorter (by simp)
    · -- a token of one byte would be the carriage return
      obtain ⟨front, rfl⟩ : ∃ front, slice = front ++ ['\r'] := by
        rw [List.getLast?_append_of_ne_nil _ ended] at ends
        exact List.getLast?_eq_some_iff.mp ends
      have return_ : byteLength ['\r'] = 1 := rfl
      rw [Token.byteLength_append, return_] at width
      rw [@eq_nil_of_byteLength front (by omega)] at single
      exact single rfl

end

/-! ## Reports -/

namespace Pretty

/-- The lines of a report up to the carets: its heading, the place, the line that it shows, and
a run of carets that begins below the column of the place. -/
def underlinedLines (d : Diagnostic) (place : Position) (line : String) (count : Nat)
    (behind : List Segment) : List (List Segment) :=
  let number := toString place.line
  let margin := [plain (blanks number.length ++ " "), painted .cyan "|"]
  let carets := String.ofList (List.replicate count '^')
  [headingLine d,
    [plain "  ", painted .cyan "-->", plain (" " ++ number ++ ":" ++ toString place.column)],
    margin,
    [painted .cyan number, plain " ", painted .cyan "|", plain (" " ++ line)],
    margin ++ [plain (" " ++ blanks (place.column - 1)), painted .boldRed carets] ++ behind]

end Pretty

/-- A report shows a line of its source, with a run of carets under it. -/
def Diagnostic.Underlines (d : Diagnostic) (place : Position) (line : String) (count : Nat) : Prop :=
  ∀ color, ∃ behind rest, Pretty.render color d =
    String.join ((Pretty.underlinedLines d place line count behind).map (Pretty.renderLine color)) ++
      rest

/-- A report with a span shows the line of its first byte, and a caret for each of its bytes. -/
theorem Diagnostic.underlines_of_label {d : Diagnostic} {label : Label} {source : LineTable}
    {place : Position} (labelled : d.label = some label) (attached : d.source = some source)
    (known : label.span.isKnown = true) (located : source.locate label.span.start = place) :
    d.Underlines place (source.lineText place.line) (max 1 label.span.length) := by
  intro color
  have position : Pretty.labelPosition label source = place := by
    rw [Pretty.labelPosition, if_pos known, located]
  obtain ⟨behind, carets⟩ : ∃ behind, Pretty.caretSegments label place.column =
      [Pretty.plain (" " ++ Pretty.blanks (place.column - 1)), Pretty.painted .boldRed
        (String.ofList (List.replicate (max 1 label.span.length) '^'))] ++ behind := by
    unfold Pretty.caretSegments
    split
    · exact ⟨[], rfl⟩
    · exact ⟨_, rfl⟩
  obtain ⟨others, layout⟩ : ∃ others, Pretty.layout d = Pretty.underlinedLines d place
      (source.lineText place.line) (max 1 label.span.length) behind ++ others := by
    simp only [Pretty.layout, Pretty.placeLines, labelled, attached, Pretty.excerptLines, position,
      known, if_true, carets]
    exact ⟨_, rfl⟩
  refine ⟨behind, String.join (others.map (Pretty.renderLine color)), ?_⟩
  rw [Pretty.render, layout, List.map_append, String.join_append]

/-- So does the report of a compile error whose span is known. -/
theorem Diagnostic.underlines_of_error {e : CompileError} {source : String} {place : Position}
    (known : e.span.isKnown = true) (located : (LineTable.ofString source).locate e.span.start = place) :
    ((ofCompileError e).withSource (.ofString source)).Underlines place
      ((LineTable.ofString source).lineText place.line) (max 1 e.span.length) := by
  have labelled : ((ofCompileError e).withSource (.ofString source)).label =
      some ⟨e.line, e.span, locationLabel e.location⟩ := rfl
  have attached : ((ofCompileError e).withSource (.ofString source)).source =
      some (.ofString source) := rfl
  have underlines := underlines_of_label labelled attached known located
  exact underlines

/-- Under the line on which a token begins, the report of an error at the token has a caret for
each of its bytes, from below the first of them on, or a single one if it has none.  They stand
beneath the line, or there is a single one just behind its end, if and only if there is no line
feed in the token and no carriage return at the end of a text that ends with it. -/
theorem carets_beneath_token (source : String) (heap : Heap) {errors : Array CompileError}
    (failed : (compile source heap).result = .error errors) :
    ∀ e ∈ errors, ∃ t ∈ Token.scan source, e.At t ∧ ∃ before slice after,
      t.span.Cuts source before slice after ∧
        let line := (LineTable.ofString source).lineText (Position.behind before).line
        ((Diagnostic.ofCompileError e).withSource (.ofString source)).Underlines (.behind before) line
          (max 1 (byteLength slice)) ∧
        (Beneath line.utf8ByteSize ((Position.behind before).column - 1) (max 1 (byteLength slice)) ↔
          '\n' ∉ slice ∧ (after = [] → source.toList.getLast? ≠ some '\r')) := by
  intro e mem
  obtain ⟨t, there, at_⟩ := (Compiler.noted_of_failed failed).located e mem
  obtain ⟨before, slice, after, cuts, -, renders⟩ := Token.exists_cuts there
  have split : source.toList = before ++ (slice ++ after) :=
    cuts.whole.trans (List.append_assoc ..)
  have located : (LineTable.ofString source).locate e.span.start = .behind before := by
    rw [at_.span, cuts.start]
    exact LineTable.locate_ofString split
  have length : e.span.length = byteLength slice := by
    rw [at_.span, Span.length, cuts.start, cuts.stop, Token.byteLength_append,
      Nat.add_sub_cancel_left]
  have known := Compiler.isKnown_of_failed failed e mem
  have underlines := Diagnostic.underlines_of_error known located
  have single (c : Char) (blank : Token.isBlank c = true) : slice ≠ [c] := by
    rintro rfl
    rw [renders.not_blank] at blank
    cases blank
  have indent : (Position.behind before).column - 1 = byteLength (before.rtakeWhile (· != '\n')) :=
    Nat.add_sub_cancel_left ..
  rw [length] at underlines
  refine ⟨t, there, at_, before, slice, after, cuts, underlines, ?_⟩
  rw [indent, LineTable.lineText_behind split, ← byteLength_toList, String.toList_ofList]
  constructor
  · intro beneath
    have one : '\n' ∉ slice := by
      intro feed
      exact not_beneath_of_lineFeed feed (single _ (by decide)) beneath
    refine ⟨one, ?_⟩
    rintro rfl ends
    rw [split, List.append_nil] at ends
    exact not_beneath_of_return one ends (single _ (by decide)) beneath
  · rintro ⟨one, visible⟩
    apply beneath_of_visible one
    · apply renders.ends_visible
      intro last
      rw [split, last, List.append_nil] at visible
      exact visible rfl
    · rintro rfl
      exact renders.nil_of_nil

/-- A character that is no token, and the end of the source, both on lines that are shown whole
but for a carriage return. -/
theorem carets_beneath_token_sample :
    let source := "print \"é\" @;\r\nprint"
    ∃ errors, (compile source .empty).result = .error errors ∧ errors.size = 2 ∧
      ∀ e ∈ errors, ∃ t ∈ Token.scan source, e.At t ∧ ∃ before slice after,
        t.span.Cuts source before slice after ∧
          let line := (LineTable.ofString source).lineText (Position.behind before).line
          ((Diagnostic.ofCompileError e).withSource (.ofString source)).Underlines (.behind before)
            line (max 1 (byteLength slice)) ∧
          (Beneath line.utf8ByteSize ((Position.behind before).column - 1)
            (max 1 (byteLength slice)) ↔ '\n' ∉ slice ∧
              (after = [] → source.toList.getLast? ≠ some '\r')) := by
  have two : (Compiler.closing "print \"é\" @;\r\nprint" .empty).errors.size = 2 := by decide +kernel
  have failed := Compiler.failed_of_size two
  exact ⟨_, failed, two, carets_beneath_token _ _ failed⟩

/-- The carets of a string that goes on over two lines pass the end of the first, and behind a
carriage return the single one for the end of the source is not just behind the line. -/
theorem carets_leave_line : ∃ e e' : CompileError,
    (compile "null \"ab\ncd\"; print null\r" .empty).result = .error #[e, e'] ∧
      ((Diagnostic.ofCompileError e).withSource
        (.ofString "null \"ab\ncd\"; print null\r")).Underlines ⟨1, 6⟩ "null \"ab" 7 ∧
      ¬Beneath "null \"ab".utf8ByteSize 5 7 ∧
      ((Diagnostic.ofCompileError e').withSource
        (.ofString "null \"ab\ncd\"; print null\r")).Underlines ⟨2, 17⟩ "cd\"; print null" 1 ∧
      ¬Beneath "cd\"; print null".utf8ByteSize 16 1 := by
  have errors : (Compiler.closing "null \"ab\ncd\"; print null\r" .empty).errors =
      #[⟨1, .token "\"ab\ncd\"", .expectedMark ";" "after expression", ⟨5, 12⟩⟩,
        ⟨2, .atEnd, .expectedMark ";" "after value", ⟨25, 25⟩⟩] := by decide +kernel
  have failed := Compiler.failed_of_size (congrArg Array.size errors)
  rw [errors] at failed
  have first : (LineTable.ofString "null \"ab\ncd\"; print null\r").lineText 1 = "null \"ab" := by decide
  have second : (LineTable.ofString "null \"ab\ncd\"; print null\r").lineText 2 =
      "cd\"; print null" := by decide
  refine ⟨_, _, failed, ?_, ?_, ?_, ?_⟩
  · rw [← first]
    exact Diagnostic.underlines_of_error (by decide) (by decide +kernel)
  · unfold Beneath
    decide
  · rw [← second]
    exact Diagnostic.underlines_of_error (by decide) (by decide +kernel)
  · unfold Beneath
    decide

end StackScript
