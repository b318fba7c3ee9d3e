import StackScript.Diagnostic.Pretty
import StackScript.Proofs.Source.LineText

/-!
# Colours change nothing but colours

A terminal reads a text as characters and as sequences that set the style of the characters
behind them.  Of a coloured report it reads the same characters as of the report without
colours, and each style is reset behind the text that is painted in it, before another one
is set (`color_only_paints`).

A report is made of painted and plain pieces, so both follow from what is read of a piece.
-/

namespace StackScript
namespace Terminal

/-- What a terminal reads. -/
inductive Signal where
  | char (c : Char)
  /-- Sets the style of what follows. -/
  | style (parameters : List Char)
deriving DecidableEq, Repr

/-- The character of a signal that is one. -/
def Signal.char? : Signal → Option Char
  | char c => some c
  | style _ => none

/-- The character with which a sequence begins. -/
def escape : Char := '\x1b'

/-- Parameters are numbers with semicolons between them. -/
def isParameter (c : Char) : Bool := c.isDigit || c == ';'

/-- The parameters of the style sequence of which a text is the part behind the escape
character, and the text behind the sequence. -/
def sequence? (text : List Char) : Option (List Char × List Char) :=
  match text with
  | '[' :: body =>
    match body.dropWhile isParameter with
    | 'm' :: rest => some (body.takeWhile isParameter, rest)
    | _ => none
  | _ => none

theorem length_of_sequence? {text parameters rest : List Char}
    (found : sequence? text = some (parameters, rest)) : rest.length < text.length := by
  unfold sequence? at found
  split at found
  · rename_i body
    have shorter := (List.dropWhile_sublist isParameter (l := body)).length_le
    split at found
    · rename_i left
      cases found
      rw [left] at shorter
      simp only [List.length_cons] at shorter ⊢
      omega
    · cases found
  · cases found

/-- What a terminal reads of a text. -/
def signals : List Char → List Signal
  | [] => []
  | c :: text =>
    if c = escape then
      match _found : sequence? text with
      | some (parameters, rest) => .style parameters :: signals rest
      | none => .char c :: signals text
    else .char c :: signals text
termination_by text => text.length
decreasing_by
  · have := length_of_sequence? _found
    simp only [List.length_cons]
    omega
  · simp
  · simp

/-- A text without its style sequences. -/
def unstyled (text : String) : String :=
  String.ofList ((signals text.toList).filterMap Signal.char?)

theorem signals_cons {c : Char} (other : c ≠ escape) (text : List Char) :
    signals (c :: text) = .char c :: signals text := by
  rw [signals, if_neg other]

/-- Characters are read one by one. -/
theorem signals_append {text : List Char} (plain : escape ∉ text) (rest : List Char) :
    signals (text ++ rest) = text.map .char ++ signals rest := by
  induction text with
  | nil => rfl
  | cons c text ih =>
      obtain ⟨first, others⟩ := List.ne_and_not_mem_of_not_mem_cons plain
      rw [List.cons_append, signals_cons (Ne.symm first), ih others]
      rfl

/-- A style sequence is read as one. -/
theorem signals_sequence {parameters : List Char} (proper : ∀ c ∈ parameters, isParameter c)
    (rest : List Char) :
    signals (escape :: '[' :: (parameters ++ 'm' :: rest)) = .style parameters :: signals rest := by
  have found : sequence? ('[' :: (parameters ++ 'm' :: rest)) = some (parameters, rest) := by
    have taken : (parameters ++ 'm' :: rest).takeWhile isParameter = parameters := by
      rw [List.takeWhile_append_of_pos proper]
      simp [isParameter, Char.isDigit]
    have dropped : (parameters ++ 'm' :: rest).dropWhile isParameter = 'm' :: rest := by
      rw [List.dropWhile_append_of_pos proper]
      simp [isParameter, Char.isDigit]
    simp only [sequence?, taken, dropped]
  rw [signals, if_pos rfl]
  split
  · rename_i parameters' rest' found'
    rw [found] at found'
    cases found'
    rfl
  · rename_i none
    rw [found] at none
    cases none

/-- Every style is reset behind the characters for which it is set, and they break the line
only if they are one of the given texts. -/
def Resets (long : List String) (read : List Signal) : Prop :=
  ∀ front parameters back, read = front ++ .style parameters :: back → parameters ≠ ['0'] →
    ∃ shown rest, back = shown.map .char ++ .style ['0'] :: rest ∧
      ('\n' ∈ shown → String.ofList shown ∈ long)

section

variable {long : List String} {read more : List Signal}

theorem Resets.append (h : Resets long read) (h' : Resets long more) :
    Resets long (read ++ more) := by
  intro front parameters back whole proper
  rcases List.append_eq_append_iff.mp whole with ⟨between, -, same⟩ | ⟨between, same, rest⟩
  · exact h' between parameters back same proper
  · cases between with
    | nil => exact h' [] parameters back rest.symm proper
    | cons s between =>
        -- the sequence stands in the first part
        rw [List.cons_append, List.cons.injEq] at rest
        obtain ⟨rfl, rfl⟩ := rest
        obtain ⟨shown, left, rfl, breaks⟩ := h front parameters between same proper
        exact ⟨shown, left ++ more, by rw [List.append_assoc, List.cons_append], breaks⟩

theorem resets_chars (text : List Char) : Resets long (text.map .char) := by
  intro front parameters back whole
  have mem : Signal.style parameters ∈ text.map Signal.char := by
    rw [whole]
    exact List.mem_append_right _ (List.mem_cons_self ..)
  obtain ⟨c, -, same⟩ := List.mem_map.mp mem
  cases same

theorem resets_painted {text : List Char} (parameters : List Char)
    (breaks : '\n' ∈ text → String.ofList text ∈ long) :
    Resets long (.style parameters :: (text.map .char ++ [.style ['0']])) := by
  intro front parameters' back whole proper
  cases front with
  | nil =>
      injection whole with _ rest
      exact ⟨text, [], rest.symm, breaks⟩
  | cons s front =>
      -- behind the first sequence there is only the one that resets it
      injection whole with _ rest
      have mem : Signal.style parameters' ∈ text.map Signal.char ++ [.style ['0']] := by
        rw [rest]
        exact List.mem_append_right _ (List.mem_cons_self ..)
      rcases List.mem_append.mp mem with char | last
      · obtain ⟨c, -, same⟩ := List.mem_map.mp char
        cases same
      · rw [List.mem_singleton, Signal.style.injEq] at last
        exact absurd last proper

theorem resets_flatMap {α : Type} {items : List α} {f : α → List Signal}
    (all : ∀ item ∈ items, Resets long (f item)) : Resets long (items.flatMap f) := by
  induction items with
  | nil => exact resets_chars []
  | cons item items ih =>
      obtain ⟨first, others⟩ := List.forall_mem_cons.mp all
      exact first.append (ih others)

end

end Terminal

/-! ## Reports -/

/-- The texts from which a report is made. -/
def Diagnostic.texts (d : Diagnostic) (source : Option String) : List String :=
  [d.kind, d.message] ++ (d.label.map Label.message).toList ++ d.notes ++ source.toList

/-- Of the texts that are painted, those that are not made up by the report itself. -/
def Diagnostic.painted (d : Diagnostic) : List String :=
  [d.kind ++ " error", d.message] ++ (d.label.map Label.message).toList

namespace Pretty

open Terminal

/-- A piece holds no escape character, and if it is painted it breaks the line only if it is
one of the given texts. -/
structure Segment.Fits (long : List String) (segment : Segment) : Prop where
  plain : escape ∉ segment.text.toList
  breaks : segment.paint ≠ none → '\n' ∈ segment.text.toList → segment.text ∈ long

/-- What is read of a piece. -/
def Segment.signals (segment : Segment) : List Signal :=
  match segment.paint with
  | some paint =>
    .style paint.code.toList :: (segment.text.toList.map .char ++ [.style ['0']])
  | none => segment.text.toList.map .char

theorem Paint.isParameter_code (paint : Paint) : ∀ c ∈ paint.code.toList, isParameter c := by
  have digits : '0'.isDigit = true ∧ '1'.isDigit = true ∧ '2'.isDigit = true ∧
      '3'.isDigit = true ∧ '6'.isDigit = true := by decide
  cases paint <;> simp [Paint.code, isParameter, digits]

section

variable {long : List String} {segment : Segment} {line : List Segment} {lines : List (List Segment)}

theorem Segment.Fits.signals_render (h : segment.Fits long) (rest : List Char) :
    Terminal.signals ((segment.render true).toList ++ rest) =
      segment.signals ++ Terminal.signals rest := by
  obtain ⟨paint, text⟩ := segment
  have plain : escape ∉ text.toList := h.plain
  cases paint with
  | none => exact signals_append plain rest
  | some paint =>
      have reset : Terminal.signals (escape :: '[' :: (['0'] ++ 'm' :: rest)) =
          .style ['0'] :: Terminal.signals rest := signals_sequence (by simp [isParameter]) rest
      have text : (Segment.render true ⟨some paint, text⟩).toList ++ rest =
          escape :: '[' :: (paint.code.toList ++ 'm' :: (text.toList ++
            escape :: '[' :: (['0'] ++ 'm' :: rest))) := by
        simp [Segment.render, escape]
      rw [text, signals_sequence paint.isParameter_code, signals_append plain, reset]
      simp [Segment.signals]

theorem Segment.Fits.resets (h : segment.Fits long) : Resets long segment.signals := by
  obtain ⟨paint, text⟩ := segment
  cases paint with
  | none => exact resets_chars _
  | some paint =>
      apply resets_painted
      rw [String.ofList_toList]
      exact h.breaks (by simp)

/-- What is read of a line. -/
def lineSignals (line : List Segment) : List Signal :=
  line.flatMap Segment.signals ++ [.char '\n']

theorem signals_renderLine (fits : ∀ segment ∈ line, segment.Fits long) (rest : List Char) :
    signals ((renderLine true line).toList ++ rest) = lineSignals line ++ signals rest := by
  have ending : signals ('\n' :: rest) = .char '\n' :: signals rest := signals_cons (by decide) rest
  rw [renderLine, lineSignals]
  induction line with
  | nil => simpa using ending
  | cons segment line ih =>
      obtain ⟨first, others⟩ := List.forall_mem_cons.mp fits
      have split : (String.join ((segment :: line).map (Segment.render true)) ++ "\n").toList ++ rest =
          (segment.render true).toList ++
            ((String.join (line.map (Segment.render true)) ++ "\n").toList ++ rest) := by
        simp [String.join_cons]
      rw [split, first.signals_render, ih others, List.flatMap_cons]
      simp only [List.append_assoc]

theorem signals_lines (fits : ∀ line ∈ lines, ∀ segment ∈ line, segment.Fits long) :
    signals (String.join (lines.map (renderLine true))).toList = lines.flatMap lineSignals := by
  induction lines with
  | nil => simp [Terminal.signals]
  | cons line lines ih =>
      obtain ⟨first, others⟩ := List.forall_mem_cons.mp fits
      rw [List.map_cons, String.join_cons, String.toList_append, signals_renderLine first, ih others,
        List.flatMap_cons]

theorem resets_lines (fits : ∀ line ∈ lines, ∀ segment ∈ line, segment.Fits long) :
    Resets long (lines.flatMap lineSignals) := by
  apply resets_flatMap
  intro line mem
  have ending : Resets long [.char '\n'] := resets_chars ['\n']
  exact (resets_flatMap fun segment there => (fits line mem segment there).resets).append ending

theorem Segment.char?_signals (segment : Segment) :
    segment.signals.filterMap Signal.char? = (segment.render false).toList := by
  have chars (text : List Char) : (text.map Signal.char).filterMap Signal.char? = text := by
    induction text with
    | nil => rfl
    | cons c text ih =>
        have first : Signal.char? (.char c) = some c := rfl
        rw [List.map_cons, List.filterMap_cons_some first, ih]
  obtain ⟨paint, text⟩ := segment
  cases paint with
  | none => exact chars _
  | some paint =>
      have none : Signal.char? (.style paint.code.toList) = none := rfl
      rw [Segment.signals, List.filterMap_cons_none none, List.filterMap_append, chars]
      simp [Signal.char?, Segment.render]

theorem char?_lineSignals (line : List Segment) :
    (lineSignals line).filterMap Signal.char? = (renderLine false line).toList := by
  rw [lineSignals, renderLine, List.filterMap_append, String.toList_append]
  congr 1
  induction line with
  | nil => rfl
  | cons segment line ih =>
      rw [List.flatMap_cons, List.filterMap_append, Segment.char?_signals, ih, List.map_cons,
        String.join_cons, String.toList_append]

theorem char?_lines (lines : List (List Segment)) :
    (lines.flatMap lineSignals).filterMap Signal.char? =
      (String.join (lines.map (renderLine false))).toList := by
  induction lines with
  | nil => rfl
  | cons line lines ih =>
      rw [List.flatMap_cons, List.filterMap_append, char?_lineSignals, ih, List.map_cons,
        String.join_cons, String.toList_append]

end

/-! ## Pieces of reports -/

section

variable {long : List String} {text : String}

theorem fits_plain (none : escape ∉ text.toList) : (plain text).Fits long :=
  ⟨none, fun paint => absurd rfl paint⟩

theorem fits_painted {paint : Paint} (none : escape ∉ text.toList)
    (breaks : '\n' ∈ text.toList → text ∈ long) : (painted paint text).Fits long :=
  ⟨none, fun _ => breaks⟩

theorem escape_not_mem_append {front back : String} (h : escape ∉ front.toList)
    (h' : escape ∉ back.toList) : escape ∉ (front ++ back).toList := by
  rw [String.toList_append, List.mem_append, not_or]
  exact ⟨h, h'⟩

/-- The characters of a text are others than those that matter to a terminal. -/
def Harmless (text : String) : Prop := escape ∉ text.toList ∧ '\n' ∉ text.toList

instance (text : String) : Decidable (Harmless text) := inferInstanceAs (Decidable (_ ∧ _))

theorem Harmless.fits_plain (h : Harmless text) : (plain text).Fits long := Pretty.fits_plain h.1

theorem Harmless.fits_painted {paint : Paint} (h : Harmless text) : (painted paint text).Fits long :=
  Pretty.fits_painted h.1 fun breaks => absurd breaks h.2

theorem Harmless.append {more : String} (h : Harmless text) (h' : Harmless more) :
    Harmless (text ++ more) := by
  unfold Harmless
  rw [String.toList_append, List.mem_append, List.mem_append, not_or, not_or]
  exact ⟨⟨h.1, h'.1⟩, ⟨h.2, h'.2⟩⟩

theorem harmless_toString (n : Nat) : Harmless (toString n) := by
  have digits : ∀ c ∈ (toString n).toList, c.isDigit = true := by
    intro c mem
    rw [Nat.toString_eq_ofList_toDigits, String.toList_ofList] at mem
    exact Nat.isDigit_of_mem_toDigits (by decide) (by decide) mem
  constructor
  · intro mem
    exact absurd (digits _ mem) (by decide)
  · intro mem
    exact absurd (digits _ mem) (by decide)

theorem harmless_replicate {c : Char} (other : c ≠ escape ∧ c ≠ '\n') (count : Nat) :
    Harmless (String.ofList (List.replicate count c)) := by
  unfold Harmless
  rw [String.toList_ofList]
  constructor
  · intro mem
    exact other.1 (List.eq_of_mem_replicate mem).symm
  · intro mem
    exact other.2 (List.eq_of_mem_replicate mem).symm

theorem harmless_blanks (count : Nat) : Harmless (blanks count) := harmless_replicate (by decide) count

theorem fits_excerptLines {label : Label} {table : LineTable}
    (message : escape ∉ label.message.toList)
    (lines : ∀ number, escape ∉ (table.lineText number).toList) (given : label.message ∈ long) :
    ∀ line ∈ excerptLines label table, ∀ segment ∈ line, segment.Fits long := by
  have blank : Harmless " " := by decide
  have bar : (painted .cyan "|").Fits long := Harmless.fits_painted (by decide)
  have arrow : (painted .cyan "-->").Fits long := Harmless.fits_painted (by decide)
  have margin (width : Nat) : ∀ segment ∈ [plain (blanks width ++ " "), painted .cyan "|"],
      segment.Fits long := by
    simpa using ⟨((harmless_blanks width).append blank).fits_plain, bar⟩
  have carets (column : Nat) : ∀ segment ∈ caretSegments label column, segment.Fits long := by
    have front : (plain (" " ++ blanks (column - 1))).Fits long :=
      (blank.append (harmless_blanks _)).fits_plain
    have run : (painted .boldRed
        (String.ofList (List.replicate (max 1 label.span.length) '^'))).Fits long :=
      (harmless_replicate (by decide) _).fits_painted
    have last : (painted .boldRed label.message).Fits long := fits_painted message fun _ => given
    unfold caretSegments
    split
    · simpa using ⟨front, run⟩
    · simpa using ⟨front, run, blank.fits_plain, last⟩
  unfold excerptLines
  generalize labelPosition label table = position
  have number : Harmless (toString position.line) := harmless_toString _
  have place : (plain (" " ++ toString position.line ++ ":" ++ toString position.column)).Fits long := by
    have colon : Harmless ":" := by decide
    exact (((blank.append number).append colon).append (harmless_toString _)).fits_plain
  have shown : (plain (" " ++ table.lineText position.line)).Fits long :=
    fits_plain (escape_not_mem_append blank.1 (lines _))
  have two : (plain "  ").Fits long := Harmless.fits_plain (by decide)
  dsimp only
  rw [List.forall_mem_append, List.forall_mem_append]
  refine ⟨⟨?_, ?_⟩, ?_⟩
  · refine List.forall_mem_cons.mpr ⟨?_, List.forall_mem_cons.mpr ⟨margin _, ?_⟩⟩
    · simpa using ⟨two, arrow, place⟩
    · simpa using ⟨number.fits_painted, blank.fits_plain, bar, shown⟩
  · split
    · rw [List.forall_mem_singleton, List.forall_mem_append]
      exact ⟨margin _, carets _⟩
    · exact fun line mem => absurd mem List.not_mem_nil
  · rw [List.forall_mem_singleton]
    exact margin _

theorem mem_lineText {text : String} {number : Nat} {c : Char}
    (mem : c ∈ ((LineTable.ofString text).lineText number).toList) : c ∈ text.toList := by
  cases number with
  | zero => exact absurd mem (by simp [LineTable.lineText])
  | succ index =>
      rw [LineTable.lineText_ofString] at mem
      by_cases inside : index ≤ text.toList.count '\n'
      · obtain ⟨before, line, feed, after, split, -, -, -, found, -⟩ := exists_piece inside
        rw [found, Option.map_some, Option.getD_some, String.toList_ofList] at mem
        have there : c ∈ line := (List.rdropWhile_prefix _ line).subset mem
        rw [split]
        simp [there]
      · rw [List.getElem?_eq_none (by rw [length_splitOn]; omega)] at mem
        exact absurd mem (by simp)

end

/-- The pieces of a report without escape characters in its texts. -/
theorem fits_layout {d : Diagnostic} {source : Option String}
    (attached : d.source = source.map LineTable.ofString)
    (none : ∀ text ∈ d.texts source, escape ∉ text.toList) :
    ∀ line ∈ layout d, ∀ segment ∈ line, segment.Fits d.painted := by
  obtain ⟨kind, message, label, notes, _⟩ := d
  cases attached
  simp only [Diagnostic.texts, List.forall_mem_append, List.forall_mem_cons, List.not_mem_nil,
    false_implies, implies_true, and_true] at none
  obtain ⟨⟨⟨⟨noneKind, noneMessage⟩, noneLabel⟩, noneNotes⟩, noneSource⟩ := none
  unfold layout
  rw [List.forall_mem_append, List.forall_mem_cons, List.forall_mem_map]
  have two : Harmless "  " := by decide
  have blank : Harmless " " := by decide
  refine ⟨⟨?_, ?_⟩, ?_⟩
  · have heading : escape ∉ (kind ++ " error").toList :=
      escape_not_mem_append noneKind (by decide)
    have colon : Harmless ": " := by decide
    have first : (painted .boldRed (kind ++ " error")).Fits
        (Diagnostic.painted ⟨kind, message, label, notes, source.map .ofString⟩) :=
      fits_painted heading fun _ => by simp [Diagnostic.painted]
    have last : (painted .bold message).Fits
        (Diagnostic.painted ⟨kind, message, label, notes, source.map .ofString⟩) :=
      fits_painted noneMessage fun _ => by simp [Diagnostic.painted]
    simpa [headingLine] using ⟨first, colon.fits_plain, last⟩
  · have arrow : Harmless "-->" := by decide
    have word : Harmless " line " := by decide
    cases label with
    | none => simp [placeLines]
    | some label =>
        have noneText : escape ∉ label.message.toList := noneLabel _ (by simp)
        cases source with
        | none =>
            have place := word.append (harmless_toString label.line)
            simpa [placeLines] using ⟨two.fits_plain, arrow.fits_painted, place.fits_plain⟩
        | some source =>
            apply fits_excerptLines noneText
            · intro number mem
              exact noneSource source (by simp) (mem_lineText mem)
            · simp [Diagnostic.painted]
  · intro note mem
    have text : escape ∉ (" " ++ note).toList := escape_not_mem_append blank.1 (noneNotes note mem)
    have sign : Harmless "=" := by decide
    simpa [noteLine] using ⟨two.fits_plain, sign.fits_painted, fits_plain text⟩

end Pretty

/-- Colours change nothing but colours: without its style sequences a coloured report is the
report without colours, and each style is reset behind the text for which it is set, and thus
on its line, unless that text itself breaks the line.  There are colours in every report. -/
theorem color_only_paints (d : Diagnostic) (source : Option String)
    (attached : d.source = source.map LineTable.ofString)
    (none : ∀ text ∈ d.texts source, Terminal.escape ∉ text.toList) :
    Terminal.unstyled (Pretty.render true d) = Pretty.render false d ∧
      Terminal.Resets d.painted (Terminal.signals (Pretty.render true d).toList) ∧
      (Terminal.signals (Pretty.render true d).toList).head? = some (.style ['1', ';', '3', '1']) := by
  have fits := Pretty.fits_layout attached none
  have read : Terminal.signals (Pretty.render true d).toList =
      (Pretty.layout d).flatMap Pretty.lineSignals := Pretty.signals_lines fits
  rw [Terminal.unstyled, read]
  refine ⟨?_, Pretty.resets_lines fits, rfl⟩
  rw [Pretty.char?_lines, String.ofList_toList]
  rfl

/-- A report with a message of two lines, a label, and a note. -/
theorem color_only_paints_sample : ∃ d : Diagnostic,
    d.message = "no\nvalue" ∧ d.source = (some "var é = ;").map LineTable.ofString ∧
      (∀ text ∈ d.texts (some "var é = ;"), Terminal.escape ∉ text.toList) ∧
      Terminal.unstyled (Pretty.render true d) = Pretty.render false d ∧
      Terminal.Resets d.painted (Terminal.signals (Pretty.render true d).toList) ∧
      (Terminal.signals (Pretty.render true d).toList).head? = some (.style ['1', ';', '3', '1']) := by
  have none : ∀ text ∈ Diagnostic.texts ⟨"compile", "no\nvalue", some ⟨1, ⟨9, 10⟩, "at ';'"⟩,
      ["here"], some (LineTable.ofString "var é = ;")⟩ (some "var é = ;"),
      Terminal.escape ∉ text.toList := by decide
  exact ⟨_, rfl, rfl, none, color_only_paints _ (some "var é = ;") rfl none⟩

end StackScript
