import StackScript.Proofs.Token.Reading

/-!
# Tokens tile the source

The spans of the tokens of a text lie side by side, in order and without overlap.  What a
span covers is what its token says, and what lies between the spans is blanks and comments
(`tokens_tile`).

`Laid` is the invariant: it describes the tokens of the rest of a text by how the rest begins,
a gap, the slice of the next token, and what is left.
-/

namespace StackScript

open Token (byteLength)

/-- A span cuts a text in three: what stands before, what it covers, and what stands behind. -/
structure Span.Cuts (span : Span) (source : String) (before text after : List Char) : Prop where
  whole : source.toList = before ++ text ++ after
  start : span.start = byteLength before
  stop : span.stop = byteLength (before ++ text)

/-- The bytes of a string are those of its characters. -/
theorem byteLength_toList (s : String) : byteLength s.toList = s.utf8ByteSize := by
  have bytes (text : List Char) : byteLength text = String.utf8Len text := by
    induction text with
    | nil => rfl
    | cons c text ih => rw [Token.byteLength_cons, String.utf8Len_cons, ih, Nat.add_comm]
  rw [bytes, ← String.utf8ByteSize_ofList, String.ofList_toList]

/-- Where a text is cut in two there is no character in between. -/
theorem isValid_byteLength {source : String} {front back : List Char}
    (whole : source.toList = front ++ back) :
    String.Pos.Raw.IsValid source ⟨byteLength front⟩ := by
  rw [String.Pos.Raw.isValid_iff_exists_append]
  refine ⟨String.ofList front, String.ofList back, ?_, ?_⟩
  · rw [← String.ofList_append, ← whole, String.ofList_toList]
  · rw [String.rawEndPos, ← byteLength_toList, String.toList_ofList]

namespace Span.Cuts

variable {span : Span} {source : String} {before text after : List Char}

theorem stop_le (h : span.Cuts source before text after) : span.stop ≤ source.utf8ByteSize := by
  rw [h.stop, ← byteLength_toList, h.whole, Token.byteLength_append _ after]
  omega

theorem start_le_stop (h : span.Cuts source before text after) : span.start ≤ span.stop := by
  rw [h.start, h.stop, Token.byteLength_append]
  exact Nat.le_add_right ..

theorem start_lt_stop (h : span.Cuts source before text after) (some : text ≠ []) :
    span.start < span.stop := by
  have := Token.byteLength_pos some
  rw [h.start, h.stop, Token.byteLength_append]
  omega

theorem isValid (h : span.Cuts source before text after) :
    String.Pos.Raw.IsValid source ⟨span.start⟩ ∧ String.Pos.Raw.IsValid source ⟨span.stop⟩ := by
  constructor
  · rw [h.start]
    exact isValid_byteLength (h.whole.trans (List.append_assoc ..))
  · rw [h.stop]
    exact isValid_byteLength h.whole

end Span.Cuts

namespace Token

/-- A text of blanks and comments, before a rest.  A comment ends before a line feed or at the
end of everything. -/
inductive Skipped : List Char → List Char → Prop where
  | nil (rest : List Char) : Skipped [] rest
  | blank {c : Char} {gap rest : List Char} (blank : c ∈ [' ', '\t', '\r', '\n', '\x0c'])
      (more : Skipped gap rest) : Skipped (c :: gap) rest
  | comment {body gap rest : List Char} (line : '\n' ∉ body)
      (ends : ∀ c ∈ (gap ++ rest).head?, c = '\n') (more : Skipped gap rest) :
      Skipped ('/' :: '/' :: (body ++ gap)) rest

/-- The end of the last of some tokens, or `start` if there is none. -/
def endsAt (start : Nat) : List Token → Nat
  | [] => start
  | t :: ts => endsAt t.span.stop ts

/-- A token covers a slice of a text, which stands behind a gap. -/
structure Stands (t : Token) (before gap slice rest : List Char) : Prop where
  skipped : Skipped gap (slice ++ rest)
  span : t.span = ⟨byteLength (before ++ gap), byteLength (before ++ gap ++ slice)⟩
  line : t.line = 1 + (before ++ gap).count '\n'

/-- What a token says of the slice that it covers. -/
inductive Renders (t : Token) : (slice rest : List Char) → Prop where
  | last (kind : t.kind = .eof) (lexeme : t.lexeme = "") : Renders t [] []
  | lexeme {slice rest : List Char} (front : Front (slice ++ rest) ⟨.lexeme t.kind, slice, rest⟩)
      (lexeme : t.lexeme = String.ofList slice) : Renders t slice rest
  | unclosed {body : List Char} (inside : Unquoted body) (kind : t.kind = .error)
      (lexeme : t.lexeme = "unterminated string") : Renders t ('"' :: body) []
  | stray {c : Char} {rest : List Char} (front : Front (c :: rest) ⟨.stray c, [c], rest⟩)
      (kind : t.kind = .error) (lexeme : t.lexeme = "unexpected character '" ++ c.toString ++ "'") :
      Renders t [c] rest

/-- The tokens of the rest of a text, with what stands before the rest. -/
inductive Laid : List Char → List Char → List Token → Prop where
  | last {before gap : List Char} {e : Token} (stands : e.Stands before gap [] [])
      (kind : e.kind = .eof) (lexeme : e.lexeme = "") : Laid before gap [e]
  | token {before gap slice rest : List Char} {t : Token} {ts : List Token}
      (stands : t.Stands before gap slice rest) (renders : t.Renders slice rest) (kind : t.kind ≠ .eof)
      (more : Laid (before ++ gap ++ slice) rest ts) :
      Laid before (gap ++ slice ++ rest) (t :: ts)

/-! ## The scanner lays tokens side by side -/

theorem isBlank_iff {c : Char} : isBlank c = true ↔ c ∈ [' ', '\t', '\r', '\n', '\x0c'] := by
  simp [isBlank, or_assoc]

/-- More may be skipped in front of the next token. -/
theorem Laid.skip {before front text : List Char} {ts : List Token}
    (laid : Laid (before ++ front) text ts)
    (longer : ∀ gap rest, text = gap ++ rest → Skipped gap rest → Skipped (front ++ gap) rest) :
    Laid before (front ++ text) ts := by
  cases laid with
  | @last before' gap e stands kind lexeme =>
      refine .last ⟨longer _ _ (by simp) stands.skipped, ?_, ?_⟩ kind lexeme
      · rw [stands.span]
        simp only [List.append_assoc]
      · rw [stands.line, List.append_assoc]
  | @token before' gap slice rest t ts stands renders kind more =>
      have regroup : front ++ (gap ++ slice ++ rest) = front ++ gap ++ slice ++ rest := by
        simp only [List.append_assoc]
      rw [regroup]
      refine .token ⟨longer _ _ (List.append_assoc ..) stands.skipped, ?_, ?_⟩ renders kind ?_
      · rw [stands.span]
        simp only [List.append_assoc]
      · rw [stands.line, List.append_assoc]
      · simpa only [List.append_assoc] using more

/-- A front piece that makes no token is blank. -/
theorem skipped_front {c : Char} {after gap rest : List Char} {piece : Piece}
    (solid : isBlank c = false) (front : Front (c :: after) piece) (blank : piece.cls = .blank)
    (left : piece.rest = gap ++ rest)
    (more : Skipped gap rest) : Skipped (piece.taken ++ gap) rest := by
  cases front with
  | blank first =>
      rw [solid] at first
      cases first
  | @comment body after inside stops =>
      refine .comment (fun mem => ?_) (fun d mem => ?_) more
      · simpa using inside _ mem
      · rw [← left] at mem
        simpa using stops d mem
  | _ => cases blank

theorem renders_front {c : Char} {after : List Char} {piece : Piece} {line : Nat} {span : Span}
    {t : Token}
    (front : Front (c :: after) piece) (reads : ofPiece piece line span = some t) :
    t.Renders piece.taken piece.rest ∧ t.kind ≠ .eof := by
  have covers := front.covers
  obtain ⟨cls, taken, rest⟩ := piece
  unfold ofPiece at reads
  cases cls with
  | blank => cases reads
  | lexeme kind =>
      cases reads
      refine ⟨.lexeme ?_ rfl, front.kind_ne.1⟩
      rw [covers]
      exact front
  | unclosedString =>
      cases reads
      cases front with
      | unclosed inside => exact ⟨.unclosed inside rfl rfl, by simp⟩
  | stray d =>
      cases reads
      cases front with
      | stray blank word digit quote unknown =>
          exact ⟨.stray (.stray blank word digit quote unknown) rfl rfl, by simp⟩

/-- The tokens that the scanner reads lie side by side. -/
theorem laid_reading (before text : List Char) :
    Laid before text (reading text (byteLength before) (1 + before.count '\n')) := by
  -- the text before takes in each piece that is read, so the places are those of the whole
  induction text using piece_induction generalizing before with
  | nil =>
      rw [reading_nil]
      exact .last ⟨.nil [], by simp, by simp⟩ rfl rfl
  | blank c after blank ih =>
      have here := ih (before ++ [c])
      rw [byteLength_append, List.count_append, ← Nat.add_assoc] at here
      rw [reading_blank blank]
      have laid : Laid (before ++ [c]) after (reading after (byteLength before + c.utf8Size)
          (1 + before.count '\n' + [c].count '\n')) := by
        simpa using here
      exact @Laid.skip before [c] after _ laid fun gap rest _ more =>
        .blank (isBlank_iff.mp blank) more
  | solid c after solid ih =>
      have front := front_frontPiece c after
      have text := front.covers
      rw [reading_cons]
      generalize frontPiece c after = piece at front text ih ⊢
      have here := ih (before ++ piece.taken)
      rw [byteLength_append, List.count_append, ← Nat.add_assoc] at here
      cases reads : ofPiece piece (1 + before.count '\n')
        ⟨byteLength before, byteLength before + byteLength piece.taken⟩ with
      | none =>
          -- only blanks and comments make no token, and this is no blank
          have blank : piece.cls = .blank := by
            unfold ofPiece at reads
            split at reads <;> first | assumption | cases reads
          rw [← text]
          exact here.skip fun gap rest left more => skipped_front solid front blank left more
      | some t =>
          have place : t.span = ⟨byteLength before, byteLength before + byteLength piece.taken⟩ ∧
              t.line = 1 + before.count '\n' := by
            unfold ofPiece at reads
            split at reads <;> cases reads <;> exact ⟨rfl, rfl⟩
          obtain ⟨renders, kind⟩ := renders_front front reads
          have laid := @Laid.token before [] piece.taken piece.rest t _
            ⟨.nil _, by simpa using place.1, by simpa using place.2⟩ renders kind
            (by simpa using here)
          rw [List.nil_append, text] at laid
          exact laid

/-! ## Where the tokens are -/

section

variable {before text : List Char} {ts us : List Token} {t : Token}

/-- Each token begins where those before it end, after a gap. -/
theorem Laid.split (laid : Laid before text (ts ++ t :: us)) : ∃ front gap slice rest,
    before ++ text = front ++ gap ++ slice ++ rest ∧ byteLength front = endsAt (byteLength before) ts ∧
      t.Stands front gap slice rest ∧ t.Renders slice rest := by
  induction ts generalizing before text with
  | nil =>
      cases laid with
      | last stands kind lexeme =>
          exact ⟨before, text, [], [], by simp, rfl, stands, .last kind lexeme⟩
      | @token _ gap slice rest _ _ stands renders _ _ =>
          exact ⟨before, gap, slice, rest, by simp, rfl, stands, renders⟩
  | cons u ts ih =>
      -- the token in question stands among those behind the first slice
      rw [List.cons_append] at laid
      generalize others : ts ++ t :: us = vs at laid
      cases laid with
      | last => simp at others
      | @token _ gap slice rest _ _ stands _ _ more =>
          rw [← others] at more
          obtain ⟨front, gap', slice', rest', whole, start, here⟩ := ih more
          refine ⟨front, gap', slice', rest', ?_, ?_, here⟩
          · rw [← whole]
            simp only [List.append_assoc]
          · rw [start, endsAt, stands.span]

/-- The tokens stand one behind the other. -/
theorem Laid.apart (laid : Laid before text ts) : (∀ t ∈ ts, byteLength before ≤ t.span.start) ∧
    ts.Pairwise fun t u => t.span.stop ≤ u.span.start := by
  induction laid with
  | last stands =>
      refine ⟨?_, List.pairwise_singleton ..⟩
      rw [List.forall_mem_singleton, stands.span, byteLength_append]
      exact Nat.le_add_right ..
  | token stands _ _ _ ih =>
      constructor
      · intro u mem
        rcases List.mem_cons.mp mem with rfl | later
        · rw [stands.span, byteLength_append]
          exact Nat.le_add_right ..
        · have := ih.1 u later
          rw [byteLength_append, byteLength_append] at this
          omega
      · refine List.pairwise_cons.mpr ⟨fun u later => ?_, ih.2⟩
        rw [stands.span]
        exact ih.1 u later

/-- The last token marks the end of the text, and no other does. -/
theorem Laid.ended (laid : Laid before text ts) : ∃ us line, ts = us ++
    [⟨.eof, "", line, ⟨byteLength (before ++ text), byteLength (before ++ text)⟩⟩] ∧
      ∀ t ∈ us, t.kind ≠ .eof := by
  induction laid with
  | @last before gap e stands kind lexeme =>
      obtain ⟨_, _, line, _⟩ := e
      obtain ⟨-, span, -⟩ := stands
      simp only [List.append_nil] at kind lexeme span
      subst kind lexeme span
      exact ⟨[], line, rfl, by simp⟩
  | @token before gap slice rest t ts stands _ kind _ ih =>
      obtain ⟨us, line, same, others⟩ := ih
      refine ⟨t :: us, line, ?_, List.forall_mem_cons.mpr ⟨kind, others⟩⟩
      rw [same]
      simp only [List.append_assoc, List.cons_append]

end

/-- Each token of a scan begins where those before it end, after a gap. -/
theorem stands_of_scan {source : String} {ts us : List Token} {t : Token}
    (read : scan source = ts ++ t :: us) : ∃ before gap slice rest,
      source.toList = before ++ gap ++ slice ++ rest ∧ byteLength before = endsAt 0 ts ∧
        t.Stands before gap slice rest ∧ t.Renders slice rest := by
  have laid : Laid [] source.toList (scan source) := laid_reading [] source.toList
  rw [read] at laid
  exact laid.split

theorem Stands.cuts {source : String} {t : Token} {before gap slice rest : List Char}
    (stands : t.Stands before gap slice rest)
    (whole : source.toList = before ++ gap ++ slice ++ rest) :
    t.span.Cuts source (before ++ gap) slice rest where
  whole := whole
  start := congrArg Span.start stands.span
  stop := congrArg Span.stop stands.span

theorem Stands.cuts_gap {source : String} {start : Nat} {t : Token} {before gap slice rest : List Char}
    (stands : t.Stands before gap slice rest)
    (whole : source.toList = before ++ gap ++ slice ++ rest) (ends : byteLength before = start) :
    (⟨start, t.span.start⟩ : Span).Cuts source before gap (slice ++ rest) where
  whole := by rw [whole, List.append_assoc]
  start := ends.symm
  stop := congrArg Span.start stands.span

/-- Every token of a scan covers a slice of the source. -/
theorem exists_cuts {source : String} {t : Token} (mem : t ∈ scan source) : ∃ before slice rest,
    t.span.Cuts source before slice rest ∧ t.line = 1 + before.count '\n' ∧ t.Renders slice rest := by
  obtain ⟨ts, us, read⟩ := List.append_of_mem mem
  obtain ⟨before, gap, slice, rest, whole, -, stands, renders⟩ := stands_of_scan read
  exact ⟨before ++ gap, slice, rest, stands.cuts whole, stands.line, renders⟩

/-- A token that is no end marker covers something. -/
theorem Renders.slice_ne_nil {t : Token} {slice rest : List Char} (renders : t.Renders slice rest)
    (kind : t.kind ≠ .eof) : slice ≠ [] := by
  cases renders with
  | last last => exact absurd last kind
  | lexeme front => exact front.taken_ne_nil
  | unclosed => exact List.cons_ne_nil _ _
  | stray => exact List.cons_ne_nil _ _

/-- Behind the end marker there is nothing. -/
theorem Renders.nil_of_eof {t : Token} {slice rest : List Char} (renders : t.Renders slice rest)
    (last : t.kind = .eof) : slice ++ rest = [] := by
  cases renders with
  | last => rfl
  | lexeme front => exact absurd last front.kind_ne.1
  | unclosed _ kind | stray _ kind =>
      rw [kind] at last
      cases last

/-! ## Tiles -/

/-- Some tokens tile a text. -/
structure Tiles (source : String) (tokens : List Token) : Prop where
  /-- The last token is an end marker behind the last byte, and there is no other. -/
  ended : ∃ ts line, tokens =
    ts ++ [⟨.eof, "", line, ⟨source.utf8ByteSize, source.utf8ByteSize⟩⟩] ∧ ∀ t ∈ ts, t.kind ≠ .eof
  /-- Every other token covers something, and nothing beyond the text. -/
  proper : ∀ t ∈ tokens, t.kind ≠ .eof →
    t.span.start < t.span.stop ∧ t.span.stop ≤ source.utf8ByteSize
  /-- No token begins or ends within a character. -/
  aligned : ∀ t ∈ tokens, String.Pos.Raw.IsValid source ⟨t.span.start⟩ ∧
    String.Pos.Raw.IsValid source ⟨t.span.stop⟩
  /-- Each token ends before the next one begins. -/
  apart : tokens.Pairwise fun t u => t.span.stop ≤ u.span.start
  /-- The lexeme of a token is what the token covers. -/
  lexeme : ∀ t ∈ tokens, t.kind ≠ .error →
    ∃ before after, t.span.Cuts source before t.lexeme.toList after
  /-- An error token covers one character and names it, or it covers a string without an end. -/
  error : ∀ t ∈ tokens, t.kind = .error → ∃ before text after, t.span.Cuts source before text after ∧
    ((∃ c, text = [c] ∧ t.lexeme = "unexpected character '" ++ c.toString ++ "'") ∨
      (t.lexeme = "unterminated string" ∧ after = [] ∧ ∃ body, text = '"' :: body ∧ '"' ∉ body))
  /-- Between a token and the end of the tokens before it there are blanks and comments. -/
  between : ∀ ts t us, tokens = ts ++ t :: us → ∃ before gap after,
    (⟨endsAt 0 ts, t.span.start⟩ : Span).Cuts source before gap after ∧ Skipped gap after
  /-- The line of a token counts the line feeds before it. -/
  line : ∀ t ∈ tokens, ∃ before text after, t.span.Cuts source before text after ∧
    t.line = 1 + before.count '\n'

/-- The tokens of a scan tile the source. -/
theorem tokens_tile (source : String) : Tiles source (scan source) where
  ended := by
    have laid : Laid [] source.toList (scan source) := laid_reading [] source.toList
    rw [← byteLength_toList]
    exact laid.ended
  proper := by
    intro t mem kind
    obtain ⟨before, slice, rest, cuts, -, renders⟩ := exists_cuts mem
    exact ⟨cuts.start_lt_stop (renders.slice_ne_nil kind), cuts.stop_le⟩
  aligned := by
    intro t mem
    obtain ⟨before, slice, rest, cuts, -, -⟩ := exists_cuts mem
    exact cuts.isValid
  apart := by
    have laid : Laid [] source.toList (scan source) := laid_reading [] source.toList
    exact laid.apart.2
  lexeme := by
    intro t mem kind
    obtain ⟨before, slice, rest, cuts, -, renders⟩ := exists_cuts mem
    have same : t.lexeme.toList = slice := by
      cases renders with
      | last _ lexeme => rw [lexeme, String.toList_empty]
      | lexeme _ lexeme => rw [lexeme, String.toList_ofList]
      | unclosed _ error => exact absurd error kind
      | stray _ error => exact absurd error kind
    rw [← same] at cuts
    exact ⟨before, rest, cuts⟩
  error := by
    intro t mem kind
    obtain ⟨before, slice, rest, cuts, -, renders⟩ := exists_cuts mem
    refine ⟨before, slice, rest, cuts, ?_⟩
    cases renders with
    | last last =>
        rw [last] at kind
        cases kind
    | lexeme front => exact absurd kind front.kind_ne.2
    | @unclosed body inside _ lexeme =>
        refine .inr ⟨lexeme, rfl, body, rfl, fun mem => ?_⟩
        simpa using inside _ mem
    | @stray c _ _ _ lexeme => exact .inl ⟨c, rfl, lexeme⟩
  between := by
    intro ts t us read
    obtain ⟨before, gap, slice, rest, whole, ends, stands, -⟩ := stands_of_scan read
    exact ⟨before, gap, slice ++ rest, stands.cuts_gap whole ends, stands.skipped⟩
  line := by
    intro t mem
    obtain ⟨before, slice, rest, cuts, line, -⟩ := exists_cuts mem
    exact ⟨before, slice, rest, cuts, line⟩

end Token
end StackScript
