import StackScript.Proofs.Parsing.Alike
import StackScript.Proofs.Token.Tiling

/-!
# Scanning lexemes again

A token that is no error is the same token as a text of its own (`Front.alone`), and a blank
behind it ends it there: no word or number goes on, and no two marks become one.  So the
lexemes of a text without error tokens, with a space between each two of them, are read as the
same tokens again (`scan_respaced`).
-/

namespace StackScript
namespace Token

/-- A piece that makes a token is a text of its own. -/
theorem Front.alone {text slice rest : List Char} {kind : TokenKind}
    (front : Front text ⟨.lexeme kind, slice, rest⟩) : Front slice ⟨.lexeme kind, slice, []⟩ := by
  have nothing {p : Char → Bool} : ∀ d ∈ ([] : List Char).head?, p d = false := by
    rintro d ⟨⟩
  cases front with
  | @word c body _ first inside =>
      have piece := @Front.word c body [] first inside nothing
      rwa [List.append_nil] at piece
  | @whole c body _ first inside =>
      have piece := @Front.whole c body [] first inside ⟨nothing, by rintro d tail ⟨⟩⟩
      rwa [List.append_nil] at piece
  | @fraction c d body more _ first inside point inside' =>
      have piece := @Front.fraction c d body more [] first inside point inside' nothing
      rwa [List.append_nil] at piece
  | closed inside => exact .closed inside
  | pair known => exact .pair known
  | mark known => exact .mark known (by rintro d ⟨⟩)

/-! ## Reading the tokens again -/

/-- Where a text stands in another changes nothing in its tokens but their places. -/
theorem words_reading (text : List Char) (offset line : Nat) :
    (reading text offset line).map word = (reading text 0 0).map word := by
  have further := reading_later offset line text 0 0
  rw [Nat.zero_add, Nat.zero_add] at further
  rw [further, List.map_map]
  rfl

/-- A piece before a blank is read as a token. -/
theorem words_spaced {c : Char} (blank : isBlank c = true) {slice : List Char} {kind : TokenKind}
    (front : Front slice ⟨.lexeme kind, slice, []⟩) (more : List Char) :
    (reading (slice ++ c :: more) 0 0).map word =
      (kind, String.ofList slice) :: (reading more 0 0).map word := by
  have piece : Front (slice ++ c :: more) ⟨.lexeme kind, slice, c :: more⟩ :=
    front.followed blank more
  obtain ⟨d, slice, rfl⟩ := List.exists_cons_of_ne_nil front.taken_ne_nil
  rw [List.cons_append] at piece ⊢
  rw [reading_cons, ← eq_frontPiece piece, List.map_append, reading_blank blank, words_reading]
  rfl

/-- A token whose lexeme is that token as a text of its own. -/
def Spelled (t : Token) : Prop := Front t.lexeme.toList ⟨.lexeme t.kind, t.lexeme.toList, []⟩

theorem Renders.spelled {t : Token} {slice rest : List Char} (renders : t.Renders slice rest)
    (last : t.kind ≠ .eof) (fine : t.kind ≠ .error) : t.Spelled := by
  cases renders with
  | last kind => exact absurd kind last
  | lexeme front lexeme =>
      rw [Spelled, lexeme, String.toList_ofList]
      exact front.alone
  | unclosed _ kind => exact absurd kind fine
  | stray _ kind => exact absurd kind fine

/-- Tokens of any texts, written with a space behind each of them, are read again. -/
theorem words_joined (ts : List Token) (spelled : ∀ t ∈ ts, t.Spelled) :
    (reading (List.intercalate [' '] (ts.map (·.lexeme.toList) ++ [[]])) 0 0).map word =
      ts.map word ++ [(.eof, "")] := by
  induction ts with
  | nil => rw [List.map_nil, List.nil_append, List.intercalate_singleton, reading_nil]; rfl
  | cons t ts ih =>
      obtain ⟨front, others⟩ := List.forall_mem_cons.mp spelled
      -- the list that is left is not empty, so a space comes first
      have spaced : List.intercalate [' '] ((t :: ts).map (·.lexeme.toList) ++ [[]]) =
          t.lexeme.toList ++ ' ' :: List.intercalate [' '] (ts.map (·.lexeme.toList) ++ [[]]) := by
        rw [List.map_cons, List.cons_append, List.intercalate_cons_of_ne_nil (by simp)]
        simp
      rw [spaced, words_spaced (by decide) front, ih others, String.ofList_toList]
      rfl

/-- The lexemes of a text without error tokens, with single spaces between them, are the
lexemes of the same kinds of tokens. -/
theorem scan_respaced {source : String} (fine : ∀ t ∈ scan source, t.kind ≠ .error) :
    (scan (" ".intercalate ((scan source).map lexeme))).map word = (scan source).map word := by
  have laid : Laid [] source.toList (scan source) := laid_reading [] source.toList
  obtain ⟨ts, line, read, others⟩ := laid.ended
  have spelled : ∀ t ∈ ts, t.Spelled := by
    intro t mem
    have there : t ∈ scan source := by
      rw [read]
      exact List.mem_append_left _ mem
    obtain ⟨before, slice, rest, -, -, renders⟩ := exists_cuts there
    exact renders.spelled (others t mem) (fine t there)
  have text : (" ".intercalate ((scan source).map lexeme)).toList =
      List.intercalate [' '] (ts.map (·.lexeme.toList) ++ [[]]) := by
    rw [read, String.toList_intercalate, List.map_append, List.map_append, List.map_map]
    rfl
  have again := words_joined ts spelled
  rw [← text, ← words_reading _ 0 1] at again
  have ended : (scan source).map word = ts.map word ++ [(.eof, "")] := by
    rw [read, List.map_append]
    rfl
  rw [ended, ← again]
  rfl

/-- Tokens without a space between them, a comment, and a string with two slashes in it. -/
theorem scan_respaced_sample : (∀ t ∈ scan "a<-1.5//x\n-\" //\"", t.kind ≠ .error) ∧
    (scan (" ".intercalate ((scan "a<-1.5//x\n-\" //\"").map lexeme))).map word =
      (scan "a<-1.5//x\n-\" //\"").map word := by
  have fine : ∀ t ∈ scan "a<-1.5//x\n-\" //\"", t.kind ≠ .error := by decide +kernel
  exact ⟨fine, scan_respaced fine⟩

end Token
end StackScript
