import StackScript.Proofs.Token.Reading

/-!
# Scanning a text in two parts

No token but a string goes on behind the end of its line.  So where a text without error tokens
is followed by a line feed and more text, the tokens are those of both texts, the later ones only
further on (`scan_joined`).
-/

namespace StackScript
namespace Token

/-! ## Pieces before a line feed -/

/-- The piece, where more text follows. -/
def Piece.extend (piece : Piece) (more : List Char) : Piece := { piece with rest := piece.rest ++ more }

/-- The front piece is the same where a line feed follows, unless it is a blank or a string that
is not closed. -/
theorem frontPiece_line {c : Char} {text : List Char} (solid : isBlank c = false)
    (closed : (frontPiece c text).cls ≠ .unclosedString) (more : List Char) :
    frontPiece c (text ++ '\n' :: more) = (frontPiece c text).extend ('\n' :: more) := by
  have front := front_frontPiece c text
  refine (eq_frontPiece ?_).symm
  generalize frontPiece c text = piece at front closed ⊢
  obtain ⟨cls, taken, rest⟩ := piece
  cases cls with
  | lexeme kind => exact front.followed (by decide) more
  | unclosedString => exact absurd rfl closed
  | stray d =>
      cases front with
      | stray blank word digit quote unknown => exact .stray blank word digit quote unknown
  | blank =>
      cases front with
      | blank first =>
          rw [solid] at first
          cases first
      | comment inside stops =>
          -- the line feed ends the comment as well
          have ended := stops_append (p := (· != '\n')) (c := '\n') (by decide) stops more
          simpa [Piece.extend] using Front.comment inside ended

/-! ## Whole texts -/

/-- A text without errors before a line feed is read as it is alone. -/
theorem reading_line (more : List Char) (text : List Char) (offset line : Nat)
    (fine : ∀ t ∈ reading text offset line, t.kind ≠ .error) :
    ∃ ts e, reading text offset line = ts ++ [e] ∧
      reading (text ++ '\n' :: more) offset line =
        ts ++ reading ('\n' :: more) (offset + byteLength text) (line + text.count '\n') := by
  induction text using piece_induction generalizing offset line with
  | nil => exact ⟨[], _, reading_nil offset line, rfl⟩
  | blank c after blank ih =>
      rw [reading_blank blank] at fine ⊢
      obtain ⟨ts, e, alone, joined⟩ := ih _ _ fine
      refine ⟨ts, e, alone, ?_⟩
      have lines : (c :: after).count '\n' = [c].count '\n' + after.count '\n' :=
        @List.count_append _ _ '\n' [c] after
      rw [List.cons_append, reading_blank blank, joined, byteLength_cons, lines, Nat.add_assoc,
        Nat.add_assoc]
  | solid c after solid ih =>
      rw [reading_cons] at fine ⊢
      rw [List.forall_mem_append] at fine
      have closed : (frontPiece c after).cls ≠ .unclosedString := by
        intro unclosed
        have first := fine.1
        simp [ofPiece, unclosed] at first
      obtain ⟨ts, e, alone, joined⟩ := ih _ _ fine.2
      refine ⟨(ofPiece (frontPiece c after) line
        ⟨offset, offset + byteLength (frontPiece c after).taken⟩).toList ++ ts, e, ?_, ?_⟩
      · rw [alone, List.append_assoc]
      · have covers := (front_frontPiece c after).covers
        rw [List.cons_append, reading_cons, frontPiece_line solid closed]
        simp only [Piece.extend]
        rw [joined, ← covers]
        simp [ofPiece, Nat.add_assoc]

/-- The tokens of two texts with a line feed between them. -/
theorem scan_joined {source : String} (more : String)
    (fine : ∀ t ∈ scan source, t.kind ≠ .error) : ∃ ts e bytes lines, scan source = ts ++ [e] ∧
      scan (source ++ "\n" ++ more) = ts ++ (scan more).map (later bytes lines) := by
  obtain ⟨ts, e, alone, joined⟩ := reading_line more.toList source.toList 0 1 fine
  refine ⟨ts, e, byteLength source.toList + '\n'.utf8Size,
    source.toList.count '\n' + ['\n'].count '\n', alone, ?_⟩
  have text : (source ++ "\n" ++ more).toList = source.toList ++ '\n' :: more.toList := by simp
  have there : scan (source ++ "\n" ++ more) =
      reading (source.toList ++ '\n' :: more.toList) 0 1 := by
    rw [scan, text]
    rfl
  rw [there, joined, reading_blank (by decide), Nat.add_assoc, Nat.add_assoc, reading_later]
  rfl

end Token
end StackScript
