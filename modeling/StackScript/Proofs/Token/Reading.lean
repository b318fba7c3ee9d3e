import StackScript.Proofs.Token.Front

/-!
# Reading a text piece by piece

The tokens of a text are that of its front piece, if it makes one, and those of the rest
(`reading_cons`).  Blanks can be left out one at a time, and where the text stands in another
changes only the places of its tokens.
-/

namespace StackScript
namespace Token

/-! ## Bytes -/

@[simp] theorem byteLength_nil : byteLength [] = 0 := rfl

theorem byteLength_eq_sum (text : List Char) :
    byteLength text = (text.map Char.utf8Size).sum := by
  rw [byteLength, List.sum_eq_foldl, List.foldl_map]

@[simp] theorem byteLength_cons (c : Char) (text : List Char) :
    byteLength (c :: text) = c.utf8Size + byteLength text := by
  simp [byteLength_eq_sum]

@[simp] theorem byteLength_append (front back : List Char) :
    byteLength (front ++ back) = byteLength front + byteLength back := by
  simp [byteLength_eq_sum]

theorem byteLength_pos {text : List Char} (some : text ≠ []) : 0 < byteLength text := by
  obtain ⟨c, rest, rfl⟩ := List.exists_cons_of_ne_nil some
  rw [byteLength_cons]
  have := c.utf8Size_pos
  omega

/-! ## Reading piece by piece -/

/-- The token, further on in a text. -/
def later (bytes lines : Nat) (t : Token) : Token :=
  { t with line := t.line + lines, span := ⟨t.span.start + bytes, t.span.stop + bytes⟩ }

/-- The tokens of the rest of a text. -/
def reading (text : List Char) (offset line : Nat) : List Token :=
  (collect text offset line #[]).toList

theorem collect_append (text : List Char) (offset line : Nat) (before done : Array Token) :
    collect text offset line (before ++ done) = before ++ collect text offset line done := by
  fun_induction collect text offset line done with
  | case1 => rw [collect, Array.append_push]
  | case2 offset line done c after piece stop done' ih =>
      rw [collect, ← ih]
      cases found : ofPiece piece line ⟨offset, stop⟩ with
      | none => simp only [done', found, piece, stop]
      | some t => simp only [done', found, piece, stop, Array.append_push]

theorem reading_nil (offset line : Nat) :
    reading [] offset line = [⟨.eof, "", line, ⟨offset, offset⟩⟩] := by
  simp [reading, collect]

/-- The front piece is read before the rest. -/
theorem reading_cons (c : Char) (after : List Char) (offset line : Nat) :
    reading (c :: after) offset line =
      (ofPiece (frontPiece c after) line
          ⟨offset, offset + byteLength (frontPiece c after).taken⟩).toList ++
        reading (frontPiece c after).rest (offset + byteLength (frontPiece c after).taken)
          (line + (frontPiece c after).taken.count '\n') := by
  unfold reading
  rw [collect]
  cases ofPiece (frontPiece c after) line
      ⟨offset, offset + byteLength (frontPiece c after).taken⟩ with
  | none => rfl
  | some t =>
      have first := collect_append (frontPiece c after).rest
        (offset + byteLength (frontPiece c after).taken)
        (line + (frontPiece c after).taken.count '\n') #[t] #[]
      refine (congrArg Array.toList first).trans ?_
      rw [Array.toList_append]
      rfl

/-- Blanks can be left out one at a time. -/
theorem reading_blank {c : Char} (blank : isBlank c) (text : List Char) (offset line : Nat) :
    reading (c :: text) offset line =
      reading text (offset + c.utf8Size) (line + [c].count '\n') := by
  have piece (c : Char) (blank : isBlank c) (text : List Char) :
      frontPiece c text = .run .blank [c] isBlank text := by
    rw [frontPiece, if_pos blank]
  rw [reading_cons, piece c blank]
  cases text with
  | nil => simp [ofPiece, Piece.run]
  | cons d text =>
      by_cases more : isBlank d
      · rw [reading_cons, piece d more]
        simp [ofPiece, Piece.run, more, List.count_cons, Nat.add_assoc, Nat.add_comm]
      · simp [ofPiece, Piece.run, more]

/-- Induction over the pieces of a text, where blanks are left out one at a time. -/
theorem piece_induction {motive : List Char → Prop} (nil : motive [])
    (blank : ∀ c after, isBlank c = true → motive after → motive (c :: after))
    (solid : ∀ c after, isBlank c = false → motive (frontPiece c after).rest → motive (c :: after))
    (text : List Char) : motive text := by
  generalize size : text.length = n
  induction n using Nat.strong_induction_on generalizing text with
  | _ n ih =>
  cases text with
  | nil => exact nil
  | cons c after =>
      have shorter := length_rest_frontPiece c after
      rw [List.length_cons] at size
      cases white : isBlank c with
      | true => exact blank c after white (ih _ (by omega) after rfl)
      | false => exact solid c after white (ih _ (by omega) _ rfl)

theorem ofPiece_later (piece : Piece) (line : Nat) (span : Span) (bytes lines : Nat) :
    ofPiece piece (line + lines) ⟨span.start + bytes, span.stop + bytes⟩ =
      (ofPiece piece line span).map (later bytes lines) := by
  unfold ofPiece
  cases piece.cls <;> rfl

/-- Further on in a text the same tokens are read. -/
theorem reading_later (bytes lines : Nat) (text : List Char) (offset line : Nat) :
    reading text (offset + bytes) (line + lines) =
      (reading text offset line).map (later bytes lines) := by
  induction text using piece_induction generalizing offset line with
  | nil => simp [reading_nil, later]
  | blank c after blank ih =>
      rw [reading_blank blank, reading_blank blank, ← ih, Nat.add_right_comm, Nat.add_right_comm line]
  | solid c after _ ih =>
      rw [reading_cons, reading_cons, List.map_append, ← ih, Nat.add_right_comm,
        Nat.add_right_comm line, ofPiece_later _ _ ⟨offset, _⟩, Option.toList_map]

end Token
end StackScript
