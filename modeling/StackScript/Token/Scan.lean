import StackScript.Source.Span
import StackScript.Token.Kind

/-!
# Splitting a source text into tokens

At each place the scanner takes the longest piece that some pattern matches: a
run of blanks, a comment, a word, a number, a string or an operator.  Blanks and
comments are dropped, and every other piece becomes a token.  A character that
begins no pattern becomes an error token of its own, and so does a string that
is never closed.  The last token marks the end of the source.

`scan` is a left fold over these pieces: each step leaves a shorter text, which
is why the scan ends.
-/

namespace StackScript

/-- One token.  An error token carries its message in place of a lexeme. -/
structure Token where
  kind : TokenKind
  lexeme : String
  /-- Line on which the token begins, counted from one. -/
  line : Nat
  span : Span
deriving DecidableEq, Repr

namespace Token

/-- Space, tab, carriage return, line feed and form feed. -/
def isBlank (c : Char) : Bool :=
  c = ' ' || c = '\t' || c = '\r' || c = '\n' || c = '\x0c'

/-- A character that may begin a word: an ASCII letter or an underscore. -/
def isWordStart (c : Char) : Bool := c.isAlpha || c = '_'

/-- A character that may continue a word. -/
def isWordPart (c : Char) : Bool := isWordStart c || c.isDigit

/-- What the front piece of a text is. -/
inductive PieceClass where
  | blank
  | lexeme (kind : TokenKind)
  | unclosedString
  | stray (c : Char)
deriving DecidableEq, Repr

/-- The front piece of a text, and the text after it. -/
structure Piece where
  cls : PieceClass
  taken : List Char
  rest : List Char
deriving DecidableEq, Repr

/-- A piece that begins with the given characters and goes on as long as `more`
holds. -/
def Piece.run (cls : PieceClass) (front : List Char) (more : Char → Bool)
    (after : List Char) : Piece :=
  ⟨cls, front ++ after.takeWhile more, after.dropWhile more⟩

/-- A word, which is a keyword or an identifier. -/
def wordPiece (c : Char) (after : List Char) : Piece :=
  let word := c :: after.takeWhile isWordPart
  ⟨.lexeme (.ofWord (String.ofList word)), word, after.dropWhile isWordPart⟩

/-- A number: digits, and a fraction if a point is followed by a digit. -/
def numberPiece (c : Char) (after : List Char) : Piece :=
  let whole := c :: after.takeWhile Char.isDigit
  match after.dropWhile Char.isDigit with
  | '.' :: d :: rest =>
    if d.isDigit then .run (.lexeme .number) (whole ++ ['.', d]) Char.isDigit rest
    else ⟨.lexeme .number, whole, '.' :: d :: rest⟩
  | rest => ⟨.lexeme .number, whole, rest⟩

/-- A string up to the next quote, or everything left when there is none. -/
def stringPiece (after : List Char) : Piece :=
  let body := after.takeWhile (· != '"')
  match after.dropWhile (· != '"') with
  | [] => ⟨.unclosedString, '"' :: body, []⟩
  | quote :: rest => ⟨.lexeme .string, '"' :: (body ++ [quote]), rest⟩

/-- An operator or punctuation mark of one character, or a stray character. -/
def markPiece (c : Char) (after : List Char) : Piece :=
  match TokenKind.ofCharacter c with
  | some kind => ⟨.lexeme kind, [c], after⟩
  | none => ⟨.stray c, [c], after⟩

/-- A comment, an operator of two characters, or a single mark. -/
def operatorPiece (c : Char) : List Char → Piece
  | [] => markPiece c []
  | d :: rest =>
    if c = '/' && d = '/' then .run .blank ['/', '/'] (· != '\n') rest
    else
      match TokenKind.ofPair c d with
      | some kind => ⟨.lexeme kind, [c, d], rest⟩
      | none => markPiece c (d :: rest)

/-- The front piece of a text that begins with `c`. -/
def frontPiece (c : Char) (after : List Char) : Piece :=
  if isBlank c then .run .blank [c] isBlank after
  else if isWordStart c then wordPiece c after
  else if c.isDigit then numberPiece c after
  else if c = '"' then stringPiece after
  else operatorPiece c after

theorem length_dropWhile_le (p : Char → Bool) (text : List Char) :
    (text.dropWhile p).length ≤ text.length :=
  (List.dropWhile_sublist p).length_le

/-- Every piece takes at least one character. -/
theorem length_rest_frontPiece (c : Char) (after : List Char) :
    (frontPiece c after).rest.length ≤ after.length := by
  have drop := length_dropWhile_le
  unfold frontPiece
  split
  · exact drop _ _
  split
  · exact drop _ _
  split
  · have digits := drop Char.isDigit after
    unfold numberPiece
    split
    · rename_i d rest cut
      simp only [cut, List.length_cons] at digits
      split
      · have fraction := drop Char.isDigit rest
        simp only [Piece.run]
        omega
      · simpa using digits
    · exact digits
  split
  · have body := drop (· != '"') after
    unfold stringPiece
    split
    · simp
    · rename_i quote rest cut
      simp only [cut, List.length_cons] at body
      simp only
      omega
  · have mark : ∀ text, (markPiece c text).rest.length ≤ text.length := by
      intro text
      unfold markPiece
      split <;> simp
    cases after with
    | nil => exact mark []
    | cons d rest =>
      simp only [operatorPiece, List.length_cons]
      split
      · have comment := drop (· != '\n') rest
        simp only [Piece.run]
        omega
      split
      · simp
      · exact mark (d :: rest)

/-- Number of bytes that characters take in UTF-8. -/
def byteLength (text : List Char) : Nat :=
  text.foldl (fun total c => total + c.utf8Size) 0

/-- The token for a piece that begins at `line` and covers `span`; none for
blanks. -/
def ofPiece (piece : Piece) (line : Nat) (span : Span) : Option Token :=
  match piece.cls with
  | .blank => none
  | .lexeme kind => some ⟨kind, String.ofList piece.taken, line, span⟩
  | .unclosedString => some ⟨.error, "unterminated string", line, span⟩
  | .stray c => some ⟨.error, "unexpected character '" ++ c.toString ++ "'", line, span⟩

/-- Reads on at byte `offset` on the given line, after the tokens `done`. -/
def collect (text : List Char) (offset line : Nat) (done : Array Token) : Array Token :=
  match text with
  | [] => done.push ⟨.eof, "", line, ⟨offset, offset⟩⟩
  | c :: after =>
    let piece := frontPiece c after
    let stop := offset + byteLength piece.taken
    let done :=
      match ofPiece piece line ⟨offset, stop⟩ with
      | none => done
      | some token => done.push token
    collect piece.rest stop (line + piece.taken.count '\n') done
termination_by text.length
decreasing_by
  have := length_rest_frontPiece c after
  simp only [List.length_cons]
  omega

/-- All tokens of a source text, the end marker last. -/
def scan (source : String) : List Token :=
  (collect source.toList 0 1 #[]).toList

end Token
end StackScript
