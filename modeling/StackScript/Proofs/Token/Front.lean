import StackScript.Proofs.Text.Run
import StackScript.Token.Scan

/-!
# The front piece of a text

`Front` says which piece stands at the front of a text by what the piece consists of and by
what may not follow it, and not by how it is looked for.  Every text that is not empty has
exactly one front piece, the one that the scanner takes (`front_iff`).
-/

namespace StackScript
namespace Token

/-! ## Front pieces -/

/-- No quote stands in a text. -/
def Unquoted (text : List Char) : Prop := ∀ c ∈ text, (c != '"') = true

/-- Behind a number there is neither a digit nor a point with a digit. -/
def EndsNumber (rest : List Char) : Prop :=
  (∀ c ∈ rest.head?, c.isDigit = false) ∧ ∀ d tail, rest = '.' :: d :: tail → d.isDigit = false

/-- Behind a mark there is nothing that makes it a pair or a comment. -/
def EndsMark (c : Char) (rest : List Char) : Prop :=
  ∀ d ∈ rest.head?, TokenKind.ofPair c d = none ∧ ¬ (c = '/' ∧ d = '/')

/-- A piece stands at the front of a text. -/
inductive Front : List Char → Piece → Prop where
  | blank {c : Char} {body rest : List Char} (first : isBlank c = true)
      (inside : ∀ d ∈ body, isBlank d = true) (stops : ∀ d ∈ rest.head?, isBlank d = false) :
      Front (c :: (body ++ rest)) ⟨.blank, c :: body, rest⟩
  | comment {body rest : List Char} (inside : ∀ d ∈ body, (d != '\n') = true)
      (stops : ∀ d ∈ rest.head?, (d != '\n') = false) :
      Front ('/' :: '/' :: (body ++ rest)) ⟨.blank, '/' :: '/' :: body, rest⟩
  | word {c : Char} {body rest : List Char} (first : isWordStart c = true)
      (inside : ∀ d ∈ body, isWordPart d = true) (stops : ∀ d ∈ rest.head?, isWordPart d = false) :
      Front (c :: (body ++ rest))
        ⟨.lexeme (.ofWord (String.ofList (c :: body))), c :: body, rest⟩
  | whole {c : Char} {body rest : List Char} (first : c.isDigit = true)
      (inside : ∀ d ∈ body, d.isDigit = true) (stops : EndsNumber rest) :
      Front (c :: (body ++ rest)) ⟨.lexeme .number, c :: body, rest⟩
  | fraction {c d : Char} {body more rest : List Char} (first : c.isDigit = true)
      (inside : ∀ e ∈ body, e.isDigit = true) (point : d.isDigit = true)
      (inside' : ∀ e ∈ more, e.isDigit = true) (stops : ∀ e ∈ rest.head?, e.isDigit = false) :
      Front (c :: (body ++ '.' :: d :: (more ++ rest)))
        ⟨.lexeme .number, c :: (body ++ '.' :: d :: more), rest⟩
  | closed {body rest : List Char} (inside : Unquoted body) :
      Front ('"' :: (body ++ '"' :: rest)) ⟨.lexeme .string, '"' :: (body ++ ['"']), rest⟩
  | unclosed {body : List Char} (inside : Unquoted body) :
      Front ('"' :: body) ⟨.unclosedString, '"' :: body, []⟩
  | pair {c d : Char} {rest : List Char} {kind : TokenKind} (known : TokenKind.ofPair c d = some kind) :
      Front (c :: d :: rest) ⟨.lexeme kind, [c, d], rest⟩
  | mark {c : Char} {rest : List Char} {kind : TokenKind}
      (known : TokenKind.ofCharacter c = some kind) (stops : EndsMark c rest) :
      Front (c :: rest) ⟨.lexeme kind, [c], rest⟩
  | stray {c : Char} {rest : List Char} (blank : isBlank c = false) (word : isWordStart c = false)
      (digit : c.isDigit = false) (quote : c ≠ '"') (unknown : TokenKind.ofCharacter c = none) :
      Front (c :: rest) ⟨.stray c, [c], rest⟩

/-! ## What the scanner takes is the front piece -/

/-- The first characters of marks begin nothing else. -/
theorem of_ofCharacter {c : Char} {kind : TokenKind} (known : TokenKind.ofCharacter c = some kind) :
    isBlank c = false ∧ isWordStart c = false ∧ c.isDigit = false ∧ c ≠ '"' := by
  unfold TokenKind.ofCharacter at known
  split at known <;> first | decide | cases known

/-- A pair begins with a mark, and is no comment. -/
theorem of_ofPair {c d : Char} {kind : TokenKind} (known : TokenKind.ofPair c d = some kind) :
    (∃ kind, TokenKind.ofCharacter c = some kind) ∧ ¬ (c = '/' ∧ d = '/') := by
  unfold TokenKind.ofPair at known
  split at known
  all_goals first | exact ⟨⟨_, rfl⟩, by decide⟩ | cases known

theorem front_word {c : Char} (first : isWordStart c = true) (after : List Char) :
    Front (c :: after) (wordPiece c after) := by
  obtain ⟨body, rest, rfl, inside, stops⟩ := exists_run isWordPart after
  unfold wordPiece
  rw [takeWhile_run inside stops, dropWhile_run inside stops]
  exact .word first inside stops

theorem front_number {c : Char} (first : c.isDigit = true) (after : List Char) :
    Front (c :: after) (numberPiece c after) := by
  obtain ⟨body, rest, rfl, inside, stops⟩ := exists_run Char.isDigit after
  unfold numberPiece
  rw [takeWhile_run inside stops, dropWhile_run inside stops]
  dsimp only
  split
  · rename_i d rest
    -- a point belongs to the number only if a digit stands behind it
    split
    · rename_i point
      obtain ⟨more, rest, rfl, inside', stops'⟩ := exists_run Char.isDigit rest
      unfold Piece.run
      rw [takeWhile_run inside' stops', dropWhile_run inside' stops']
      simpa using Front.fraction first inside point inside' stops'
    · rename_i noDigit
      refine .whole first inside ⟨stops, ?_⟩
      intro e tail same
      cases same
      simpa using noDigit
  · rename_i noFraction
    exact .whole first inside ⟨stops, fun d tail same => absurd same (noFraction d tail)⟩

theorem front_string (after : List Char) : Front ('"' :: after) (stringPiece after) := by
  obtain ⟨body, rest, rfl, inside, stops⟩ := exists_run (· != '"') after
  unfold stringPiece
  rw [takeWhile_run inside stops, dropWhile_run inside stops]
  cases rest with
  | nil =>
      rw [List.append_nil]
      exact .unclosed inside
  | cons quote rest =>
      obtain rfl : quote = '"' := by simpa using stops quote rfl
      exact .closed inside

theorem front_mark {c : Char} {rest : List Char} (blank : isBlank c = false)
    (word : isWordStart c = false) (digit : c.isDigit = false) (quote : c ≠ '"')
    (stops : EndsMark c rest) : Front (c :: rest) (markPiece c rest) := by
  unfold markPiece
  cases known : TokenKind.ofCharacter c with
  | none => exact .stray blank word digit quote known
  | some kind => exact .mark known stops

theorem front_operator {c : Char} (after : List Char) (blank : isBlank c = false)
    (word : isWordStart c = false) (digit : c.isDigit = false) (quote : c ≠ '"') :
    Front (c :: after) (operatorPiece c after) := by
  cases after with
  | nil => exact front_mark blank word digit quote (by simp [EndsMark])
  | cons d rest =>
      simp only [operatorPiece]
      split
      · rename_i comment
        simp only [Bool.and_eq_true, decide_eq_true_eq] at comment
        obtain ⟨rfl, rfl⟩ := comment
        obtain ⟨body, rest, rfl, inside, stops⟩ := exists_run (· != '\n') rest
        unfold Piece.run
        rw [takeWhile_run inside stops, dropWhile_run inside stops]
        exact .comment inside stops
      · rename_i noComment
        cases known : TokenKind.ofPair c d with
        | some kind => exact .pair known
        | none =>
            refine front_mark blank word digit quote ?_
            intro e mem
            cases mem
            exact ⟨known, by simpa using noComment⟩

/-- The scanner takes the front piece. -/
theorem front_frontPiece (c : Char) (after : List Char) : Front (c :: after) (frontPiece c after) := by
  unfold frontPiece
  split
  · rename_i blank
    obtain ⟨body, rest, rfl, inside, stops⟩ := exists_run isBlank after
    unfold Piece.run
    rw [takeWhile_run inside stops, dropWhile_run inside stops]
    exact .blank blank inside stops
  split
  · rename_i word
    exact front_word word after
  split
  · rename_i digit
    exact front_number digit after
  split
  · rename_i quote
    subst quote
    exact front_string after
  · rename_i blank word digit quote
    exact front_operator after (Bool.eq_false_iff.mpr blank) (Bool.eq_false_iff.mpr word)
      (Bool.eq_false_iff.mpr digit) quote

theorem Front.taken_ne_nil {text : List Char} {piece : Piece} (front : Front text piece) :
    piece.taken ≠ [] := by
  cases front <;> exact List.cons_ne_nil _ _

/-- Nothing of the text is lost. -/
theorem Front.covers {text : List Char} {piece : Piece} (front : Front text piece) :
    piece.taken ++ piece.rest = text := by
  cases front <;> simp

/-! ## Kinds of pieces -/

theorem ofWord_kind (word : String) :
    TokenKind.ofWord word ∉ [.eof, .error, .number] := by
  have known : TokenKind.ofWord word ∈ TokenKind.identifier :: TokenKind.keywords.map Prod.snd := by
    unfold TokenKind.ofWord
    cases found : TokenKind.keywords.lookup word with
    | none => exact List.mem_cons_self ..
    | some kind =>
        obtain ⟨front, back, same, -⟩ := List.lookup_eq_some_iff.mp found
        refine List.mem_cons_of_mem _ (List.mem_map.mpr ⟨(word, kind), ?_, rfl⟩)
        rw [same]
        simp
  generalize TokenKind.ofWord word = kind at known
  revert kind
  decide

theorem ofCharacter_kind {c : Char} {kind : TokenKind} (known : TokenKind.ofCharacter c = some kind) :
    kind ∉ [.eof, .error, .number] := by
  unfold TokenKind.ofCharacter at known
  split at known <;> cases known <;> decide

theorem ofPair_kind {c d : Char} {kind : TokenKind} (known : TokenKind.ofPair c d = some kind) :
    kind ∉ [.eof, .error, .number] := by
  unfold TokenKind.ofPair at known
  split at known <;> cases known <;> decide

/-- No piece is an end marker or an error by itself. -/
theorem Front.kind_ne {text slice rest : List Char} {kind : TokenKind}
    (front : Front text ⟨.lexeme kind, slice, rest⟩) : kind ≠ .eof ∧ kind ≠ .error := by
  have other {kind : TokenKind} (none : kind ∉ [.eof, .error, .number]) :
      kind ≠ .eof ∧ kind ≠ .error := by
    simp only [List.mem_cons, not_or] at none
    exact ⟨none.1, none.2.1⟩
  cases front with
  | word => exact other (ofWord_kind _)
  | whole | fraction | closed => decide
  | pair known => exact other (ofPair_kind known)
  | mark known => exact other (ofCharacter_kind known)

/-! ## There is no other front piece -/

theorem of_isWordStart {c : Char} (word : isWordStart c = true) : isBlank c = false := by
  refine Bool.eq_false_iff.mpr fun blank => ?_
  simp only [isBlank, Bool.or_eq_true, decide_eq_true_eq] at blank
  obtain (((rfl | rfl) | rfl) | rfl) | rfl := blank
  all_goals cases word

theorem of_isDigit {c : Char} (digit : c.isDigit = true) :
    isBlank c = false ∧ isWordStart c = false := by
  constructor
  · refine Bool.eq_false_iff.mpr fun blank => ?_
    simp only [isBlank, Bool.or_eq_true, decide_eq_true_eq] at blank
    obtain (((rfl | rfl) | rfl) | rfl) | rfl := blank
    all_goals cases digit
  · -- the letters lie above the digits
    refine Bool.eq_false_iff.mpr fun word => ?_
    simp only [isWordStart, Char.isAlpha, Char.isUpper, Char.isLower, Char.isDigit, Bool.or_eq_true,
      Bool.and_eq_true, decide_eq_true_eq, ge_iff_le, UInt32.le_iff_toNat_le] at word digit
    obtain (⟨low, -⟩ | ⟨low, -⟩) | rfl := word
    · have := low.trans digit.2
      revert this
      decide
    · have := low.trans digit.2
      revert this
      decide
    · revert digit
      decide

theorem numberPiece_eq {c : Char} {body rest : List Char} (inside : ∀ d ∈ body, d.isDigit = true)
    (stops : EndsNumber rest) : numberPiece c (body ++ rest) = ⟨.lexeme .number, c :: body, rest⟩ := by
  unfold numberPiece
  rw [takeWhile_run inside stops.1, dropWhile_run inside stops.1]
  dsimp only
  split
  · rename_i d tail
    rw [if_neg (by simp [stops.2 d tail rfl])]
  · rfl

theorem numberPiece_fraction {c d : Char} {body more rest : List Char}
    (inside : ∀ e ∈ body, e.isDigit = true) (point : d.isDigit = true)
    (inside' : ∀ e ∈ more, e.isDigit = true) (stops : ∀ e ∈ rest.head?, e.isDigit = false) :
    numberPiece c (body ++ '.' :: d :: (more ++ rest)) =
      ⟨.lexeme .number, c :: (body ++ '.' :: d :: more), rest⟩ := by
  have ends : ∀ e ∈ ('.' :: d :: (more ++ rest)).head?, e.isDigit = false := by
    intro e mem
    cases mem
    rfl
  unfold numberPiece
  rw [takeWhile_run inside ends, dropWhile_run inside ends]
  simp only [if_pos point, Piece.run]
  rw [takeWhile_run inside' stops, dropWhile_run inside' stops]
  simp

theorem stringPiece_closed {body : List Char} (inside : Unquoted body) (rest : List Char) :
    stringPiece (body ++ '"' :: rest) = ⟨.lexeme .string, '"' :: (body ++ ['"']), rest⟩ := by
  have ends : ∀ c ∈ ('"' :: rest).head?, (c != '"') = false := by
    intro c mem
    cases mem
    rfl
  unfold stringPiece
  rw [takeWhile_run inside ends, dropWhile_run inside ends]

theorem stringPiece_unclosed {body : List Char} (inside : Unquoted body) :
    stringPiece body = ⟨.unclosedString, '"' :: body, []⟩ := by
  unfold stringPiece
  rw [List.takeWhile_eq_self_iff.mpr inside, List.dropWhile_eq_nil_iff.mpr inside]

theorem frontPiece_operator {c : Char} (blank : isBlank c = false) (word : isWordStart c = false)
    (digit : c.isDigit = false) (quote : c ≠ '"') (after : List Char) :
    frontPiece c after = operatorPiece c after := by
  simp [frontPiece, blank, word, digit, quote]

theorem operatorPiece_mark {c : Char} {rest : List Char} (stops : EndsMark c rest) :
    operatorPiece c rest = markPiece c rest := by
  cases rest with
  | nil => rfl
  | cons d rest =>
      obtain ⟨single, noComment⟩ := stops d rfl
      simp only [operatorPiece, single]
      rw [if_neg (by simpa using noComment)]

theorem eq_frontPiece {c : Char} {after : List Char} {piece : Piece}
    (front : Front (c :: after) piece) : piece = frontPiece c after := by
  cases front with
  | blank first inside stops =>
      rw [frontPiece, if_pos first, Piece.run, takeWhile_run inside stops, dropWhile_run inside stops]
      rfl
  | comment inside stops =>
      rw [frontPiece_operator (by decide) (by decide) (by decide) (by decide)]
      simp only [operatorPiece]
      rw [if_pos (by decide), Piece.run, takeWhile_run inside stops, dropWhile_run inside stops]
      rfl
  | word first inside stops =>
      rw [frontPiece, if_neg (by simp [of_isWordStart first]), if_pos first, wordPiece,
        takeWhile_run inside stops, dropWhile_run inside stops]
  | whole first inside stops =>
      rw [frontPiece, if_neg (by simp [of_isDigit first]), if_neg (by simp [of_isDigit first]),
        if_pos first, numberPiece_eq inside stops]
  | fraction first inside point inside' stops =>
      rw [frontPiece, if_neg (by simp [of_isDigit first]), if_neg (by simp [of_isDigit first]),
        if_pos first, numberPiece_fraction inside point inside' stops]
  | closed inside => exact (stringPiece_closed inside _).symm
  | unclosed inside => exact (stringPiece_unclosed inside).symm
  | pair known =>
      obtain ⟨⟨kind, begins⟩, noComment⟩ := of_ofPair known
      obtain ⟨blank, word, digit, quote⟩ := of_ofCharacter begins
      rw [frontPiece_operator blank word digit quote]
      simp only [operatorPiece, known]
      rw [if_neg (by simpa using noComment)]
  | mark known stops =>
      obtain ⟨blank, word, digit, quote⟩ := of_ofCharacter known
      rw [frontPiece_operator blank word digit quote, operatorPiece_mark stops]
      simp only [markPiece, known]
  | stray blank word digit quote unknown =>
      -- what is no mark begins no pair either, so nothing behind it matters
      have stops : EndsMark c after := by
        intro d mem
        constructor
        · cases known : TokenKind.ofPair c d with
          | none => rfl
          | some kind =>
              obtain ⟨⟨kind', begins⟩, -⟩ := of_ofPair known
              rw [unknown] at begins
              cases begins
        · rintro ⟨rfl, -⟩
          cases unknown
      rw [frontPiece_operator blank word digit quote, operatorPiece_mark stops]
      simp only [markPiece, unknown]

/-- The front piece of a text is the one that the scanner takes. -/
theorem front_iff {c : Char} {after : List Char} {piece : Piece} :
    Front (c :: after) piece ↔ piece = frontPiece c after := by
  constructor
  · exact eq_frontPiece
  · rintro rfl
    exact front_frontPiece c after

/-! ## What a blank ends -/

/-- A run that stops, or ends with the text, stops before a character that ends it. -/
theorem stops_append {p : Char → Bool} {c : Char} {rest : List Char} (ends : p c = false)
    (stops : ∀ d ∈ rest.head?, p d = false) (more : List Char) :
    ∀ d ∈ (rest ++ c :: more).head?, p d = false := by
  cases rest with
  | nil =>
      rintro d ⟨⟩
      exact ends
  | cons e rest => exact stops

section

variable {c : Char} (blank : isBlank c = true)

include blank

/-- A blank is part of no other token than a string. -/
theorem of_isBlank : isWordPart c = false ∧ c.isDigit = false ∧ c ≠ '.' ∧ c ≠ '/' := by
  have digit : c.isDigit = false := by
    refine Bool.eq_false_iff.mpr fun digit => ?_
    rw [(of_isDigit digit).1] at blank
    cases blank
  refine ⟨?_, digit, ?_, ?_⟩
  · refine Bool.eq_false_iff.mpr fun word => ?_
    rw [isWordPart, digit, Bool.or_false] at word
    rw [of_isWordStart word] at blank
    cases blank
  · rintro rfl
    cases blank
  · rintro rfl
    cases blank

/-- A blank is no second half of a mark. -/
theorem ofPair_blank (d : Char) : TokenKind.ofPair d c = none := by
  unfold TokenKind.ofPair
  split
  all_goals first | rfl | cases blank

theorem EndsNumber.followed {rest : List Char} (h : EndsNumber rest) (more : List Char) :
    EndsNumber (rest ++ c :: more) := by
  obtain ⟨-, digit, point, -⟩ := of_isBlank blank
  constructor
  · exact stops_append digit h.1 more
  · intro d tail same
    match rest with
    | [] =>
        injection same with same
        exact absurd same point
    | [e] =>
        -- a point at the end of the text has the blank behind it
        injection same with _ same
        injection same with same
        rw [← same]
        exact digit
    | e :: f :: rest =>
        injection same with first same
        injection same with second same
        exact h.2 d rest (by rw [first, second])

theorem EndsMark.followed {d : Char} {rest : List Char} (h : EndsMark d rest) (more : List Char) :
    EndsMark d (rest ++ c :: more) := by
  obtain ⟨-, -, -, slash⟩ := of_isBlank blank
  cases rest with
  | nil =>
      rintro e ⟨⟩
      exact ⟨ofPair_blank blank d, fun comment => slash comment.2⟩
  | cons e rest => exact h

/-- A piece that makes a token stays the same where more text follows behind a blank. -/
theorem Front.followed {text slice rest : List Char} {kind : TokenKind}
    (front : Front text ⟨.lexeme kind, slice, rest⟩) (more : List Char) :
    Front (text ++ c :: more) ⟨.lexeme kind, slice, rest ++ c :: more⟩ := by
  obtain ⟨word, digit, -⟩ := of_isBlank blank
  cases front with
  | word first inside stops =>
      rw [List.cons_append, List.append_assoc]
      exact .word first inside (stops_append word stops more)
  | whole first inside stops =>
      rw [List.cons_append, List.append_assoc]
      exact .whole first inside (stops.followed blank more)
  | fraction first inside point inside' stops =>
      simp only [List.cons_append, List.append_assoc]
      exact .fraction first inside point inside' (stops_append digit stops more)
  | closed inside =>
      simp only [List.cons_append, List.append_assoc]
      exact .closed inside
  | pair known => exact .pair known
  | mark known stops => exact .mark known (stops.followed blank more)

end

end Token
end StackScript
