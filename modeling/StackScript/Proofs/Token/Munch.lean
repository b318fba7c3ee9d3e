import StackScript.Proofs.Token.Pattern
import StackScript.Proofs.Token.Tiling

/-!
# Maximal munch

The scanner takes the longest text that a rule matches, and a rule for one fixed text wins
over the others (`scan_takes_longest`).  A character becomes an error of its own exactly when
no rule matches anything there.
-/

namespace StackScript
namespace Token

/-! ## Nothing longer matches -/

section

variable {p : Char → Bool} {front tail body rest : List Char}

/-- Of two runs at the front of a text none is longer than the one that stops. -/
theorem run_le (inside : ∀ c ∈ front, p c = true) (inside' : ∀ c ∈ body, p c = true)
    (stops : ∀ c ∈ rest.head?, p c = false) (same : front ++ tail = body ++ rest) :
    front.length ≤ body.length := by
  have taken := takeWhile_run inside' stops
  rw [← same, List.takeWhile_append_of_pos inside] at taken
  rw [← taken, List.length_append]
  exact Nat.le_add_right ..

/-- Two runs that both stop are one. -/
theorem run_eq (inside : ∀ c ∈ front, p c = true) (stops : ∀ c ∈ tail.head?, p c = false)
    (inside' : ∀ c ∈ body, p c = true) (stops' : ∀ c ∈ rest.head?, p c = false)
    (same : front ++ tail = body ++ rest) : front = body ∧ tail = rest := by
  have taken := takeWhile_run inside stops
  have left := dropWhile_run inside stops
  rw [same, takeWhile_run inside' stops'] at taken
  rw [same, dropWhile_run inside' stops'] at left
  exact ⟨taken.symm, left.symm⟩

end

/-- A point or a quote ends a run. -/
theorem stops_cons {p : Char → Bool} {c : Char} (ends : p c = false) (rest : List Char) :
    ∀ d ∈ (c :: rest).head?, p d = false := by
  intro d mem
  cases mem
  exact ends

/-- Behind the first digit no number is longer than one that ends. -/
theorem whole_longest {c : Char} {body rest other tail : List Char} {rule : Rule}
    (inside : ∀ d ∈ body, d.isDigit = true) (stops : EndsNumber rest)
    (matched : Matches .digit rule (c :: other)) (whole : other ++ tail = body ++ rest) :
    other.length ≤ body.length := by
  cases matched with
  | whole _ inside' => exact run_le inside' inside stops.1 whole
  | @fraction _ d digits more _ inside' point =>
      -- its point would stand right behind the number, with a digit
      rw [List.append_assoc, List.cons_append, List.cons_append] at whole
      obtain ⟨-, fraction⟩ := run_eq inside' (stops_cons (by decide) _) inside stops.1 whole
      rw [stops.2 d _ fraction.symm] at point
      cases point

theorem fraction_longest {c d : Char} {body more rest other tail : List Char} {rule : Rule}
    (inside : ∀ e ∈ body, e.isDigit = true) (inside' : ∀ e ∈ more, e.isDigit = true)
    (stops : ∀ e ∈ rest.head?, e.isDigit = false) (matched : Matches .digit rule (c :: other))
    (whole : other ++ tail = body ++ '.' :: d :: (more ++ rest)) :
    other.length ≤ (body ++ '.' :: d :: more).length := by
  have point : ∀ text : List Char, ∀ e ∈ ('.' :: text).head?, e.isDigit = false :=
    stops_cons (by decide)
  simp only [List.length_cons, List.length_append]
  cases matched with
  | whole _ digits =>
      have := run_le digits inside (point _) whole
      omega
  | @fraction _ d' body' more' _ digits _ digits' =>
      rw [List.append_assoc, List.cons_append, List.cons_append] at whole
      obtain ⟨rfl, fraction⟩ := run_eq digits (point _) inside (point _) whole
      injection fraction with _ fraction
      injection fraction with _ fraction
      have := run_le digits' inside' stops fraction
      simp only [List.length_append, List.length_cons]
      omega

/-- No text that matches a rule is longer than the front piece. -/
theorem Front.longest {text slice rest other tail : List Char} {kind : TokenKind} {lead : Lead}
    {rule : Rule} (front : Front text ⟨.lexeme kind, slice, rest⟩) (matched : Matches lead rule other)
    (whole : other ++ tail = text) : other.length ≤ slice.length := by
  obtain ⟨e, other, rfl⟩ := List.exists_cons_of_ne_nil matched.ne_nil
  have begins := matched.lead
  rw [List.cons_append] at whole
  -- both begin with the same character, and that leaves rules of one sort
  cases front with
  | word first inside stops =>
      injection whole with same whole
      subst same
      rw [leadOf_word first] at begins
      cases begins
      simp only [List.length_cons, Nat.add_le_add_iff_right]
      cases matched with
      | reserved known spelled =>
          obtain ⟨d, letters, same, -, inside'⟩ := word_of_reserved known
          rw [same] at spelled
          cases spelled
          exact run_le inside' inside stops whole
      | word _ inside' => exact run_le inside' inside stops whole
  | whole first inside stops =>
      injection whole with same whole
      subst same
      rw [leadOf_digit first] at begins
      cases begins
      exact Nat.succ_le_succ (whole_longest inside stops matched whole)
  | fraction first inside point inside' stops =>
      injection whole with same whole
      subst same
      rw [leadOf_digit first] at begins
      cases begins
      exact Nat.succ_le_succ (fraction_longest inside inside' stops matched whole)
  | closed inside =>
      injection whole with same whole
      subst same
      cases begins
      have quote : ∀ text : List Char, ∀ c ∈ ('"' :: text).head?, (c != '"') = false :=
        stops_cons (by decide)
      cases matched with
      | closed inside' =>
          rw [List.append_assoc, List.cons_append] at whole
          obtain ⟨rfl, -⟩ := run_eq inside' (quote _) inside (quote _) whole
          exact Nat.le_refl _
      | unclosed inside' =>
          have := run_le inside' inside (quote _) whole
          simp only [List.length_cons, List.length_append]
          omega
  | pair known =>
      obtain ⟨⟨kind', mark⟩, -⟩ := of_ofPair known
      injection whole with same whole
      subst same
      rw [leadOf_mark mark] at begins
      cases begins
      cases matched <;> simp
  | mark known stops =>
      injection whole with same whole
      subst same
      rw [leadOf_mark known] at begins
      cases begins
      cases matched with
      | mark => exact Nat.le_refl _
      | @pair _ d _ known' =>
          obtain ⟨single, -⟩ := stops d (by rw [← whole]; rfl)
          rw [single] at known'
          cases known'

/-- Nothing matches at a stray character. -/
theorem not_matches_stray {c : Char} {rest other tail : List Char} {taken left : List Char}
    {lead : Lead} {rule : Rule} (front : Front (c :: rest) ⟨.stray c, taken, left⟩)
    (matched : Matches lead rule other)
    (whole : other ++ tail = c :: rest) : False := by
  obtain ⟨e, other, rfl⟩ := List.exists_cons_of_ne_nil matched.ne_nil
  have begins := matched.lead
  rw [List.cons_append] at whole
  injection whole with same
  subst same
  cases front with
  | stray blank word digit quote unknown =>
      have none : leadOf e = none := by simp [leadOf, word, digit, quote, unknown]
      rw [none] at begins
      cases begins

/-! ## The rule that matches -/

theorem ofWord_of_reserved {word : String} {kind : TokenKind} (known : (word, kind) ∈ reserved) :
    TokenKind.ofWord word = kind := by
  have all : ∀ entry ∈ reserved, TokenKind.ofWord entry.1 = entry.2 := by decide
  exact all _ known

/-- A word is reserved or an identifier. -/
theorem reserved_or_identifier (word : String) : (word, TokenKind.ofWord word) ∈ reserved ∨
    TokenKind.ofWord word = .identifier ∧ ∀ kind, (word, kind) ∉ reserved := by
  have all : ∀ entry ∈ TokenKind.keywords, entry ∈ reserved := by decide
  have back : ∀ entry ∈ reserved, entry.2 ≠ .identifier := by decide
  cases found : TokenKind.keywords.lookup word with
  | some kind =>
      have same : TokenKind.ofWord word = kind := by rw [TokenKind.ofWord, found]; rfl
      obtain ⟨front, rest, split, -⟩ := List.lookup_eq_some_iff.mp found
      refine .inl (all _ ?_)
      rw [same, split]
      simp
  | none =>
      have same : TokenKind.ofWord word = .identifier := by rw [TokenKind.ofWord, found]; rfl
      refine .inr ⟨same, fun kind known => ?_⟩
      rw [ofWord_of_reserved known] at same
      exact back _ known same

/-- A rule takes a text from all others. -/
def Rule.Wins (rule : Rule) (slice : List Char) : Prop :=
  rule ∈ rules ∧ slice ∈ rule.pattern.language ∧ ∀ other ∈ rules, slice ∈ other.pattern.language →
    other = rule ∨ rule.isExact = true ∧ other.isExact = false

theorem Rule.Wins.of_matches {lead : Lead} {rule : Rule} {c : Char} {slice : List Char}
    (matched : Matches lead rule (c :: slice))
    (others : ∀ other, Matches lead other (c :: slice) →
      other = rule ∨ rule.isExact = true ∧ other.isExact = false) : rule.Wins (c :: slice) := by
  obtain ⟨mem, there⟩ := matched.sound
  refine ⟨mem, there, fun other mem' there' => ?_⟩
  obtain ⟨lead', matched'⟩ := matches_of_mem mem' there'
  have begins := matched'.lead
  rw [matched.lead] at begins
  cases begins
  exact others other matched'

/-- The front piece matches a rule that takes it from all others. -/
theorem Front.wins {text slice rest : List Char} {kind : TokenKind}
    (front : Front text ⟨.lexeme kind, slice, rest⟩) :
    ∃ rule : Rule, rule.Wins slice ∧ rule.kind = kind := by
  cases front with
  | @word c body _ first inside =>
      -- a reserved word matches two rules, of which the exact one wins
      rcases reserved_or_identifier (String.ofList (c :: body)) with known | ⟨same, free⟩
      · have spelled : c :: body = (String.ofList (c :: body)).toList := String.toList_ofList.symm
        refine ⟨_, .of_matches (.reserved known spelled) fun other matched => ?_, rfl⟩
        cases matched with
        | reserved known' spelled' =>
            obtain rfl := String.toList_inj.mp (spelled.symm.trans spelled')
            left
            rw [ofWord_of_reserved known']
        | word => exact .inr ⟨rfl, rfl⟩
      · refine ⟨_, .of_matches (.word first inside) fun other matched => ?_, same.symm⟩
        cases matched with
        | reserved known spelled =>
            rw [spelled, String.ofList_toList] at free
            exact absurd known (free _)
        | word => exact .inl rfl
  | whole first inside =>
      refine ⟨_, .of_matches (.whole first inside) fun other matched => ?_, rfl⟩
      cases matched <;> exact .inl rfl
  | fraction first inside point inside' =>
      refine ⟨_, .of_matches (.fraction first inside point inside') fun other matched => ?_, rfl⟩
      generalize _ :: (_ ++ _) = slice at matched
      cases matched <;> exact .inl rfl
  | @closed body _ inside =>
      refine ⟨_, .of_matches (.closed inside) fun other matched => ?_, rfl⟩
      generalize same : body ++ ['"'] = inner at matched
      cases matched with
      | closed => exact .inl rfl
      | unclosed inside' =>
          -- the closing quote cannot be part of an open string
          have := inside' '"' (by simp [← same])
          cases this
  | pair known =>
      refine ⟨_, .of_matches (.pair known) fun other matched => ?_, rfl⟩
      cases matched with
      | pair known' =>
          rw [known] at known'
          cases known'
          exact .inl rfl
  | mark known =>
      refine ⟨_, .of_matches (.mark known) fun other matched => ?_, rfl⟩
      cases matched with
      | mark known' =>
          rw [known] at known'
          cases known'
          exact .inl rfl

/-- A string without an end matches its own rule only. -/
theorem wins_openString {body : List Char} (inside : Unquoted body) :
    Rule.Wins ⟨openString, .error⟩ ('"' :: body) := by
  refine .of_matches (.unclosed inside) fun other matched => ?_
  cases matched with
  | closed =>
      have := inside '"' (by simp)
      cases this
  | unclosed => exact .inl rfl

/-- Reserved words have kinds of their own. -/
theorem spelled_of_matches {lead : Lead} {rule : Rule} {text : List Char}
    (matched : Matches lead rule text) {word : String} {kind : TokenKind}
    (known : (word, kind) ∈ reserved) (same : rule.kind = kind) : text = word.toList := by
  subst same
  have ofMarks : ∀ mark ∈ marks, ∀ entry ∈ reserved, mark.2 ≠ entry.2 := by decide
  have ofOthers : ∀ entry ∈ reserved, entry.2 ∉ [.identifier, .string, .error, .number] := by decide
  have once : ∀ entry ∈ reserved, ∀ other ∈ reserved, entry.2 = other.2 → entry.1 = other.1 := by
    decide
  cases matched with
  | mark mark => exact absurd rfl (ofMarks _ (mem_marks_of_ofCharacter mark) (word, _) known)
  | pair mark => exact absurd rfl (ofMarks _ (mem_marks_of_ofPair mark) (word, _) known)
  | reserved known' spelled =>
      obtain rfl := once _ known' (word, _) known rfl
      exact spelled
  | word | closed | unclosed | whole | fraction => exact absurd (by simp) (ofOthers (word, _) known)

/-- The two complaints of the scanner differ in their third characters. -/
theorem unterminated_ne_unexpected (c : Char) :
    "unterminated string" ≠ "unexpected character '" ++ c.toString ++ "'" := by
  intro same
  have third := congrArg (fun s : String => s.toList[2]?) same
  simp at third

/-- A quote begins a string. -/
theorem Front.quoted {text slice rest : List Char} {kind : TokenKind}
    (front : Front ('"' :: text) ⟨.lexeme kind, slice, rest⟩) :
    ∃ body, '"' ∉ body ∧ slice = '"' :: (body ++ ['"']) ∧ kind = .string := by
  cases front with
  | word first | whole first | fraction first => cases first
  | @closed body _ inside =>
      refine ⟨body, fun mem => ?_, rfl, rfl⟩
      simpa using inside _ mem
  | pair known =>
      obtain ⟨⟨_, mark⟩, -⟩ := of_ofPair known
      cases mark
  | mark known => cases known

/-! ## Whole texts -/

/-- Some rule matches a text. -/
def Matched (text : List Char) : Prop := ∃ rule ∈ rules, text ∈ rule.pattern.language

theorem Matched.exists_matches {text : List Char} (h : Matched text) :
    ∃ lead rule, Matches lead rule text := by
  obtain ⟨rule, mem, there⟩ := h
  obtain ⟨lead, matched⟩ := matches_of_mem mem there
  exact ⟨lead, rule, matched⟩

/-- Some rule matches at the front of a text. -/
def Begun (text : List Char) : Prop := ∃ front, front ≠ [] ∧ front <+: text ∧ Matched front

/-- There is nothing to skip at the front of a text. -/
def Unspaced (text : List Char) : Prop :=
  ∀ gap rest, text = gap ++ rest → Skipped gap rest → gap = []

/-- The rules let a token be cut off a text, whose rest begins with the slice of the token. -/
structure Munched (t : Token) (slice rest : List Char) : Prop where
  /-- If rules match at all, one matches the slice, and none matches more. -/
  longest : Begun (slice ++ rest) → Matched slice ∧
    ∀ front, front <+: slice ++ rest → Matched front → front.length ≤ slice.length
  /-- The rule that matches the slice gives the token its kind.  Another rule that matches the
  slice gives way, which it only does to a rule for one fixed text. -/
  rule : Matched slice → ∃ rule ∈ rules, slice ∈ rule.pattern.language ∧ t.kind = rule.kind ∧
    t.lexeme = rule.lexeme slice ∧ ∀ other ∈ rules, slice ∈ other.pattern.language →
      other = rule ∨ rule.isExact = true ∧ other.isExact = false
  /-- A token is a keyword if and only if the keyword is the whole slice. -/
  keyword : ∀ word kind, (word, kind) ∈ reserved → (t.kind = kind ↔ slice = word.toList)
  /-- A quote begins a string that goes on to the next quote, or else to the end of the text. -/
  quote : slice.head? = some '"' → ∃ body, '"' ∉ body ∧
    (slice = '"' :: (body ++ ['"']) ∧ t.kind = .string ∨
      slice = '"' :: body ∧ rest = [] ∧ t.kind = .error ∧ t.lexeme = "unterminated string")
  /-- A character is an error of its own if and only if no rule matches there.  (A single quote
  at the end of the text is a string without an end.) -/
  stray : (∃ c, slice = [c] ∧ t.kind = .error ∧
    t.lexeme = "unexpected character '" ++ c.toString ++ "'") ↔ ¬ Begun (slice ++ rest)

section

variable {t : Token} {slice rest : List Char}

theorem munched_lexeme (front : Front (slice ++ rest) ⟨.lexeme t.kind, slice, rest⟩)
    (lexeme : t.lexeme = String.ofList slice) : Munched t slice rest := by
  obtain ⟨rule, wins, kind⟩ := front.wins
  have mem := wins.1
  have there := wins.2.1
  obtain ⟨lead, matched⟩ := matches_of_mem mem there
  have begun : Begun (slice ++ rest) :=
    ⟨slice, matched.ne_nil, List.prefix_append .., rule, mem, there⟩
  constructor
  · rintro -
    refine ⟨⟨rule, mem, there⟩, ?_⟩
    rintro other ⟨tail, whole⟩ found
    obtain ⟨lead', rule', matched'⟩ := found.exists_matches
    exact front.longest matched' whole
  · rintro -
    refine ⟨rule, mem, there, kind.symm, ?_, wins.2.2⟩
    rw [lexeme, Rule.lexeme, if_neg (kind ▸ front.kind_ne.2)]
  · intro word keyword known
    constructor
    · rintro rfl
      exact spelled_of_matches matched known kind
    · intro spelled
      obtain ⟨mem', there'⟩ := (Matches.reserved known spelled).sound
      rcases wins.2.2 _ mem' there' with same | ⟨-, loose⟩
      · rw [← kind, ← same]
      · cases loose
  · intro quote
    obtain ⟨inner, rfl⟩ := List.head?_eq_some_iff.mp quote
    obtain ⟨body, inside, same, string⟩ := front.quoted
    exact ⟨body, inside, .inl ⟨same, string⟩⟩
  · constructor
    · rintro ⟨c, -, error, -⟩
      exact absurd error front.kind_ne.2
    · intro none
      exact absurd begun none

theorem munched_unclosed {body : List Char} (inside : Unquoted body) (kind : t.kind = .error)
    (lexeme : t.lexeme = "unterminated string") : Munched t ('"' :: body) [] := by
  have wins := wins_openString inside
  obtain ⟨mem, there, others⟩ := wins
  constructor
  · rintro -
    refine ⟨⟨_, mem, there⟩, fun front among _ => ?_⟩
    have := among.length_le
    rwa [List.append_nil] at this
  · rintro -
    exact ⟨_, mem, there, kind, lexeme, others⟩
  · intro word keyword known
    have := (show ∀ entry ∈ reserved, entry.2 ≠ .error by decide) _ known
    constructor
    · intro same
      exact absurd (same.symm.trans kind) this
    · intro spelled
      obtain ⟨c, letters, same, first, -⟩ := word_of_reserved known
      rw [same] at spelled
      cases spelled
      cases first
  · rintro -
    refine ⟨body, fun mem => ?_, .inr ⟨rfl, rfl, kind, lexeme⟩⟩
    simpa using inside _ mem
  · constructor
    · rintro ⟨c, -, -, message⟩
      exact absurd (lexeme.symm.trans message) (unterminated_ne_unexpected c)
    · intro none
      exact absurd ⟨_, List.cons_ne_nil _ _, List.prefix_append .., _, mem, there⟩ none

theorem munched_stray {c : Char} (front : Front (c :: rest) ⟨.stray c, [c], rest⟩)
    (kind : t.kind = .error) (lexeme : t.lexeme = "unexpected character '" ++ c.toString ++ "'") :
    Munched t [c] rest := by
  have unmatched : ∀ {other}, other <+: [c] ++ rest → ¬ Matched other := by
    rintro other ⟨tail, whole⟩ found
    obtain ⟨lead, rule, matched⟩ := found.exists_matches
    exact not_matches_stray front matched whole
  -- so nothing in the rules speaks of this character but that none of them matches
  have none : ¬ Begun ([c] ++ rest) := by
    rintro ⟨other, -, among, found⟩
    exact unmatched among found
  constructor
  · intro begun
    exact absurd begun none
  · intro found
    exact absurd found (unmatched (List.prefix_append ..))
  · intro word keyword known
    constructor
    · intro same
      have := (show ∀ entry ∈ reserved, entry.2 ≠ .error by decide) _ known
      exact absurd (same.symm.trans kind) this
    · intro spelled
      obtain ⟨mem, there⟩ := (Matches.reserved known spelled).sound
      exact absurd ⟨_, mem, there⟩ (unmatched (List.prefix_append ..))
  · rintro ⟨⟩
    cases front with
    | stray _ _ _ quote => exact absurd rfl quote
  · exact ⟨fun _ => none, fun _ => ⟨c, rfl, kind, lexeme⟩⟩

/-- What begins with a front piece that is no blank begins with nothing to skip. -/
theorem Front.unspaced {text : List Char} {piece : Piece} (front : Front text piece)
    (solid : piece.cls ≠ .blank) : Unspaced text := by
  intro gap rest whole skipped
  -- both begin with the piece that the scanner takes
  cases skipped with
  | nil => rfl
  | blank blank more =>
      subst whole
      rw [List.cons_append, front_iff, frontPiece, if_pos (isBlank_iff.mpr blank)] at front
      rw [front] at solid
      exact absurd rfl solid
  | @comment body gap _ line ends more =>
      have comment : Front ('/' :: '/' :: (body ++ (gap ++ rest)))
          ⟨.blank, '/' :: '/' :: body, gap ++ rest⟩ := by
        refine .comment (fun d mem => ?_) (fun d mem => ?_)
        · have : d ≠ '\n' := fun same => line (same ▸ mem)
          simpa using this
        · simpa using ends d mem
      simp only [List.cons_append, List.append_assoc] at whole
      rw [whole] at front
      rw [eq_frontPiece front, ← eq_frontPiece comment] at solid
      exact absurd rfl solid

theorem Renders.unspaced (renders : t.Renders slice rest) : Unspaced (slice ++ rest) := by
  cases renders with
  | last =>
      intro gap rest whole _
      exact (List.append_eq_nil_iff.mp whole.symm).1
  | lexeme front => exact front.unspaced (by simp)
  | unclosed inside =>
      rw [List.append_nil]
      exact (Front.unclosed inside).unspaced (by simp)
  | stray front => exact front.unspaced (by simp)

theorem Renders.munched (renders : t.Renders slice rest) :
    (t.kind = .eof ∧ slice = [] ∧ rest = []) ∨ Munched t slice rest := by
  cases renders with
  | last kind => exact .inl ⟨kind, rfl, rfl⟩
  | lexeme front lexeme => exact .inr (munched_lexeme front lexeme)
  | unclosed inside kind lexeme => exact .inr (munched_unclosed inside kind lexeme)
  | stray front kind lexeme => exact .inr (munched_stray front kind lexeme)

end

/-- Every token of a scan stands behind what is to skip in front of it, and covers the longest
text that a rule matches there. -/
theorem scan_takes_longest {source : String} {ts us : List Token} {t : Token}
    (read : scan source = ts ++ t :: us) : ∃ before gap slice rest,
      byteLength before = endsAt 0 ts ∧ t.span.Cuts source (before ++ gap) slice rest ∧
        Skipped gap (slice ++ rest) ∧ Unspaced (slice ++ rest) ∧
        ((t.kind = .eof ∧ slice = [] ∧ rest = []) ∨ Munched t slice rest) := by
  obtain ⟨before, gap, slice, rest, whole, ends, stands, renders⟩ := stands_of_scan read
  refine ⟨before, gap, slice, rest, ends, stands.cuts whole, stands.skipped, ?_, ?_⟩
  · exact renders.unspaced
  · exact renders.munched

/-- A word that begins as a keyword does is an identifier. -/
theorem scan_takes_longest_sample :
    scan "printed" = [] ++ ⟨.identifier, "printed", 1, ⟨0, 7⟩⟩ :: [⟨.eof, "", 1, ⟨7, 7⟩⟩] ∧
      ∃ before gap slice rest, byteLength before = endsAt 0 [] ∧
        (⟨0, 7⟩ : Span).Cuts "printed" (before ++ gap) slice rest ∧
        Skipped gap (slice ++ rest) ∧ Unspaced (slice ++ rest) ∧
        ((TokenKind.identifier = .eof ∧ slice = [] ∧ rest = []) ∨
          Munched ⟨.identifier, "printed", 1, ⟨0, 7⟩⟩ slice rest) := by
  have read : scan "printed" =
      [] ++ ⟨.identifier, "printed", 1, ⟨0, 7⟩⟩ :: [⟨.eof, "", 1, ⟨7, 7⟩⟩] := by
    decide +kernel
  exact ⟨read, scan_takes_longest read⟩

/-- Marks are taken in pairs, and a point ends a number if no digit stands behind it. -/
example : (scan "x<-1.5.y").map lexeme = ["x", "<-", "1.5", ".", "y", ""] := by decide +kernel

end Token
end StackScript
