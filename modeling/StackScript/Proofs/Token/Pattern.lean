import Mathlib
import StackScript.Proofs.Token.Front

/-!
# Patterns of tokens

The tokens of the language as a list of rules, each a regular expression with the kind of the
tokens that it matches.  A rule says nothing about scanning: what it matches is a language, a
set of texts.  `Matches` lists the texts that match some rule by their form
(`matches_of_mem`, `Matches.sound`).
-/

namespace StackScript
namespace Token

open scoped Computability

/-- A regular expression. -/
inductive Pattern where
  | literal (text : String)
  /-- One character out of some ranges. -/
  | oneOf (ranges : List (Char × Char))
  /-- One character outside of some ranges. -/
  | noneOf (ranges : List (Char × Char))
  | followed (first second : Pattern)
  | many (p : Pattern)
  | optional (p : Pattern)
deriving DecidableEq

namespace Pattern

/-- A character lies in one of some ranges. -/
def InRanges (ranges : List (Char × Char)) (c : Char) : Prop := ∃ r ∈ ranges, r.1 ≤ c ∧ c ≤ r.2

/-- The texts that match. -/
def language : Pattern → Language Char
  | literal text => {s | s = text.toList}
  | oneOf ranges => {s | ∃ c, s = [c] ∧ InRanges ranges c}
  | noneOf ranges => {s | ∃ c, s = [c] ∧ ¬ InRanges ranges c}
  | followed first second => first.language * second.language
  | many p => p.language∗
  | optional p => p.language + 1

/-- One or more times. -/
def oneOrMore (p : Pattern) : Pattern := followed p (many p)

end Pattern

/-- A pattern, and the kind of the tokens that match it. -/
structure Rule where
  pattern : Pattern
  kind : TokenKind
deriving DecidableEq

namespace Rule

/-- The rule matches one text only. -/
def isExact (rule : Rule) : Bool :=
  match rule.pattern with
  | .literal _ => true
  | _ => false

/-- What tokens that match the rule have as their lexeme. -/
def lexeme (rule : Rule) (slice : List Char) : String :=
  if rule.kind = .error then "unterminated string" else String.ofList slice

end Rule

/-! ## The rules -/

/-- Operators and punctuation. -/
def marks : List (String × TokenKind) :=
  [("(", .leftParen), (")", .rightParen), ("\x7b", .leftBrace), ("\x7d", .rightBrace), (",", .comma),
   (".", .dot), ("-", .minus), ("+", .plus), (";", .semicolon), ("/", .slash), ("*", .star),
   ("!", .bang), ("!=", .bangEqual), ("=", .equal), ("==", .equalEqual), (">", .greater),
   (">=", .greaterEqual), ("<", .less), ("<=", .lessEqual), ("<-", .leftArrow),
   ("->", .rightArrow)]

/-- The words that are no identifiers. -/
def reserved : List (String × TokenKind) :=
  [("and", .and), ("break", .break), ("class", .class), ("const", .const),
   ("continue", .continue), ("else", .else), ("false", .false), ("for", .for), ("fn", .fn),
   ("if", .if), ("null", .null), ("or", .or), ("print", .print), ("return", .return),
   ("super", .super), ("this", .this), ("true", .true), ("var", .var), ("while", .while)]

/-- A letter or an underscore, then letters, digits and underscores. -/
def identifier : Pattern :=
  .followed (.oneOf [('A', 'Z'), ('a', 'z'), ('_', '_')])
    (.many (.oneOf [('A', 'Z'), ('a', 'z'), ('0', '9'), ('_', '_')]))

/-- A quote and what follows up to the next quote, without it. -/
def openString : Pattern := .followed (.literal "\"") (.many (.noneOf [('"', '"')]))

/-- Everything from one quote to the next. -/
def closedString : Pattern := .followed openString (.literal "\"")

/-- Digits, and perhaps a point and more digits. -/
def number : Pattern :=
  .followed (.oneOrMore (.oneOf [('0', '9')]))
    (.optional (.followed (.literal ".") (.oneOrMore (.oneOf [('0', '9')]))))

/-- The rules for one fixed text each. -/
def exactRules (texts : List (String × TokenKind)) : List Rule :=
  texts.map fun entry => ⟨.literal entry.1, entry.2⟩

/-- All rules. -/
def rules : List Rule :=
  exactRules marks ++
    [⟨identifier, .identifier⟩, ⟨closedString, .string⟩, ⟨openString, .error⟩, ⟨number, .number⟩] ++
    exactRules reserved

/-! ## What the patterns match -/

/-- Repeating a pattern for one character gives the texts of such characters. -/
theorem mem_kstar {l : Language Char} {P : Char → Prop} (single : ∀ s, s ∈ l ↔ ∃ c, s = [c] ∧ P c)
    {text : List Char} : text ∈ l∗ ↔ ∀ c ∈ text, P c := by
  rw [Language.mem_kstar]
  constructor
  · rintro ⟨parts, rfl, fine⟩ c mem
    obtain ⟨part, there, mem⟩ := List.mem_flatten.mp mem
    obtain ⟨d, rfl, good⟩ := (single part).mp (fine part there)
    rw [List.mem_singleton.mp mem]
    exact good
  · intro fine
    refine ⟨text.map fun c => [c], ?_, fun part there => ?_⟩
    · rw [← List.flatMap_def]
      exact (List.flatMap_singleton' text).symm
    · obtain ⟨c, mem, rfl⟩ := List.mem_map.mp there
      exact (single _).mpr ⟨c, rfl, fine c mem⟩

section Ranges

variable {c : Char}

theorem inRanges_cons {low high : Char} {ranges : List (Char × Char)} :
    Pattern.InRanges ((low, high) :: ranges) c ↔
      (low ≤ c ∧ c ≤ high) ∨ Pattern.InRanges ranges c := by
  simp [Pattern.InRanges]

theorem inRanges_nil : ¬ Pattern.InRanges [] c := by simp [Pattern.InRanges]

theorem between_self {d : Char} : (d ≤ c ∧ c ≤ d) ↔ c = d := by
  rw [le_antisymm_iff, and_comm]

theorem isUpper_iff : c.isUpper = true ↔ 'A' ≤ c ∧ c ≤ 'Z' := by
  simp [Char.isUpper, Char.le_def]

theorem isLower_iff : c.isLower = true ↔ 'a' ≤ c ∧ c ≤ 'z' := by
  simp [Char.isLower, Char.le_def]

theorem isDigit_iff : c.isDigit = true ↔ '0' ≤ c ∧ c ≤ '9' := by
  simp [Char.isDigit, Char.le_def]

theorem inRanges_wordStart :
    Pattern.InRanges [('A', 'Z'), ('a', 'z'), ('_', '_')] c ↔ isWordStart c = true := by
  simp only [inRanges_cons, inRanges_nil, between_self, or_false, isWordStart, Char.isAlpha,
    Bool.or_eq_true, isUpper_iff, isLower_iff, decide_eq_true_eq, or_assoc]

theorem inRanges_wordPart :
    Pattern.InRanges [('A', 'Z'), ('a', 'z'), ('0', '9'), ('_', '_')] c ↔ isWordPart c = true := by
  simp only [inRanges_cons, inRanges_nil, between_self, or_false, isWordPart, isWordStart,
    Char.isAlpha, Bool.or_eq_true, isUpper_iff, isLower_iff, isDigit_iff, decide_eq_true_eq, or_assoc]
  constructor
  · rintro (upper | lower | digit | low)
    · exact .inl upper
    · exact .inr (.inl lower)
    · exact .inr (.inr (.inr digit))
    · exact .inr (.inr (.inl low))
  · rintro (upper | lower | low | digit)
    · exact .inl upper
    · exact .inr (.inl lower)
    · exact .inr (.inr (.inr low))
    · exact .inr (.inr (.inl digit))

theorem inRanges_digit : Pattern.InRanges [('0', '9')] c ↔ c.isDigit = true := by
  rw [inRanges_cons, isDigit_iff]
  simp only [inRanges_nil, or_false]

theorem not_inRanges_quote : ¬ Pattern.InRanges [('"', '"')] c ↔ (c != '"') = true := by
  rw [inRanges_cons, between_self, bne_iff_ne]
  simp only [inRanges_nil, or_false, ne_eq]

end Ranges

section Languages

variable {text : List Char}

theorem mem_identifier : text ∈ identifier.language ↔
    ∃ c body, text = c :: body ∧ isWordStart c = true ∧ ∀ d ∈ body, isWordPart d = true := by
  have parts := @mem_kstar (Pattern.oneOf [('A', 'Z'), ('a', 'z'), ('0', '9'), ('_', '_')]).language
    (fun d => isWordPart d = true) fun s => exists_congr fun d => and_congr_right fun _ =>
      inRanges_wordPart
  simp only [identifier, Pattern.language] at parts ⊢
  constructor
  · rintro ⟨_, ⟨c, rfl, first⟩, body, inside, rfl⟩
    exact ⟨c, body, rfl, inRanges_wordStart.mp first, parts.mp inside⟩
  · rintro ⟨c, body, rfl, first, inside⟩
    exact ⟨[c], ⟨c, rfl, inRanges_wordStart.mpr first⟩, body, parts.mpr inside, rfl⟩

theorem mem_openString : text ∈ openString.language ↔ ∃ body, text = '"' :: body ∧ Unquoted body := by
  have parts := @mem_kstar (Pattern.noneOf [('"', '"')]).language (fun d => (d != '"') = true)
    fun s => exists_congr fun d => and_congr_right fun _ => not_inRanges_quote
  simp only [openString, Pattern.language] at parts ⊢
  constructor
  · rintro ⟨_, rfl, body, inside, rfl⟩
    exact ⟨body, rfl, parts.mp inside⟩
  · rintro ⟨body, rfl, inside⟩
    exact ⟨_, rfl, body, parts.mpr inside, rfl⟩

theorem mem_closedString : text ∈ closedString.language ↔
    ∃ body, text = '"' :: (body ++ ['"']) ∧ Unquoted body := by
  rw [closedString, Pattern.language, Language.mem_mul]
  constructor
  · rintro ⟨front, opened, _, rfl, rfl⟩
    obtain ⟨body, rfl, inside⟩ := mem_openString.mp opened
    exact ⟨body, rfl, inside⟩
  · rintro ⟨body, rfl, inside⟩
    exact ⟨'"' :: body, mem_openString.mpr ⟨body, rfl, inside⟩, _, rfl, rfl⟩

theorem mem_digits : text ∈ (Pattern.oneOrMore (.oneOf [('0', '9')])).language ↔
    ∃ c body, text = c :: body ∧ c.isDigit = true ∧ ∀ d ∈ body, d.isDigit = true := by
  have parts := @mem_kstar (Pattern.oneOf [('0', '9')]).language (fun d => d.isDigit = true)
    fun s => exists_congr fun d => and_congr_right fun _ => inRanges_digit
  simp only [Pattern.oneOrMore, Pattern.language] at parts ⊢
  constructor
  · rintro ⟨_, ⟨c, rfl, first⟩, body, inside, rfl⟩
    exact ⟨c, body, rfl, inRanges_digit.mp first, parts.mp inside⟩
  · rintro ⟨c, body, rfl, first, inside⟩
    exact ⟨[c], ⟨c, rfl, inRanges_digit.mpr first⟩, body, parts.mpr inside, rfl⟩

theorem mem_number : text ∈ number.language ↔ ∃ c body, c.isDigit = true ∧
    (∀ d ∈ body, d.isDigit = true) ∧ (text = c :: body ∨ ∃ d more, d.isDigit = true ∧
      (∀ e ∈ more, e.isDigit = true) ∧ text = c :: (body ++ '.' :: d :: more)) := by
  rw [number, Pattern.language, Language.mem_mul]
  constructor
  · rintro ⟨front, whole, fraction, there, rfl⟩
    obtain ⟨c, body, rfl, first, inside⟩ := mem_digits.mp whole
    refine ⟨c, body, first, inside, ?_⟩
    rw [Pattern.language, Language.mem_add] at there
    rcases there with ⟨_, rfl, digits, there, rfl⟩ | none
    · obtain ⟨d, more, rfl, point, inside'⟩ := mem_digits.mp there
      exact .inr ⟨d, more, point, inside', rfl⟩
    · rw [(Language.mem_one _).mp none, List.append_nil]
      exact .inl rfl
  · rintro ⟨c, body, first, inside, rfl | ⟨d, more, point, inside', rfl⟩⟩
    · refine ⟨c :: body, mem_digits.mpr ⟨c, body, rfl, first, inside⟩, [], ?_, List.append_nil _⟩
      rw [Pattern.language, Language.mem_add]
      exact .inr ((Language.mem_one _).mpr rfl)
    · refine ⟨c :: body, mem_digits.mpr ⟨c, body, rfl, first, inside⟩, '.' :: d :: more, ?_, rfl⟩
      rw [Pattern.language, Language.mem_add]
      exact .inl ⟨['.'], rfl, d :: more, mem_digits.mpr ⟨d, more, rfl, point, inside'⟩, rfl⟩

end Languages

/-! ## The texts that match a rule -/

/-- What a token begins with. -/
inductive Lead where
  | word | digit | quote | mark
deriving DecidableEq

/-- What kind of token a character begins, if it begins any. -/
def leadOf (c : Char) : Option Lead :=
  if isWordStart c then some .word
  else if c.isDigit then some .digit
  else if c = '"' then some .quote
  else if (TokenKind.ofCharacter c).isSome then some .mark
  else none

/-- A rule matches a text that begins in the given way. -/
inductive Matches : Lead → Rule → List Char → Prop where
  | mark {c : Char} {kind : TokenKind} (known : TokenKind.ofCharacter c = some kind) :
      Matches .mark ⟨.literal (String.ofList [c]), kind⟩ [c]
  | pair {c d : Char} {kind : TokenKind} (known : TokenKind.ofPair c d = some kind) :
      Matches .mark ⟨.literal (String.ofList [c, d]), kind⟩ [c, d]
  | reserved {word : String} {kind : TokenKind} {text : List Char} (known : (word, kind) ∈ reserved)
      (spelled : text = word.toList) : Matches .word ⟨.literal word, kind⟩ text
  | word {c : Char} {body : List Char} (first : isWordStart c = true)
      (inside : ∀ d ∈ body, isWordPart d = true) :
      Matches .word ⟨identifier, .identifier⟩ (c :: body)
  | closed {body : List Char} (inside : Unquoted body) :
      Matches .quote ⟨closedString, .string⟩ ('"' :: (body ++ ['"']))
  | unclosed {body : List Char} (inside : Unquoted body) :
      Matches .quote ⟨openString, .error⟩ ('"' :: body)
  | whole {c : Char} {body : List Char} (first : c.isDigit = true)
      (inside : ∀ d ∈ body, d.isDigit = true) : Matches .digit ⟨number, .number⟩ (c :: body)
  | fraction {c d : Char} {body more : List Char} (first : c.isDigit = true)
      (inside : ∀ e ∈ body, e.isDigit = true) (point : d.isDigit = true)
      (inside' : ∀ e ∈ more, e.isDigit = true) :
      Matches .digit ⟨number, .number⟩ (c :: (body ++ '.' :: d :: more))

/-- The mark that a text of one or two characters is. -/
def markOf : List Char → Option TokenKind
  | [c] => TokenKind.ofCharacter c
  | [c, d] => TokenKind.ofPair c d
  | _ => none

theorem markOf_of_mem : ∀ entry ∈ marks, markOf entry.1.toList = some entry.2 := by decide

theorem matches_of_markOf {chars : List Char} {kind : TokenKind} (known : markOf chars = some kind) :
    Matches .mark ⟨.literal (String.ofList chars), kind⟩ chars := by
  match chars with
  | [] => cases known
  | [c] => exact .mark known
  | [c, d] => exact .pair known
  | _ :: _ :: _ :: _ => cases known

theorem mem_marks_of_ofCharacter {c : Char} {kind : TokenKind}
    (known : TokenKind.ofCharacter c = some kind) : (String.ofList [c], kind) ∈ marks := by
  unfold TokenKind.ofCharacter at known
  split at known <;> cases known <;> decide

theorem mem_marks_of_ofPair {c d : Char} {kind : TokenKind}
    (known : TokenKind.ofPair c d = some kind) : (String.ofList [c, d], kind) ∈ marks := by
  unfold TokenKind.ofPair at known
  split at known <;> cases known <;> decide

theorem matches_of_mem {rule : Rule} (mem : rule ∈ rules) {text : List Char}
    (there : text ∈ rule.pattern.language) : ∃ lead, Matches lead rule text := by
  simp only [rules, List.mem_append, List.mem_cons, List.not_mem_nil, or_false] at mem
  rcases mem with (mark | rfl | rfl | rfl | rfl) | word
  · obtain ⟨⟨spelling, kind⟩, mem, rfl⟩ := List.mem_map.mp mark
    obtain rfl : text = spelling.toList := there
    have found := matches_of_markOf (markOf_of_mem _ mem)
    rw [String.ofList_toList] at found
    exact ⟨_, found⟩
  · obtain ⟨c, body, rfl, first, inside⟩ := mem_identifier.mp there
    exact ⟨_, .word first inside⟩
  · obtain ⟨body, rfl, inside⟩ := mem_closedString.mp there
    exact ⟨_, .closed inside⟩
  · obtain ⟨body, rfl, inside⟩ := mem_openString.mp there
    exact ⟨_, .unclosed inside⟩
  · obtain ⟨c, body, first, inside, rfl | ⟨d, more, point, inside', rfl⟩⟩ := mem_number.mp there
    · exact ⟨_, .whole first inside⟩
    · exact ⟨_, .fraction first inside point inside'⟩
  · obtain ⟨⟨spelling, kind⟩, mem, rfl⟩ := List.mem_map.mp word
    exact ⟨_, .reserved mem there⟩

/-- Texts of these forms match their rules. -/
theorem Matches.sound {lead : Lead} {rule : Rule} {text : List Char}
    (matched : Matches lead rule text) :
    rule ∈ rules ∧ text ∈ rule.pattern.language := by
  have fixed {texts : List (String × TokenKind)} {word : String} {kind : TokenKind}
      (among : exactRules texts ⊆ rules) (mem : (word, kind) ∈ texts) :
      ⟨.literal word, kind⟩ ∈ rules ∧ word.toList ∈ (Pattern.literal word).language :=
    ⟨among (List.mem_map.mpr ⟨_, mem, rfl⟩), rfl⟩
  have marksAmong : exactRules marks ⊆ rules :=
    fun _ mem => List.mem_append_left _ (List.mem_append_left _ mem)
  cases matched with
  | mark known =>
      have found := fixed marksAmong (mem_marks_of_ofCharacter known)
      rw [String.toList_ofList] at found
      exact found
  | pair known =>
      have found := fixed marksAmong (mem_marks_of_ofPair known)
      rw [String.toList_ofList] at found
      exact found
  | reserved known spelled =>
      rw [spelled]
      exact fixed (fun _ mem => List.mem_append_right _ mem) known
  | word first inside =>
      exact ⟨by decide, mem_identifier.mpr ⟨_, _, rfl, first, inside⟩⟩
  | closed inside => exact ⟨by decide, mem_closedString.mpr ⟨_, rfl, inside⟩⟩
  | unclosed inside => exact ⟨by decide, mem_openString.mpr ⟨_, rfl, inside⟩⟩
  | whole first inside => exact ⟨by decide, mem_number.mpr ⟨_, _, first, inside, .inl rfl⟩⟩
  | fraction first inside point inside' =>
      exact ⟨by decide, mem_number.mpr ⟨_, _, first, inside, .inr ⟨_, _, point, inside', rfl⟩⟩⟩

/-! ## How texts that match begin -/

theorem leadOf_word {c : Char} (first : isWordStart c = true) : leadOf c = some .word := by
  rw [leadOf, if_pos first]

theorem leadOf_digit {c : Char} (first : c.isDigit = true) : leadOf c = some .digit := by
  rw [leadOf, if_neg (by simp [of_isDigit first]), if_pos first]

theorem leadOf_mark {c : Char} {kind : TokenKind} (known : TokenKind.ofCharacter c = some kind) :
    leadOf c = some .mark := by
  obtain ⟨-, word, digit, quote⟩ := of_ofCharacter known
  simp [leadOf, word, digit, quote, known]

/-- A reserved word is made of the characters of words. -/
theorem word_of_reserved {word : String} {kind : TokenKind} (known : (word, kind) ∈ reserved) :
    ∃ c body, word.toList = c :: body ∧ isWordStart c = true ∧ ∀ d ∈ body, isWordPart d = true := by
  -- checked for each word of the table
  have spelled : ∀ entry ∈ reserved,
      entry.1.toList.head?.any isWordStart && entry.1.toList.tail.all isWordPart := by decide
  have here := spelled _ known
  dsimp only at here
  cases text : word.toList with
  | nil =>
      rw [text] at here
      cases here
  | cons c body =>
      rw [text, Bool.and_eq_true, List.all_eq_true] at here
      exact ⟨c, body, rfl, here.1, here.2⟩

/-- A text that matches begins as it says. -/
theorem Matches.lead {lead : Lead} {rule : Rule} {c : Char} {body : List Char}
    (matched : Matches lead rule (c :: body)) : leadOf c = some lead := by
  cases matched with
  | mark known => exact leadOf_mark known
  | pair known =>
      obtain ⟨⟨kind, begins⟩, -⟩ := of_ofPair known
      exact leadOf_mark begins
  | reserved known spelled =>
      obtain ⟨d, rest, same, first, -⟩ := word_of_reserved known
      rw [same] at spelled
      cases spelled
      exact leadOf_word first
  | word first => exact leadOf_word first
  | closed | unclosed => decide
  | whole first | fraction first => exact leadOf_digit first

theorem Matches.ne_nil {lead : Lead} {rule : Rule} {text : List Char}
    (matched : Matches lead rule text) : text ≠ [] := by
  rintro rfl
  cases matched with
  | reserved known spelled =>
      obtain ⟨c, body, same, -⟩ := word_of_reserved known
      rw [same] at spelled
      cases spelled

end Token
end StackScript
