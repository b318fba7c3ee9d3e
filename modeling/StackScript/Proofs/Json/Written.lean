import StackScript.Diagnostic.Json
import StackScript.Proofs.Json.Reader
import StackScript.Proofs.Number.Pointed

/-!
# What is written as JSON is read back

Each piece of a text that `Json.quote`, `Json.array` and `Json.object` write is read back whatever
stands behind it, as long as that may follow a value at all.
-/

namespace StackScript
namespace Json

/-- What may follow a value: the end of the text, a comma, or a closing bracket. -/
def Closes (rest : List Char) : Prop := ∀ c ∈ rest.head?, c = ',' ∨ c = ']' ∨ c = '}'

/-- The text is read as `a`, whatever follows it. -/
def Reads {α : Type} (item? : Reader α) (text : List Char) (a : α) : Prop :=
  ∀ rest, Closes rest → item? (text ++ rest) = some (a, rest)

theorem skipBlanks_cons {c : Char} (visible : isBlank c = false) (text : List Char) :
    skipBlanks (c :: text) = c :: text := List.dropWhile_cons_of_neg (by simp [visible])

/-! ## Strings -/

theorem hexValue?_hexDigit (n : ℕ) : hexValue? (hexDigit n) = some (n % 16) := by
  have all : ∀ k < 16, hexValue? ((Nat.toDigits 16 k).headD '0') = some k := by decide
  exact all _ (Nat.mod_lt _ (by norm_num))

/-- A control character is read back from its code. -/
theorem character?_control {c : Char} (control : c.toNat < 32) (rest : List Char) :
    character? ('\\' :: 'u' :: '0' :: '0' :: hexDigit (c.toNat / 16) :: hexDigit c.toNat :: rest) = some (c, rest) := by
  have digits : ((0 * 16 + 0) * 16 + c.toNat / 16 % 16) * 16 + c.toNat % 16 = c.toNat := by omega
  have zero : hexValue? '0' = some 0 := rfl
  have unit : codeUnit? ('0' :: '0' :: hexDigit (c.toNat / 16) :: hexDigit c.toNat :: rest) =
      some (c.toNat, rest) := by
    simp only [codeUnit?, hexValue?_hexDigit, zero, Option.bind_eq_bind, Option.bind_some, digits]
    rfl
  simp only [character?, unicode?, unit, Option.bind_eq_bind, Option.bind_some]
  rw [if_neg (by omega), if_neg (by omega), Char.ofNat_toNat]
  rfl

/-- A character is read back from the way it is written. -/
theorem character?_escape (c : Char) (rest : List Char) : character? (escape c ++ rest) = some (c, rest) := by
  unfold escape
  split
  any_goals rfl
  rename_i quote backslash _ _ _ _ _
  split
  · rename_i control
    exact character?_control control rest
  · rename_i printed
    show character? (c :: rest) = _
    unfold character?
    split
    · rename_i same
      cases same
      exact absurd rfl backslash
    · rename_i same
      cases same
      exact absurd rfl backslash
    · rename_i same
      cases same
      have plain : ¬ (c = '\\' ∨ c = '"' ∨ c.toNat < 32) := fun h =>
        h.elim backslash fun h => h.elim quote printed
      exact if_neg plain
    · rename_i same
      cases same

/-- Nothing is written as a closing quote. -/
theorem escape_ne_quote (c : Char) (rest text : List Char) : escape c ++ rest ≠ '"' :: text := by
  unfold escape
  split
  any_goals simp
  rename_i quote _ _ _ _ _ _
  split
  · simp
  · simpa using fun same => absurd same quote

theorem escape_ne_nil (c : Char) : escape c ≠ [] := by
  unfold escape
  split
  any_goals simp
  split <;> simp

theorem characters?_escape {characters : List Char} : ∀ {fuel : ℕ}, (characters.flatMap escape).length < fuel →
    ∀ rest, characters? fuel (characters.flatMap escape ++ '"' :: rest) = some (characters, rest) := by
  induction characters with
  | nil =>
      intro fuel enough rest
      obtain _ | fuel := fuel
      · omega
      · rfl
  | cons c characters ih =>
      intro fuel enough rest
      have some := List.length_pos_of_ne_nil (escape_ne_nil c)
      rw [List.flatMap_cons, List.length_append] at enough
      rw [List.flatMap_cons, List.append_assoc]
      obtain _ | fuel := fuel
      · omega
      · rw [characters?]
        · rw [character?_escape]
          simp only [Option.bind_eq_bind, Option.bind_some, ih (by omega : _ < fuel) rest]
          rfl
        · exact fun text => escape_ne_quote c _ text

theorem toList_quote (text : String) :
    (quote text).toList = '"' :: (text.toList.flatMap escape ++ ['"']) := String.toList_ofList

/-- A string is read back, whatever follows it. -/
theorem string?_quote (text : String) (rest : List Char) :
    string? ((quote text).toList ++ rest) = some (text, rest) := by
  have enough : (text.toList.flatMap escape).length < (text.toList.flatMap escape ++ '"' :: rest).length := by
    simp
  rw [toList_quote, List.cons_append, List.append_assoc, List.singleton_append, string?,
    characters?_escape enough, Option.map_some]
  exact congrArg (fun text => some (text, rest)) String.ofList_toList

theorem value?_quote (depth : ℕ) (text : List Char) :
    value? (depth + 1) ('"' :: text) = (string? ('"' :: text)).map fun (text, rest) => (.string text, rest) := rfl

theorem reads_quote (depth : ℕ) (text : String) :
    Reads (value? (depth + 1)) (quote text).toList (.string text) := by
  intro rest _
  have read := string?_quote text rest
  rw [toList_quote, List.cons_append] at read ⊢
  rw [value?_quote, read]
  rfl

/-! ## Numbers -/

/-- The decimal digits of a number other than zero do not begin with a zero. -/
theorem head?_toDigits {n : ℕ} (pos : 0 < n) : (Nat.toDigits 10 n).head? ≠ some '0' := by
  induction n using Nat.strongRecOn with
  | ind n ih =>
      by_cases small : n < 10
      · rw [Nat.toDigits_of_lt_base small]
        interval_cases n <;> decide
      · have least : 10 ≤ n := not_lt.mp small
        have fewer := ih (n / 10) (Nat.div_lt_self pos (by norm_num)) (Nat.div_pos least (by norm_num))
        rw [Nat.toDigits_of_base_le (by norm_num) least, List.head?_append_of_ne_nil _ Nat.toDigits_ne_nil]
        exact fewer

theorem exponent?_closes {rest : List Char} (closes : Closes rest) : exponent? rest = some (none, rest) := by
  cases rest with
  | nil => rfl
  | cons c rest =>
      refine if_neg ?_
      rcases closes c rfl with rfl | rfl | rfl <;> decide

theorem readFraction?_closes {rest : List Char} (closes : Closes rest) :
    Numeral.readFraction? rest = some ([], rest) := by
  cases rest with
  | nil => rfl
  | cons c rest => rcases closes c rfl with rfl | rfl | rfl <;> rfl

/-- A natural number is read back. -/
theorem number?_toDigits (n : ℕ) : Reads number? (Nat.toDigits 10 n) (n : ℚ) := by
  intro rest closes
  have digits : ∀ c ∈ Nat.toDigits 10 n, c.isDigit := fun c mem =>
    Nat.isDigit_of_mem_toDigits (by norm_num) (by norm_num) mem
  have ends : ∀ c ∈ rest.head?, c.isDigit = false := by
    intro c mem
    rcases closes c mem with rfl | rfl | rfl <;> rfl
  have plain : ¬ ((Nat.toDigits 10 n).head? = some '0' ∧ Nat.toDigits 10 n ≠ ['0']) := by
    rintro ⟨zero, more⟩
    obtain rfl | pos := Nat.eq_zero_or_pos n
    · exact more rfl
    · exact head?_toDigits pos zero
  have unsigned := Numeral.readSign_digits Nat.toDigits_ne_nil digits rest
  simp only [number?, unsigned, Numeral.readDigits?_append Nat.toDigits_ne_nil digits ends,
    Option.bind_eq_bind, Option.bind_some, if_neg plain, readFraction?_closes closes, exponent?_closes closes]
  simp [Numeral.value, Numeral.exponentValue, signFactor, Number.digitsValue_toDigits]

/-- What begins with a digit is a number. -/
theorem value?_digit (depth : ℕ) {c : Char} (digit : c.isDigit) (text : List Char) :
    value? (depth + 1) (c :: text) = (number? (c :: text)).map fun (q, rest) => (.number q, rest) := by
  have visible : isBlank c = false := by
    rw [Bool.eq_false_iff]
    intro blank
    simp only [isBlank, Bool.or_eq_true, beq_iff_eq] at blank
    rcases blank with ((rfl | rfl) | rfl) | rfl <;> exact absurd digit (by decide)
  rw [value?, skipBlanks_cons visible]
  split
  all_goals first | rfl | (rename_i same; cases same; exact absurd digit (by decide))

theorem reads_natural (depth n : ℕ) : Reads (value? (depth + 1)) (toString n).toList (.number n) := by
  intro rest closes
  have read := number?_toDigits n rest closes
  rw [Nat.toString_eq_ofList_toDigits, String.toList_ofList]
  obtain ⟨c, digits, same⟩ := List.exists_cons_of_ne_nil (Nat.toDigits_ne_nil (n := n) (b := 10))
  have digit : c.isDigit := Nat.isDigit_of_mem_toDigits (by norm_num) (by norm_num) (same ▸ List.mem_cons_self)
  rw [same, List.cons_append] at read ⊢
  rw [value?_digit depth digit, read]
  rfl

/-! ## Arrays and objects -/

section

variable {α : Type} {item? : Reader α} {close : Char} (mark : close = ']' ∨ close = '}')

include mark

theorem separated?_intercalate {texts : List (List Char)} {items : List α}
    (reads : List.Forall₂ (Reads item?) texts items) (some : texts ≠ []) : ∀ (fuel : ℕ) (rest : List Char),
    (List.intercalate [','] texts).length < fuel →
      separated? item? close fuel (List.intercalate [','] texts ++ close :: rest) = Option.some (items, rest) := by
  have visible : isBlank close = false := by rcases mark with rfl | rfl <;> rfl
  have comma : isBlank ',' = false := rfl
  have other : ',' ≠ close := by rcases mark with rfl | rfl <;> decide
  induction reads with
  | nil => exact absurd rfl some
  | @cons text item texts items first reads ih =>
      intro fuel rest enough
      obtain _ | fuel := fuel
      · omega
      cases reads with
      | nil =>
          have closes : Closes (close :: rest) := by
            rintro c ⟨⟩
            exact .inr mark
          rw [List.intercalate_singleton, separated?, first _ closes]
          simp only [Option.bind_eq_bind, Option.bind_some, skipBlanks_cons visible, if_true]
          rfl
      | @cons next after texts items second reads =>
          have spread : List.intercalate [','] (text :: next :: texts) =
              text ++ ',' :: List.intercalate [','] (next :: texts) := by
            rw [List.intercalate_cons_of_ne_nil (List.cons_ne_nil _ _)]
            simp
          rw [spread, List.length_append, List.length_cons] at enough
          have closes : Closes (',' :: (List.intercalate [','] (next :: texts) ++ close :: rest)) := by
            rintro c ⟨⟩
            exact .inl rfl
          rw [spread, List.append_assoc, List.cons_append, separated?, first _ closes]
          simp only [Option.bind_eq_bind, Option.bind_some, skipBlanks_cons comma, if_neg other,
            ih (List.cons_ne_nil _ _) fuel rest (by omega), if_true]
          rfl

/-- Items between brackets are read back; here each begins with a quote. -/
theorem items?_intercalate {texts : List (List Char)} {items : List α}
    (reads : List.Forall₂ (Reads item?) texts items) (quoted : ∀ text ∈ texts, text.head? = some '"')
    (rest : List Char) :
    items? item? close (List.intercalate [','] texts ++ close :: rest) = some (items, rest) := by
  have visible : isBlank close = false := by rcases mark with rfl | rfl <;> rfl
  have other : '"' ≠ close := by rcases mark with rfl | rfl <;> decide
  cases reads with
  | nil =>
      rw [List.intercalate_nil, List.nil_append, items?, skipBlanks_cons visible]
      exact if_pos rfl
  | @cons text item texts items first reads =>
      have all := separated?_intercalate mark (.cons first reads) (List.cons_ne_nil _ _)
        (List.intercalate [','] (text :: texts) ++ close :: rest).length rest (by simp)
      obtain ⟨body, same⟩ : ∃ body, List.intercalate [','] (text :: texts) ++ close :: rest = '"' :: body := by
        obtain ⟨front, rfl⟩ : ∃ front, text = '"' :: front :=
          List.head?_eq_some_iff.mp (quoted text List.mem_cons_self)
        cases texts with
        | nil => exact ⟨_, rfl⟩
        | cons => exact ⟨_, rfl⟩
      rw [same] at all ⊢
      rw [items?, skipBlanks_cons rfl]
      exact (if_neg other).trans all

end

/-- Texts with commas between them. -/
theorem toList_commas (texts : List String) :
    (String.intercalate "," texts).toList = List.intercalate [','] (texts.map String.toList) :=
  String.toList_intercalate

theorem reads_array {depth : ℕ} {texts : List String} {items : List Value}
    (reads : List.Forall₂ (Reads (value? depth)) (texts.map String.toList) items)
    (quoted : ∀ text ∈ texts, text.toList.head? = some '"') :
    Reads (value? (depth + 1)) (array texts).toList (.array items) := by
  intro rest _
  have read := items?_intercalate (.inl rfl) reads (by simpa using quoted) rest
  have bracket (text : List Char) : value? (depth + 1) ('[' :: text) =
      (items? (value? depth) ']' text).map fun read => (.array read.1, read.2) := rfl
  rw [← toList_commas] at read
  rw [array, String.toList_append, String.toList_append, List.append_assoc, List.append_assoc]
  exact (bracket _).trans (congrArg _ read)

theorem reads_object {depth : ℕ} {texts : List String} {fields : List (String × Value)}
    (reads : List.Forall₂ (Reads (field? (value? depth))) (texts.map String.toList) fields)
    (quoted : ∀ text ∈ texts, text.toList.head? = some '"') :
    Reads (value? (depth + 1)) (object texts).toList (.object fields) := by
  intro rest _
  have read := items?_intercalate (.inr rfl) reads (by simpa using quoted) rest
  have brace (text : List Char) : value? (depth + 1) ('{' :: text) =
      (items? (field? (value? depth)) '}' text).map fun read => (.object read.1, read.2) := rfl
  rw [← toList_commas] at read
  rw [object, String.toList_append, String.toList_append, List.append_assoc, List.append_assoc]
  exact (brace _).trans (congrArg _ read)

/-- A field is read back if its name needs no escapes. -/
theorem reads_field {depth : ℕ} {name text : String} {value : Value} (plain : quote name = "\"" ++ name ++ "\"")
    (reads : Reads (value? depth) text.toList value) :
    Reads (field? (value? depth)) (field name text).toList (name, value) := by
  intro rest closes
  have colon : isBlank ':' = false := rfl
  have read := string?_quote name (':' :: (text.toList ++ rest))
  have same : (field name text).toList ++ rest = (quote name).toList ++ ':' :: (text.toList ++ rest) := by
    rw [plain, field]
    simp [String.toList_append]
  have visible : skipBlanks ((quote name).toList ++ ':' :: (text.toList ++ rest)) =
      (quote name).toList ++ ':' :: (text.toList ++ rest) := by
    rw [toList_quote]
    exact skipBlanks_cons rfl _
  rw [same, field?, visible, read]
  simp only [Option.bind_eq_bind, Option.bind_some, skipBlanks_cons colon]
  rw [reads rest closes]
  rfl

theorem head?_quote (text : String) : (quote text).toList.head? = some '"' := by
  rw [toList_quote]
  rfl

theorem head?_field (name text : String) : (field name text).toList.head? = some '"' := by
  simp [field, String.toList_append]

/-! ## Control characters -/

/-- The text has no control character. -/
def Printed (text : String) : Prop := ∀ c ∈ text.toList, 32 ≤ c.toNat

theorem Printed.append {front back : String} (h : Printed front) (h' : Printed back) : Printed (front ++ back) := by
  intro c mem
  rw [String.toList_append, List.mem_append] at mem
  exact mem.elim (h c) (h' c)

theorem Printed.commas {texts : List String} (h : ∀ text ∈ texts, Printed text) :
    Printed (String.intercalate "," texts) := by
  induction texts with
  | nil => exact fun c mem => absurd mem List.not_mem_nil
  | cons text texts ih =>
      have first := h text List.mem_cons_self
      have others := ih fun text mem => h text (List.mem_cons_of_mem _ mem)
      cases texts with
      | nil => simpa using first
      | cons next texts =>
          rw [String.intercalate_cons_cons]
          exact (first.append (by simp [Printed])).append others

theorem hexDigit_printed (n : ℕ) : 32 ≤ (hexDigit n).toNat := by
  have all : ∀ k < 16, 32 ≤ ((Nat.toDigits 16 k).headD '0').toNat := by decide
  exact all _ (Nat.mod_lt _ (by norm_num))

theorem escape_printed {c d : Char} (mem : d ∈ escape c) : 32 ≤ d.toNat := by
  unfold escape at mem
  split at mem
  any_goals
    simp only [List.mem_cons, List.not_mem_nil, or_false] at mem
    rcases mem with rfl | rfl <;> decide
  split at mem
  · simp only [List.mem_cons, List.not_mem_nil, or_false] at mem
    rcases mem with rfl | rfl | rfl | rfl | rfl | rfl
    any_goals decide
    · exact hexDigit_printed _
    · exact hexDigit_printed _
  · rename_i printed
    rw [List.mem_singleton.mp mem]
    exact not_lt.mp printed

theorem printed_quote (text : String) : Printed (quote text) := by
  intro c mem
  simp only [toList_quote, List.mem_cons, List.mem_append, List.mem_flatMap, List.not_mem_nil, or_false] at mem
  rcases mem with rfl | ⟨d, -, mem⟩ | rfl
  · decide
  · exact escape_printed mem
  · decide

theorem printed_natural (n : ℕ) : Printed (toString n) := by
  intro c mem
  rw [Nat.toString_eq_ofList_toDigits, String.toList_ofList] at mem
  have digit := Nat.isDigit_of_mem_toDigits (by norm_num) (by norm_num) mem
  have least := (Char.isDigit_iff_toNat.mp digit).1
  exact le_trans (by decide) least

theorem printed_array {texts : List String} (h : ∀ text ∈ texts, Printed text) : Printed (array texts) :=
  ((by simp [Printed] : Printed "[").append (.commas h)).append (by simp [Printed])

theorem printed_object {texts : List String} (h : ∀ text ∈ texts, Printed text) : Printed (object texts) :=
  ((by simp [Printed] : Printed "\x7b").append (.commas h)).append (by simp [Printed])

theorem printed_field {name text : String} (plain : Printed name) (h : Printed text) : Printed (field name text) :=
  (((by simp [Printed] : Printed "\"").append plain).append (by simp [Printed])).append h

/-! ## Pieces -/

/-- The text is how a value is written, nested less than so deep. -/
structure Written (depth : ℕ) (text : String) (value : Value) : Prop where
  reads : Reads (value? depth) text.toList value
  printed : Printed text

/-- The text is how a field is written. -/
structure WrittenField (depth : ℕ) (text : String) (member : String × Value) : Prop where
  reads : Reads (field? (value? depth)) text.toList member
  printed : Printed text
  quoted : text.toList.head? = some '"'

theorem written_quote (depth : ℕ) (text : String) : Written (depth + 1) (quote text) (.string text) :=
  ⟨reads_quote depth text, printed_quote text⟩

theorem written_natural (depth n : ℕ) : Written (depth + 1) (toString n) (.number n) :=
  ⟨reads_natural depth n, printed_natural n⟩

theorem written_strings (depth : ℕ) (texts : List String) :
    Written (depth + 2) (array (texts.map quote)) (.array (texts.map .string)) := by
  refine ⟨reads_array ?_ ?_, printed_array ?_⟩
  · induction texts with
    | nil => exact .nil
    | cons text texts ih => exact .cons (reads_quote depth text) ih
  · exact List.forall_mem_map.mpr fun text _ => head?_quote text
  · exact List.forall_mem_map.mpr fun text _ => printed_quote text

theorem Written.field {depth : ℕ} {name text : String} {value : Value} (h : Written depth text value)
    (plain : quote name = "\"" ++ name ++ "\"") (printed : Printed name) :
    WrittenField depth (Json.field name text) (name, value) :=
  ⟨reads_field plain h.reads, printed_field printed h.printed, head?_field name text⟩

theorem written_object {depth : ℕ} {texts : List String} {fields : List (String × Value)}
    (all : List.Forall₂ (WrittenField depth) texts fields) :
    Written (depth + 1) (object texts) (.object fields) := by
  have reads : List.Forall₂ (Reads (field? (value? depth))) (texts.map String.toList) fields := by
    induction all with
    | nil => exact .nil
    | cons first _ ih => exact .cons first.reads ih
  have each (P : String → Prop) (h : ∀ text member, WrittenField depth text member → P text) :
      ∀ text ∈ texts, P text := by
    clear reads
    induction all with
    | nil => exact fun text mem => absurd mem List.not_mem_nil
    | cons first _ ih => exact List.forall_mem_cons.mpr ⟨h _ _ first, ih⟩
  exact ⟨reads_object reads (each _ fun _ _ => WrittenField.quoted),
    printed_object (each _ fun _ _ => WrittenField.printed)⟩

/-- A text is decoded to the value that is written. -/
theorem Written.decode? {text : String} {value : Value} (h : Written text.length text value) :
    decode? text = some value := by
  have closes : Closes [] := fun c mem => absurd mem (Option.not_mem_none c)
  have read := h.reads [] closes
  rw [List.append_nil] at read
  rw [Json.decode?, read]
  rfl

end Json
end StackScript
