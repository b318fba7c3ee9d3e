import StackScript.Number.Literal
import StackScript.Proofs.Token.Tiling

/-!
# What the scanner produces

A scan ends with its only end marker, and every number token that it makes has the
form of a number literal.
-/

namespace StackScript
namespace Token

/-- A number token denotes a value. -/
def Denotes (t : Token) : Prop := t.kind = .number → (Number.ofLiteral? t.lexeme).isSome

/-! ## Literals -/

/-- A run of digits is a literal. -/
theorem isSome_ofLiteral?_whole {ds : List Char} (digits : ∀ d ∈ ds, d.isDigit) (some : ds ≠ []) :
    (Number.ofLiteral? (String.ofList ds)).isSome := by
  have taken : ds.takeWhile Char.isDigit = ds := List.takeWhile_eq_self_iff.mpr digits
  have dropped : ds.dropWhile Char.isDigit = [] := List.dropWhile_eq_nil_iff.mpr digits
  obtain ⟨d, ds, rfl⟩ := List.exists_cons_of_ne_nil some
  simp only [Number.ofLiteral?, String.toList_ofList, taken, dropped, Option.isSome_some]

/-- So are two runs of digits with a point between them. -/
theorem isSome_ofLiteral?_fraction {ds es : List Char} (digits : ∀ d ∈ ds, d.isDigit)
    (some : ds ≠ []) (digits' : ∀ d ∈ es, d.isDigit) (some' : es ≠ []) :
    (Number.ofLiteral? (String.ofList (ds ++ '.' :: es))).isSome := by
  have taken : (ds ++ '.' :: es).takeWhile Char.isDigit = ds := by
    rw [List.takeWhile_append_of_pos digits]
    simp [Char.isDigit]
  have dropped : (ds ++ '.' :: es).dropWhile Char.isDigit = '.' :: es := by
    rw [List.dropWhile_append_of_pos digits]
    simp [Char.isDigit]
  obtain ⟨d, ds, rfl⟩ := List.exists_cons_of_ne_nil some
  have proper : (es.isEmpty || !es.all Char.isDigit) = false := by
    simpa [some'] using digits'
  simp only [Number.ofLiteral?, String.toList_ofList, taken, dropped, proper,
    Bool.false_eq_true, if_false, Option.isSome_some]

/-- A piece that makes a number is a literal. -/
theorem Front.literal {text slice rest : List Char} {kind : TokenKind}
    (front : Front text ⟨.lexeme kind, slice, rest⟩) (number : kind = .number) :
    (Number.ofLiteral? (String.ofList slice)).isSome := by
  have other {kind' : TokenKind} (same : kind' = kind) (none : kind' ∉ [.eof, .error, .number]) :
      False := by
    rw [same, number] at none
    exact none (by decide)
  cases front with
  | word => exact (other rfl (ofWord_kind _)).elim
  | @whole c body _ first inside =>
      have digits : ∀ d ∈ c :: body, d.isDigit := List.forall_mem_cons.mpr ⟨first, inside⟩
      exact isSome_ofLiteral?_whole digits (List.cons_ne_nil _ _)
  | @fraction c d body more _ first inside point inside' =>
      have digits : ∀ e ∈ c :: body, e.isDigit := List.forall_mem_cons.mpr ⟨first, inside⟩
      have digits' : ∀ e ∈ d :: more, e.isDigit := List.forall_mem_cons.mpr ⟨point, inside'⟩
      rw [← List.cons_append]
      exact isSome_ofLiteral?_fraction digits (List.cons_ne_nil _ _) digits' (List.cons_ne_nil _ _)
  | closed => cases number
  | pair known => exact (other rfl (ofPair_kind known)).elim
  | mark known => exact (other rfl (ofCharacter_kind known)).elim

/-! ## Whole texts -/

theorem denotes_of_mem_scan {source : String} {t : Token} (mem : t ∈ scan source) : t.Denotes := by
  intro number
  obtain ⟨before, slice, rest, -, -, renders⟩ := exists_cuts mem
  cases renders with
  | lexeme front lexeme =>
      rw [lexeme]
      exact front.literal number
  | last kind | unclosed _ kind | stray _ kind =>
      rw [kind] at number
      cases number

/-- The last token marks the end, no other does, and the numbers are literals. -/
theorem scan_eq (source : String) : ∃ ts e, scan source = ts ++ [e] ∧ e.kind = .eof ∧
    ∀ t ∈ ts, t.kind ≠ .eof ∧ t.Denotes := by
  have laid : Laid [] source.toList (scan source) := laid_reading [] source.toList
  obtain ⟨ts, line, read, others⟩ := laid.ended
  refine ⟨ts, _, read, rfl, fun t mem => ⟨others t mem, ?_⟩⟩
  have there : t ∈ scan source := by
    rw [read]
    exact List.mem_append_left _ mem
  exact denotes_of_mem_scan there

end Token
end StackScript
