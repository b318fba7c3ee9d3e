import StackScript.Proofs.Json.Written

/-!
# The JSON form of diagnostics

The JSON form of a diagnostic is one line without control characters, and a decoder reads all
of the diagnostic back from it (`Json.decode?_render`): every text as it is, and each optional
field if and only if there is something to tell.
-/

namespace StackScript
namespace Json

/-- The fields that tell where a label points: none for the span 0..0, and a column only in a known
source. -/
def placeFields (span : Span) (source : Option LineTable) : List (String × Value) :=
  if span = ⟨0, 0⟩ then []
  else [("start", .number span.start), ("end", .number span.stop)] ++
    match source with
    | some source => [("col", .number (source.locate span.start).column)]
    | none => []

/-- What is told of a label. -/
def labelValue (label : Label) (source : Option LineTable) : Value :=
  .object ([("line", .number label.line), ("message", .string label.message)] ++ placeFields label.span source)

/-- What is told of a diagnostic. -/
def diagnosticValue (d : Diagnostic) : Value :=
  .object ([("severity", .string "error"), ("kind", .string d.kind), ("message", .string d.message)] ++
    (match d.label with
      | some label => [("label", labelValue label d.source)]
      | none => []) ++
    [("notes", .array (d.notes.map .string))])

theorem written_label (depth : ℕ) (label : Label) (source : Option LineTable) :
    Written (depth + 2) (labelObject label source) (labelValue label source) := by
  have place : List.Forall₂ (WrittenField (depth + 1)) (spanFields label source)
      (placeFields label.span source) := by
    have known : label.span.isKnown = true ↔ label.span ≠ ⟨0, 0⟩ := bne_iff_ne
    unfold spanFields placeFields
    by_cases unknown : label.span = ⟨0, 0⟩
    · rw [if_pos unknown, if_neg (mt known.mp (not_not.mpr unknown))]
      exact .nil
    · rw [if_neg unknown, if_pos (known.mpr unknown)]
      refine .cons ((written_natural depth _).field rfl (by simp [Printed]))
        (.cons ((written_natural depth _).field rfl (by simp [Printed])) ?_)
      cases source with
      | none => exact .nil
      | some => exact .cons ((written_natural depth _).field rfl (by simp [Printed])) .nil
  exact written_object (.cons ((written_natural depth _).field rfl (by simp [Printed]))
    (.cons ((written_quote depth _).field rfl (by simp [Printed])) place))

theorem written_render (depth : ℕ) (d : Diagnostic) : Written (depth + 3) (render d) (diagnosticValue d) := by
  have label : List.Forall₂ (WrittenField (depth + 2))
      (match d.label with
        | some label => [field "label" (labelObject label d.source)]
        | none => [])
      (match d.label with
        | some label => [("label", labelValue label d.source)]
        | none => []) := by
    cases d.label with
    | none => exact .nil
    | some label => exact .cons ((written_label depth label d.source).field rfl (by simp [Printed])) .nil
  refine written_object (.cons ((written_quote _ "error").field rfl (by simp [Printed]))
    (.cons ((written_quote _ d.kind).field rfl (by simp [Printed]))
      (.cons ((written_quote _ d.message).field rfl (by simp [Printed])) ?_)))
  exact List.rel_append label (.cons ((written_strings depth d.notes).field rfl (by simp [Printed])) .nil)

/-- A decoder reads all of a diagnostic back from its JSON form, which has no control character. -/
theorem decode?_render (d : Diagnostic) :
    decode? (render d) = some (diagnosticValue d) ∧ ∀ c ∈ (render d).toList, 0x20 ≤ c.toNat := by
  -- The text is longer than its value is deep.
  obtain ⟨depth, long⟩ : ∃ depth, (render d).length = depth + 3 := by
    refine Nat.exists_eq_add_of_le' ?_
    simp only [render, object, field, List.cons_append, String.intercalate_cons_cons, String.length_append]
    have severity : "severity".length = 8 := rfl
    omega
  have written := written_render depth d
  rw [← long] at written
  exact ⟨written.decode?, written.printed⟩

end Json
end StackScript
