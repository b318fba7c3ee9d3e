import StackScript.Proofs.Shape.Part

/-!
# What stands above the variables

Above the variables in scope there are temporary values only, unless a global constant is
about to be defined.
-/

namespace StackScript

/-- A note as there may be in a routine. -/
def Note.Lawful (note : Note) : Prop :=
  (∀ x ∈ note.above, x = .temporary) ∨
    ∃ name, note.above = [.sealed] ∧ note.mention = some (.define name false)

section

variable {above : List Slot} {scope : List Binding}

theorem Note.lawful_plain (temporary : ∀ x ∈ above, x = .temporary) :
    (Note.plain above scope).Lawful := .inl temporary

theorem Note.lawful_bare : (Note.plain [] scope).Lawful := lawful_plain (by simp)

theorem Note.lawful_single : (Note.plain [.temporary] scope).Lawful := lawful_plain (by simp)

/-- A global variable is defined. -/
theorem Note.lawful_define (name : String) (assignable : Bool) :
    Note.Lawful ⟨[if assignable then .temporary else .sealed], scope,
      some (.define name assignable)⟩ := by
  cases assignable with
  | true => exact .inl (by simp)
  | false => exact .inr ⟨name, rfl, rfl⟩

/-- One more temporary value. -/
theorem temporary_cons (h : ∀ x ∈ above, x = .temporary) :
    ∀ x ∈ Slot.temporary :: above, x = .temporary := List.forall_mem_cons.mpr ⟨rfl, h⟩

theorem BinaryOperator.lawful_notes (op : BinaryOperator)
    (temporary : ∀ x ∈ above, x = .temporary) : ∀ note ∈ op.notes above scope, note.Lawful := by
  have one := temporary_cons temporary
  refine List.forall_mem_cons.mpr ⟨Note.lawful_plain (temporary_cons one), fun note mem => ?_⟩
  obtain ⟨-, -, rfl⟩ := List.mem_map.mp mem
  exact Note.lawful_plain one

mutual

theorem Expression.lawful_notes {above : List Slot} (temporary : ∀ x ∈ above, x = .temporary) :
    (e : Expression) → ∀ note ∈ e.notes above scope, note.Lawful
  | .null | .boolean _ | .number _ | .string _ | .variable _ =>
      List.forall_mem_singleton.mpr (.inl temporary)
  | .grouping e => e.lawful_notes temporary
  | .unary _ e | .assign _ e => by
      rw [Expression.notes, List.forall_mem_append, List.forall_mem_singleton]
      exact ⟨e.lawful_notes temporary, .inl (temporary_cons temporary)⟩
  | .binary op a b => by
      rw [Expression.notes, List.forall_mem_append, List.forall_mem_append]
      exact ⟨⟨a.lawful_notes temporary, b.lawful_notes (temporary_cons temporary)⟩,
        op.lawful_notes temporary⟩
  | .and a b => by
      have plain : (Note.plain (.temporary :: above) scope).Lawful := .inl (temporary_cons temporary)
      rw [Expression.notes, List.forall_mem_append, List.forall_mem_cons, List.forall_mem_cons]
      exact ⟨a.lawful_notes temporary, plain, plain, b.lawful_notes temporary⟩
  | .or a b => by
      have plain : (Note.plain (.temporary :: above) scope).Lawful := .inl (temporary_cons temporary)
      rw [Expression.notes, List.forall_mem_append, List.forall_mem_cons, List.forall_mem_cons,
        List.forall_mem_cons]
      exact ⟨a.lawful_notes temporary, plain, plain, plain, b.lawful_notes temporary⟩
  | .call f es => by
      rw [Expression.notes, List.forall_mem_append, List.forall_mem_append,
        List.forall_mem_singleton]
      refine ⟨⟨f.lawful_notes temporary, Expression.lawful_listNotes (temporary_cons temporary) es⟩,
        .inl (List.forall_mem_append.mpr ⟨fun x mem => List.eq_of_mem_replicate mem, ?_⟩)⟩
      exact temporary_cons temporary

theorem Expression.lawful_listNotes {above : List Slot} (temporary : ∀ x ∈ above, x = .temporary) :
    (es : List Expression) → ∀ note ∈ Expression.listNotes above scope es, note.Lawful
  | [] => by simp [Expression.listNotes]
  | e :: es => by
      rw [Expression.listNotes, List.forall_mem_append]
      exact ⟨e.lawful_notes temporary, Expression.lawful_listNotes (temporary_cons temporary) es⟩

end

/-! ## Statements -/

variable (scope)

theorem lawful_initialNotes (init : Option Expression) :
    ∀ note ∈ initialNotes scope init, note.Lawful := by
  cases init with
  | none => exact List.forall_mem_singleton.mpr Note.lawful_bare
  | some e => exact e.lawful_notes (by simp)

theorem lawful_markingNotes (assignable : Bool) :
    ∀ note ∈ markingNotes assignable scope, note.Lawful := by
  cases assignable with
  | true => simp [markingNotes]
  | false => exact List.forall_mem_singleton.mpr Note.lawful_single

theorem lawful_dropNotes (count : Nat) : ∀ note ∈ dropNotes count scope, note.Lawful := by
  induction count generalizing scope with
  | zero => simp [dropNotes]
  | succ count ih => exact List.forall_mem_cons.mpr ⟨Note.lawful_bare, ih scope.tail⟩

theorem lawful_testNotes (test : Option Expression) :
    ∀ note ∈ testNotes scope test, note.Lawful := by
  cases test with
  | none => simp [testNotes]
  | some e =>
      rw [testNotes, List.forall_mem_append, List.forall_mem_cons, List.forall_mem_singleton]
      exact ⟨e.lawful_notes (by simp), Note.lawful_single, Note.lawful_single⟩

theorem lawful_stepNotes (step : Option Expression) :
    ∀ note ∈ stepNotes scope step, note.Lawful := by
  cases step with
  | none => simp [stepNotes]
  | some e =>
      rw [stepNotes, List.forall_mem_cons, List.forall_mem_append, List.forall_mem_cons,
        List.forall_mem_singleton]
      exact ⟨Note.lawful_bare, e.lawful_notes (by simp), Note.lawful_single, Note.lawful_bare⟩

theorem lawful_exitNotes (test : Option Expression) :
    ∀ note ∈ exitNotes scope test, note.Lawful := by
  cases test with
  | none => simp [exitNotes]
  | some e => exact List.forall_mem_singleton.mpr Note.lawful_single

/-- All notes on a statement are lawful. -/
theorem Statement.lawful_noted (s : Statement) (view : View) :
    ∀ note ∈ (s.noted view).notes, note.Lawful := by
  induction s generalizing view with
  | done => simp [Statement.noted]
  | next a b first rest =>
      rw [Statement.noted, List.forall_mem_append]
      exact ⟨first view, rest _⟩
  | print e | expression e =>
      rw [Statement.noted, List.forall_mem_append, List.forall_mem_singleton]
      exact ⟨e.lawful_notes (by simp), Note.lawful_single⟩
  | declare assignable name init =>
      have value := List.forall_mem_append.mpr
        ⟨lawful_initialNotes view.scope init, lawful_markingNotes view.scope assignable⟩
      simp only [Statement.noted]
      split
      · exact List.forall_mem_append.mpr ⟨value,
          List.forall_mem_singleton.mpr (Note.lawful_define name assignable)⟩
      · exact value
  | block s ih =>
      rw [Statement.noted, List.forall_mem_append]
      exact ⟨ih _, lawful_dropNotes _ _⟩
  | choose c s t yes no =>
      simp only [Statement.noted, List.forall_mem_append, List.forall_mem_cons]
      exact ⟨⟨⟨⟨c.lawful_notes (by simp), Note.lawful_single, Note.lawful_single, by simp⟩, yes _⟩,
        Note.lawful_bare, Note.lawful_single, by simp⟩, no _⟩
  | loop test step s ih =>
      simp only [Statement.noted, List.forall_mem_append, List.forall_mem_cons]
      exact ⟨⟨⟨lawful_testNotes view.scope test, lawful_stepNotes view.scope step⟩, ih _⟩,
        Note.lawful_bare, lawful_exitNotes view.scope test⟩
  | leave | again =>
      rw [Statement.noted, List.forall_mem_append, List.forall_mem_singleton]
      exact ⟨lawful_dropNotes _ _, Note.lawful_bare⟩
  | giveBack value =>
      rw [Statement.noted, List.forall_mem_append, List.forall_mem_singleton]
      exact ⟨lawful_initialNotes view.scope value, Note.lawful_single⟩
  | define name parameters s =>
      simp only [Statement.noted]
      split
      · exact List.forall_mem_cons.mpr ⟨Note.lawful_bare,
          List.forall_mem_singleton.mpr (Note.lawful_define name true)⟩
      · exact List.forall_mem_singleton.mpr Note.lawful_bare

end

/-! ## Routines -/

theorem mem_of_noteAt {offset pc : Nat} {code : List Asm} {notes : List Note} {note : Note}
    (h : noteAt offset code notes pc = some note) : note ∈ notes := by
  induction code generalizing offset notes with
  | nil => cases h
  | cons a code ih =>
      cases notes with
      | nil => cases h
      | cons first notes =>
          rw [noteAt] at h
          split at h
          · obtain rfl := Option.some.inj h
            exact List.mem_cons_self ..
          · exact List.mem_cons_of_mem _ (ih h)

/-- The notes on a routine are lawful. -/
theorem Part.lawful {layout : Layout} {p : Part} {pc : Nat} {note : Note}
    (there : p.noteAt layout pc = some note) : note.Lawful := by
  rcases List.mem_append.mp (mem_of_noteAt there) with mem | mem
  · exact p.body.lawful_noted p.view note mem
  · cases ending : p.ending with
    | «sealed» =>
        rw [ending] at mem
        cases mem
    | untouched | unsealed =>
        rw [ending] at mem
        rcases List.mem_cons.mp mem with rfl | mem
        · exact Note.lawful_bare
        · obtain rfl := List.mem_singleton.mp mem
          exact Note.lawful_single

end StackScript
