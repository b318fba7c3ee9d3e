import StackScript.Proofs.Shape.Lawful

/-!
# What stays at the bottom

The variables with which a routine begins, its parameters and itself, stay in scope all over
the routine: blocks and loops give back only what was declared inside them.
-/

namespace StackScript

/-- Some variables stay below all that is in scope at these instructions. -/
def Over (floor : List Binding) (notes : List Note) : Prop := ∀ note ∈ notes, floor <:+ note.scope

section

variable {floor scope : List Binding} {notes more : List Note}

theorem over_append : Over floor (notes ++ more) ↔ Over floor notes ∧ Over floor more :=
  List.forall_mem_append

theorem over_cons {note : Note} : Over floor (note :: notes) ↔ floor <:+ note.scope ∧ Over floor notes :=
  List.forall_mem_cons

theorem over_nil : Over floor [] := fun note mem => by cases mem

/-- One instruction. -/
theorem over_single {note : Note} (below : floor <:+ note.scope) : Over floor [note] :=
  over_cons.mpr ⟨below, over_nil⟩

variable (below : floor <:+ scope)

include below

theorem BinaryOperator.over_notes (op : BinaryOperator) (above : List Slot) :
    Over floor (op.notes above scope) := by
  refine over_cons.mpr ⟨below, fun note mem => ?_⟩
  obtain ⟨-, -, rfl⟩ := List.mem_map.mp mem
  exact below

omit below in
mutual

/-- An expression leaves the variables in scope. -/
theorem Expression.over_notes (below : floor <:+ scope) (above : List Slot) :
    (e : Expression) → Over floor (e.notes above scope)
  | .null | .boolean _ | .number _ | .string _ | .variable _ => over_single below
  | .grouping e => e.over_notes below above
  | .unary _ e | .assign _ e => over_append.mpr ⟨e.over_notes below above, over_single below⟩
  | .binary op a b =>
      over_append.mpr ⟨over_append.mpr ⟨a.over_notes below above, b.over_notes below _⟩,
        op.over_notes below above⟩
  | .and a b =>
      over_append.mpr ⟨a.over_notes below above,
        over_cons.mpr ⟨below, over_cons.mpr ⟨below, b.over_notes below above⟩⟩⟩
  | .or a b =>
      over_append.mpr ⟨a.over_notes below above, over_cons.mpr ⟨below, over_cons.mpr ⟨below,
        over_cons.mpr ⟨below, b.over_notes below above⟩⟩⟩⟩
  | .call f es =>
      over_append.mpr ⟨over_append.mpr ⟨f.over_notes below above,
        Expression.over_listNotes below _ es⟩, over_single below⟩

theorem Expression.over_listNotes (below : floor <:+ scope) (above : List Slot) :
    (es : List Expression) → Over floor (Expression.listNotes above scope es)
  | [] => over_nil
  | e :: es => over_append.mpr ⟨e.over_notes below above, Expression.over_listNotes below _ es⟩

end

theorem over_initialNotes (init : Option Expression) : Over floor (initialNotes scope init) := by
  cases init with
  | none => exact over_single below
  | some e => exact e.over_notes below []

theorem over_markingNotes (assignable : Bool) : Over floor (markingNotes assignable scope) := by
  cases assignable with
  | true => exact over_nil
  | false => exact over_single below

/-- Dropping variables as long as enough are left. -/
theorem over_dropNotes {count : Nat} (enough : floor.length + count ≤ scope.length) :
    Over floor (dropNotes count scope) := by
  induction count generalizing scope with
  | zero => exact over_nil
  | succ count ih =>
      cases scope with
      | nil => simp at enough
      | cons newest older =>
          have shorter : floor.length ≤ older.length := by
            rw [List.length_cons] at enough
            omega
          have rest := List.suffix_of_suffix_length_le below (List.suffix_cons newest older) shorter
          refine over_cons.mpr ⟨below, ih rest ?_⟩
          rw [List.length_cons] at enough
          show _ ≤ older.length
          omega

theorem over_testNotes (test : Option Expression) : Over floor (testNotes scope test) := by
  cases test with
  | none => exact over_nil
  | some e => exact over_append.mpr ⟨e.over_notes below [], over_cons.mpr ⟨below, over_single below⟩⟩

theorem over_stepNotes (step : Option Expression) : Over floor (stepNotes scope step) := by
  cases step with
  | none => exact over_nil
  | some e =>
      exact over_cons.mpr ⟨below, over_append.mpr ⟨e.over_notes below [],
        over_cons.mpr ⟨below, over_single below⟩⟩⟩

theorem over_exitNotes (test : Option Expression) : Over floor (exitNotes scope test) := by
  cases test with
  | none => exact over_nil
  | some e => exact over_single below

end

/-- A statement leaves the variables around it in scope, provided that the innermost loop does,
if it may lead out of that. -/
theorem Statement.over_noted {floor : List Binding} (s : Statement) {view : View}
    (below : floor <:+ view.scope) (keep : s.Closed ∨ floor.length ≤ view.keep) :
    Over floor (s.noted view).notes := by
  induction s generalizing view with
  | done => exact over_nil
  | next a b first rest =>
      have after : floor <:+ (a.noted view).scope := by
        obtain ⟨new, same, -⟩ := a.scope_noted view
        rw [same]
        exact below.trans (List.suffix_append _ _)
      exact over_append.mpr ⟨first below (keep.imp And.left id), rest after (keep.imp And.right id)⟩
  | print e | expression e => exact over_append.mpr ⟨e.over_notes below [], over_single below⟩
  | declare assignable name init =>
      have value := over_append.mpr ⟨over_initialNotes below init, over_markingNotes below assignable⟩
      simp only [Statement.noted]
      split
      · exact over_append.mpr ⟨value, over_single below⟩
      · exact value
  | block s ih =>
      obtain ⟨new, same, -⟩ := s.scope_noted view.inner
      replace same : (s.noted view.inner).scope = new ++ view.scope := same
      have short := below.length_le
      refine over_append.mpr ⟨ih below keep, ?_⟩
      rw [same]
      refine over_dropNotes (below.trans (List.suffix_append _ _)) ?_
      rw [List.length_append]
      omega
  | choose c s t yes no =>
      simp only [Statement.noted]
      refine over_append.mpr ⟨over_append.mpr ⟨over_append.mpr ⟨over_append.mpr
        ⟨c.over_notes below [], over_cons.mpr ⟨below, over_single below⟩⟩,
          yes below (keep.imp And.left id)⟩, over_cons.mpr ⟨below, over_single below⟩⟩,
            no below (keep.imp And.right id)⟩
  | loop test step s ih =>
      simp only [Statement.noted]
      exact over_append.mpr ⟨over_append.mpr ⟨over_append.mpr
        ⟨over_testNotes below test, over_stepNotes below step⟩, ih below (.inr below.length_le)⟩,
          over_cons.mpr ⟨below, over_exitNotes below test⟩⟩
  | leave | again =>
      have short := below.length_le
      -- a jump out drops down to what the loop keeps, which is above the floor
      have room := keep.resolve_left id
      have enough : floor.length + (view.scope.length - view.keep) ≤ view.scope.length := by omega
      refine over_append.mpr ⟨over_dropNotes below enough, over_single ?_⟩
      refine List.suffix_of_suffix_length_le below (List.drop_suffix _ _) ?_
      show floor.length ≤ (view.scope.drop _).length
      rw [List.length_drop]
      omega
  | giveBack value => exact over_append.mpr ⟨over_initialNotes below value, over_single below⟩
  | define name parameters s =>
      simp only [Statement.noted]
      split
      · exact over_cons.mpr ⟨below, over_single below⟩
      · exact over_single below

/-- The variables with which a routine begins are in scope at each of its instructions. -/
theorem Part.Fine.over {layout : Layout} {p : Part} (h : p.Fine layout) {pc : Nat} {note : Note}
    (there : p.noteAt layout pc = some note) : p.view.scope <:+ note.scope := by
  have after : p.view.scope <:+ (p.body.noted p.view).scope := by
    obtain ⟨new, same, -⟩ := p.body.scope_noted p.view
    rw [same]
    exact List.suffix_append _ _
  have closing : Over p.view.scope (p.ending.closingNotes (p.body.noted p.view).scope) := by
    cases p.ending with
    | «sealed» => exact over_nil
    | untouched | unsealed => exact over_cons.mpr ⟨after, over_single after⟩
  have whole : Over p.view.scope p.notes :=
    over_append.mpr ⟨p.body.over_noted (List.suffix_refl _) (.inl h.closed), closing⟩
  exact whole note (mem_of_noteAt there)

/-- A routine always has the slot for itself in scope. -/
theorem Part.Fine.scope_ne_nil {layout : Layout} {p : Part} (h : p.Fine layout) {pc : Nat} {note : Note}
    (there : p.noteAt layout pc = some note) : note.scope ≠ [] := by
  intro none
  have short := (h.over there).length_le
  rw [none, Part.view, List.length_map, h.slots] at short
  simp at short

/-- Below values that are in no variable there are variables. -/
theorem Note.rest_ne_nil {note : Note} {front rest : List Slot} (scope : note.scope ≠ [])
    (top : note.shape = front ++ rest) (unbound : ∀ b, Slot.bound b ∉ front) : rest ≠ [] := by
  rintro rfl
  obtain ⟨b, older, same⟩ := List.exists_cons_of_ne_nil scope
  refine unbound b ?_
  rw [List.append_nil, Note.shape, same] at top
  rw [← top]
  exact List.mem_append_right _ (List.mem_cons_self ..)

end StackScript
