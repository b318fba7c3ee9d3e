import StackScript.Proofs.Shape.Lawful

/-!
# Identifiers and their scopes

Scopes are lexical: which declaration an identifier refers to depends on the tree alone.
`Statement.occurrences` lists the identifiers in the expressions of a statement in the order
of the code, each with the variables of its function that are in scope there.  The notes
on a routine mention just these (`Part.occurrences_accesses`).
-/

namespace StackScript

/-- An identifier in an expression. -/
structure Occurrence where
  name : String
  /-- Whether there is an assignment to it. -/
  written : Bool
  /-- The variables of the function that are in scope, the newest first.  The last of them is the function
  itself, which has no name there. -/
  scope : List String
deriving DecidableEq, Repr

/-- Slot of the innermost variable of a name: the number of older ones. -/
def slotIn (name : String) : List String → Option Nat
  | [] => none
  | newest :: older => if newest = name then some older.length else slotIn name older

namespace Occurrence

/-- The slot of the variable that is referred to, if it is one of the function. -/
def slot? (o : Occurrence) : Option Nat := slotIn o.name o.scope

/-- The instruction for a variable of the function. -/
def localOp (o : Occurrence) : Opcode := if o.written then .setLocal else .getLocal

/-- The instruction for a global variable, in its short form. -/
def globalOp (o : Occurrence) : Opcode := if o.written then .setGlobal else .getGlobal

end Occurrence

mutual

/-- The identifiers in an expression. -/
def Expression.occurrences (scope : List String) : Expression → List Occurrence
  | .null | .boolean _ | .number _ | .string _ => []
  | .variable name => [⟨name, false, scope⟩]
  | .grouping e | .unary _ e => e.occurrences scope
  | .binary _ a b | .and a b | .or a b => a.occurrences scope ++ b.occurrences scope
  | .assign name e => e.occurrences scope ++ [⟨name, true, scope⟩]
  | .call f es => f.occurrences scope ++ Expression.listOccurrences scope es

/-- The identifiers in expressions one after the other. -/
def Expression.listOccurrences (scope : List String) : List Expression → List Occurrence
  | [] => []
  | e :: es => e.occurrences scope ++ Expression.listOccurrences scope es

end

/-- The identifiers in a clause that may be left out. -/
def clauseOccurrences (scope : List String) : Option Expression → List Occurrence
  | none => []
  | some e => e.occurrences scope

/-- The identifiers in the expressions of a statement, but not those in functions declared
in it. -/
def Statement.occurrences (scope : List String) (depth : Nat) : Statement → List Occurrence
  | .done | .leave | .again | .define .. => []
  | .next a b =>
      a.occurrences scope depth ++
        b.occurrences ((a.declared depth).map LocalVariable.name ++ scope) depth
  | .print e | .expression e => e.occurrences scope
  | .declare _ _ init => clauseOccurrences scope init
  | .block s => s.occurrences scope (depth + 1)
  | .choose c s t => c.occurrences scope ++ s.occurrences scope depth ++ t.occurrences scope depth
  | .loop test step s =>
      clauseOccurrences scope test ++ clauseOccurrences scope step ++ s.occurrences scope depth
  | .giveBack value => clauseOccurrences scope value

/-! ## Notes mention what occurs -/

/-- The identifier that a note is about. -/
def Note.occurrence? (note : Note) : Option Occurrence :=
  match note.mention with
  | some (.read name) => some ⟨name, false, note.scope.map Binding.name⟩
  | some (.write name) => some ⟨name, true, note.scope.map Binding.name⟩
  | _ => none

/-- The identifiers that notes are about. -/
def occurrencesOf (notes : List Note) : List Occurrence := notes.filterMap Note.occurrence?

section

variable (above : List Slot) (scope : List Binding)

@[simp] theorem occurrencesOf_nil : occurrencesOf [] = [] := rfl

@[simp] theorem occurrencesOf_plain (notes : List Note) :
    occurrencesOf (.plain above scope :: notes) = occurrencesOf notes := rfl

@[simp] theorem occurrencesOf_append (notes others : List Note) :
    occurrencesOf (notes ++ others) = occurrencesOf notes ++ occurrencesOf others :=
  List.filterMap_append

@[simp] theorem BinaryOperator.occurrencesOf_notes (op : BinaryOperator) :
    occurrencesOf (op.notes above scope) = [] := by
  cases op <;> rfl

mutual

/-- The notes on an expression are about the identifiers in it. -/
theorem Expression.occurrencesOf_notes (above : List Slot) : (e : Expression) →
    occurrencesOf (e.notes above scope) = e.occurrences (scope.map Binding.name)
  | .null | .boolean _ | .number _ | .string _ | .variable _ => rfl
  | .grouping e => e.occurrencesOf_notes above
  | .unary _ e => by simp [Expression.notes, Expression.occurrences, e.occurrencesOf_notes above]
  | .binary op a b => by
      simp [Expression.notes, Expression.occurrences, a.occurrencesOf_notes above,
        b.occurrencesOf_notes (.temporary :: above)]
  | .and a b | .or a b => by
      simp [Expression.notes, Expression.occurrences, a.occurrencesOf_notes above,
        b.occurrencesOf_notes above]
  | .assign name e => by
      rw [Expression.notes, occurrencesOf_append, e.occurrencesOf_notes above]
      rfl
  | .call f es => by
      simp [Expression.notes, Expression.occurrences, f.occurrencesOf_notes above,
        Expression.occurrencesOf_listNotes (.temporary :: above) es]

theorem Expression.occurrencesOf_listNotes (above : List Slot) : (es : List Expression) →
    occurrencesOf (Expression.listNotes above scope es) =
      Expression.listOccurrences (scope.map Binding.name) es
  | [] => rfl
  | e :: es => by
      simp [Expression.listNotes, Expression.listOccurrences, e.occurrencesOf_notes above,
        Expression.occurrencesOf_listNotes (.temporary :: above) es]

end

@[simp] theorem occurrencesOf_initialNotes (init : Option Expression) :
    occurrencesOf (initialNotes scope init) = clauseOccurrences (scope.map Binding.name) init := by
  cases init with
  | none => rfl
  | some e => exact e.occurrencesOf_notes scope []

@[simp] theorem occurrencesOf_markingNotes (assignable : Bool) :
    occurrencesOf (markingNotes assignable scope) = [] := by
  cases assignable <;> rfl

@[simp] theorem occurrencesOf_dropNotes (count : Nat) : occurrencesOf (dropNotes count scope) = [] := by
  induction count generalizing scope with
  | zero => rfl
  | succ count ih => exact ih scope.tail

@[simp] theorem occurrencesOf_testNotes (test : Option Expression) :
    occurrencesOf (testNotes scope test) = clauseOccurrences (scope.map Binding.name) test := by
  cases test with
  | none => rfl
  | some e => simp [testNotes, clauseOccurrences, e.occurrencesOf_notes]

@[simp] theorem occurrencesOf_stepNotes (step : Option Expression) :
    occurrencesOf (stepNotes scope step) = clauseOccurrences (scope.map Binding.name) step := by
  cases step with
  | none => rfl
  | some e => simp [stepNotes, clauseOccurrences, e.occurrencesOf_notes]

@[simp] theorem occurrencesOf_exitNotes (test : Option Expression) :
    occurrencesOf (exitNotes scope test) = [] := by
  cases test <;> rfl

@[simp] theorem Ending.occurrencesOf_closingNotes (ending : Ending) :
    occurrencesOf (ending.closingNotes scope) = [] := by
  cases ending <;> rfl

end

/-- The notes on a statement are about the identifiers in it. -/
theorem Statement.occurrencesOf_noted (s : Statement) (view : View) :
    occurrencesOf (s.noted view).notes = s.occurrences (view.scope.map Binding.name) view.depth := by
  induction s generalizing view with
  | done | leave | again => simp [Statement.noted, Statement.occurrences]
  | next a b first rest =>
      obtain ⟨new, same, names⟩ := a.scope_noted view
      have scope : (a.noted view).scope.map Binding.name =
          (a.declared view.depth).map LocalVariable.name ++ view.scope.map Binding.name := by
        rw [same, List.map_append, names]
      have behind := rest (view.after (a.noted view).notes.length (a.noted view).scope)
      simp only [View.after, scope] at behind
      simp only [Statement.noted, Statement.occurrences, occurrencesOf_append, first, View.after,
        behind]
  | print e | expression e =>
      simp [Statement.noted, Statement.occurrences, e.occurrencesOf_notes]
  | declare assignable name init =>
      have define (above : List Slot) : occurrencesOf [⟨above, view.scope,
          some (.define name assignable)⟩] = [] := rfl
      simp only [Statement.noted, Statement.occurrences]
      split <;> simp [define]
  | block s ih =>
      have inside : occurrencesOf (s.noted view.inner).notes =
          s.occurrences (view.scope.map Binding.name) (view.depth + 1) := ih view.inner
      simp [Statement.noted, Statement.occurrences, inside]
  | choose c s t yes no =>
      simp [Statement.noted, Statement.occurrences, c.occurrencesOf_notes, yes, no, View.after]
  | loop test step s ih =>
      simp [Statement.noted, Statement.occurrences, ih, View.after, View.looped]
  | giveBack value => simp [Statement.noted, Statement.occurrences]
  | define name parameters s =>
      simp only [Statement.noted, Statement.occurrences]
      split <;> rfl

/-! ## The instructions on identifiers -/

/-- Instructions by offset, each with its note. -/
def placed : (offset : Nat) → List Asm → List Note → List (Nat × Note)
  | offset, a :: code, note :: notes => (offset, note) :: placed (offset + a.size) code notes
  | _, _, _ => []

theorem noteAt_of_placed {offset pc : Nat} {code : List Asm} {notes : List Note} {note : Note}
    (mem : (pc, note) ∈ placed offset code notes) :
    offset ≤ pc ∧ noteAt offset code notes pc = some note := by
  induction code generalizing offset notes with
  | nil => cases mem
  | cons a code ih =>
      cases notes with
      | nil => cases mem
      | cons first notes =>
          have pos := a.size_pos
          rw [noteAt]
          rcases List.mem_cons.mp mem with same | mem
          · cases same
            exact ⟨Nat.le_refl _, if_pos rfl⟩
          · obtain ⟨behind, found⟩ := ih mem
            exact ⟨by omega, by rw [if_neg (by omega), found]⟩

theorem placed_of_noteAt {offset pc : Nat} {code : List Asm} {notes : List Note} {note : Note}
    (there : noteAt offset code notes pc = some note) : (pc, note) ∈ placed offset code notes := by
  induction code generalizing offset notes with
  | nil => cases there
  | cons a code ih =>
      cases notes with
      | nil => cases there
      | cons first notes =>
          rw [noteAt] at there
          split at there
          · rename_i same
            cases same
            cases there
            exact List.mem_cons_self ..
          · exact List.mem_cons_of_mem _ (ih there)

theorem map_snd_placed (offset : Nat) {code : List Asm} {notes : List Note}
    (length : notes.length = code.length) : (placed offset code notes).map Prod.snd = notes := by
  induction code generalizing offset notes with
  | nil => rw [List.eq_nil_of_length_eq_zero length]; rfl
  | cons a code ih =>
      cases notes with
      | nil => cases length
      | cons note notes => exact congrArg _ (ih _ (Nat.succ.inj length))

namespace Part

variable (layout : Layout) (p : Part)

/-- The instructions on identifiers in a routine, by offset. -/
def accesses : List (Nat × Occurrence) :=
  (placed 0 (p.code layout) p.notes).filterMap fun place => place.2.occurrence?.map (place.1, ·)

/-- The variables of the function in scope where its body begins. -/
def names : List String := p.place.locals.map LocalVariable.name

/-- The identifiers in the expressions of the function. -/
def occurrences : List Occurrence := p.body.occurrences p.names p.place.depth

variable {layout} {p}

theorem noteAt_of_access {pc : Nat} {o : Occurrence} (mem : (pc, o) ∈ p.accesses layout) :
    ∃ note, p.noteAt layout pc = some note ∧ note.occurrence? = some o := by
  obtain ⟨⟨pc', note⟩, inside, found⟩ := List.mem_filterMap.mp mem
  obtain ⟨o', about, same⟩ := Option.map_eq_some_iff.mp found
  cases same
  exact ⟨note, (noteAt_of_placed inside).2, about⟩

/-- No instruction on an identifier is left out. -/
theorem access_of_noteAt {pc : Nat} {note : Note} {o : Occurrence}
    (there : p.noteAt layout pc = some note) (about : note.occurrence? = some o) :
    (pc, o) ∈ p.accesses layout :=
  List.mem_filterMap.mpr ⟨(pc, note), placed_of_noteAt there, by rw [about]; rfl⟩

/-- The notes are about the identifiers. -/
theorem occurrencesOf_notes (p : Part) : occurrencesOf p.notes = p.occurrences := by
  have scope : p.view.scope.map Binding.name = p.names := by simp [view, names]
  rw [Part.notes, occurrencesOf_append, Ending.occurrencesOf_closingNotes, List.append_nil,
    p.body.occurrencesOf_noted, scope]
  rfl

/-- There is one instruction for each identifier, in the order of the tree. -/
theorem occurrences_accesses (h : p.Fine layout) :
    (p.accesses layout).map Prod.snd = p.occurrences := by
  rw [← p.occurrencesOf_notes, accesses, List.map_filterMap, occurrencesOf]
  conv_rhs => rw [← map_snd_placed 0 h.length_notes, List.filterMap_map]
  congr 1
  funext place
  simp [Function.comp_def]

end Part

end StackScript
