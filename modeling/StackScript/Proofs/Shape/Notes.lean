import StackScript.Proofs.Code.Scopes

/-!
# What stands on the stack

The part of the stack that belongs to a call holds the variables in scope, one above
the other, and on top of them the values of the expressions being evaluated.  Which
these are depends on the place in the tree alone.  `Statement.noted` goes through a tree
as `Statement.code` does, and for each instruction notes what stands on the stack when
it begins and which variable it is about.

Scopes are lexical here: a declaration is in scope from behind its initializer to the
end of the block around it, and hides older ones of the same name.
-/

namespace StackScript

/-- A declared variable, a parameter, or the slot of the routine itself, which has no
name. -/
structure Binding where
  name : String
  /-- Whether the variable may be assigned to. -/
  assignable : Bool
  /-- Number of instructions of the routine before the first that finds the variable in
  its slot. -/
  site : Nat
deriving DecidableEq, Repr

/-- Slot and declaration of the innermost variable of a name; the newest comes first. -/
def innermost (name : String) : List Binding → Option (Nat × Binding)
  | [] => none
  | b :: older => if b.name = name then some (older.length, b) else innermost name older

/-- What a value on the stack is there for. -/
inductive Slot where
  /-- It is the value of an expression. -/
  | temporary
  /-- It has been marked as constant, to be bound to a name. -/
  | sealed
  /-- It is the value of a variable. -/
  | bound (b : Binding)
deriving DecidableEq, Repr

/-- Which variable an instruction is about. -/
inductive Mention where
  | read (name : String)
  | write (name : String)
  /-- A global variable is defined. -/
  | define (name : String) (assignable : Bool)
deriving DecidableEq, Repr

/-- What stands on the stack when an instruction begins, and what it is about. -/
structure Note where
  /-- Values above the variables, the top first. -/
  above : List Slot
  /-- Variables in scope, the newest first. -/
  scope : List Binding
  mention : Option Mention
deriving DecidableEq, Repr

namespace Note

/-- A note on an instruction that is about no variable. -/
def plain (above : List Slot) (scope : List Binding) : Note := ⟨above, scope, none⟩

/-- All that stands on the stack, the top first. -/
def shape (note : Note) : List Slot := note.above ++ note.scope.map .bound

@[simp] theorem shape_plain (above : List Slot) (scope : List Binding) :
    (plain above scope).shape = above ++ scope.map .bound := rfl

end Note

/-! ## Expressions -/

/-- Notes on the instructions of an operator. -/
def BinaryOperator.notes (op : BinaryOperator) (above : List Slot) (scope : List Binding) :
    List Note :=
  .plain (.temporary :: .temporary :: above) scope ::
    op.code.tail.map fun _ => .plain (.temporary :: above) scope

mutual

/-- Notes on the instructions of an expression. -/
def Expression.notes (above : List Slot) (scope : List Binding) : Expression → List Note
  | .null | .boolean _ | .number _ | .string _ => [.plain above scope]
  | .variable name => [⟨above, scope, some (.read name)⟩]
  | .grouping e => e.notes above scope
  | .unary _ e => e.notes above scope ++ [.plain (.temporary :: above) scope]
  | .binary op a b =>
      a.notes above scope ++ b.notes (.temporary :: above) scope ++ op.notes above scope
  | .and a b =>
      a.notes above scope ++ .plain (.temporary :: above) scope ::
        .plain (.temporary :: above) scope :: b.notes above scope
  | .or a b =>
      a.notes above scope ++ .plain (.temporary :: above) scope ::
        .plain (.temporary :: above) scope :: .plain (.temporary :: above) scope ::
          b.notes above scope
  | .assign name e =>
      e.notes above scope ++ [⟨.temporary :: above, scope, some (.write name)⟩]
  | .call f es =>
      f.notes above scope ++ Expression.listNotes (.temporary :: above) scope es ++
        [.plain (List.replicate es.length .temporary ++ .temporary :: above) scope]

/-- Notes on the instructions of expressions one after the other. -/
def Expression.listNotes (above : List Slot) (scope : List Binding) : List Expression → List Note
  | [] => []
  | e :: es => e.notes above scope ++ Expression.listNotes (.temporary :: above) scope es

end

/-! ## Statements -/

/-- Where a statement stands. -/
structure View where
  scope : List Binding
  depth : Nat
  /-- Number of variables that are left when `break` or `continue` leads out of here. -/
  keep : Nat
  /-- Number of instructions of the routine before the statement. -/
  index : Nat

namespace View

/-- Inside a scope of its own. -/
def inner (view : View) : View := { view with depth := view.depth + 1 }

/-- Inside a loop. -/
def looped (view : View) : View := { view with keep := view.scope.length }

/-- After some instructions. -/
def after (view : View) (count : Nat) (scope : List Binding) : View :=
  { view with scope, index := view.index + count }

end View

/-- The notes on a statement, and the variables in scope after it. -/
structure Noted where
  notes : List Note
  scope : List Binding

/-- Notes on the value that a variable begins with. -/
def initialNotes (scope : List Binding) : Option Expression → List Note
  | none => [.plain [] scope]
  | some e => e.notes [] scope

/-- Notes on what turns a value into a constant. -/
def markingNotes (assignable : Bool) (scope : List Binding) : List Note :=
  if assignable then [] else [.plain [.temporary] scope]

/-- Notes on dropping a number of variables. -/
def dropNotes : (count : Nat) → List Binding → List Note
  | 0, _ => []
  | count + 1, scope => .plain [] scope :: dropNotes count scope.tail

/-- Notes on the condition of a loop. -/
def testNotes (scope : List Binding) : Option Expression → List Note
  | none => []
  | some test => test.notes [] scope ++ [.plain [.temporary] scope, .plain [.temporary] scope]

/-- Notes on the step of a loop. -/
def stepNotes (scope : List Binding) : Option Expression → List Note
  | none => []
  | some step =>
      .plain [] scope :: (step.notes [] scope ++ [.plain [.temporary] scope, .plain [] scope])

/-- Notes on dropping the condition that ended a loop. -/
def exitNotes (scope : List Binding) : Option Expression → List Note
  | none => []
  | some _ => [.plain [.temporary] scope]

/-- Notes on the instructions of a statement. -/
def Statement.noted : Statement → View → Noted
  | .done, view => ⟨[], view.scope⟩
  | .next a b, view =>
      let first := a.noted view
      let rest := b.noted (view.after first.notes.length first.scope)
      ⟨first.notes ++ rest.notes, rest.scope⟩
  | .print e, view | .expression e, view =>
      ⟨e.notes [] view.scope ++ [.plain [.temporary] view.scope], view.scope⟩
  | .declare assignable name init, view =>
      let value := initialNotes view.scope init ++ markingNotes assignable view.scope
      if view.depth = 0 then
        ⟨value ++ [⟨[if assignable then .temporary else .sealed], view.scope,
          some (.define name assignable)⟩], view.scope⟩
      else ⟨value, ⟨name, assignable, view.index + value.length⟩ :: view.scope⟩
  | .block s, view =>
      let body := s.noted view.inner
      ⟨body.notes ++ dropNotes (body.scope.length - view.scope.length) body.scope, view.scope⟩
  | .choose c s t, view =>
      let test := c.notes [] view.scope ++
        [.plain [.temporary] view.scope, .plain [.temporary] view.scope]
      let yes := s.noted (view.after test.length view.scope)
      let skip : List Note := [.plain [] view.scope, .plain [.temporary] view.scope]
      let no := t.noted (view.after (test ++ yes.notes ++ skip).length view.scope)
      ⟨test ++ yes.notes ++ skip ++ no.notes, view.scope⟩
  | .loop test step s, view =>
      let head := testNotes view.scope test ++ stepNotes view.scope step
      let body := s.noted (view.looped.after head.length view.scope)
      ⟨head ++ body.notes ++ .plain [] view.scope :: exitNotes view.scope test, view.scope⟩
  | .leave, view | .again, view =>
      let count := view.scope.length - view.keep
      ⟨dropNotes count view.scope ++ [.plain [] (view.scope.drop count)], view.scope⟩
  | .giveBack value, view =>
      ⟨initialNotes view.scope value ++ [.plain [.temporary] view.scope], view.scope⟩
  | .define name _ _, view =>
      if view.depth = 0 then
        ⟨[.plain [] view.scope, ⟨[.temporary], view.scope, some (.define name true)⟩], view.scope⟩
      else ⟨[.plain [] view.scope], ⟨name, true, view.index + 1⟩ :: view.scope⟩

/-! ## Notes and code -/

/-- Variables are looked up in the locals of the compiler as they are in a scope of the
same names. -/
theorem findLocal_eq_innermost {name : String} {locals : List LocalVariable} {scope : List Binding}
    (names : locals.map LocalVariable.name = scope.map Binding.name) :
    (Body.findLocal name locals).map Prod.fst = (innermost name scope).map Prod.fst := by
  induction scope generalizing locals with
  | nil =>
      rw [List.map_nil, List.map_eq_nil_iff] at names
      subst names
      rfl
  | cons b older ih =>
      cases locals with
      | nil => simp at names
      | cons var others =>
          simp only [List.map_cons, List.cons.injEq] at names
          have length := congrArg List.length names.2
          simp only [List.length_map] at length
          simp only [Body.findLocal, innermost, names.1]
          split
          · simp [length]
          · exact ih names.2

theorem innermost_lt {name : String} {scope : List Binding} {k : Nat} {b : Binding}
    (h : innermost name scope = some (k, b)) : k < scope.length := by
  induction scope with
  | nil => cases h
  | cons newest older ih =>
      simp only [innermost] at h
      split at h
      · cases h
        simp
      · have := ih h
        simp only [List.length_cons]
        omega

/-- The variable found is the one in its slot, counted from the bottom. -/
theorem innermost_slot {name : String} {scope : List Binding} {k : Nat} {b : Binding}
    (h : innermost name scope = some (k, b)) : scope.reverse[k]? = some b := by
  induction scope with
  | nil => cases h
  | cons newest older ih =>
      rw [List.reverse_cons]
      simp only [innermost] at h
      split at h
      · cases h
        rw [List.getElem?_append_right (by simp)]
        simp
      · have lt := innermost_lt h
        rw [List.getElem?_append_left (by simpa using lt)]
        exact ih h

section Length

variable (locals : List LocalVariable) (above : List Slot) (scope : List Binding)

theorem BinaryOperator.length_notes (op : BinaryOperator) :
    (op.notes above scope).length = op.code.length := by
  cases op <;> rfl

mutual

/-- There is one note for each instruction. -/
theorem Expression.length_notes (above : List Slot) : (e : Expression) → (pool : Pool) →
    (e.notes above scope).length = (e.code locals pool).1.length
  | .null, _ | .boolean _, _ | .number _, _ | .string _, _ | .variable _, _ => rfl
  | .grouping e, pool => e.length_notes above pool
  | .unary _ e, pool => by
      simp only [Expression.notes, Expression.code, List.length_append, e.length_notes above pool]
      rfl
  | .binary op a b, pool => by
      simp only [Expression.notes, Expression.code, List.length_append, op.length_notes,
        a.length_notes above pool, b.length_notes _ (a.code locals pool).2]
  | .and a b, pool => by
      simp only [Expression.notes, Expression.code, List.length_append, List.length_cons,
        a.length_notes above pool, b.length_notes _ (a.code locals pool).2]
  | .or a b, pool => by
      simp only [Expression.notes, Expression.code, List.length_append, List.length_cons,
        List.length_nil, a.length_notes above pool, b.length_notes _ (a.code locals pool).2]
      omega
  | .assign name e, pool => by
      simp only [Expression.notes, Expression.code, List.length_append,
        e.length_notes above (pool.resolve locals name).2]
      rfl
  | .call f es, pool => by
      simp only [Expression.notes, Expression.code, List.length_append, f.length_notes above pool,
        Expression.length_listNotes _ es (f.code locals pool).2]
      rfl

theorem Expression.length_listNotes (above : List Slot) : (es : List Expression) → (pool : Pool) →
    (Expression.listNotes above scope es).length = (Expression.listCode locals es pool).1.length
  | [], _ => rfl
  | e :: es, pool => by
      simp only [Expression.listNotes, Expression.listCode, List.length_append,
        e.length_notes above pool, Expression.length_listNotes _ es (e.code locals pool).2]

end

theorem length_initialNotes (init : Option Expression) (pool : Pool) :
    (initialNotes scope init).length = (initialCode locals init pool).1.length := by
  cases init with
  | none => rfl
  | some e => exact e.length_notes locals scope [] pool

theorem length_markingNotes (assignable : Bool) :
    (markingNotes assignable scope).length = (marking assignable).length := by
  cases assignable <;> rfl

theorem length_dropNotes (count : Nat) : (dropNotes count scope).length = count := by
  induction count generalizing scope with
  | zero => rfl
  | succ count ih => rw [dropNotes, List.length_cons, ih]

end Length

end StackScript
