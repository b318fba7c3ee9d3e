import StackScript.Proofs.Shape.Expression

/-!
# Notes fit the compiler

While a statement is compiled, the compiler knows the names of the variables in scope,
and how many of them a loop leaves alone.  The notes on a statement are made from a
`View`, which fits the compiler's place if it has the same names; then there is one note
for each instruction, and the view behind the statement fits again.
-/

namespace StackScript

/-! ## Places and views -/

/-- The view says of a place what the compiler knows about it. -/
structure View.Fits (view : View) (place : Place) : Prop where
  names : place.locals.map LocalVariable.name = view.scope.map Binding.name
  depth : view.depth = place.depth
  keep : view.keep = place.floor

namespace View.Fits

variable {view : View} {place : Place}

theorem length (h : view.Fits place) : place.locals.length = view.scope.length := by
  have same := congrArg List.length h.names
  simpa using same

theorem inner (h : view.Fits place) : view.inner.Fits place.inner where
  names := h.names
  depth := congrArg (· + 1) h.depth
  keep := h.keep

theorem looped (h : view.Fits place) (placed : place.Scoped) : view.looped.Fits place.looped where
  names := h.names
  depth := h.depth
  keep := h.length.symm.trans placed.floor_looped.symm

theorem moved (h : view.Fits place) (count : Nat) : (view.after count view.scope).Fits place :=
  ⟨h.names, h.depth, h.keep⟩

theorem keep_le (h : view.Fits place) : view.keep ≤ view.scope.length := by
  rw [h.keep, ← h.length]
  exact place.floor_le

/-- `break` and `continue` drop what is declared inside the loop. -/
theorem dropped (h : view.Fits place) :
    view.scope.length - view.keep = (deeper place.locals (place.loop.getD 0)).length := by
  have prefixed : (deeper place.locals (place.loop.getD 0)).length ≤ place.locals.length :=
    (List.takeWhile_sublist _).length_le
  rw [h.keep, ← h.length, Place.floor]
  omega

end View.Fits

/-! ## What notes begin with -/

/-- The first note says that this is on the stack. -/
def Heads (shape : List Slot) (notes : List Note) : Prop :=
  ∃ note others, notes = note :: others ∧ note.shape = shape

section Heads

variable {shape : List Slot} {notes others : List Note} {scope : List Binding}

theorem Heads.append (h : Heads shape notes) (others : List Note) : Heads shape (notes ++ others) := by
  obtain ⟨note, rest, rfl, same⟩ := h
  exact ⟨note, rest ++ others, rfl, same⟩

theorem heads_cons (note : Note) (notes : List Note) : Heads note.shape (note :: notes) :=
  ⟨note, notes, rfl, rfl⟩

theorem Heads.leads {view : Nat → Option Note} {pc : Nat} {cells : List Cell}
    (h : Heads shape notes) (covers : Covers view pc cells notes) : Leads view pc shape := by
  obtain ⟨note, rest, rfl, rfl⟩ := h
  exact covers.leads

theorem Expression.heads_notes (e : Expression) (above : List Slot) (scope : List Binding) :
    Heads (above ++ scope.map .bound) (e.notes above scope) := by
  obtain ⟨mention, notes, same⟩ := e.notes_eq above scope
  rw [same]
  exact ⟨_, _, rfl, rfl⟩

theorem heads_initialNotes (scope : List Binding) (init : Option Expression) :
    Heads (scope.map .bound) (initialNotes scope init) := by
  cases init with
  | none => exact heads_cons _ _
  | some e => exact e.heads_notes [] scope

end Heads

/-- A statement puts on top what it declares. -/
theorem Statement.scope_noted (s : Statement) (view : View) :
    ∃ new, (s.noted view).scope = new ++ view.scope ∧
      new.map Binding.name = (s.declared view.depth).map LocalVariable.name := by
  induction s generalizing view with
  | next a b first rest =>
      obtain ⟨new, same, names⟩ := first view
      obtain ⟨new', same', names'⟩ := rest (view.after (a.noted view).notes.length (a.noted view).scope)
      refine ⟨new' ++ new, ?_, ?_⟩
      · show (b.noted _).scope = _
        rw [same', List.append_assoc, ← same]
        rfl
      · rw [List.map_append, names', names, ← List.map_append]
        rfl
  | declare assignable name init =>
      simp only [Statement.noted, Statement.declared, declaredName]
      split
      · exact ⟨[], rfl, rfl⟩
      · exact ⟨[_], rfl, rfl⟩
  | define name parameters s =>
      simp only [Statement.noted, Statement.declared, declaredName]
      split
      · exact ⟨[], rfl, rfl⟩
      · exact ⟨[_], rfl, rfl⟩
  | _ => exact ⟨[], rfl, rfl⟩

theorem heads_dropNotes (count : Nat) (scope : List Binding) (note : Note) (others : List Note)
    (last : count = 0 → note.shape = scope.map .bound) :
    Heads (scope.map .bound) (dropNotes count scope ++ note :: others) := by
  cases count with
  | zero => exact ⟨note, others, rfl, last rfl⟩
  | succ count => exact ⟨_, _, rfl, rfl⟩

/-- A statement begins with the variables in scope, unless there is no code of it. -/
theorem Statement.noted_cases (s : Statement) (view : View) :
    ((s.noted view).notes = [] ∧ (s.noted view).scope = view.scope ∧
        s.ending view.depth = .untouched) ∨
      (Heads (view.scope.map .bound) (s.noted view).notes ∧ s.ending view.depth ≠ .untouched) := by
  induction s generalizing view with
  | done => exact .inl ⟨rfl, rfl, rfl⟩
  | next a b first rest =>
      rcases first view with ⟨none, same, untouched⟩ | ⟨heads, touched⟩
      · have moved : view.after 0 view.scope = view := rfl
        simp only [Statement.noted, none, same, List.length_nil, moved, List.nil_append,
          Statement.ending, untouched]
        rcases rest view with ⟨none', same', untouched'⟩ | ⟨heads', touched'⟩
        · exact .inl ⟨none', same', by rw [untouched']; rfl⟩
        · refine .inr ⟨heads', ?_⟩
          cases last : b.ending view.depth with
          | untouched => exact absurd last touched'
          | «sealed» | unsealed => nofun
      · refine .inr ⟨heads.append _, ?_⟩
        show (a.ending view.depth).after (b.ending view.depth) ≠ _
        cases b.ending view.depth with
        | untouched => exact touched
        | «sealed» | unsealed => nofun
  | print e | expression e => exact .inr ⟨(e.heads_notes [] view.scope).append _, nofun⟩
  | declare assignable name init =>
      refine .inr ⟨?_, nofun⟩
      have heads := (heads_initialNotes view.scope init).append (markingNotes assignable view.scope)
      simp only [Statement.noted]
      split
      · exact heads.append _
      · exact heads
  | block s body =>
      obtain ⟨new, extends_, names⟩ := s.scope_noted view.inner
      rcases body view.inner with ⟨none, same, untouched⟩ | ⟨heads, touched⟩
      · -- Nothing is declared either.
        have nothing : s.declared (view.depth + 1) = [] := by
          rw [same, List.self_eq_append_left] at extends_
          rw [extends_, List.map_nil, eq_comm, List.map_eq_nil_iff] at names
          exact names
        have count : (s.noted view.inner).scope.length - view.scope.length = 0 := by
          rw [same]
          exact Nat.sub_self _
        simp only [Statement.noted, Statement.ending, none, count, nothing, if_true]
        exact .inl ⟨rfl, trivial, untouched⟩
      · refine .inr ⟨heads.append _, ?_⟩
        simp only [Statement.ending]
        split
        · exact touched
        · nofun
  | choose c s t => exact .inr ⟨(((c.heads_notes [] view.scope).append _).append _ |>.append _).append _, nofun⟩
  | loop test step s body =>
      refine .inr ⟨?_, nofun⟩
      have turn : Heads (view.scope.map .bound) ((s.noted (view.looped.after
          (testNotes view.scope test ++ stepNotes view.scope step).length view.scope)).notes ++
            .plain [] view.scope :: exitNotes view.scope test) := by
        rcases body (view.looped.after (testNotes view.scope test ++
            stepNotes view.scope step).length view.scope) with ⟨none, -⟩ | ⟨heads, -⟩
        · rw [none]
          exact heads_cons _ _
        · exact heads.append _
      simp only [Statement.noted, List.append_assoc]
      cases test with
      | some test => exact ((test.heads_notes [] view.scope).append _).append _
      | none =>
          cases step with
          | some step => exact heads_cons _ _
          | none => exact turn
  | leave | again =>
      refine .inr ⟨heads_dropNotes _ _ _ [] fun none => ?_, nofun⟩
      rw [none]
      rfl
  | giveBack value => exact .inr ⟨(heads_initialNotes view.scope value).append _, nofun⟩
  | define name parameters s =>
      refine .inr ⟨?_, nofun⟩
      simp only [Statement.noted]
      split
      · exact heads_cons _ _
      · exact heads_cons _ _

/-! ## Lengths -/

/-- After a statement the view still fits. -/
theorem View.Fits.after (layout : Layout) {s : Statement} {view : View} {place : Place}
    (h : view.Fits place) (proper : s.Proper) (placed : place.Scoped) (isOpen : place.Open)
    (pool : Pool) (count : Nat) :
    (view.after count (s.noted view).scope).Fits
      (place.knowing (s.code layout place pool).locals) := by
  obtain ⟨new, same, names⟩ := s.scope_noted view
  have locals := s.locals_code layout proper pool placed
  rw [locals]
  constructor
  · show (s.declared place.depth ++ place.locals).map LocalVariable.name =
      (s.noted view).scope.map Binding.name
    rw [same, List.map_append, List.map_append, names, h.names, h.depth]
  · exact h.depth
  · have outside : place.depth = 0 → s.declared place.depth = [] := by
      intro zero
      rw [zero]
      exact s.declared_zero
    exact h.keep.trans (Place.floor_knowing isOpen s.depth_declared outside).symm

/-- After a statement that is no declaration the place is the same. -/
theorem Statement.Flat.knowing {layout : Layout} {s : Statement} {place : Place} (flat : s.Flat)
    (proper : s.Proper) (placed : place.Scoped) (pool : Pool) :
    place.knowing (s.code layout place pool).locals = place := by
  rw [s.locals_code layout proper pool placed, flat.declared, List.nil_append, Place.knowing_self]

/-- A statement that is no declaration leaves the variables in scope as they are. -/
theorem Statement.Flat.scope_noted {s : Statement} (flat : s.Flat) (view : View) :
    (s.noted view).scope = view.scope := by
  obtain ⟨new, same, names⟩ := s.scope_noted view
  rw [flat.declared, List.map_nil, List.map_eq_nil_iff] at names
  rw [same, names, List.nil_append]

theorem length_pops (locals : List LocalVariable) : (pops locals).length = locals.length :=
  List.length_map ..

theorem length_resolveJumps (target start offset : Nat) (cells : List Cell) :
    (resolveJumps target start offset cells).length = cells.length := by
  induction cells generalizing offset with
  | nil => rfl
  | cons cell cells ih =>
      obtain ⟨a, same, -⟩ := size_resolveJump target start offset cell
      rw [resolveJumps_cons, same, List.length_append, ih]
      simp [Nat.add_comm]

/-- The parts of a loop one after the other; only the body has open jumps. -/
theorem loopCode_eq (test step : Option (List Asm)) (body : List Cell) (back : Nat)
    (same : back = codeSize (testCode 0 test) + codeSize (stepCode 0 step)) :
    loopCode test step body =
      ops (testCode (codeSize (stepCode 0 step) + cellsSize body + 4) test) ++
        (ops (stepCode back step) ++
          (resolveJumps (back + cellsSize body + 3 + codeSize (exitCode test))
              (nextStart (codeSize (testCode 0 test)) step) back body ++
            ops (loopTo (nextStart (codeSize (testCode 0 test)) step) (back + cellsSize body) ::
              exitCode test))) := by
  have size : cellsSize (loopCells test step body) =
      back + cellsSize body + 3 + codeSize (exitCode test) := by
    simp only [loopCells, cellsSize_append, cellsSize_ops, cellsSize_cons, cellsSize_nil,
      codeSize_testCode, codeSize_stepCode, Cell.size, Cell.draft, size_loopTo]
    omega
  subst same
  have skipped : ∀ (steps : List Asm) (start offset : Nat),
      1 + cellsSize (ops steps ++ (body ++ [.op (loopTo start offset)])) =
        codeSize steps + cellsSize body + 4 := by
    intro steps start offset
    simp only [cellsSize_append, cellsSize_ops, cellsSize_cons, cellsSize_nil, Cell.size,
      Cell.draft, size_loopTo]
    omega
  rw [loopCode, size]
  simp only [loopCells, resolveJumps_append, resolveJumps_ops, cellsSize_ops, codeSize_testCode,
    codeSize_stepCode, Nat.zero_add, List.append_assoc, skipped]
  rfl

theorem length_testNotes (locals : List LocalVariable) (scope : List Binding)
    (test : Option Expression) (pool : Pool) (skipped : Nat) :
    (testNotes scope test).length =
      (testCode skipped (clauseCode locals test pool).1).length := by
  cases test with
  | none => rfl
  | some e => simp [testNotes, testCode, clauseCode, e.length_notes locals scope [] pool]

theorem length_stepNotes (locals : List LocalVariable) (scope : List Binding)
    (step : Option Expression) (pool : Pool) (back : Nat) :
    (stepNotes scope step).length = (stepCode back (clauseCode locals step pool).1).length := by
  cases step with
  | none => rfl
  | some e => simp [stepNotes, stepCode, clauseCode, e.length_notes locals scope [] pool]

theorem length_exitNotes (locals : List LocalVariable) (scope : List Binding)
    (test : Option Expression) (pool : Pool) :
    (exitNotes scope test).length = (exitCode (clauseCode locals test pool).1).length := by
  cases test <;> rfl

/-- Where a declaration may not stand, there is none. -/
def Statement.Stands (s : Statement) (place : Place) : Prop := s.Flat ∨ place.Open

/-- The place after a statement is scoped as well. -/
theorem Place.Scoped.after (layout : Layout) {s : Statement} {place : Place}
    (placed : place.Scoped) (proper : s.Proper) (pool : Pool) :
    (place.knowing (s.code layout place pool).locals).Scoped := by
  rw [s.locals_code layout proper pool placed]
  exact placed.knowing s.depth_declared

/-- What a block drops at its end is what is declared in it. -/
theorem View.Fits.declared (layout : Layout) {s : Statement} {view : View} {place : Place}
    (h : view.Fits place) (proper : s.Proper) (placed : place.Scoped) (pool : Pool) :
    (s.noted view.inner).scope.length - view.scope.length =
      (deeper (s.code layout place.inner pool).locals place.depth).length := by
  obtain ⟨new, same, names⟩ := s.scope_noted view.inner
  have length := congrArg List.length names
  rw [List.length_map, List.length_map] at length
  rw [s.locals_code layout proper pool placed.inner]
  change _ = (deeper (s.declared (place.depth + 1) ++ place.locals) place.depth).length
  rw [placed.deeper_inner s.depth_declared, same, List.length_append, length,
    show view.inner.depth = place.depth + 1 from congrArg (· + 1) h.depth]
  exact Nat.add_sub_cancel _ _

/-- There is one note for each instruction. -/
theorem Statement.length_noted (layout : Layout) (s : Statement) (proper : s.Proper) {view : View}
    {place : Place} (fits : view.Fits place) (placed : place.Scoped) (stands : s.Stands place)
    (pool : Pool) :
    (s.noted view).notes.length = (s.code layout place pool).cells.length := by
  induction s generalizing view place pool with
  | done => rfl
  | next a b first rest =>
      have isOpen : place.Open := stands.resolve_left id
      have after := fits.after layout proper.1 placed isOpen pool
        (a.noted view).notes.length
      show List.length (_ ++ _) = List.length (_ ++ _)
      rw [List.length_append, List.length_append, rest proper.2 after (placed.after layout proper.1 pool)
        (.inr isOpen) (a.code layout place pool).pool, first proper.1 fits placed (.inr isOpen) pool]
  | print e | expression e =>
      show List.length (_ ++ _) = (ops _).length
      rw [length_ops, List.length_append, List.length_append,
        e.length_notes place.locals view.scope [] pool]
      rfl
  | declare assignable name init =>
      simp only [Statement.noted, Statement.code, ← fits.depth]
      split
      · simp only [length_ops, List.length_append, length_markingNotes,
          length_initialNotes place.locals view.scope init (pool.addString name).2]
        rfl
      · simp only [length_ops, List.length_append, length_markingNotes,
          length_initialNotes place.locals view.scope init pool]
  | block s body =>
      have inside : s.Proper := proper
      show List.length (_ ++ _) = List.length (_ ++ _)
      rw [List.length_append, List.length_append, length_dropNotes, length_ops, length_pops,
        body inside fits.inner placed.inner (.inr placed.open) pool, fits.declared layout inside placed pool]
  | choose c s t yes no =>
      obtain ⟨-, left, right, flat, flat'⟩ := proper
      have first (count : Nat) := yes left (fits.moved count) placed (.inl flat)
        (c.code place.locals pool).2
      have second (count : Nat) := no right (fits.moved count) placed (.inl flat')
        (s.code layout place (c.code place.locals pool).2).pool
      simp only [Statement.noted, Statement.code, chooseCells, flat.knowing left placed]
      simp only [List.length_append, List.length_cons, List.length_nil, length_ops, first, second,
        c.length_notes place.locals view.scope [] pool]
      omega
  | loop test step s body =>
      obtain ⟨-, -, inside, flat⟩ := proper
      have turn (count : Nat) : (s.noted (view.looped.after count view.scope)).notes.length = _ :=
        body inside ((fits.looped placed).moved count) placed.looped (.inl flat)
          (clauseCode place.locals step (clauseCode place.locals test pool).2).2
      simp only [Statement.noted, Statement.code]
      rw [loopCode_eq _ _ _ _ rfl]
      simp only [List.length_append, List.length_cons, length_ops, length_resolveJumps, turn]
      rw [← length_testNotes place.locals view.scope test pool,
        ← length_stepNotes place.locals view.scope step (clauseCode place.locals test pool).2,
        ← length_exitNotes place.locals view.scope test pool]
      omega
  | leave | again =>
      show List.length (_ ++ _) = List.length (_ ++ _)
      rw [List.length_append, List.length_append, length_dropNotes, length_ops, length_pops,
        fits.dropped]
      rfl
  | giveBack value =>
      show List.length (_ ++ _) = (ops _).length
      rw [length_ops, List.length_append, List.length_append,
        length_initialNotes place.locals view.scope value pool]
      rfl
  | define name parameters s =>
      simp only [Statement.noted, Statement.code, ← fits.depth]
      split <;> rfl

end StackScript
