import StackScript.Proofs.Shape.View

/-!
# Statements keep to their notes

The code of a statement leaves the variables in scope where they are, and puts those that
it declares on top.  It goes to its end, or, where `break` or `continue` stands in it, to
where these lead, with the variables dropped that are declared inside the loop.
-/

namespace StackScript

section

variable {view : Nat → Option Note} {pool : Pool} {leave again pc : Nat} {above : List Slot}
  {scope : List Binding} {shape : List Slot}

/-! ## Parts -/

/-- The value of a variable stays what it is. -/
theorem Becomes.eq_of_bound {b : Binding} {after : List Slot}
    (h : Becomes (.bound b :: shape) after) : after = .bound b :: shape := by
  cases h
  rfl

/-- A computed value becomes that of the variable that the notes name next. -/
theorem Leads.bind {b : Binding} (h : Leads view pc (.bound b :: shape))
    (assignable : b.assignable = true) : Leads view pc (.temporary :: shape) := by
  obtain ⟨note, found, becomes⟩ := h
  exact ⟨note, found, becomes.eq_of_bound ▸ .bind assignable shape⟩

/-- So does a value marked as constant. -/
theorem Leads.freeze {b : Binding} (h : Leads view pc (.bound b :: shape))
    (constant : b.assignable = false) : Leads view pc (.sealed :: shape) := by
  obtain ⟨note, found, becomes⟩ := h
  exact ⟨note, found, becomes.eq_of_bound ▸ .freeze constant shape⟩

theorem obeys_initialNotes {locals : List LocalVariable} {p : Pool}
    (names : locals.map LocalVariable.name = scope.map Binding.name) (init : Option Expression)
    (le : (initialCode locals init p).2.Le pool)
    (covers : Covers view pc (ops (initialCode locals init p).1) (initialNotes scope init))
    (exit : Leads view (pc + codeSize (initialCode locals init p).1)
      (.temporary :: scope.map .bound)) :
    Obeys view pool leave again pc (ops (initialCode locals init p).1)
      (initialNotes scope init) := by
  cases init with
  | none =>
      exact obeys_singleton
        (Asm.obeys_work rfl rfl rfl rfl (by rintro (load | load) <;> cases load) exit)
  | some e => exact e.obeys_notes names [] pc p le covers exit

/-- Variables are dropped one after the other, the newest first. -/
theorem obeys_dropNotes (count : Nat) (enough : count ≤ scope.length)
    (covers : Covers view pc (ops (List.replicate count (.plain .pop))) (dropNotes count scope))
    (exit : Leads view (pc + count) ((scope.drop count).map .bound)) :
    Obeys view pool leave again pc (ops (List.replicate count (.plain .pop)))
      (dropNotes count scope) := by
  induction count generalizing pc scope with
  | zero => trivial
  | succ count ih =>
      cases scope with
      | nil => cases enough
      | cons b older =>
          obtain ⟨-, covers⟩ := covers
          have rest : Leads view (pc + 1 + count) ((older.drop count).map .bound) := by
            rw [Nat.add_assoc, Nat.add_comm 1]
            exact exit
          have next : Leads view (pc + 1) (older.map .bound) := by
            cases count with
            | zero => exact exit
            | succ count => exact covers.leads
          refine ⟨⟨⟨_, .drop (.bound b) (older.map .bound), ?_⟩, nofun, ?_, rfl⟩,
            ih (Nat.le_of_succ_le_succ enough) covers rest⟩
          · intro target mem
            obtain rfl := List.mem_singleton.mp mem
            exact next
          · rintro (load | load) <;> cases load

/-- An instruction that goes on behind itself, as the last of a piece of code. -/
theorem Obeys.ends {code : List Asm} {a : Asm} {notes : List Note} {note : Note}
    {before after : List Slot} (length : notes.length = code.length)
    (covers : Covers view pc (ops (code ++ [a])) (notes ++ [note])) (starts : note.shape = before)
    (first : Covers view pc (ops code) notes → Leads view (pc + codeSize code) before →
      Obeys view pool leave again pc (ops code) notes)
    (last : Leads view (pc + codeSize code + a.size) after →
      a.Obeys view pool (pc + codeSize code) note)
    (exit : Leads view (pc + codeSize (code ++ [a])) after) :
    Obeys view pool leave again pc (ops (code ++ [a])) (notes ++ [note]) := by
  refine .before length covers (fun covers => starts ▸ covers.leads) first fun _ =>
    obeys_singleton (last ?_)
  rw [codeSize_append, codeSize_singleton, ← Nat.add_assoc] at exit
  exact exit

theorem obeys_markingNotes {assignable : Bool}
    (exit : Leads view (pc + codeSize (marking assignable))
      ((if assignable then .temporary else .sealed) :: scope.map .bound)) :
    Obeys view pool leave again pc (ops (marking assignable)) (markingNotes assignable scope) := by
  cases assignable with
  | true => trivial
  | false =>
      exact obeys_singleton
        (Asm.obeys_work rfl rfl rfl rfl (by rintro (load | load) <;> cases load) exit)

/-- Whether or not it is marked, the value comes first. -/
theorem Covers.leads_marking {assignable : Bool}
    (h : Covers view pc (ops (marking assignable)) (markingNotes assignable scope))
    (exit : Leads view (pc + codeSize (marking assignable))
      ((if assignable then .temporary else .sealed) :: scope.map .bound)) :
    Leads view pc (.temporary :: scope.map .bound) := by
  cases assignable with
  | true => exact exit
  | false => exact h.leads

/-- The condition of a loop is dropped before the body, and where the loop ends. -/
theorem obeys_testNotes {locals : List LocalVariable} {p : Pool} {skipped : Nat}
    (names : locals.map LocalVariable.name = scope.map Binding.name) (test : Option Expression)
    (le : (clauseCode locals test p).2.Le pool)
    (covers : Covers view pc (ops (testCode skipped (clauseCode locals test p).1))
      (testNotes scope test))
    (exit : Leads view (pc + codeSize (testCode skipped (clauseCode locals test p).1))
      (scope.map .bound))
    (away : ∀ e ∈ test, Leads view (pc + codeSize (e.code locals p).1 + 3 + skipped)
      (.temporary :: scope.map .bound)) :
    Obeys view pool leave again pc (ops (testCode skipped (clauseCode locals test p).1))
      (testNotes scope test) := by
  cases test with
  | none => trivial
  | some e =>
      simp only [clauseCode, testCode, testNotes] at covers exit ⊢
      refine .before (e.length_notes locals scope [] p) covers Covers.leads
        (e.obeys_notes names [] pc p le) fun covers => ?_
      obtain ⟨-, dropped, -⟩ := covers
      rw [codeSize_append, ← Nat.add_assoc] at exit
      exact ⟨Asm.obeys_jumpIfFalse (.same dropped) (away e rfl), Asm.obeys_pop exit, trivial⟩

/-- The step of a loop is jumped over at first, and leads back to the condition. -/
theorem obeys_stepNotes {locals : List LocalVariable} {p : Pool} {back : Nat}
    (names : locals.map LocalVariable.name = scope.map Binding.name) (step : Option Expression)
    (le : (clauseCode locals step p).2.Le pool)
    (covers : Covers view pc (ops (stepCode back (clauseCode locals step p).1))
      (stepNotes scope step))
    (exit : Leads view (pc + codeSize (stepCode back (clauseCode locals step p).1))
      (scope.map .bound))
    (inside : back ≤ pc + codeSize (stepCode back (clauseCode locals step p).1))
    (around : Leads view (pc + codeSize (stepCode back (clauseCode locals step p).1) - back)
      (scope.map .bound)) :
    Obeys view pool leave again pc (ops (stepCode back (clauseCode locals step p).1))
      (stepNotes scope step) := by
  cases step with
  | none => trivial
  | some e =>
      simp only [clauseCode, stepCode, stepNotes] at covers exit inside around ⊢
      have size : codeSize (⟨.jump, codeSize ((e.code locals p).1 ++ [.plain .pop, ⟨.loop, back⟩])⟩ ::
          ((e.code locals p).1 ++ [.plain .pop, ⟨.loop, back⟩])) =
            3 + codeSize ((e.code locals p).1 ++ [.plain .pop, ⟨.loop, back⟩]) :=
        codeSize_cons _ _
      -- the clause is followed by a pop and the jump back to the condition
      have length : codeSize ((e.code locals p).1 ++ [.plain .pop, ⟨.loop, back⟩]) =
          codeSize (e.code locals p).1 + 4 := codeSize_append _ _
      obtain ⟨-, covers⟩ := covers
      rw [size, ← Nat.add_assoc] at exit inside around
      refine ⟨Asm.obeys_jump exit, ?_⟩
      refine .before (e.length_notes locals scope [] p) covers Covers.leads
        (e.obeys_notes names [] (pc + 3) p le) fun covers => ?_
      obtain ⟨-, looped, -⟩ := covers
      have target : pc + 3 + codeSize (e.code locals p).1 + 1 + 3 - back =
          pc + 3 + codeSize ((e.code locals p).1 ++ [.plain .pop, ⟨.loop, back⟩]) - back := by
        rw [length]
        rfl
      refine ⟨Asm.obeys_pop (.same looped), ⟨⟨_, .work ⟨.loop, back⟩ (scope.map .bound), ?_⟩, ?_, ?_, rfl⟩,
        trivial⟩
      · intro t mem
        obtain rfl := List.mem_singleton.mp mem
        change Leads view (pc + 3 + codeSize (e.code locals p).1 + 1 + 3 - back) _
        rw [target]
        exact around
      · intro _
        rw [length] at inside
        exact inside
      · rintro (load | load) <;> cases load

/-- A global variable is defined. -/
theorem Asm.obeys_define (assignable : Bool) {name : String} {index : Nat}
    (names : pool.Names index name)
    (exit : Leads view (pc + (Asm.indexed .defineGlobal index).size) (scope.map .bound)) :
    (Asm.indexed .defineGlobal index).Obeys view pool pc
      ⟨[if assignable then .temporary else .sealed], scope, some (.define name assignable)⟩ where
  turns := by
    have onward : (Asm.indexed .defineGlobal index).targets pc =
        [pc + (Asm.indexed .defineGlobal index).size] := by
      rcases Asm.indexed_eq .defineGlobal index with same | same <;> (rw [same]; rfl)
    refine ⟨scope.map .bound, ?_, ?_⟩
    · cases assignable with
      | false => exact .bind index _
      | true =>
          rcases Asm.indexed_eq .defineGlobal index with same | same
          · rw [same]
            exact .work _ (scope.map .bound)
          · rw [same]
            exact .work _ (scope.map .bound)
    · rw [onward, List.forall_mem_singleton]
      exact exit
  back loop := by
    rcases Asm.indexed_eq .defineGlobal index with same | same <;> (rw [same] at loop; cases loop)
  served load := by
    rcases Asm.indexed_eq .defineGlobal index with same | same <;>
      (rw [same] at load; rcases load with load | load <;> cases load)
  tells := ⟨⟨index, names, rfl⟩, rfl⟩

/-- A branch is entered with the variables in scope, and left with them. -/
def Branches (view : Nat → Option Note) (pool : Pool) (leave again : Nat) (scope : List Binding)
    (cells : List Cell) (notes : List Note) : Prop :=
  ∀ pc, Covers view pc cells notes → Leads view (pc + cellsSize cells) (scope.map .bound) →
    Leads view pc (scope.map .bound) ∧ Obeys view pool leave again pc cells notes

/-- One of two branches is taken. -/
theorem obeys_chooseCells {test : List Asm} {yes no : List Cell} {tests yesNotes noNotes : List Note}
    (length : tests.length = test.length) (length' : yesNotes.length = yes.length)
    (first : Covers view pc (ops test) tests →
      Leads view (pc + codeSize test) (.temporary :: scope.map .bound) →
      Obeys view pool leave again pc (ops test) tests)
    (left : Branches view pool leave again scope yes yesNotes)
    (right : Branches view pool leave again scope no noNotes)
    (covers : Covers view pc (chooseCells test yes no)
      (tests ++ .plain [.temporary] scope :: .plain [.temporary] scope ::
        (yesNotes ++ .plain [] scope :: .plain [.temporary] scope :: noNotes)))
    (exit : Leads view (pc + cellsSize (chooseCells test yes no)) (scope.map .bound)) :
    Obeys view pool leave again pc (chooseCells test yes no)
      (tests ++ .plain [.temporary] scope :: .plain [.temporary] scope ::
        (yesNotes ++ .plain [] scope :: .plain [.temporary] scope :: noNotes)) := by
  refine .seq (by rw [length_ops, length]) covers Covers.leads (cellsSize_ops test ▸ first)
    fun covers => ?_
  rw [chooseCells, cellsSize_append, ← Nat.add_assoc] at exit
  generalize pc + cellsSize (ops test) = start at covers exit ⊢
  obtain ⟨-, dropped, covers⟩ := covers
  obtain ⟨taken, skip, dropped', other⟩ := (covers_append length').mp covers
  simp only [cellsSize_cons, cellsSize_append, List.cons_append, ← Nat.add_assoc] at exit
  obtain ⟨begins, obeys⟩ := left _ taken (.same skip)
  obtain ⟨begins', obeys'⟩ := right _ other exit
  refine ⟨Asm.obeys_jumpIfFalse (.same dropped) ?_, Asm.obeys_pop begins,
    (obeys_append length').mpr ⟨obeys, Asm.obeys_jump ?_, Asm.obeys_pop begins', obeys'⟩⟩
  -- where the jump past the first branch lands does not depend on its distance
  · have away : ∀ n, start + 3 + cellsSize (.op (.plain .pop) :: yes ++ [.op ⟨.jump, n⟩]) =
        start + 3 + 1 + cellsSize yes + 3 := by
      intro n
      simp only [cellsSize_cons, cellsSize_append, List.cons_append, cellsSize_nil, ← Nat.add_assoc]
      rfl
    rw [away]
    exact .same dropped'
  · rw [cellsSize_cons, ← Nat.add_assoc]
    exact exit

/-- A jump back, given offsets in a piece of code. -/
theorem Asm.obeys_loopTo {base start offset : Nat} (behind : start ≤ offset)
    (around : Leads view (base + start) (scope.map .bound)) :
    (loopTo start offset).Obeys view pool (base + offset) (.plain [] scope) := by
  refine ⟨⟨_, .work (loopTo start offset) (scope.map .bound), ?_⟩, ?_, ?_, rfl⟩
  · intro target mem
    obtain rfl := List.mem_singleton.mp mem
    simp only [loopTo]
    rw [show base + offset + 3 - (offset + 3 - start) = base + start by omega]
    exact around
  · intro _
    simp only [loopTo]
    omega
  · rintro (load | load) <;> cases load

/-- A loop begins each iteration with the variables in scope. -/
theorem obeys_loopCode {locals : List LocalVariable} {p q : Pool} {cells : List Cell}
    {notes : List Note} (names : locals.map LocalVariable.name = scope.map Binding.name)
    (test step : Option Expression) (tested : (clauseCode locals test p).2.Le pool)
    (stepped : (clauseCode locals step q).2.Le pool) (length : notes.length = cells.length)
    (body : ∀ leave again, Leads view leave (scope.map .bound) →
      Leads view again (scope.map .bound) → Branches view pool leave again scope cells notes)
    (covers : Covers view pc (loopCode (clauseCode locals test p).1 (clauseCode locals step q).1 cells)
      (testNotes scope test ++ (stepNotes scope step ++
        (notes ++ .plain [] scope :: exitNotes scope test))))
    (entry : Leads view pc (scope.map .bound))
    (exit : Leads view (pc + cellsSize
      (loopCode (clauseCode locals test p).1 (clauseCode locals step q).1 cells))
        (scope.map .bound)) :
    Obeys view pool leave again pc
      (loopCode (clauseCode locals test p).1 (clauseCode locals step q).1 cells)
      (testNotes scope test ++ (stepNotes scope step ++
        (notes ++ .plain [] scope :: exitNotes scope test))) := by
  have tests (skipped : Nat) := length_testNotes locals scope test p skipped
  have steps (back : Nat) := length_stepNotes locals scope step q back
  rw [loopCode_eq _ _ _ _ rfl] at covers exit ⊢
  simp only [← length_ops] at tests steps
  have turns (target start back : Nat) := length.trans
    (length_resolveJumps target start back cells).symm
  obtain ⟨testing, covers⟩ := (covers_append (tests _)).mp covers
  obtain ⟨stepping, covers⟩ := (covers_append (steps _)).mp covers
  obtain ⟨turning, around, leaving⟩ := (covers_append (turns _ _ _)).mp covers
  rw [obeys_append (tests _), obeys_append (steps _), obeys_append (turns _ _ _)]
  rw [cellsSize_ops, codeSize_testCode] at covers stepping turning around leaving ⊢
  rw [cellsSize_ops, codeSize_stepCode] at turning around leaving ⊢
  rw [cellsSize_resolveJumps] at around leaving ⊢
  simp only [cellsSize_append, cellsSize_ops, codeSize_testCode, codeSize_stepCode, codeSize_cons,
    cellsSize_resolveJumps, size_loopTo] at exit
  have enough := nextStart_le (codeSize (testCode 0 (clauseCode locals test p).1)) 0
    (clauseCode locals step q).1
  -- without a step the next turn starts with the condition
  have next : Leads view (pc + nextStart (codeSize (testCode 0 (clauseCode locals test p).1))
      (clauseCode locals step q).1) (scope.map .bound) := by
    cases step with
    | none => exact entry
    | some e => exact Covers.leads_notes stepping.2
  -- from here on only the sizes of the two clauses matter
  generalize tests' : codeSize (testCode 0 (clauseCode locals test p).1) = T at *
  generalize steps' : codeSize (stepCode 0 (clauseCode locals step q).1) = U at *
  generalize nextStart T (clauseCode locals step q).1 = start at *
  simp only [← Nat.add_assoc] at exit
  have leaves : Leads view (pc + (T + U + cellsSize cells + 3 +
      codeSize (exitCode (clauseCode locals test p).1))) (scope.map .bound) := by
    simp only [← Nat.add_assoc]
    exact exit
  have turned : Leads view (pc + (T + U) + cellsSize cells) (scope.map .bound) := by
    rw [← Nat.add_assoc]
    exact .same around
  rw [codeSize_stepCode, steps', Nat.add_assoc pc T U]
  rw [Nat.add_assoc pc T U] at turning around leaving exit
  obtain ⟨begins, obeys⟩ := body _ _ leaves next _ (covers_resolveJumps.mp turning) turned
  refine ⟨obeys_testNotes names test tested testing ?_ ?_, obeys_stepNotes names step stepped stepping ?_ ?_ ?_,
    obeys.resolveJumps (by omega) (by omega), ?_, ?_⟩
  · rw [codeSize_testCode, tests']
    cases step with
    | none =>
        obtain rfl : 0 = U := steps'
        exact begins
    | some e => exact stepping.leads
  · intro e there
    obtain rfl := there
    have skipped : pc + codeSize (e.code locals p).1 + 3 + (U + cellsSize cells + 4) =
        pc + (T + U) + cellsSize cells + 3 := by
      have size : codeSize (e.code locals p).1 + 4 = T :=
        (codeSize_append (e.code locals p).1 [⟨.jumpIfFalse, 0⟩, .plain .pop]).symm.trans tests'
      omega
    rw [skipped]
    exact leaving.leads
  · rw [codeSize_stepCode, steps', Nat.add_assoc]
    exact begins
  · rw [codeSize_stepCode, steps']
    omega
  · rw [codeSize_stepCode, steps', show pc + T + U - (T + U) = pc by omega]
    exact entry
  · rw [Nat.add_assoc]
    exact Asm.obeys_loopTo (by omega) next
  · cases test with
    | none => trivial
    | some e => exact ⟨Asm.obeys_pop exit, trivial⟩

/-! ## Ways out of a loop -/

/-- The variables that are left when `break` or `continue` leads out. -/
def View.kept (view : View) : List Binding := view.scope.drop (view.scope.length - view.keep)

theorem View.kept_after {view : View} {count : Nat} {new : List Binding}
    (keep : view.keep ≤ view.scope.length) :
    (view.after count (new ++ view.scope)).kept = view.kept := by
  show (new ++ view.scope).drop ((new ++ view.scope).length - view.keep) = _
  rw [List.length_append, Nat.add_sub_assoc keep, List.drop_append,
    List.drop_eq_nil_of_le (by omega), Nat.add_sub_cancel_left]
  rfl

theorem View.kept_looped (view : View) (count : Nat) :
    (view.looped.after count view.scope).kept = view.scope := by
  show view.scope.drop (view.scope.length - view.scope.length) = view.scope
  rw [Nat.sub_self, List.drop_zero]

theorem View.kept_noted {view : View} (count : Nat) (s : Statement)
    (keep : view.keep ≤ view.scope.length) :
    (view.after count (s.noted view).scope).kept = view.kept := by
  obtain ⟨new, same, -⟩ := s.scope_noted view
  rw [same, View.kept_after keep]

theorem Ending.after_eq {first last : Ending} (touched : last ≠ .untouched) :
    first.after last = last := by
  cases last with
  | untouched => exact absurd rfl touched
  | «sealed» | unsealed => rfl

/-! ## Trees -/

/-- A statement that is no declaration begins with what it ends with. -/
theorem Statement.leads_first (s : Statement) {here : View} {cells : List Cell}
    (length : (s.noted here).notes.length = cells.length)
    (covers : Covers view pc cells (s.noted here).notes) (same : here.scope = scope)
    (exit : Leads view (pc + cellsSize cells) (scope.map .bound)) :
    Leads view pc (scope.map .bound) := by
  subst same
  rcases s.noted_cases here with ⟨none, -⟩ | ⟨heads, -⟩
  · rw [none] at length
    rw [List.eq_nil_of_length_eq_zero length.symm] at exit
    exact exit
  · exact heads.leads covers

theorem Ending.unsealed_ne_sealed : Ending.unsealed ≠ .sealed := by decide

/-- The code of a statement leaves the variables in scope where they are, wherever it stands.  It
goes on at its end unless that is sealed, and leaves a loop only if it is not closed. -/
def Statement.Obedient (view : Nat → Option Note) (pool : Pool) (layout : Layout) (s : Statement) : Prop :=
  ∀ ⦃here : View⦄ ⦃place : Place⦄, s.Proper → here.Fits place → place.Scoped → s.Stands place →
    ∀ ⦃p : Pool⦄, (s.code layout place p).pool.Le pool → ∀ ⦃leave again pc : Nat⦄,
      Covers view pc (s.code layout place p).cells (s.noted here).notes →
      (s.ending here.depth ≠ .sealed →
        Leads view (pc + cellsSize (s.code layout place p).cells) ((s.noted here).scope.map .bound)) →
      (s.Closed ∨
        Leads view leave (here.kept.map .bound) ∧ Leads view again (here.kept.map .bound)) →
      Obeys view pool leave again pc (s.code layout place p).cells (s.noted here).notes

section

variable {layout : Layout}

theorem obedient_next {a b : Statement} (first : a.Obedient view pool layout)
    (rest : b.Obedient view pool layout) : (Statement.next a b).Obedient view pool layout := by
  intro here place proper fits placed stands p le leave again pc covers exit ways
  have isOpen : place.Open := stands.resolve_left id
  have after := fits.after layout proper.1 placed isOpen p
    (a.noted here).notes.length
  have scoped' := placed.after layout proper.1 p
  have before := (b.le_code layout (place.knowing (a.code layout place p).locals)
    (a.code layout place p).pool).trans le
  have length := a.length_noted layout proper.1 fits placed (.inr isOpen) p
  have length' := b.length_noted layout proper.2 after scoped' (.inr isOpen)
    (a.code layout place p).pool
  obtain ⟨covers, covers'⟩ := (covers_append length).mp covers
  have kept := View.kept_noted (a.noted here).notes.length a fits.keep_le
  refine (obeys_append length).mpr ?_
  rw [show cellsSize ((a.next b).code layout place p).cells = _ from cellsSize_append _ _,
    ← Nat.add_assoc] at exit
  -- If the rest has no code then the first statement goes on where both end, else at the rest.
  rcases b.noted_cases (here.after (a.noted here).notes.length (a.noted here).scope) with
    ⟨none, same, untouched⟩ | ⟨heads, touched⟩
  · rw [none] at length'
    have empty := List.eq_nil_of_length_eq_zero length'.symm
    rw [empty, none]
    refine ⟨first proper.1 fits placed (.inr isOpen) before covers (fun unsealed => ?_)
      (ways.imp_left And.left), trivial⟩
    have exit := exit (by rw [Statement.ending, show b.ending here.depth = _ from untouched]; exact unsealed)
    rw [empty] at exit
    rw [show (((a.next b).noted here).scope) = _ from same] at exit
    exact exit
  · refine ⟨first proper.1 fits placed (.inr isOpen) before covers
      (fun _ => heads.leads covers') (ways.imp_left And.left),
      rest proper.2 after scoped' (.inr isOpen) le covers' (fun unsealed => exit ?_)
        (kept ▸ ways.imp_left And.right)⟩
    have last : (a.next b).ending here.depth = b.ending here.depth :=
      Ending.after_eq touched
    rw [last]
    exact unsealed

theorem obedient_print (e : Expression) : (Statement.print e).Obedient view pool layout := by
  intro here place proper fits placed stands p le leave again pc covers exit ways
  have exit := exit Ending.unsealed_ne_sealed
  rw [show (Statement.code layout (.print e) place p).cells = ops _ from rfl, cellsSize_ops]
    at exit
  exact .ends (e.length_notes place.locals here.scope [] p) covers rfl
    (e.obeys_notes fits.names [] pc p le)
    (Asm.obeys_work rfl rfl rfl rfl (by rintro (load | load) <;> cases load)) exit

theorem obedient_expression (e : Expression) : (Statement.expression e).Obedient view pool layout := by
  intro here place proper fits placed stands p le leave again pc covers exit ways
  have exit := exit Ending.unsealed_ne_sealed
  rw [show (Statement.code layout (.expression e) place p).cells = ops _ from rfl,
    cellsSize_ops] at exit
  exact .ends (e.length_notes place.locals here.scope [] p) covers rfl
    (e.obeys_notes fits.names [] pc p le) Asm.obeys_pop exit

theorem obedient_declare (assignable : Bool) (name : String) (init : Option Expression) :
    (Statement.declare assignable name init).Obedient view pool layout := by
  intro here place proper fits placed stands p le leave again pc covers exit ways
  have exit := exit Ending.unsealed_ne_sealed
  simp only [Statement.code, Statement.noted, fits.depth] at le covers exit ⊢
  by_cases outside : place.depth = 0
  · simp only [if_pos outside] at le covers exit ⊢
    rw [← List.append_assoc] at covers exit ⊢
    have names := ((p.names_addString name).mono (le_initialCode place.locals init _)).mono le
    rw [cellsSize_ops] at exit
    refine .ends ?_ covers rfl (fun covers exit => ?_) (Asm.obeys_define assignable names) exit
    · rw [List.length_append, List.length_append, length_markingNotes,
        length_initialNotes place.locals here.scope init (p.addString name).2]
    · rw [codeSize_append, ← Nat.add_assoc] at exit
      refine .before (length_initialNotes place.locals here.scope init _) covers
        (fun covers => covers.leads_marking exit) (obeys_initialNotes fits.names init le)
        fun _ => obeys_markingNotes exit
  · simp only [if_neg outside] at le covers exit ⊢
    rw [cellsSize_ops, codeSize_append, ← Nat.add_assoc] at exit
    have marked : Leads view (pc + codeSize (initialCode place.locals init p).1 +
        codeSize (marking assignable))
          ((if assignable then .temporary else .sealed) :: here.scope.map .bound) := by
      cases assignable with
      | true => exact exit.bind rfl
      | false => exact exit.freeze rfl
    refine .before (length_initialNotes place.locals here.scope init _) covers
      (fun covers => covers.leads_marking marked) (obeys_initialNotes fits.names init le)
      fun _ => obeys_markingNotes marked

theorem obedient_block {s : Statement} (body : s.Obedient view pool layout) :
    (Statement.block s).Obedient view pool layout := by
  intro here place proper fits placed stands p le leave again pc covers exit ways
  have inside : s.Proper := proper
  have count := fits.declared layout inside placed p
  have length := s.length_noted layout inside fits.inner placed.inner
    (.inr placed.open) p
  obtain ⟨new, same, names⟩ := s.scope_noted here.inner
  have new_length : new.length = (deeper (s.code layout place.inner p).locals place.depth).length := by
    rw [← count, same, List.length_append]
    exact (Nat.add_sub_cancel _ _).symm
  simp only [Statement.code, Statement.noted, count, pops_eq, ← new_length] at le covers exit ⊢
  rw [cellsSize_append, cellsSize_ops, codeSize_pops, ← Nat.add_assoc] at exit
  obtain ⟨covers, dropping⟩ := (covers_append length).mp covers
  rw [obeys_append length]
  have kept : (s.noted here.inner).scope.drop new.length = here.scope := by
    rw [same]
    exact List.drop_left' rfl
  -- a block that declares nothing has no instructions of its own
  by_cases nothing : s.declared (here.depth + 1) = []
  · have none : new.length = 0 := by
      have length := congrArg List.length names
      rwa [List.length_map, show here.inner.depth = here.depth + 1 from rfl, nothing] at length
    rw [none] at exit dropping ⊢
    rw [none, List.drop_zero] at kept
    refine ⟨body inside fits.inner placed.inner (.inr placed.open) le covers
      (fun unsealed => ?_) ways, trivial⟩
    rw [kept]
    refine exit ?_
    rw [Statement.ending, if_pos nothing]
    exact unsealed
  · have exit := exit (by rw [Statement.ending, if_neg nothing]; exact Ending.unsealed_ne_sealed)
    have some : new.length ≠ 0 := by
      intro none
      rw [List.eq_nil_of_length_eq_zero none, List.map_nil, eq_comm,
        List.map_eq_nil_iff] at names
      exact nothing names
    refine ⟨body inside fits.inner placed.inner (.inr placed.open) le covers
      (fun _ => ?_) ways, ?_⟩
    · obtain ⟨count, more⟩ := Nat.exists_eq_succ_of_ne_zero some
      rw [more] at dropping
      exact dropping.leads
    · refine obeys_dropNotes new.length ?_ dropping ?_
      · rw [same, List.length_append]
        exact Nat.le_add_right _ _
      · rw [kept]
        exact exit

theorem obedient_choose (c : Expression) {s t : Statement} (yes : s.Obedient view pool layout)
    (no : t.Obedient view pool layout) : (Statement.choose c s t).Obedient view pool layout := by
  intro here place proper fits placed stands p le leave again pc covers exit ways
  obtain ⟨-, left, right, flat, flat'⟩ := proper
  have exit := exit Ending.unsealed_ne_sealed
  simp only [Statement.code, Statement.noted, flat.knowing left placed] at le covers exit ⊢
  simp only [List.append_assoc, List.cons_append, List.nil_append] at covers exit ⊢
  have before := (t.le_code layout place (s.code layout place (c.code place.locals p).2).pool).trans le
  have length (count : Nat) := s.length_noted layout left (fits.moved count)
    placed (.inl flat) (c.code place.locals p).2
  have length' (count : Nat) := t.length_noted layout right (fits.moved count)
    placed (.inl flat') (s.code layout place (c.code place.locals p).2).pool
  refine obeys_chooseCells (c.length_notes place.locals here.scope [] p) (length _)
    (c.obeys_notes fits.names [] pc p ((s.le_code layout place _).trans before))
    (fun pc covers exit => ⟨s.leads_first (length _) covers rfl exit, ?_⟩)
    (fun pc covers exit => ⟨t.leads_first (length' _) covers rfl exit, ?_⟩) covers exit
  · refine yes left (fits.moved _) placed (.inl flat) before covers (fun _ => ?_)
      (ways.imp_left And.left)
    rw [flat.scope_noted]
    exact exit
  · refine no right (fits.moved _) placed (.inl flat') le covers (fun _ => ?_)
      (ways.imp_left And.right)
    rw [flat'.scope_noted]
    exact exit

theorem obedient_loop (test step : Option Expression) {s : Statement}
    (body : s.Obedient view pool layout) : (Statement.loop test step s).Obedient view pool layout := by
  intro here place proper fits placed stands p le leave again pc covers exit ways
  obtain ⟨-, -, inside, flat⟩ := proper
  have exit := exit Ending.unsealed_ne_sealed
  have entry : Leads view pc (here.scope.map .bound) := by
    rcases (Statement.loop test step s).noted_cases here with ⟨-, -, untouched⟩ | ⟨heads, -⟩
    · cases untouched
    · exact heads.leads covers
  simp only [Statement.code, Statement.noted] at le covers exit ⊢
  simp only [List.append_assoc] at covers ⊢
  have stepped := (s.le_code layout place.looped _).trans le
  have length (count : Nat) := s.length_noted layout inside
    ((fits.looped placed).moved count) placed.looped (.inl flat)
    (clauseCode place.locals step (clauseCode place.locals test p).2).2
  refine obeys_loopCode fits.names test step ((le_clauseCode _ _ _).trans stepped) stepped
    (length _) (fun leave again leaves agains pc covers exit =>
      ⟨s.leads_first (length _) covers rfl exit, ?_⟩) covers entry exit
  refine body inside ((fits.looped placed).moved _) placed.looped (.inl flat) le covers
    (fun _ => ?_) (.inr ?_)
  · rw [flat.scope_noted]
    exact exit
  · exact (here.kept_looped _).symm ▸ ⟨leaves, agains⟩

theorem obedient_leave : Statement.leave.Obedient view pool layout := by
  intro here place proper fits placed stands p le leave again pc covers exit ways
  refine .seq ?_ covers Covers.leads (fun covers exit => ?_) fun _ =>
    ⟨⟨(ways.resolve_left id).1, rfl⟩, trivial⟩
  · rw [length_dropNotes, length_ops, length_pops, fits.dropped]
  · rw [cellsSize_ops, pops_eq, codeSize_pops, ← fits.dropped] at exit
    rw [pops_eq, ← fits.dropped] at covers ⊢
    exact obeys_dropNotes _ (Nat.sub_le _ _) covers exit

theorem obedient_again : Statement.again.Obedient view pool layout := by
  intro here place proper fits placed stands p le leave again pc covers exit ways
  refine .seq ?_ covers Covers.leads (fun covers exit => ?_) fun _ =>
    ⟨⟨(ways.resolve_left id).2, rfl⟩, trivial⟩
  · rw [length_dropNotes, length_ops, length_pops, fits.dropped]
  · rw [cellsSize_ops, pops_eq, codeSize_pops, ← fits.dropped] at exit
    rw [pops_eq, ← fits.dropped] at covers ⊢
    exact obeys_dropNotes _ (Nat.sub_le _ _) covers exit

theorem obedient_giveBack (value : Option Expression) : (Statement.giveBack value).Obedient view pool layout := by
  intro here place proper fits placed stands p le leave again pc covers exit ways
  refine .before (length_initialNotes place.locals here.scope value p) covers Covers.leads
    (obeys_initialNotes fits.names value le) fun _ => obeys_singleton Asm.obeys_return

theorem obedient_define (name : String) (parameters : List String) (s : Statement) :
    (Statement.define name parameters s).Obedient view pool layout := by
  intro here place proper fits placed stands p le leave again pc covers exit ways
  have exit := exit Ending.unsealed_ne_sealed
  simp only [Statement.code, Statement.noted, fits.depth] at le covers exit ⊢
  by_cases outside : place.depth = 0
  · simp only [if_pos outside] at le covers exit ⊢
    have kept := (Heap.le_intern _ name).trans (s.le_code layout (.function parameters)
      ((p.declare place.depth name).2.function name)).heap
    have names : pool.Names (p.declare place.depth name).1 name := by
      have declared : p.declare place.depth name = p.addString name := if_pos outside
      rw [declared] at le kept ⊢
      exact (p.names_addString name).mono
        (((Pool.Le.routine kept fun _ _ => id).trans (Pool.le_add _ _)).trans le)
    rw [cellsSize_ops, codeSize_cons, codeSize_singleton, ← Nat.add_assoc] at exit
    exact ⟨Asm.obeys_constant (Pool.served_add le) covers.2.leads,
      Asm.obeys_define true names exit, trivial⟩
  · simp only [if_neg outside] at le covers exit ⊢
    rw [cellsSize_ops, codeSize_singleton] at exit
    exact obeys_singleton (Asm.obeys_constant (Pool.served_add le) (exit.bind rfl))

end

/-- The code of every statement leaves the variables in scope where they are. -/
theorem Statement.obeys_noted (layout : Layout) (s : Statement) : s.Obedient view pool layout := by
  induction s with
  | done =>
      intro here
      intros
      trivial
  | next a b first rest => exact obedient_next first rest
  | print e => exact obedient_print e
  | expression e => exact obedient_expression e
  | declare assignable name init => exact obedient_declare assignable name init
  | block s body => exact obedient_block body
  | choose c s t yes no => exact obedient_choose c yes no
  | loop test step s body => exact obedient_loop test step body
  | leave => exact obedient_leave
  | again => exact obedient_again
  | giveBack value => exact obedient_giveBack value
  | define name parameters s => exact obedient_define name parameters s

end

end StackScript
