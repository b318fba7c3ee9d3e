import StackScript.Proofs.Simulation.Statement

/-!
# The code of a loop executes it

A loop is executed turn by turn.  A turn is a test, the body and the step; the body may
be left by `break`, which ends the loop, or by `continue`, which goes on with the step.
Every turn takes at least one instruction, so a loop that is still going on after some
turns keeps the machine going for as many instructions.
-/

namespace StackScript

open Machine

@[simp] theorem size_jump (distance : Nat) : Asm.size ⟨.jump, distance⟩ = 3 := rfl

@[simp] theorem size_jumpIfFalse (distance : Nat) : Asm.size ⟨.jumpIfFalse, distance⟩ = 3 := rfl

@[simp] theorem size_loop (distance : Nat) : Asm.size ⟨.loop, distance⟩ = 3 := rfl

@[simp] theorem size_pop : (Asm.plain .pop).size = 1 := rfl

/-- Size of the condition of a loop. -/
def testSize (test : Option (List Asm)) : Nat := codeSize (testCode 0 test)

/-- How far behind its beginning the body of a loop begins. -/
def bodyOffset (test step : Option (List Asm)) : Nat := testSize test + codeSize (stepCode 0 step)

/-- The parts of a loop lie where they belong. -/
structure Chunk.LoopAt (chunk : Chunk) (pc : Nat) (test step : Option (List Asm))
    (body : List Cell) : Prop where
  tested : ∃ skipped, chunk.Holds pc (testCode skipped test) ∧
    pc + testSize test + skipped = pc + bodyOffset test step + cellsSize body + 3 + 1
  stepped : chunk.Holds (pc + testSize test) (stepCode (bodyOffset test step) step)
  inside : chunk.Lies (pc + cellsSize (loopCells test step body))
    (pc + nextStart (testSize test) step) (pc + bodyOffset test step) body
  back : chunk.Holds (pc + bodyOffset test step + cellsSize body)
    [loopTo (nextStart (testSize test) step) (bodyOffset test step + cellsSize body)]
  exit : chunk.Holds (pc + bodyOffset test step + cellsSize body + 3) (exitCode test)

theorem nextStart_le_bodyOffset (test step : Option (List Asm)) :
    nextStart (testSize test) step ≤ bodyOffset test step := nextStart_le (testSize test) 0 step

theorem cellsSize_loopCells (test step : Option (List Asm)) (body : List Cell) :
    cellsSize (loopCells test step body) =
      bodyOffset test step + cellsSize body + 3 + codeSize (exitCode test) := by
  simp only [loopCells, cellsSize_append, cellsSize_ops, cellsSize_cons, cellsSize_nil,
    codeSize_testCode, codeSize_stepCode, bodyOffset, testSize,
    show ∀ start offset, Cell.size (.op (loopTo start offset)) = 3 from fun _ _ => rfl]
  omega

theorem Chunk.loopAt {chunk : Chunk} {leave again pc : Nat} {test step : Option (List Asm)}
    {body : List Cell} (h : chunk.Lies leave again pc (loopCode test step body)) :
    chunk.LoopAt pc test step body := by
  have total := cellsSize_loopCells test step body
  have front : codeSize (testCode 0 test) = testSize test := rfl
  have offset : testSize test + codeSize (stepCode 0 step) = bodyOffset test step := rfl
  have back (start offset : Nat) : Cell.size (.op (loopTo start offset)) = 3 := rfl
  have start := nextStart_le_bodyOffset test step
  unfold loopCode at h
  dsimp only at h
  generalize cellsSize (loopCells test step body) = size at total h
  simp only [loopCells, front, offset, resolveJumps_append, resolveJumps_ops, lies_append,
    cellsSize_ops, cellsSize_resolveJumps, cellsSize_append, cellsSize_cons, cellsSize_nil,
    codeSize_testCode, codeSize_stepCode, back] at h
  obtain ⟨tested, ⟨stepped, inside, turned⟩, exit⟩ := h
  have begins : pc + testSize test + codeSize (stepCode 0 step) = pc + bodyOffset test step := by
    rw [Nat.add_assoc, offset]
  rw [show [Cell.op (loopTo (nextStart (testSize test) step) (bodyOffset test step +
    cellsSize body))] = ops [loopTo (nextStart (testSize test) step) (bodyOffset test step +
    cellsSize body)] from rfl, resolveJumps_ops] at turned
  rw [Nat.zero_add, offset] at inside
  rw [begins] at inside turned
  rw [show pc + testSize test + (codeSize (stepCode 0 step) + (cellsSize body + (3 + 0))) =
    pc + bodyOffset test step + cellsSize body + 3 by omega] at exit
  refine ⟨⟨_, lies_ops.mp tested, by omega⟩, lies_ops.mp stepped, ?_, lies_ops.mp turned,
    lies_ops.mp exit⟩
  rw [cellsSize_loopCells, ← total]
  exact lies_of_resolveJumps (by omega) start inside

section

variable {s : Setting} {host : Host} {a : Activation} {heap : Heap} {exits : Exits}
  {count pc : Nat} {stack : List Value} {world : World} {store : Store}
  {names : List String} {locals : List LocalVariable} {test step : Option (List Asm)}
  {body : List Cell}

/-! ## Parts of a turn -/

/-- The test of a loop decides whether a turn begins at the step or the loop ends. -/
theorem leaves_test (linked : Linked s host a heap)
    (slots : locals.map LocalVariable.name = names) {condition : Option Expression}
    (genuine : ∀ e ∈ condition, e.Genuine) {pool : Pool} (sound : pool.Sound)
    (le : (clauseCode locals condition pool).2.Le (a.pool heap))
    (lies : a.routine.chunk.LoopAt pc (clauseCode locals condition pool).1 step body)
    (same : store.names = names) {more : Store → Outcome Completion}
    (turn : ∀ store, store.names = names →
      Leaves s host a exits count names (pc + testSize (clauseCode locals condition pool).1)
        (store.stack [] s.below) store.world
        (pc + cellsSize (loopCells (clauseCode locals condition pool).1 step body)) (more store)) :
    Leaves s host a exits count names pc (store.stack [] s.below) store.world
      (pc + cellsSize (loopCells (clauseCode locals condition pool).1 step body))
      ((s.test condition store).bind fun goesOn store =>
        if goesOn then more store else .value .normal store) := by
  cases condition with
  | none => exact turn store same
  | some e =>
      have total := cellsSize_loopCells (clauseCode locals (some e) pool).1 step body
      obtain ⟨⟨skipped, code, target⟩, -, -, -, exit, -⟩ := lies
      have size : testSize (clauseCode locals (some e) pool).1 =
          codeSize (e.code locals pool).1 + 3 + 1 := by
        simp [testSize, testCode, clauseCode]
      simp only [clauseCode, testCode, Chunk.holds_append] at code
      obtain ⟨valued, jump, discard, -⟩ := code
      have same' : ((s.test (some e) store).bind fun goesOn store =>
          if goesOn then more store else .value .normal store) =
          (e.evaluate s [] store).bind fun v store =>
            if v.isFalsey then .value .normal store else more store := by
        cases value : e.evaluate s [] store with
        | value v mid =>
            cases decided : v.isFalsey <;> simp [Setting.test, value, Outcome.bind, decided]
        | fault | unfinished | unknown => simp [Setting.test, value, Outcome.bind]
      rw [same']
      refine Leaves.bind (e.ends_evaluate linked slots (genuine e rfl) pool pc [] store sound le
        valued same) fun v store same _ => ?_
      have ran := turn store same
      rw [size, ← Nat.add_assoc, ← Nat.add_assoc] at ran
      refine leaves_branch jump ?_ discard exit ran ?_
      · show pc + codeSize (e.code locals pool).1 + 3 + skipped = _
        omega
      · rw [total, show codeSize (exitCode (clauseCode locals (some e) pool).1) = 1 from rfl,
          ← Nat.add_assoc, ← Nat.add_assoc, ← Nat.add_assoc]
        exact Leaves.done same

/-- Behind the test a turn goes on with the body. -/
theorem moves_overStep (lies : a.routine.chunk.LoopAt pc test step body) :
    Moves host a (pc + testSize test) stack world (pc + bodyOffset test step) stack world := by
  cases step with
  | none => exact .refl
  | some step =>
      have jumped : Goes host a 1 _ stack world _ _ _ := goes_jump lies.stepped.1
      refine ⟨1, ?_⟩
      have size : bodyOffset test (some step) = testSize test + 3 +
          codeSize (step ++ [.plain .pop, ⟨.loop, bodyOffset test (some step)⟩]) := by
        simp [bodyOffset, stepCode]
        omega
      rw [size]
      simpa [Nat.add_assoc] using jumped

/-- From the end of the body the next iteration is reached. -/
theorem goes_back (lies : a.routine.chunk.LoopAt pc test step body) :
    Goes host a 1 (pc + bodyOffset test step + cellsSize body) stack world
      (pc + nextStart (testSize test) step) stack world := by
  have start := nextStart_le_bodyOffset test step
  have jumped : Goes host a 1 _ stack world _ _ _ := goes_loop lies.back.1
    (by simp only [loopTo, Asm.size, Opcode.operandWidth]; omega)
  have target : pc + bodyOffset test step + cellsSize body + 3 -
      (bodyOffset test step + cellsSize body + 3 - nextStart (testSize test) step) =
      pc + nextStart (testSize test) step := by omega
  rw [← target]
  exact jumped

/-- The step leads back to the test. -/
theorem leaves_step (linked : Linked s host a heap)
    (slots : locals.map LocalVariable.name = names) {clause : Option Expression}
    (genuine : ∀ e ∈ clause, e.Genuine) {pool : Pool} (sound : pool.Sound)
    (le : (clauseCode locals clause pool).2.Le (a.pool heap))
    (lies : a.routine.chunk.LoopAt pc test (clauseCode locals clause pool).1 body)
    (same : store.names = names) {last : Nat} {more : Store → Outcome Completion}
    (turn : ∀ store, store.names = names →
      Leaves s host a exits count names pc (store.stack [] s.below) store.world last (more store)) :
    Leaves s host a exits count names
      (pc + nextStart (testSize test) (clauseCode locals clause pool).1)
      (store.stack [] s.below) store.world last
      ((s.step clause store).bind fun _ store => more store) := by
  cases clause with
  | none => exact turn store same
  | some e =>
      obtain ⟨-, code, -⟩ := lies
      have same' : ((s.step (some e) store).bind fun _ store => more store) =
          (e.evaluate s [] store).bind fun _ store => more store := by
        cases value : e.evaluate s [] store <;> simp [Setting.step, value, Outcome.bind]
      rw [same']
      simp only [clauseCode, stepCode] at code
      obtain ⟨-, code⟩ := code
      rw [Chunk.holds_append] at code
      obtain ⟨valued, discard, back, -⟩ := code
      have size : bodyOffset test (some (e.code locals pool).1) =
          testSize test + 3 + codeSize (e.code locals pool).1 + 1 + 3 := by
        simp [bodyOffset, stepCode]
        omega
      refine Leaves.bind (e.ends_evaluate linked slots (genuine e rfl) pool _ [] store sound le
        valued same) fun v store same _ => ?_
      refine (turn store same).after (Moves.trans ⟨1, goes_pop discard⟩ ⟨1, ?_⟩)
      have here : pc + testSize test + 3 + codeSize (e.code locals pool).1 + 1 + 3 =
          pc + bodyOffset test (some (e.code locals pool).1) := by omega
      have jumped : Goes host a 1 _ (store.stack [] s.below) store.world _ _ _ :=
        goes_loop back (by simp only [size_jump, size_loop, size_pop]; omega)
      simp only [size_jump, size_loop, size_pop, here, Nat.add_sub_cancel] at jumped
      exact jumped

/-! ## Turns -/

/-- A body executed by a loop: it is left to where the loop goes on. -/
def Turns (s : Setting) (host : Host) (a : Activation) (test step : Option (List Asm))
    (body : List Cell) (names : List String) (time pc : Nat) (run : Store → Outcome Completion) :
    Prop :=
  ∀ store : Store, store.names = names →
    Leaves s host a ⟨pc + cellsSize (loopCells test step body),
        pc + nextStart (testSize test) step, names.length⟩ time names
      (pc + bodyOffset test step) (store.stack [] s.below) store.world
      (pc + bodyOffset test step + cellsSize body) (run store) ∧
    ∀ completion store', run store = .value completion store' → store'.names = names

/-- What is left of a body is what was there before it. -/
theorem keep_names (same : store.names = names) : store.keep names.length = store :=
  Store.keep_all (by rw [← same, Store.length_names])

/-- A loop goes turn by turn. -/
theorem leaves_iterate (linked : Linked s host a heap)
    (slots : locals.map LocalVariable.name = names) {condition clause : Option Expression}
    (genuine : ∀ e ∈ condition, e.Genuine) (genuine' : ∀ e ∈ clause, e.Genuine) {pool : Pool}
    (sound : pool.Sound)
    (le : (clauseCode locals clause (clauseCode locals condition pool).2).2.Le (a.pool heap))
    (lies : a.routine.chunk.LoopAt pc (clauseCode locals condition pool).1
      (clauseCode locals clause (clauseCode locals condition pool).2).1 body)
    {run : Store → Outcome Completion} {time : Nat}
    (turns : Turns s host a (clauseCode locals condition pool).1
      (clauseCode locals clause (clauseCode locals condition pool).2).1 body names time pc run) :
    ∀ (count : Nat), count ≤ time → ∀ store : Store, store.names = names →
      Leaves s host a exits count names pc (store.stack [] s.below) store.world
        (pc + cellsSize (loopCells (clauseCode locals condition pool).1
          (clauseCode locals clause (clauseCode locals condition pool).2).1 body))
        (s.iterate condition clause run count store)
  | 0, _, _, _ => fun _ _ => ⟨_, _, rfl⟩
  | count + 1, less, store, same => by
      refine leaves_test linked slots genuine sound ((le_clauseCode ..).trans le) lies same
        fun store same => ?_
      refine Leaves.after (moves_overStep lies) ?_
      obtain ⟨left, kept⟩ := turns store same
      -- after the body, both ways to go on lead to the step
      have further {store' : Store} (same' : store'.names = names)
          (moved : Advances host a
            (pc + bodyOffset (clauseCode locals condition pool).1
              (clauseCode locals clause (clauseCode locals condition pool).2).1)
            (store.stack [] s.below) store.world
            (pc + nextStart (testSize (clauseCode locals condition pool).1)
              (clauseCode locals clause (clauseCode locals condition pool).2).1)
            (store'.stack [] s.below) store'.world) :
          Leaves s host a exits (count + 1) names _ _ _ _ _ :=
        (leaves_step linked slots genuine'
          (sound_clauseCode _ genuine sound) le lies same' fun store same =>
            leaves_iterate linked slots genuine genuine' sound le lies turns count (by omega) store
              same).afterwards moved
      cases outcome : run store with
      | fault | unknown =>
          rw [outcome] at left
          exact left
      | unfinished =>
          rw [outcome] at left
          exact Lasts.of_le less left
      | value completion store' =>
          have same' := kept completion store' outcome
          rw [outcome] at left
          cases completion with
          | leave =>
              change Moves host a _ _ _ _ ((store'.keep names.length).stack [] s.below) _ at left
              rw [keep_names same'] at left
              exact ⟨left, same'⟩
          | normal => exact further same' (Advances.after left.1 ⟨0, goes_back lies⟩)
          | again =>
              change Advances host a _ _ _ _ ((store'.keep names.length).stack [] s.below) _ at left
              rw [keep_names same'] at left
              exact further same' left

/-! ## All statements -/

/-- The code of a statement does what the reference says. -/
theorem Statement.leaves_execute (linked : Linked s host a heap) {layout : Layout} (t : Statement)
    (proper : t.Proper) {place : Place} (fits : place.Scoped) (stands : t.Flat ∨ place.Open)
    {pool : Pool} (sound : pool.Sound) (le : (t.code layout place pool).pool.Le (a.pool heap))
    (floor : exits.floor = place.floor)
    (lies : a.routine.chunk.Lies exits.leave exits.again pc (t.code layout place pool).cells)
    (slots : place.locals.map LocalVariable.name = store.names) (time : Nat) :
    Leaves s host a exits time ((t.code layout place pool).locals.map LocalVariable.name) pc
      (store.stack [] s.below) store.world (pc + cellsSize (t.code layout place pool).cells)
      (t.execute s time place.depth store) := by
  induction t generalizing place pool exits pc store with
  | giveBack | define => trivial
  | done => exact Leaves.done slots.symm
  | next first rest ih ih' =>
      have isOpen := stands.resolve_left id
      have locals := first.locals_code layout proper.1 pool fits
      have later := fits.knowing first.depth_declared
      have isOpen' : (place.knowing (first.declared place.depth ++ place.locals)).Open := isOpen
      have floor' := floor.trans (place.floor_knowing isOpen first.depth_declared
        fun outside => by rw [outside, first.declared_zero]).symm
      rw [← locals] at later isOpen' floor'
      obtain ⟨front, back⟩ := Chunk.lies_append.mp lies
      have behind := rest.le_code layout (place.knowing (first.code layout place pool).locals)
        (first.code layout place pool).pool
      refine Leaves.andThen (ih proper.1 fits (.inr isOpen) sound (behind.trans le) floor front slots)
        fun store same => ?_
      simp only [Statement.code, cellsSize_append, ← Nat.add_assoc]
      exact ih' proper.2 later (.inr isOpen') (first.sound_code layout proper.1 place sound) le floor'
        back same.symm
  | print e =>
      rw [show (Statement.print e).code layout place pool = ⟨_, _, _⟩ from rfl] at lies le ⊢
      rw [Chunk.lies_ops, Chunk.holds_append] at lies
      rw [cellsSize_ops, codeSize_append, ← Nat.add_assoc, codeSize_singleton]
      refine Leaves.bind (e.ends_evaluate linked slots proper pool pc [] store sound le lies.1 rfl)
        fun v store same _ => ?_
      exact leaves_print (same.trans slots.symm) lies.2.1
  | expression e =>
      rw [show (Statement.expression e).code layout place pool = ⟨_, _, _⟩ from rfl] at lies le ⊢
      rw [Chunk.lies_ops, Chunk.holds_append] at lies
      rw [cellsSize_ops, codeSize_append, ← Nat.add_assoc, codeSize_singleton]
      refine Leaves.bind (e.ends_evaluate linked slots proper pool pc [] store sound le lies.1 rfl)
        fun v store same _ => ?_
      exact Leaves.after ⟨1, goes_pop lies.2.1⟩ (Leaves.done (same.trans slots.symm))
  | declare assignable name init => exact leaves_declare linked proper sound le lies slots time
  | block body ih =>
      have locals : (body.code layout place.inner pool).locals =
          body.declared (place.depth + 1) ++ place.locals :=
        body.locals_code layout proper pool fits.inner
      have dropped : deeper (body.code layout place.inner pool).locals place.depth =
          body.declared (place.depth + 1) := by
        rw [locals]
        exact fits.deeper_inner body.depth_declared
      have left : (body.code layout place.inner pool).locals.drop
          (body.declared (place.depth + 1)).length = place.locals := by
        rw [locals]
        exact List.drop_left' rfl
      simp only [Statement.code, dropped, left, Chunk.lies_append, Chunk.lies_ops] at lies ⊢
      rw [cellsSize_append, cellsSize_ops, ← Nat.add_assoc]
      have inner := ih proper fits.inner (.inr fits.open) sound le floor lies.1 slots
      rw [locals] at inner
      refine leaves_scope floor slots inner (fun completion store' ran => ?_) lies.2
      have longer := (body.names_execute proper ran).1.length_le
      rwa [Store.length_names, Store.length_names] at longer
  | choose c yes no ih ih' =>
      obtain ⟨genuine, proper, proper', flat, flat'⟩ := proper
      let test := c.code place.locals pool
      have tested := c.sound_code place.locals genuine pool sound
      have locals : (yes.code layout place test.2).locals = place.locals := by
        rw [yes.locals_code layout proper _ fits, flat.declared, List.nil_append]
      have locals' : (no.code layout place (yes.code layout place test.2).pool).locals =
          place.locals := by
        rw [no.locals_code layout proper' _ fits, flat'.declared, List.nil_append]
      have here : place.knowing (yes.code layout place test.2).locals = place := by rw [locals]; rfl
      have right := no.le_code layout place (yes.code layout place test.2).pool
      have left := yes.le_code layout place test.2
      simp only [Statement.code] at le lies ⊢
      change (no.code layout (place.knowing (yes.code layout place test.2).locals) _).pool.Le _ at le
      rw [here] at le lies ⊢
      rw [locals']
      refine leaves_choose lies (fun code => c.ends_evaluate linked rfl genuine pool pc [] store
        sound ((left.trans right).trans le) code slots.symm)
        (fun store same code => ?_) (fun store same code => ?_)
      · have ran := ih proper fits (.inl flat) tested (right.trans le) floor code same.symm
        rwa [locals] at ran
      · have ran := ih' proper' fits (.inl flat') (yes.sound_code layout proper place tested) le floor
          code same.symm
        rwa [locals'] at ran
  | loop test step body ih =>
      obtain ⟨genuine, genuine', proper, flat⟩ := proper
      have tested := sound_clauseCode place.locals genuine sound
      have stepped := sound_clauseCode place.locals genuine' tested
      have lies := Chunk.loopAt lies
      have locals : (body.code layout place.looped (clauseCode place.locals step
          (clauseCode place.locals test pool).2).2).locals = place.locals := by
        rw [body.locals_code layout proper _ fits.looped, flat.declared, List.nil_append]
        rfl
      have behind := body.le_code layout place.looped (clauseCode place.locals step
          (clauseCode place.locals test pool).2).2
      have length : place.looped.floor = (place.locals.map LocalVariable.name).length := by
        rw [fits.floor_looped, List.length_map]
      simp only [Statement.code, loopCode, cellsSize_resolveJumps]
      rw [locals]
      refine leaves_iterate linked rfl genuine genuine' sound (behind.trans le) lies
        (fun store same => ⟨?_, fun completion store' ran => ?_⟩) time (Nat.le_refl time) store slots.symm
      · have ran : Leaves s host a ⟨_, _, _⟩ time _ _ _ _ _ _ :=
          ih proper fits.looped (.inl flat) stepped le length.symm lies.inside same.symm
        rwa [locals] at ran
      · exact ((body.names_execute proper ran).2 flat).trans same
  | leave => exact leaves_leave floor lies slots time
  | again => exact leaves_again floor lies slots time

end

end StackScript
