import StackScript.Proofs.Code.Cells
import StackScript.Proofs.Syntax.Statement

/-!
# The code of statements

`Statement.code` translates a tree to cells.  The code depends on where the
statement stands: on the locals known there, on the depth of the scope, and on the
depth at which the innermost loop was opened, since `break` and `continue` drop the
locals declared deeper than that.

A function declaration puts a whole routine into the pool.  All of it follows from
the tree except its line table, which a `Layout` provides.
-/

namespace StackScript

/-- Where a statement stands. -/
structure Place where
  locals : List LocalVariable
  depth : Nat
  /-- Scope depth around the body of the innermost loop. -/
  loop : Option Nat

namespace Place

/-- Inside a scope of its own. -/
def inner (place : Place) : Place := { place with depth := place.depth + 1 }

/-- Inside a loop. -/
def looped (place : Place) : Place := { place with loop := some place.depth }

/-- After declarations. -/
def knowing (place : Place) (locals : List LocalVariable) : Place := { place with locals }

@[simp] theorem knowing_locals (place : Place) (locals : List LocalVariable) :
    (place.knowing locals).locals = locals := rfl

@[simp] theorem knowing_depth (place : Place) (locals : List LocalVariable) :
    (place.knowing locals).depth = place.depth := rfl

@[simp] theorem knowing_loop (place : Place) (locals : List LocalVariable) :
    (place.knowing locals).loop = place.loop := rfl

@[simp] theorem knowing_self (place : Place) : place.knowing place.locals = place := rfl

end Place

/-- The locals declared deeper than a scope. -/
def deeper (locals : List LocalVariable) (depth : Nat) : List LocalVariable :=
  locals.takeWhile (·.isDeeperThan depth)

/-- Drops one value for each local. -/
def pops (locals : List LocalVariable) : List Asm := locals.map fun _ => .plain .pop

theorem pops_eq (locals : List LocalVariable) :
    pops locals = List.replicate locals.length (.plain .pop) := List.map_const' ..

theorem codeSize_pops (count : Nat) : codeSize (List.replicate count (.plain .pop)) = count := by
  induction count with
  | zero => rfl
  | succ count ih =>
      rw [List.replicate_succ, codeSize_cons, ih]
      exact Nat.add_comm 1 count

/-- The line table of every routine, by the identity of the routine. -/
abbrev Layout := Nat → Array (Nat × Nat)

/-- What a statement leads to: its cells, and the locals and the pool after it. -/
structure Coded where
  cells : List Cell
  locals : List LocalVariable
  pool : Pool

/-! ## Declarations and ends -/

/-- The local that a declaration in a scope of the given depth adds; outside every scope
there is none. -/
def declaredName (depth : Nat) (name : String) : List LocalVariable :=
  if depth = 0 then [] else [⟨name, some depth⟩]

/-- The locals that a statement adds to a scope of the given depth. -/
def Statement.declared (depth : Nat) : Statement → List LocalVariable
  | .next a b => b.declared depth ++ a.declared depth
  | .declare _ name _ | .define name _ _ => declaredName depth name
  | _ => []

/-- How some code ends. -/
inductive Ending where
  /-- There is no code. -/
  | untouched
  /-- It ends with a return, and no jump leads behind that. -/
  | sealed
  /-- It may be left at its end. -/
  | unsealed
deriving DecidableEq, Repr

/-- How one piece of code ends after another. -/
def Ending.after (first : Ending) : Ending → Ending
  | .untouched => first
  | last => last

/-- What is put behind the code of a routine. -/
def Ending.closing : Ending → List Asm
  | .sealed => []
  | _ => [.plain .null, .plain .return]

/-- How the code of a statement in a scope of the given depth ends. -/
def Statement.ending (depth : Nat) : Statement → Ending
  | .done => .untouched
  | .next a b => (a.ending depth).after (b.ending depth)
  | .block s => if s.declared (depth + 1) = [] then s.ending (depth + 1) else .unsealed
  | .giveBack _ => .sealed
  | _ => .unsealed

/-! ## Parts -/

/-- The code of a value that is null if it is left out. -/
def initialCode (locals : List LocalVariable) : Option Expression → Pool → List Asm × Pool
  | none, pool => ([.plain .null], pool)
  | some e, pool => e.code locals pool

/-- The code of a clause, if it is there. -/
def clauseCode (locals : List LocalVariable) :
    Option Expression → Pool → Option (List Asm) × Pool
  | none, pool => (none, pool)
  | some e, pool => (some (e.code locals pool).1, (e.code locals pool).2)

/-- What turns a value into a constant, where one is declared. -/
def marking (assignable : Bool) : List Asm := if assignable then [] else [.plain .makeConst]

/-- A condition and its two branches. -/
def chooseCells (test : List Asm) (yes no : List Cell) : List Cell :=
  let yes : List Cell := .op (.plain .pop) :: yes
  let no : List Cell := .op (.plain .pop) :: no
  let skip : Cell := .op ⟨.jump, cellsSize no⟩
  ops test ++ .op ⟨.jumpIfFalse, cellsSize (yes ++ [skip])⟩ :: (yes ++ skip :: no)

/-- The condition of a loop, which skips so many bytes if it does not hold. -/
def testCode (skipped : Nat) : Option (List Asm) → List Asm
  | none => []
  | some test => test ++ [⟨.jumpIfFalse, skipped⟩, .plain .pop]

/-- The step of a loop, which is skipped at first and leads back by so many bytes. -/
def stepCode (back : Nat) : Option (List Asm) → List Asm
  | none => []
  | some step =>
      let step := step ++ [.plain .pop, ⟨.loop, back⟩]
      ⟨.jump, codeSize step⟩ :: step

/-- Where the next iteration of a loop begins. -/
def nextStart (head : Nat) : Option (List Asm) → Nat
  | none => 0
  | some _ => head + 3

/-- Drops the condition that ended a loop. -/
def exitCode : Option (List Asm) → List Asm
  | none => []
  | some _ => [.plain .pop]

/-- A loop up to its last jump back, and what follows that. -/
def loopCells (test step : Option (List Asm)) (body : List Cell) : List Cell :=
  let back := codeSize (testCode 0 test) + codeSize (stepCode 0 step)
  let iteration : List Cell :=
    ops (stepCode back step) ++
      (body ++ [.op (loopTo (nextStart (codeSize (testCode 0 test)) step)
        (back + cellsSize body))])
  ops (testCode (1 + cellsSize iteration) test) ++ (iteration ++ ops (exitCode test))

/-- A loop whose jumps are resolved. -/
def loopCode (test step : Option (List Asm)) (body : List Cell) : List Cell :=
  let cells := loopCells test step body
  resolveJumps (cellsSize cells) (nextStart (codeSize (testCode 0 test)) step) 0 cells

/-- The distances in a condition do not change its size. -/
theorem codeSize_testCode (skipped : Nat) (test : Option (List Asm)) :
    codeSize (testCode skipped test) = codeSize (testCode 0 test) := by
  cases test <;> simp [testCode, Asm.size]

/-- Nor do those in a step. -/
theorem codeSize_stepCode (back : Nat) (step : Option (List Asm)) :
    codeSize (stepCode back step) = codeSize (stepCode 0 step) := by
  cases step <;> simp [stepCode, Asm.size]

/-- A step stands behind the condition, and begins with a jump over itself. -/
theorem nextStart_le (head back : Nat) (step : Option (List Asm)) :
    nextStart head step ≤ head + codeSize (stepCode back step) := by
  cases step with
  | none => exact Nat.zero_le _
  | some step =>
      have size := codeSize_cons ⟨.jump, codeSize (step ++ [.plain .pop, ⟨.loop, back⟩])⟩
        (step ++ [.plain .pop, ⟨.loop, back⟩])
      rw [nextStart, stepCode, size, ← Nat.add_assoc]
      exact Nat.le_add_right _ _

/-! ## Routines -/

namespace Place

/-- Where a script begins. -/
def script : Place := ⟨[⟨"", some 0⟩], 0, none⟩

/-- Where the body of a function begins. -/
def function (parameters : List String) : Place :=
  ⟨parameters.reverse.map (⟨·, some 1⟩) ++ [⟨"", some 0⟩], 1, none⟩

end Place

/-- Index of the name of a declared variable, if it is global. -/
def Pool.declare (pool : Pool) (depth : Nat) (name : String) : Nat × Pool :=
  if depth = 0 then pool.addString name else (0, pool)

/-- The pool in which the body of a function of the given name begins. -/
def Pool.function (pool : Pool) (name : String) : Pool := ⟨(pool.heap.intern name).2, #[]⟩

/-- The routine with the given body. -/
def Coded.routine (layout : Layout) (name : Option Text) (arity : Nat) (ending : Ending)
    (body : Coded) : Routine × Heap :=
  body.pool.heap.allocate name arity
    ⟨(assemble (draft body.cells ++ ending.closing)).toArray, body.pool.constants,
      layout body.pool.heap.routines⟩

/-! ## Statements -/

/-- The code of a statement. -/
def Statement.code (layout : Layout) : Statement → Place → Pool → Coded
  | .done, place, pool => ⟨[], place.locals, pool⟩
  | .next a b, place, pool =>
      let first := a.code layout place pool
      let rest := b.code layout (place.knowing first.locals) first.pool
      ⟨first.cells ++ rest.cells, rest.locals, rest.pool⟩
  | .print e, place, pool =>
      let value := e.code place.locals pool
      ⟨ops (value.1 ++ [.plain .print]), place.locals, value.2⟩
  | .expression e, place, pool =>
      let value := e.code place.locals pool
      ⟨ops (value.1 ++ [.plain .pop]), place.locals, value.2⟩
  | .declare assignable name init, place, pool =>
      if place.depth = 0 then
        let global := pool.addString name
        let value := initialCode place.locals init global.2
        ⟨ops (value.1 ++ (marking assignable ++ [.indexed .defineGlobal global.1])),
          place.locals, value.2⟩
      else
        let value := initialCode place.locals init pool
        ⟨ops (value.1 ++ marking assignable), ⟨name, some place.depth⟩ :: place.locals, value.2⟩
  | .block s, place, pool =>
      let body := s.code layout place.inner pool
      -- what is deeper than the place goes with the block
      let dropped := deeper body.locals place.depth
      ⟨body.cells ++ ops (pops dropped), body.locals.drop dropped.length, body.pool⟩
  | .choose c s t, place, pool =>
      let test := c.code place.locals pool
      let yes := s.code layout place test.2
      let no := t.code layout (place.knowing yes.locals) yes.pool
      ⟨chooseCells test.1 yes.cells no.cells, no.locals, no.pool⟩
  | .loop test step s, place, pool =>
      let test := clauseCode place.locals test pool
      let step := clauseCode place.locals step test.2
      let body := s.code layout place.looped step.2
      ⟨loopCode test.1 step.1 body.cells, body.locals, body.pool⟩
  | .leave, place, pool =>
      ⟨ops (pops (deeper place.locals (place.loop.getD 0))) ++ [.leave], place.locals, pool⟩
  | .again, place, pool =>
      ⟨ops (pops (deeper place.locals (place.loop.getD 0))) ++ [.again], place.locals, pool⟩
  | .giveBack value, place, pool =>
      let value := initialCode place.locals value pool
      ⟨ops (value.1 ++ [.plain .return]), place.locals, value.2⟩
  | .define name parameters s, place, pool =>
      let global := pool.declare place.depth name
      let body := s.code layout (.function parameters) (global.2.function name)
      let routine := body.routine layout (some (global.2.heap.intern name).1) parameters.length
        (s.ending 1)
      -- the routine is finished before it becomes a constant of the code around it
      let value := Pool.add ⟨routine.2, global.2.constants⟩ (.routine routine.1)
      let load := .indexed .constant value.1
      if place.depth = 0 then
        ⟨ops [load, .indexed .defineGlobal global.1], place.locals, value.2⟩
      else ⟨ops [load], ⟨name, some place.depth⟩ :: place.locals, value.2⟩

end StackScript
