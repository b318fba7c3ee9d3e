import StackScript.Proofs.Shape.View
import StackScript.Proofs.Value.Twins

/-!
# Code that does the same in another place

The code of a tree depends on the constants that its routine has already: they decide the
index of a constant, hence the size of the instruction that takes it, hence the distances of
jumps.  Two such pieces of code run in parallel: instruction by instruction they agree, and
wherever one can go on, the other can go on at the corresponding offset.

Where jumps lead is said by a relation `goal` between the offsets of both routines.  A piece of
code is parallel to another if it keeps to every such relation that holds where their
instructions begin.
-/

namespace StackScript

/-- An operation on a constant of the routine. -/
def Opcode.takesConstant : Opcode → Bool
  | .constant | .constantLong | .defineGlobal | .defineGlobalLong | .getGlobal | .getGlobalLong
  | .setGlobal | .setGlobalLong => Bool.true
  | _ => Bool.false

/-- An operation that may go on elsewhere than behind it. -/
def Opcode.jumps : Opcode → Bool
  | .jump | .jumpIfFalse | .loop => Bool.true
  | _ => Bool.false

/-- Instructions that differ at most in distances, and in the index of a constant. -/
inductive Asm.Agrees (like : Value → Value → Prop) (constants constants' : Array Value) :
    Asm → Asm → Prop where
  | same (a : Asm) (plain : a.opcode.takesConstant = false) : Agrees like constants constants' a a
  | jump {op : Opcode} (jumps : op.jumps = true) (distance distance' : Nat) :
      Agrees like constants constants' ⟨op, distance⟩ ⟨op, distance'⟩
  | constant {op : Opcode} (long : op.longForm ≠ op) {i i' : Nat} {v v' : Value}
      (there : constants[i]? = some v) (there' : constants'[i']? = some v') (h : like v v')
      (text : op ≠ .constant → v.asText?.isSome) :
      Agrees like constants constants' (.indexed op i) (.indexed op i')

/-- Instructions that agree have the same operation, unless it takes a constant. -/
theorem Asm.Agrees.opcode_iff {like : Value → Value → Prop} {constants constants' : Array Value}
    {a a' : Asm} (h : a.Agrees like constants constants' a') {op : Opcode}
    (own : op.takesConstant = false) : a.opcode = op ↔ a'.opcode = op := by
  cases h with
  | same | jump => exact .rfl
  | @constant taken long i i' =>
      have takes (i : Nat) : (Asm.indexed taken i).opcode ≠ op := by
        rintro rfl
        rcases Asm.indexed_eq taken i with same | same
        · rw [same] at own
          cases taken <;> first | exact absurd rfl long | cases own
        · rw [same] at own
          cases taken <;> first | exact absurd rfl long | cases own
      exact iff_of_false (takes i) (takes i')

/-- Execution may go on behind an instruction, unless it always jumps or returns. -/
theorem Asm.targets_eq_cons (pc : Nat) (a : Asm) (notJump : a.opcode ≠ .jump)
    (notLoop : a.opcode ≠ .loop) (notReturn : a.opcode ≠ .return) :
    ∃ rest, a.targets pc = (pc + a.size) :: rest := by
  obtain ⟨op, operand⟩ := a
  cases op with
  | jump => exact absurd rfl notJump
  | loop => exact absurd rfl notLoop
  | «return» => exact absurd rfl notReturn
  | _ => exact ⟨_, rfl⟩

section

variable (agrees : Asm → Asm → Prop) (goal : Nat → Nat → Prop)

/-- Instructions at two offsets agree, and go on at offsets that correspond. -/
structure Asm.Parallel (pc pc' : Nat) (a a' : Asm) : Prop where
  agrees : agrees a a'
  onward : List.Forall₂ goal (a.targets pc) (a'.targets pc')
  back : a.opcode = .loop → a.operand ≤ pc + 3 ∧ a'.operand ≤ pc' + 3

/-- Instructions are parallel, or both are open jumps of the same kind. -/
inductive Cell.Parallel (pc pc' : Nat) : Cell → Cell → Prop where
  | op {a a' : Asm} (h : a.Parallel agrees goal pc pc' a') : Parallel pc pc' (.op a) (.op a')
  | leave : Parallel pc pc' .leave .leave
  | again : Parallel pc pc' .again .again

/-- The relation holds wherever a cell begins, and at the end. -/
def Aligned : (pc pc' : Nat) → List Cell → List Cell → Prop
  | pc, pc', [], [] => goal pc pc'
  | pc, pc', cell :: cells, cell' :: cells' =>
      goal pc pc' ∧ Aligned (pc + cell.size) (pc' + cell'.size) cells cells'
  | _, _, _, _ => False

/-- Cells are parallel one by one. -/
def Together : (pc pc' : Nat) → List Cell → List Cell → Prop
  | _, _, [], [] => True
  | pc, pc', cell :: cells, cell' :: cells' =>
      cell.Parallel agrees goal pc pc' cell' ∧
        Together (pc + cell.size) (pc' + cell'.size) cells cells'
  | _, _, _, _ => False

end

/-- Pieces of code are parallel, wherever they stand. -/
structure Parallel (agrees : Asm → Asm → Prop) (cells cells' : List Cell) : Prop where
  length : cells.length = cells'.length
  together : ∀ {goal pc pc'}, Aligned goal pc pc' cells cells' →
    Together agrees goal pc pc' cells cells'

section

variable {agrees : Asm → Asm → Prop} {goal : Nat → Nat → Prop} {pc pc' : Nat}
  {cells cells' more more' : List Cell}

theorem aligned_append (length : cells.length = cells'.length) :
    Aligned goal pc pc' (cells ++ more) (cells' ++ more') ↔
      Aligned goal pc pc' cells cells' ∧
        Aligned goal (pc + cellsSize cells) (pc' + cellsSize cells') more more' := by
  induction cells generalizing pc pc' cells' with
  | nil =>
      obtain rfl := List.eq_nil_of_length_eq_zero length.symm
      have start : Aligned goal pc pc' more more' → goal pc pc' := by
        intro h
        cases more <;> cases more' <;> first | exact h.1 | exact h | exact h.elim
      simpa [Aligned] using start
  | cons cell cells ih =>
      cases cells' with
      | nil => cases length
      | cons cell' cells' =>
          simp only [List.cons_append, Aligned, ih (Nat.succ.inj length), cellsSize_cons, and_assoc,
            Nat.add_assoc]

theorem together_append (length : cells.length = cells'.length) :
    Together agrees goal pc pc' (cells ++ more) (cells' ++ more') ↔
      Together agrees goal pc pc' cells cells' ∧
        Together agrees goal (pc + cellsSize cells) (pc' + cellsSize cells') more more' := by
  induction cells generalizing pc pc' cells' with
  | nil =>
      obtain rfl := List.eq_nil_of_length_eq_zero length.symm
      simp [Together]
  | cons cell cells ih =>
      cases cells' with
      | nil => cases length
      | cons cell' cells' =>
          simp only [List.cons_append, Together, ih (Nat.succ.inj length), cellsSize_cons, and_assoc,
            Nat.add_assoc]

namespace Aligned

theorem start (h : Aligned goal pc pc' cells cells') : goal pc pc' := by
  cases cells <;> cases cells' <;> first | exact h | exact h.1 | exact h.elim

theorem stop (h : Aligned goal pc pc' cells cells') :
    goal (pc + cellsSize cells) (pc' + cellsSize cells') := by
  induction cells generalizing pc pc' cells' with
  | nil =>
      cases cells' with
      | nil => exact h
      | cons => exact h.elim
  | cons cell cells ih =>
      cases cells' with
      | nil => exact h.elim
      | cons cell' cells' =>
          rw [cellsSize_cons, cellsSize_cons, ← Nat.add_assoc, ← Nat.add_assoc]
          exact ih h.2

/-- Offsets do not depend on where open jumps lead. -/
theorem of_resolveJumps {target target' start start' offset offset' : Nat}
    (h : Aligned goal pc pc' (resolveJumps target start offset cells)
      (resolveJumps target' start' offset' cells')) : Aligned goal pc pc' cells cells' := by
  induction cells generalizing pc pc' offset offset' cells' with
  | nil =>
      cases cells' with
      | nil => exact h
      | cons cell' cells' =>
          obtain ⟨a', same', -⟩ := size_resolveJump target' start' offset' cell'
          rw [resolveJumps_cons target', same'] at h
          exact h.elim
  | cons cell cells ih =>
      obtain ⟨a, same, size⟩ := size_resolveJump target start offset cell
      rw [resolveJumps_cons, same] at h
      cases cells' with
      | nil => exact h.elim
      | cons cell' cells' =>
          obtain ⟨a', same', size'⟩ := size_resolveJump target' start' offset' cell'
          rw [resolveJumps_cons target', same'] at h
          obtain ⟨here, there⟩ := h
          rw [show Cell.size (.op a) = cell.size from size,
            show Cell.size (.op a') = cell'.size from size'] at there
          exact ⟨here, ih there⟩

end Aligned

/-- Closing a loop keeps cells parallel. -/
theorem Together.resolveJumps {base base' target target' start start' offset offset' : Nat}
    (jumps : ∀ {op : Opcode} (d d' : Nat), op.jumps = true → agrees ⟨op, d⟩ ⟨op, d'⟩)
    (front : offset + cellsSize cells ≤ target) (front' : offset' + cellsSize cells' ≤ target')
    (behind : start ≤ offset) (behind' : start' ≤ offset')
    (leaves : goal (base + target) (base' + target'))
    (begins : goal (base + start) (base' + start'))
    (h : Together agrees goal (base + offset) (base' + offset') cells cells') :
    Together agrees goal (base + offset) (base' + offset') (resolveJumps target start offset cells)
      (resolveJumps target' start' offset' cells') := by
  induction cells generalizing offset offset' cells' with
  | nil =>
      cases cells' with
      | nil => trivial
      | cons => exact h.elim
  | cons cell cells ih =>
      cases cells' with
      | nil => exact h.elim
      | cons cell' cells' =>
          obtain ⟨here, there⟩ := h
          rw [cellsSize_cons] at front front'
          rw [Nat.add_assoc, Nat.add_assoc] at there
          have rest := ih (by omega) (by omega) (by omega) (by omega) there
          rw [← Nat.add_assoc, ← Nat.add_assoc] at rest
          rw [resolveJumps_cons, resolveJumps_cons target']
          have size : Cell.size .leave = 3 := rfl
          -- the jumps of both sides are resolved to goals that belong together, whatever the
          -- distances
          cases here with
          | op here => exact ⟨.op here, rest⟩
          | leave =>
              refine ⟨.op ⟨jumps _ _ rfl, .cons ?_ .nil, fun loop => by cases loop⟩, rest⟩
              dsimp only [jumpTo]
              rw [size] at front front'
              rw [show base + offset + 3 + (target - (offset + 3)) = base + target by omega,
                show base' + offset' + 3 + (target' - (offset' + 3)) = base' + target' by omega]
              exact leaves
          | again =>
              refine ⟨.op ⟨jumps _ _ rfl, .cons ?_ .nil, fun _ => ?_⟩, rest⟩
              · dsimp only [loopTo]
                rw [show base + offset + 3 - (offset + 3 - start) = base + start by omega,
                  show base' + offset' + 3 - (offset' + 3 - start') = base' + start' by omega]
                exact begins
              · dsimp only [loopTo]
                omega

end

/-! ## Putting pieces together -/

section

variable {like : Value → Value → Prop} {constants constants' : Array Value} {goal : Nat → Nat → Prop}
  {pc pc' : Nat} {cells cells' more more' : List Cell}

/-- Instructions that agree and go on behind them are parallel. -/
theorem Asm.Agrees.parallel {a a' : Asm} (h : a.Agrees like constants constants' a')
    (still : a.opcode.jumps = false) (onward : goal (pc + a.size) (pc' + a'.size)) :
    a.Parallel (Agrees like constants constants') goal pc pc' a' := by
  refine ⟨h, ?_, fun loop => by rw [loop] at still; cases still⟩
  cases h with
  | same a plain =>
      obtain ⟨op, operand⟩ := a
      cases op with
      | jump | jumpIfFalse | loop => cases still
      | «return» => exact .nil
      | _ => exact .cons onward .nil
  | jump jumps => cases still.symm.trans jumps
  | constant long =>
      rw [targets_indexed _ _ long, targets_indexed _ _ long]
      exact .cons onward .nil

/-- A jump over some bytes. -/
theorem Asm.parallel_jumpTo {op : Opcode} (forward : op = .jump ∨ op = .jumpIfFalse)
    {distance distance' : Nat} (next : goal (pc + 3) (pc' + 3))
    (target : goal (pc + 3 + distance) (pc' + 3 + distance')) :
    Asm.Parallel (Agrees like constants constants') goal pc pc' ⟨op, distance⟩ ⟨op, distance'⟩ := by
  rcases forward with rfl | rfl
  · exact ⟨.jump rfl _ _, .cons target .nil, fun loop => by cases loop⟩
  · exact ⟨.jump rfl _ _, .cons next (.cons target .nil), fun loop => by cases loop⟩

/-- A jump back to where some bytes begin. -/
theorem Asm.parallel_loop {distance distance' : Nat} (inside : distance ≤ pc + 3)
    (inside' : distance' ≤ pc' + 3) (target : goal (pc + 3 - distance) (pc' + 3 - distance')) :
    Asm.Parallel (Agrees like constants constants') goal pc pc' ⟨.loop, distance⟩
      ⟨.loop, distance'⟩ :=
  ⟨.jump rfl _ _, .cons target .nil, fun _ => ⟨inside, inside'⟩⟩

namespace Parallel

theorem nil : Parallel (Asm.Agrees like constants constants') [] [] := ⟨rfl, fun _ => trivial⟩

theorem append (h : Parallel (Asm.Agrees like constants constants') cells cells')
    (h' : Parallel (Asm.Agrees like constants constants') more more') :
    Parallel (Asm.Agrees like constants constants') (cells ++ more) (cells' ++ more') where
  length := by rw [List.length_append, List.length_append, h.length, h'.length]
  together aligned := by
    obtain ⟨first, rest⟩ := (aligned_append h.length).mp aligned
    exact (together_append h.length).mpr ⟨h.together first, h'.together rest⟩

/-- A single instruction. -/
theorem single {a a' : Asm} (h : a.Agrees like constants constants' a')
    (still : a.opcode.jumps = false) :
    Parallel (Asm.Agrees like constants constants') (ops [a]) (ops [a']) :=
  ⟨rfl, fun aligned => ⟨.op (h.parallel still aligned.2), trivial⟩⟩

/-- The same instruction, which takes no constant. -/
theorem plain {a : Asm} (plain : a.opcode.takesConstant = false) (still : a.opcode.jumps = false) :
    Parallel (Asm.Agrees like constants constants') (ops [a]) (ops [a]) := single (.same a plain) still

theorem leave : Parallel (Asm.Agrees like constants constants') [.leave] [.leave] :=
  ⟨rfl, fun _ => ⟨.leave, trivial⟩⟩

theorem again : Parallel (Asm.Agrees like constants constants') [.again] [.again] :=
  ⟨rfl, fun _ => ⟨.again, trivial⟩⟩

/-- A jump over the first of two pieces. -/
theorem jumpTo {op : Opcode} (forward : op = .jump ∨ op = .jumpIfFalse)
    (length : cells.length = cells'.length)
    (h : Parallel (Asm.Agrees like constants constants') (cells ++ more) (cells' ++ more')) :
    Parallel (Asm.Agrees like constants constants') (.op ⟨op, cellsSize cells⟩ :: (cells ++ more))
      (.op ⟨op, cellsSize cells'⟩ :: (cells' ++ more')) where
  length := congrArg (· + 1) h.length
  together {goal pc pc'} aligned := by
    have size (distance : Nat) : Cell.size (.op ⟨op, distance⟩) = 3 := by
      rcases forward with rfl | rfl <;> rfl
    obtain ⟨-, behind⟩ := aligned
    rw [size, size] at behind
    have target := ((aligned_append length).mp behind).2.start
    refine ⟨.op (Asm.parallel_jumpTo forward behind.start target), ?_⟩
    rw [size, size]
    exact h.together behind

/-- A jump over all that follows. -/
theorem jumpOver {op : Opcode} (forward : op = .jump ∨ op = .jumpIfFalse)
    (h : Parallel (Asm.Agrees like constants constants') cells cells') :
    Parallel (Asm.Agrees like constants constants') (.op ⟨op, cellsSize cells⟩ :: cells)
      (.op ⟨op, cellsSize cells'⟩ :: cells') := by
  have both : Parallel (Asm.Agrees like constants constants') (cells ++ []) (cells' ++ []) := by
    simpa using h
  simpa using jumpTo forward h.length both

end Parallel

/-! ## Loops -/

/-- The condition of a loop runs in parallel, if the loops end at corresponding offsets. -/
theorem together_testCode {test test' : Option (List Asm)}
    (clauses : Option.Rel (fun code code' =>
      Parallel (Asm.Agrees like constants constants') (ops code) (ops code')) test test')
    {skipped skipped' : Nat}
    (aligned : Aligned goal pc pc' (ops (testCode skipped test)) (ops (testCode skipped' test')))
    (target : ∀ code ∈ test, ∀ code' ∈ test',
      goal (pc + codeSize code + 3 + skipped) (pc' + codeSize code' + 3 + skipped')) :
    Together (Asm.Agrees like constants constants') goal pc pc' (ops (testCode skipped test))
      (ops (testCode skipped' test')) := by
  cases clauses with
  | none => trivial
  | @some code code' h =>
      simp only [testCode, ops_append] at aligned ⊢
      obtain ⟨first, behind⟩ := (aligned_append h.length).mp aligned
      rw [together_append h.length]
      rw [cellsSize_ops, cellsSize_ops] at behind ⊢
      obtain ⟨-, dropped, exit⟩ := behind
      exact ⟨h.together first, .op (Asm.parallel_jumpTo (.inr rfl) dropped (target _ rfl _ rfl)),
        .op ((Asm.Agrees.same (.plain .pop) rfl).parallel rfl exit), trivial⟩

/-- So does the step of a loop, if the loops begin at corresponding offsets. -/
theorem together_stepCode {step step' : Option (List Asm)}
    (clauses : Option.Rel (fun code code' =>
      Parallel (Asm.Agrees like constants constants') (ops code) (ops code')) step step')
    {back back' : Nat}
    (aligned : Aligned goal pc pc' (ops (stepCode back step)) (ops (stepCode back' step')))
    (inside : back ≤ pc + codeSize (stepCode 0 step))
    (inside' : back' ≤ pc' + codeSize (stepCode 0 step'))
    (target : goal (pc + codeSize (stepCode 0 step) - back) (pc' + codeSize (stepCode 0 step') - back')) :
    Together (Asm.Agrees like constants constants') goal pc pc' (ops (stepCode back step))
      (ops (stepCode back' step')) := by
  cases clauses with
  | none => trivial
  | @some code code' h =>
      have size (code : List Asm) : codeSize (stepCode 0 (some code)) = codeSize code + 7 := by
        simp only [stepCode, codeSize_cons, codeSize_append, codeSize_nil]
        show 3 + (codeSize code + (1 + (3 + 0))) = _
        omega
      have length (code : List Asm) (back : Nat) :
          codeSize (code ++ [.plain .pop, ⟨.loop, back⟩]) = codeSize code + 4 := by
        simp only [codeSize_cons, codeSize_append, codeSize_nil]
        rfl
      rw [size] at inside inside' target
      rw [size] at target
      -- behind the clause both sides are where the body starts
      have exit := aligned.stop
      simp only [cellsSize_ops, codeSize_stepCode, size] at exit
      simp only [stepCode, length] at aligned ⊢
      obtain ⟨-, behind⟩ := aligned
      replace behind : Aligned goal (pc + 3) (pc' + 3) (ops (code ++ [.plain .pop, ⟨.loop, back⟩]))
          (ops (code' ++ [.plain .pop, ⟨.loop, back'⟩])) := behind
      refine ⟨.op (Asm.parallel_jumpTo (.inl rfl) behind.start ?_), ?_⟩
      · rw [show pc + 3 + (codeSize code + 4) = pc + (codeSize code + 7) by omega,
          show pc' + 3 + (codeSize code' + 4) = pc' + (codeSize code' + 7) by omega]
        exact exit
      · show Together _ goal (pc + 3) (pc' + 3) (ops (code ++ [.plain .pop, ⟨.loop, back⟩]))
          (ops (code' ++ [.plain .pop, ⟨.loop, back'⟩]))
        rw [ops_append, ops_append] at behind ⊢
        obtain ⟨first, rest⟩ := (aligned_append h.length).mp behind
        rw [together_append h.length]
        rw [cellsSize_ops, cellsSize_ops] at rest ⊢
        obtain ⟨-, around, -⟩ := rest
        refine ⟨h.together first, .op ((Asm.Agrees.same (.plain .pop) rfl).parallel rfl around),
          .op (Asm.parallel_loop ?_ ?_ ?_), trivial⟩
        · show back ≤ pc + 3 + codeSize code + 1 + 3
          omega
        · show back' ≤ pc' + 3 + codeSize code' + 1 + 3
          omega
        · show goal (pc + 3 + codeSize code + 1 + 3 - back) (pc' + 3 + codeSize code' + 1 + 3 - back')
          rw [show pc + 3 + codeSize code + 1 + 3 = pc + (codeSize code + 7) by omega,
            show pc' + 3 + codeSize code' + 1 + 3 = pc' + (codeSize code' + 7) by omega]
          exact target

/-- Loops are parallel if their clauses and bodies are. -/
theorem Parallel.loopCode {test test' step step' : Option (List Asm)}
    (tests : Option.Rel (fun code code' =>
      Parallel (Asm.Agrees like constants constants') (ops code) (ops code')) test test')
    (steps : Option.Rel (fun code code' =>
      Parallel (Asm.Agrees like constants constants') (ops code) (ops code')) step step')
    (body : Parallel (Asm.Agrees like constants constants') cells cells') :
    Parallel (Asm.Agrees like constants constants') (loopCode test step cells)
      (loopCode test' step' cells') := by
  have testing (skipped skipped' : Nat) : (ops (testCode skipped test)).length =
      (ops (testCode skipped' test')).length := by
    cases tests with
    | none => rfl
    | some h =>
        have length := h.length
        simp only [ops, List.length_map] at length
        simp [testCode, ops, length]
  have stepping (back back' : Nat) : (ops (stepCode back step)).length =
      (ops (stepCode back' step')).length := by
    cases steps with
    | none => rfl
    | some h =>
        have length := h.length
        simp only [ops, List.length_map] at length
        simp [stepCode, ops, length]
  have turning (target start back target' start' back' : Nat) :
      (resolveJumps target start back cells).length =
        (resolveJumps target' start' back' cells').length := by
    rw [length_resolveJumps, length_resolveJumps, body.length]
  have leaving : (exitCode test).length = (exitCode test').length := by
    cases tests <;> rfl
  rw [loopCode_eq test step cells _ rfl, loopCode_eq test' step' cells' _ rfl]
  constructor
  · simp only [List.length_append]
    refine congrArg₂ _ (testing _ _) (congrArg₂ _ (stepping _ _) (congrArg₂ _ (turning ..) ?_))
    simp [ops, leaving]
  intro goal pc pc' aligned
  have finish := aligned.stop
  have begins := aligned.start
  obtain ⟨tested, aligned⟩ := (aligned_append (testing _ _)).mp aligned
  obtain ⟨stepped, aligned⟩ := (aligned_append (stepping _ _)).mp aligned
  obtain ⟨turned, aligned⟩ := (aligned_append (turning _ _ _ _ _ _)).mp aligned
  rw [together_append (testing _ _), together_append (stepping _ _),
    together_append (turning _ _ _ _ _ _)]
  simp only [cellsSize_append, cellsSize_ops, codeSize_testCode, codeSize_stepCode,
    cellsSize_resolveJumps, codeSize_cons, size_loopTo] at finish stepped turned aligned ⊢
  have enough := nextStart_le (codeSize (testCode 0 test)) 0 step
  have enough' := nextStart_le (codeSize (testCode 0 test')) 0 step'
  -- Where the next iteration begins.
  have next : goal (pc + nextStart (codeSize (testCode 0 test)) step)
      (pc' + nextStart (codeSize (testCode 0 test')) step') := by
    cases steps with
    | none => exact begins
    | some h => exact stepped.2.start
  generalize head : codeSize (testCode 0 test) = t at *
  generalize head' : codeSize (testCode 0 test') = t' at *
  generalize length : codeSize (stepCode 0 step) = u at *
  generalize length' : codeSize (stepCode 0 step') = u' at *
  generalize nextStart t step = start at *
  generalize nextStart t' step' = start' at *
  obtain ⟨-, leaves⟩ := aligned
  replace leaves : Aligned goal (pc + t + u + cellsSize cells + 3) (pc' + t' + u' + cellsSize cells' + 3)
      (ops (exitCode test)) (ops (exitCode test')) := leaves
  refine ⟨together_testCode tests tested ?_, together_stepCode steps stepped ?_ ?_ ?_, ?_,
    .op (Asm.parallel_loop ?_ ?_ ?_), ?_⟩
  · intro code some code' some'
    obtain rfl := some
    obtain rfl := some'
    have size (code : List Asm) : codeSize (testCode 0 (Option.some code)) = codeSize code + 4 := by
      simp only [testCode, codeSize_append]
      rfl
    rw [size] at head head'
    rw [show pc + codeSize code + 3 + (u + cellsSize cells + 4) =
        pc + t + u + cellsSize cells + 3 by omega,
      show pc' + codeSize code' + 3 + (u' + cellsSize cells' + 4) =
        pc' + t' + u' + cellsSize cells' + 3 by omega]
    exact leaves.start
  · omega
  · omega
  · rw [length, length', show pc + t + u - (t + u) = pc by omega,
      show pc' + t' + u' - (t' + u') = pc' by omega]
    exact begins
  · rw [Nat.add_assoc, Nat.add_assoc pc'] at turned ⊢
    refine .resolveJumps (fun d d' jumps => .jump jumps d d') (by omega) (by omega) enough enough'
      ?_ next (body.together turned.of_resolveJumps)
    rw [show pc + (t + u + cellsSize cells + 3 + codeSize (exitCode test)) =
        pc + (t + (u + (cellsSize cells + (3 + codeSize (exitCode test))))) by omega,
      show pc' + (t' + u' + cellsSize cells' + 3 + codeSize (exitCode test')) =
        pc' + (t' + (u' + (cellsSize cells' + (3 + codeSize (exitCode test'))))) by omega]
    exact finish
  · omega
  · omega
  · rw [show pc + t + u + cellsSize cells + 3 - (t + u + cellsSize cells + 3 - start) =
        pc + start by omega,
      show pc' + t' + u' + cellsSize cells' + 3 - (t' + u' + cellsSize cells' + 3 - start') =
        pc' + start' by omega]
    exact next
  · cases tests with
    | none => trivial
    | some h => exact ⟨.op ((Asm.Agrees.same (.plain .pop) rfl).parallel rfl leaves.2), trivial⟩

end

/-! ## Offsets that correspond -/

/-- Offsets that are as many instructions behind the beginnings of two pieces of code. -/
def Cuts (pc pc' : Nat) (code code' : List Asm) (i i' : Nat) : Prop :=
  ∃ front back front' back', code = front ++ back ∧ code' = front' ++ back' ∧
    front.length = front'.length ∧ i = pc + codeSize front ∧ i' = pc' + codeSize front'

section

variable {pc pc' i i' : Nat} {code code' front front' back back' : List Asm}

/-- At the end of one piece of code the other ends as well. -/
theorem Cuts.stop (length : code.length = code'.length)
    (h : Cuts pc pc' code code' (pc + codeSize code) i') : i' = pc' + codeSize code' := by
  obtain ⟨front, back, front', back', rfl, rfl, same, here, rfl⟩ := h
  rw [codeSize_append] at here
  obtain rfl : back = [] := by
    cases back with
    | nil => rfl
    | cons a back =>
        have pos := a.size_pos
        rw [codeSize_cons] at here
        omega
  obtain rfl : back' = [] := by
    rw [List.length_append, List.length_append] at length
    exact List.eq_nil_of_length_eq_zero (by simpa [same] using length.symm)
  rw [List.append_nil]

/-- Before the end there is an instruction. -/
theorem Cuts.instruction (h : Cuts pc pc' code code' i i') {chunk : Chunk} (holds : chunk.Holds pc code) :
    i = pc + codeSize code ∨ ∃ a ∈ code, chunk.decode i = .ok ⟨a.opcode, a.operand, i + a.size⟩ := by
  obtain ⟨front, back, front', back', rfl, rfl, same, rfl, rfl⟩ := h
  cases back with
  | nil => exact .inl (by rw [List.append_nil])
  | cons a back => exact .inr ⟨a, by simp, (Chunk.holds_append.mp holds).2.1⟩

end

end StackScript
