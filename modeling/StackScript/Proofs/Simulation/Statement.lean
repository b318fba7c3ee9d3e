import StackScript.Proofs.Code.Scopes
import StackScript.Proofs.Code.Targets
import StackScript.Proofs.Parsing.Loop
import StackScript.Proofs.Semantics.Statement
import StackScript.Proofs.Simulation.Expression

/-!
# The code of a statement executes it

The code of a statement runs as the reference executes: it prints the same, changes the
same variables and ends in the same fault.  Left normally it ends at the first byte
behind it, and left by `break` or `continue` at the place where that leads in the
innermost loop around; either way the stack holds the variables that are known there,
and no others.  As long as the reference goes on, so does the machine.
-/

namespace StackScript

open Machine

/-- Where a statement can be left to, apart from its end. -/
structure Exits where
  /-- Where `break` leads. -/
  leave : Nat
  /-- Where `continue` leads. -/
  again : Nat
  /-- Number of variables that are left there. -/
  floor : Nat

/-- From `pc`, with the given stack and world, execution leaves a statement as an outcome
says: in the fault, at `next` with variables of the given names, or at one of the exits.
If the outcome is still open, so is execution after `count` instructions. -/
def Leaves (s : Setting) (host : Host) (a : Activation) (exits : Exits) (count : Nat)
    (names : List String) (pc : Nat) (stack : List Value) (world : World) (next : Nat)
    (o : Outcome Completion) : Prop :=
  o.Describes
    (fun completion store =>
      match completion with
      | .normal =>
          Moves host a pc stack world next (store.stack [] s.below) store.world ∧
            store.names = names
      | .leave =>
          Moves host a pc stack world exits.leave ((store.keep exits.floor).stack [] s.below)
            store.world
      | .again =>
          Advances host a pc stack world exits.again ((store.keep exits.floor).stack [] s.below)
            store.world)
    (fun f world' => Stops host a pc stack world f world')
    (Lasts host a pc stack world count)

section

variable {s : Setting} {host : Host} {a : Activation} {heap : Heap} {exits : Exits}
  {count pc mid next : Nat} {stack : List Value} {world : World} {store : Store}
  {names names' : List String} {layout : Layout}

namespace Leaves

/-- What is left from a later moment is left from an earlier one. -/
theorem after {stack' : List Value} {world' : World} {o : Outcome Completion}
    (moved : Moves host a pc stack world mid stack' world')
    (h : Leaves s host a exits count names mid stack' world' next o) :
    Leaves s host a exits count names pc stack world next o := by
  refine Outcome.Describes.mono h (fun completion store left => ?_)
    (fun _ _ stops => moved.stops stops) moved.lasts
  cases completion with
  | normal => exact ⟨moved.trans left.1, left.2⟩
  | leave => exact moved.trans left
  | again => exact left.after moved

/-- An instruction more, and what is still open lasts longer. -/
theorem afterwards {stack' : List Value} {world' : World} {o : Outcome Completion}
    (moved : Advances host a pc stack world mid stack' world')
    (h : Leaves s host a exits count names mid stack' world' next o) :
    Leaves s host a exits (count + 1) names pc stack world next o := by
  refine Outcome.Describes.mono h (fun completion store left => ?_)
    (fun _ _ stops => moved.moves.stops stops) moved.lasts
  cases completion with
  | normal => exact ⟨moved.moves.trans left.1, left.2⟩
  | leave => exact moved.moves.trans left
  | again => exact left.after moved.moves

/-- A statement behind an expression. -/
theorem bind {α : Type} {pushed : α → List Value} {o : Outcome α}
    {more : α → Store → Outcome Completion}
    (first : Ends s host a names [] pushed pc stack world mid o)
    (second : ∀ result store, store.names = names →
      (pushed result ++ store.stack [] s.below).length ≤ host.config.maxStack →
      Leaves s host a exits count names' mid (pushed result ++ store.stack [] s.below)
        store.world next (more result store)) :
    Leaves s host a exits count names' pc stack world next (o.bind more) := by
  cases o with
  | value result store =>
      obtain ⟨moved, same, room⟩ := first
      exact (second result store same room).after moved
  | fault => exact first
  | unfinished => exact first.elim
  | unknown => exact first

/-- A statement behind another. -/
theorem andThen {last : Nat} {o : Outcome Completion} {more : Store → Outcome Completion}
    (first : Leaves s host a exits count names pc stack world mid o)
    (second : ∀ store, store.names = names →
      Leaves s host a exits count names' mid (store.stack [] s.below) store.world last
        (more store)) :
    Leaves s host a exits count names' pc stack world last (o.bind fun completion store =>
      match completion with
      | .normal => more store
      | _ => .value completion store) := by
  cases o with
  | value completion store =>
      cases completion with
      | normal => exact (second store first.2).after first.1
      | leave => exact first
      | again => exact first
  | fault | unfinished | unknown => exact first

/-- From the end of a statement a jump leads on. -/
theorem onward {o : Outcome Completion}
    (h : Leaves s host a exits count names pc stack world mid o)
    (jump : ∀ stack world, Moves host a mid stack world next stack world) :
    Leaves s host a exits count names pc stack world next o := by
  refine Outcome.Describes.mono h (fun completion store left => ?_) (fun _ _ stops => stops) id
  cases completion with
  | normal => exact ⟨left.1.trans (jump _ _), left.2⟩
  | leave => exact left
  | again => exact left

/-- Nothing more is executed. -/
theorem done (same : store.names = names) :
    Leaves s host a exits count names pc (store.stack [] s.below) store.world pc
      (.value .normal store) := ⟨.refl, same⟩

end Leaves

/-! ## Variables -/

/-- Without its newest variables the store has less of the stack. -/
theorem Store.stack_keep {store : Store} {count : Nat} (le : count ≤ store.bindings.length)
    (below : List Value) : (store.keep count).stack [] below =
      (store.stack [] below).drop (store.bindings.length - count) := by
  simp only [Store.stack, Store.keep, List.nil_append, List.map_drop]
  rw [List.drop_append_of_le_length]
  rw [List.length_map]
  omega

/-- Dropping values. -/
theorem moves_pops {dropped : List LocalVariable} (code : a.routine.chunk.Holds pc (pops dropped))
    (there : dropped.length ≤ stack.length) :
    Moves host a pc stack world (pc + codeSize (pops dropped)) (stack.drop dropped.length) world := by
  induction dropped generalizing pc stack with
  | nil => exact .refl
  | cons var dropped ih =>
      cases stack with
      | nil => simp at there
      | cons v stack =>
          obtain ⟨first, others⟩ := code
          have rest := ih others (by simpa using there)
          rw [pops, List.map_cons, codeSize_cons, ← Nat.add_assoc]
          exact Moves.trans ⟨1, goes_pop first⟩ rest

/-! ## Simple statements -/

theorem leaves_print (same : store.names = names) {v : Value}
    (code : a.routine.chunk.decode pc = .ok ⟨.print, 0, next⟩) :
    Leaves s host a exits count names pc (v :: store.stack [] s.below) store.world next
      (store.print v) := by
  unfold Store.print
  split
  · rename_i sink written
    exact ⟨⟨1, goes_print code written⟩, same⟩
  · rename_i failed
    exact stops_print code failed

/-- An initial value. -/
theorem ends_initial {locals : List LocalVariable} (linked : Linked s host a heap)
    (slots : locals.map LocalVariable.name = names) {init : Option Expression}
    (genuine : ∀ e ∈ init, e.Genuine) {pool : Pool} (sound : pool.Sound)
    (le : (initialCode locals init pool).2.Le (a.pool heap))
    (code : a.routine.chunk.Holds pc (initialCode locals init pool).1)
    (same : store.names = names) :
    Ends s host a names [] single pc (store.stack [] s.below) store.world
      (pc + codeSize (initialCode locals init pool).1) (s.initial init store) := by
  cases init with
  | none => exact ends_produce linked same code.1 fun _ => run_null _ _
  | some e =>
      exact e.ends_evaluate linked slots (genuine e rfl) pool pc [] store sound le code same

/-- The value that a declaration gives its variable. -/
def markedValue (assignable : Bool) (v : Value) : Value := if assignable then v else v.constant

/-- The value of a variable is marked, unless it can be assigned to. -/
theorem moves_marking {assignable : Bool} {v : Value}
    (code : a.routine.chunk.Holds pc (marking assignable))
    (room : (v :: stack).length ≤ host.config.maxStack) :
    Moves host a pc (v :: stack) world (pc + codeSize (marking assignable))
      (markedValue assignable v :: stack) world := by
  cases assignable with
  | true => exact .refl
  | false => exact ⟨1, goes_makeConst code.1 room⟩

/-- The name of a global is bound to the value on top. -/
theorem leaves_defineGlobal (linked : Linked s host a heap) (same : store.names = names)
    {pool : Pool} {name : String} {v : Value} (sound : pool.Sound)
    (le : (pool.addString name).2.Le (a.pool heap))
    (code : a.routine.chunk.Holds pc [.indexed .defineGlobal (pool.addString name).1]) :
    Leaves s host a exits count names pc (v :: store.stack [] s.below) store.world
      (pc + codeSize [.indexed .defineGlobal (pool.addString name).1])
      (.value .normal { store with world := { store.world with
        globals := store.world.globals.insert name ⟨s.text name, v⟩ } }) := by
  have constant : a.routine.chunk.constants[(pool.addString name).1]? =
      some (.string (heap.text name)) := Pool.constant_addString sound name le
  have chars : (heap.text name).chars = name := linked.valid.chars_text name
  have read := code.1
  rw [Asm.indexed_operand] at read
  have bound : Goes host a 1 pc (v :: store.stack [] s.below) store.world _ _ _ :=
    goes_defineGlobal read (fun frame => executeInstruction_indexed frame _ _ _) constant
  rw [chars, ← linked.text] at bound
  rw [codeSize_singleton]
  exact ⟨⟨1, bound⟩, same⟩

theorem leaves_declare (linked : Linked s host a heap) {assignable : Bool} {name : String}
    {init : Option Expression} (genuine : ∀ e ∈ init, e.Genuine) {place : Place} {pool : Pool}
    (sound : pool.Sound)
    (le : ((Statement.declare assignable name init).code layout place pool).pool.Le (a.pool heap))
    (lies : a.routine.chunk.Lies exits.leave exits.again pc
      ((Statement.declare assignable name init).code layout place pool).cells)
    (slots : place.locals.map LocalVariable.name = store.names) (time : Nat) :
    Leaves s host a exits count
      (((Statement.declare assignable name init).code layout place pool).locals.map
        LocalVariable.name) pc (store.stack [] s.below) store.world
      (pc + cellsSize ((Statement.declare assignable name init).code layout place pool).cells)
      ((Statement.declare assignable name init).execute s time place.depth store) := by
  simp only [Statement.code, Statement.execute, Setting.declare] at le lies ⊢
  split at lies
  · rename_i outside
    simp only [outside, if_true] at le ⊢
    rw [Chunk.lies_ops, Chunk.holds_append, Chunk.holds_append] at lies
    obtain ⟨valued, marked, bound⟩ := lies
    rw [cellsSize_ops, codeSize_append, codeSize_append, ← Nat.add_assoc, ← Nat.add_assoc, slots]
    refine Leaves.bind (ends_initial linked slots genuine (sound.addString name) le valued rfl)
      fun v store' same room => ?_
    refine Leaves.after (moves_marking marked room) ?_
    exact leaves_defineGlobal linked same sound ((le_initialCode _ _ _).trans le) bound
  · rename_i inside
    simp only [inside, if_false] at le ⊢
    rw [Chunk.lies_ops, Chunk.holds_append] at lies
    obtain ⟨valued, marked⟩ := lies
    rw [cellsSize_ops, codeSize_append, ← Nat.add_assoc]
    refine Leaves.bind (ends_initial linked slots genuine sound le valued rfl)
      fun v store' same room => ?_
    exact ⟨moves_marking marked room, congrArg (name :: ·) (same.trans slots.symm)⟩

/-! ## Ways out -/

/-- Locals are dropped from the stack. -/
theorem moves_out {dropped : List LocalVariable} (code : a.routine.chunk.Holds pc (pops dropped))
    (less : dropped.length ≤ store.bindings.length) :
    Moves host a pc (store.stack [] s.below) store.world (pc + codeSize (pops dropped))
      ((store.keep (store.bindings.length - dropped.length)).stack [] s.below) store.world := by
  have popped : Moves host a pc (store.stack [] s.below) store.world _ _ _ :=
    moves_pops code (by rw [Store.length_stack]; omega)
  rw [Store.stack_keep (Nat.sub_le _ _), show store.bindings.length -
    (store.bindings.length - dropped.length) = dropped.length by omega]
  exact popped

/-- The variables of a place that are not dropped on the way out. -/
theorem length_floor {place : Place} (slots : place.locals.map LocalVariable.name = store.names) :
    place.floor = store.bindings.length - (deeper place.locals (place.loop.getD 0)).length ∧
      (deeper place.locals (place.loop.getD 0)).length ≤ store.bindings.length := by
  have same : place.locals.length = store.bindings.length := by
    have lengths := congrArg List.length slots
    rwa [List.length_map, Store.length_names] at lengths
  exact ⟨by rw [Place.floor, same], same ▸ (List.takeWhile_sublist _).length_le⟩

theorem leaves_leave {place : Place} {pool : Pool} (floor : exits.floor = place.floor)
    (lies : a.routine.chunk.Lies exits.leave exits.again pc
      (Statement.leave.code layout place pool).cells)
    (slots : place.locals.map LocalVariable.name = store.names) (time : Nat) :
    Leaves s host a exits count names pc (store.stack [] s.below) store.world next
      (Statement.leave.execute s time place.depth store) := by
  obtain ⟨left, less⟩ := length_floor slots
  simp only [Statement.code, Chunk.lies_append, Chunk.lies_ops, cellsSize_ops] at lies
  obtain ⟨dropped, ⟨distance, jump, front⟩, -⟩ := lies
  have out : Moves host a pc (store.stack [] s.below) store.world _ _ _ :=
    moves_out dropped less
  rw [← left, ← floor] at out
  have jumped : Goes host a 1 _ ((store.keep exits.floor).stack [] s.below) store.world _ _ _ :=
    goes_jump jump
  rw [front] at jumped
  exact out.trans ⟨1, jumped⟩

theorem leaves_again {place : Place} {pool : Pool} (floor : exits.floor = place.floor)
    (lies : a.routine.chunk.Lies exits.leave exits.again pc
      (Statement.again.code layout place pool).cells)
    (slots : place.locals.map LocalVariable.name = store.names) (time : Nat) :
    Leaves s host a exits count names pc (store.stack [] s.below) store.world next
      (Statement.again.execute s time place.depth store) := by
  obtain ⟨left, less⟩ := length_floor slots
  simp only [Statement.code, Chunk.lies_append, Chunk.lies_ops, cellsSize_ops] at lies
  obtain ⟨dropped, ⟨distance, jump, back⟩, -⟩ := lies
  have out : Moves host a pc (store.stack [] s.below) store.world _ _ _ :=
    moves_out dropped less
  rw [← left, ← floor] at out
  have jumped : Goes host a 1 _ ((store.keep exits.floor).stack [] s.below) store.world _ _ _ :=
    goes_loop jump (by omega)
  rw [back, Nat.add_sub_cancel] at jumped
  exact Advances.after out ⟨0, jumped⟩

/-! ## Blocks -/

/-- What is left of a scope are the variables from before it. -/
theorem leaves_scope {place : Place} {declared : List LocalVariable} {o : Outcome Completion}
    (floor : exits.floor = place.floor)
    (slots : place.locals.map LocalVariable.name = store.names)
    (body : Leaves s host a exits count ((declared ++ place.locals).map LocalVariable.name) pc
      (store.stack [] s.below) store.world mid o)
    (longer : ∀ completion store', o = .value completion store' →
      store.bindings.length ≤ store'.bindings.length)
    (code : a.routine.chunk.Holds mid (pops declared)) :
    Leaves s host a exits count (place.locals.map LocalVariable.name) pc
      (store.stack [] s.below) store.world (mid + codeSize (pops declared))
      (o.bind fun completion store' => .value completion (store'.keep store.bindings.length)) := by
  have length : place.locals.length = store.bindings.length := by
    have lengths := congrArg List.length slots
    rwa [List.length_map, Store.length_names] at lengths
  have less : exits.floor ≤ store.bindings.length := by
    rw [floor, ← length]
    exact place.floor_le
  cases o with
  | fault | unfinished | unknown => exact body
  | value completion store' =>
      cases completion with
      | leave =>
          show Moves host a _ _ _ _ (((store'.keep _).keep exits.floor).stack [] s.below) _
          -- what a jump out keeps is less than what the scope keeps
          rw [Store.keep_keep _ less]
          exact body
      | again =>
          show Advances host a _ _ _ _ (((store'.keep _).keep exits.floor).stack [] s.below) _
          rw [Store.keep_keep _ less]
          exact body
      | normal =>
          obtain ⟨moved, names⟩ := body
          have height : store'.bindings.length = declared.length + store.bindings.length := by
            have lengths := congrArg List.length names
            rwa [Store.length_names, List.length_map, List.length_append, length] at lengths
          have out : Moves host a mid (store'.stack [] s.below) store'.world _ _ _ :=
            moves_out code (by omega)
          rw [show store'.bindings.length - declared.length = store.bindings.length by omega] at out
          refine ⟨moved.trans out, ?_⟩
          rw [Store.names_keep, names, List.length_map, List.length_append, List.map_append,
            length, Nat.add_sub_cancel]
          exact List.drop_left' (List.length_map _)

/-! ## Branches -/

/-- The condition on top decides where execution goes on; it is dropped either way. -/
theorem leaves_branch {v : Value} {skipped target yes no last : Nat} {o o' : Outcome Completion}
    (jump : a.routine.chunk.decode pc = .ok ⟨.jumpIfFalse, skipped, mid⟩)
    (leads : mid + skipped = target)
    (discard : a.routine.chunk.decode mid = .ok ⟨.pop, 0, yes⟩)
    (discard' : a.routine.chunk.decode target = .ok ⟨.pop, 0, no⟩)
    (truthy : Leaves s host a exits count names yes stack world last o)
    (falsey : Leaves s host a exits count names no stack world last o') :
    Leaves s host a exits count names pc (v :: stack) world last (if v.isFalsey then o' else o) := by
  have jumped : Goes host a 1 pc (v :: stack) world _ _ _ := goes_jumpIfFalse jump
  cases decided : v.isFalsey with
  | true =>
      rw [decided, if_pos rfl, leads] at jumped
      exact falsey.after (Moves.trans ⟨1, jumped⟩ ⟨1, goes_pop discard'⟩)
  | false =>
      rw [decided, if_neg (by decide)] at jumped
      exact truthy.after (Moves.trans ⟨1, jumped⟩ ⟨1, goes_pop discard⟩)

/-- A condition decides between two branches, each of which drops it first. -/
theorem leaves_choose {test : List Asm} {yes no : List Cell} {o : Outcome Value}
    {first second : Store → Outcome Completion}
    (lies : a.routine.chunk.Lies exits.leave exits.again pc (chooseCells test yes no))
    (tested : a.routine.chunk.Holds pc test →
      Ends s host a names [] single pc stack world (pc + codeSize test) o)
    (left : ∀ store, store.names = names →
      a.routine.chunk.Lies exits.leave exits.again (pc + codeSize test + 3 + 1) yes →
      Leaves s host a exits count names (pc + codeSize test + 3 + 1)
        (store.stack [] s.below) store.world (pc + codeSize test + 3 + 1 + cellsSize yes) (first store))
    (right : ∀ store, store.names = names →
      a.routine.chunk.Lies exits.leave exits.again
        (pc + codeSize test + 3 + 1 + cellsSize yes + 3 + 1) no →
      Leaves s host a exits count names (pc + codeSize test + 3 + 1 + cellsSize yes + 3 + 1)
        (store.stack [] s.below) store.world
        (pc + codeSize test + 3 + 1 + cellsSize yes + 3 + 1 + cellsSize no) (second store)) :
    Leaves s host a exits count names pc stack world (pc + cellsSize (chooseCells test yes no))
      (o.bind fun v store => if v.isFalsey then second store else first store) := by
  have one : Cell.size (.op (.plain .pop)) = 1 := rfl
  have three (op : Opcode) (jump : op.operandWidth = 2) (distance : Nat) :
      Cell.size (.op ⟨op, distance⟩) = 3 := by simp [Cell.size, Cell.draft, Asm.size, jump]
  have total : pc + cellsSize (chooseCells test yes no) =
      pc + codeSize test + 3 + 1 + cellsSize yes + 3 + 1 + cellsSize no := by
    simp only [chooseCells, cellsSize_append, cellsSize_ops, cellsSize_cons, one,
      three .jumpIfFalse rfl, three .jump rfl]
    omega
  simp only [chooseCells, List.cons_append, Chunk.lies_append, Chunk.lies_ops, Chunk.Lies,
    cellsSize_ops, cellsSize_cons, cellsSize_append, cellsSize_nil, one, three .jumpIfFalse rfl,
    three .jump rfl] at lies
  obtain ⟨condition, jump, discard, leftCode, passed, discard', rightCode⟩ := lies
  rw [total]
  refine Leaves.bind (tested condition) fun v store same _ => ?_
  -- the jump past the first branch leads to the pop in front of the second
  have leads : pc + codeSize test + 3 + (1 + (cellsSize yes + (3 + 0))) =
      pc + codeSize test + 3 + 1 + cellsSize yes + 3 := by omega
  refine leaves_branch jump leads discard discard' ?_ (right store same rightCode)
  refine (left store same leftCode).onward fun stack world => ⟨1, ?_⟩
  have skipped : Goes host a 1 (pc + codeSize test + 3 + 1 + cellsSize yes) stack world
    (pc + codeSize test + 3 + 1 + cellsSize yes + 3 + (1 + cellsSize no)) stack world :=
      goes_jump passed
  rwa [← Nat.add_assoc] at skipped

end

end StackScript
