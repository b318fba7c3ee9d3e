import StackScript.Proofs.Code.Assembly
import StackScript.Proofs.Machine.Moves

/-!
# What single instructions do

One lemma for each kind of instruction: where execution goes, or which fault stops
it, in terms of the stack with its top first.  The long form of an instruction does
what the short form does.
-/

namespace StackScript
namespace Machine

variable {host : Host} {a : Activation} {pc next : Nat} {stack stack' : List Value}
  {world world' : World} {fault : Fault} {op : Opcode} {operand : Nat}

/-- Tracing an instruction changes nothing but the log. -/
theorem assembled_traced (host : Host) (world : World) (stack : List Value) (frame : Frame)
    (log : Log) :
    ∃ log', (if (assembled host world stack log).config.traceExecution then
      (assembled host world stack log).traceInstruction frame else
      assembled host world stack log) = assembled host world stack log' := by
  split
  · exact ⟨_, rfl⟩
  · exact ⟨log, rfl⟩

theorem goes_step {pc' : Nat} (code : a.routine.chunk.decode pc = .ok ⟨op, operand, next⟩)
    (run : ∀ log, executeInstruction (a.frame next pc) op operand
      (assembled host world stack log) =
        .ok (.running (a.frame pc' pc)) (assembled host world' stack' log)) :
    Goes host a 1 pc stack world pc' stack' world' := by
  intro start log
  obtain ⟨log', traced⟩ := assembled_traced host world stack (a.frame pc start) log
  refine ⟨pc, log', fun limit => ?_⟩
  have stepped : step (a.frame pc start) (assembled host world stack log') =
      .ok (.running (a.frame pc' pc)) (assembled host world' stack' log') := by
    simp only [step, Activation.frame, code]
    exact run log'
  rw [Nat.add_comm, execute]
  simp only [traced, stepped]

theorem stops_step (code : a.routine.chunk.decode pc = .ok ⟨op, operand, next⟩)
    (run : ∀ log, ∃ m, m.world = world' ∧
      executeInstruction (a.frame next pc) op operand (assembled host world stack log) =
        .error fault m) :
    Stops host a pc stack world fault world' := by
  refine ⟨1, fun start log => ?_⟩
  obtain ⟨log', traced⟩ := assembled_traced host world stack (a.frame pc start) log
  obtain ⟨m, same, failed⟩ := run log'
  refine ⟨(a.frame pc start).atNext, m, same, fun limit => ?_⟩
  have stepped : step (a.frame pc start) (assembled host world stack log') = .error fault m := by
    simp only [step, Activation.frame, code]
    exact failed
  rw [Nat.add_comm, execute]
  simp only [traced, stepped]

theorem executeInstruction_longForm (frame : Frame) (op : Opcode) (operand : Nat) :
    executeInstruction frame op.longForm operand = executeInstruction frame op operand := by
  cases op <;> rfl

/-- An indexed operation does the same in its short and in its long form. -/
theorem executeInstruction_indexed (frame : Frame) (op : Opcode) (index operand : Nat) :
    executeInstruction frame (Asm.indexed op index).opcode operand =
      executeInstruction frame op operand := by
  unfold Asm.indexed
  split
  · rfl
  · exact executeInstruction_longForm frame op operand

/-! ## Pushing -/

/-- Pushing a value and going on. -/
def pushing (v : Value) (frame : Frame) : Exec Flow := do
  push v
  return .running frame

/-- An instruction that pushes a value, with room for it. -/
theorem goes_push {v : Value} (code : a.routine.chunk.decode pc = .ok ⟨op, operand, next⟩)
    (run : ∀ log, executeInstruction (a.frame next pc) op operand
      (assembled host world stack log) =
        pushing v (a.frame next pc) (assembled host world stack log))
    (room : stack.length < host.config.maxStack) :
    Goes host a 1 pc stack world next (v :: stack) world := by
  refine goes_step code fun log => ?_
  rw [run]
  simp only [pushing, bind, EStateM.bind, pure, EStateM.pure, push_of_room _ _ _ _ room]

/-- An instruction that pushes a value on a full stack. -/
theorem stops_push {v : Value} (code : a.routine.chunk.decode pc = .ok ⟨op, operand, next⟩)
    (run : ∀ log, executeInstruction (a.frame next pc) op operand
      (assembled host world stack log) =
        pushing v (a.frame next pc) (assembled host world stack log))
    (full : host.config.maxStack ≤ stack.length) :
    Stops host a pc stack world .stackOverflow world := by
  refine stops_step code fun log => ⟨assembled host world stack log, rfl, ?_⟩
  rw [run]
  simp only [pushing, bind, EStateM.bind, push_assembled, if_pos full]

theorem run_constant {v : Value} (there : a.routine.chunk.constants[operand]? = some v) (m : Machine) :
    executeInstruction (a.frame next pc) .constant operand m = pushing v (a.frame next pc) m := by
  simp only [executeInstruction, constant, Activation.frame, there]
  rfl

theorem run_null (frame : Frame) (m : Machine) :
    executeInstruction frame .null operand m = pushing .null frame m := rfl

theorem run_true (frame : Frame) (m : Machine) :
    executeInstruction frame .true operand m = pushing (.bool true) frame m := rfl

theorem run_false (frame : Frame) (m : Machine) :
    executeInstruction frame .false operand m = pushing (.bool false) frame m := rfl

theorem run_getLocal {above below : List Value} {v : Value} (log : Log)
    (height : below.length = a.base + operand) :
    executeInstruction (a.frame next pc) .getLocal operand
        (assembled host world (above ++ v :: below) log) =
      pushing v.copy (a.frame next pc) (assembled host world (above ++ v :: below) log) := by
  simp only [executeInstruction, Activation.frame, bind, EStateM.bind, ← height, slot_assembled]
  rfl

/-- The name of a global is a constant of the routine. -/
theorem name_of_constant {chunk : Chunk} {text : Text} {m : Machine}
    (there : chunk.constants[operand]? = some (.string text)) :
    name chunk operand m = .ok text m := by
  simp only [name, there]
  rfl

theorem run_getGlobal {text : Text} {v : Value} (log : Log)
    (there : a.routine.chunk.constants[operand]? = some (.string text))
    (defined : (world.globals[text.chars]?).map Global.value = some v) :
    executeInstruction (a.frame next pc) .getGlobal operand (assembled host world stack log) =
      pushing v.copy (a.frame next pc) (assembled host world stack log) := by
  have found : (assembled host world stack log).global? text.chars = some v := defined
  simp only [executeInstruction, Activation.frame, bind, EStateM.bind, name_of_constant there,
    globalValue, found]
  rfl

theorem run_getGlobal_undefined {text : Text} (log : Log)
    (there : a.routine.chunk.constants[operand]? = some (.string text))
    (undefined : (world.globals[text.chars]?).map Global.value = none) :
    executeInstruction (a.frame next pc) .getGlobal operand (assembled host world stack log) =
      .error (.undefinedVariable text.chars) (assembled host world stack log) := by
  have missing : (assembled host world stack log).global? text.chars = none := undefined
  simp only [executeInstruction, Activation.frame, bind, EStateM.bind, name_of_constant there,
    globalValue, missing]

/-! ## Working on the top -/

theorem goes_pop {v : Value} (code : a.routine.chunk.decode pc = .ok ⟨.pop, operand, next⟩) :
    Goes host a 1 pc (v :: stack) world next stack world := by
  refine goes_step code fun log => ?_
  simp only [executeInstruction, Functor.discard, bind, EStateM.bind, pop_assembled,
    Functor.mapConst, EStateM.map, pure, EStateM.pure, Function.comp]

/-- An instruction that replaces the top. -/
theorem goes_makeConst {v : Value}
    (code : a.routine.chunk.decode pc = .ok ⟨.makeConst, operand, next⟩)
    (room : stack.length < host.config.maxStack) :
    Goes host a 1 pc (v :: stack) world next (v.constant :: stack) world := by
  refine goes_step code fun log => ?_
  simp only [executeInstruction, bind, EStateM.bind, pop_assembled, push_of_room _ _ _ _ room,
    pure, EStateM.pure]

theorem goes_not {v : Value} (code : a.routine.chunk.decode pc = .ok ⟨.not, operand, next⟩)
    (room : stack.length < host.config.maxStack) :
    Goes host a 1 pc (v :: stack) world next (.bool v.isFalsey :: stack) world := by
  refine goes_step code fun log => ?_
  simp only [executeInstruction, bind, EStateM.bind, pop_assembled, push_of_room _ _ _ _ room,
    pure, EStateM.pure]

theorem goes_negate {v : Value} {x : Float}
    (code : a.routine.chunk.decode pc = .ok ⟨.negate, operand, next⟩)
    (number : v.asNumber? = some x) (room : stack.length < host.config.maxStack) :
    Goes host a 1 pc (v :: stack) world next (.number (-x) :: stack) world := by
  refine goes_step code fun log => ?_
  simp only [executeInstruction, bind, EStateM.bind, peek_top, number,
    drop_assembled, List.drop_succ_cons, List.drop_zero, push_of_room _ _ _ _ room, pure,
    EStateM.pure]

theorem stops_negate {v : Value} (code : a.routine.chunk.decode pc = .ok ⟨.negate, operand, next⟩)
    (number : v.asNumber? = none) :
    Stops host a pc (v :: stack) world .operandMustBeNumber world := by
  refine stops_step code fun log => ⟨assembled host world (v :: stack) log, rfl, ?_⟩
  simp only [executeInstruction, bind, EStateM.bind, peek_top, number]
  rfl

/-! ## Operators -/

theorem goes_equal {x y : Value} (code : a.routine.chunk.decode pc = .ok ⟨.equal, operand, next⟩)
    (room : stack.length < host.config.maxStack) :
    Goes host a 1 pc (y :: x :: stack) world next (.bool (x == y) :: stack) world := by
  refine goes_step code fun log => ?_
  simp only [executeInstruction, bind, EStateM.bind, pop_assembled, push_of_room _ _ _ _ room,
    pure, EStateM.pure]

/-- The operation that an instruction applies to two numbers. -/
def arithmetic? : Opcode → Option (Float → Float → Datum)
  | .greater => some fun x y => .bool (x > y)
  | .less => some fun x y => .bool (x < y)
  | .subtract => some fun x y => .number (x - y)
  | .multiply => some fun x y => .number (x * y)
  | .divide => some fun x y => .number (x / y)
  | _ => none

theorem run_arithmetic {operator : Float → Float → Datum} (h : arithmetic? op = some operator)
    (frame : Frame) (m : Machine) :
    executeInstruction frame op operand m =
      (binaryNumber operator >>= fun _ => pure (Flow.running frame)) m := by
  cases op <;> cases h <;> rfl

theorem goes_arithmetic {operator : Float → Float → Datum} {v w : Value} {x y : Float}
    (code : a.routine.chunk.decode pc = .ok ⟨op, operand, next⟩)
    (h : arithmetic? op = some operator) (left : v.asNumber? = some x)
    (right : w.asNumber? = some y) (room : stack.length < host.config.maxStack) :
    Goes host a 1 pc (w :: v :: stack) world next (.of (operator x y) :: stack) world := by
  refine goes_step code fun log => ?_
  simp only [run_arithmetic h, binaryNumber, bind, EStateM.bind, peek_top, peek_second, left, right,
    drop_assembled, List.drop_succ_cons, List.drop_zero, push_of_room _ _ _ _ room, pure,
    EStateM.pure]

theorem stops_arithmetic {operator : Float → Float → Datum} {v w : Value}
    (code : a.routine.chunk.decode pc = .ok ⟨op, operand, next⟩)
    (h : arithmetic? op = some operator) (other : v.asNumber? = none ∨ w.asNumber? = none) :
    Stops host a pc (w :: v :: stack) world .operandsMustBeNumbers world := by
  refine stops_step code fun log => ⟨assembled host world (w :: v :: stack) log, rfl, ?_⟩
  simp only [run_arithmetic h, binaryNumber, bind, EStateM.bind, peek_top, peek_second]
  rcases other with none | none
  · simp only [none]
    rfl
  · cases v.asNumber? <;> simp only [none] <;> rfl

theorem goes_add_number {v w : Value} {x : Float}
    (code : a.routine.chunk.decode pc = .ok ⟨.add, operand, next⟩)
    (h : sum v.datum w.datum = some (.inl x)) (room : stack.length < host.config.maxStack) :
    Goes host a 1 pc (w :: v :: stack) world next (.number x :: stack) world := by
  refine goes_step code fun log => ?_
  simp only [executeInstruction, add, bind, EStateM.bind, peek_top, peek_second, h,
    drop_assembled, List.drop_succ_cons, List.drop_zero, push_of_room _ _ _ _ room, pure,
    EStateM.pure]

/-- Joined texts enter the heap. -/
theorem goes_add_text {v w : Value} {chars : String}
    (code : a.routine.chunk.decode pc = .ok ⟨.add, operand, next⟩)
    (h : sum v.datum w.datum = some (.inr chars)) (room : stack.length < host.config.maxStack) :
    Goes host a 1 pc (w :: v :: stack) world next
      (.string (world.heap.intern chars).1 :: stack)
      { world with heap := (world.heap.intern chars).2 } := by
  refine goes_step code fun log => ?_
  have interned : intern chars (assembled host world stack log) =
      .ok (world.heap.intern chars).1
        (assembled host { world with heap := (world.heap.intern chars).2 } stack log) := rfl
  simp only [executeInstruction, add, bind, EStateM.bind, peek_top, peek_second, h,
    drop_assembled, List.drop_succ_cons, List.drop_zero, interned, push_of_room _ _ _ _ room, pure,
    EStateM.pure]

theorem stops_add {v w : Value} (code : a.routine.chunk.decode pc = .ok ⟨.add, operand, next⟩)
    (h : sum v.datum w.datum = none) :
    Stops host a pc (w :: v :: stack) world .operandsMustBeNumbers world := by
  refine stops_step code fun log => ⟨assembled host world (w :: v :: stack) log, rfl, ?_⟩
  simp only [executeInstruction, add, bind, EStateM.bind, peek_top, peek_second, h]
  rfl

/-! ## Assignments and definitions -/

theorem goes_setLocal {above below : List Value} {v old : Value}
    (code : a.routine.chunk.decode pc = .ok ⟨.setLocal, operand, next⟩)
    (height : below.length = a.base + operand) (assignable : old.assignable = true) :
    Goes host a 1 pc (v :: above ++ old :: below) world next (v :: above ++ v :: below) world := by
  refine goes_step code fun log => ?_
  have top := peek_top host world (above ++ old :: below) log v
  simp only [executeInstruction, Activation.frame, bind, EStateM.bind, ← height,
    List.cons_append, top]
  simp only [← List.cons_append, slot_assembled, assignable, Bool.not_true, Bool.false_eq_true,
    if_false, EStateM.bind, setSlot_assembled]
  rfl

theorem stops_setLocal {above below : List Value} {v old : Value}
    (code : a.routine.chunk.decode pc = .ok ⟨.setLocal, operand, next⟩)
    (height : below.length = a.base + operand) (constant : old.assignable = false) :
    Stops host a pc (v :: above ++ old :: below) world (.assignToConstant none) world := by
  refine stops_step code fun log =>
    ⟨assembled host world (v :: above ++ old :: below) log, rfl, ?_⟩
  have top := peek_top host world (above ++ old :: below) log v
  simp only [executeInstruction, Activation.frame, bind, EStateM.bind, ← height,
    List.cons_append, top]
  simp only [← List.cons_append, slot_assembled, constant]
  rfl

theorem goes_setGlobal {text : Text} {v old : Value}
    (code : a.routine.chunk.decode pc = .ok ⟨op, operand, next⟩)
    (same : ∀ frame, executeInstruction frame op operand = executeInstruction frame .setGlobal operand)
    (there : a.routine.chunk.constants[operand]? = some (.string text))
    (defined : (world.globals[text.chars]?).map Global.value = some old)
    (assignable : old.assignable = true) :
    Goes host a 1 pc (v :: stack) world next (v :: stack)
      { world with globals := world.globals.insert text.chars ⟨text, v⟩ } := by
  refine goes_step code fun log => ?_
  have found : (assembled host world (v :: stack) log).global? text.chars = some old := defined
  rw [same]
  simp only [executeInstruction, Activation.frame, bind, EStateM.bind, name_of_constant there,
    peek_top, globalValue, found, assignable]
  rfl

theorem stops_setGlobal {text : Text} {v old : Value}
    (code : a.routine.chunk.decode pc = .ok ⟨op, operand, next⟩)
    (same : ∀ frame, executeInstruction frame op operand = executeInstruction frame .setGlobal operand)
    (there : a.routine.chunk.constants[operand]? = some (.string text))
    (defined : (world.globals[text.chars]?).map Global.value = some old)
    (constant : old.assignable = false) :
    Stops host a pc (v :: stack) world (.assignToConstant (some text.chars)) world := by
  refine stops_step code fun log => ⟨assembled host world (v :: stack) log, rfl, ?_⟩
  have found : (assembled host world (v :: stack) log).global? text.chars = some old := defined
  rw [same]
  simp only [executeInstruction, Activation.frame, bind, EStateM.bind, name_of_constant there,
    peek_top, globalValue, found, constant]
  rfl

theorem stops_setGlobal_undefined {text : Text} {v : Value}
    (code : a.routine.chunk.decode pc = .ok ⟨op, operand, next⟩)
    (same : ∀ frame, executeInstruction frame op operand = executeInstruction frame .setGlobal operand)
    (there : a.routine.chunk.constants[operand]? = some (.string text))
    (undefined : (world.globals[text.chars]?).map Global.value = none) :
    Stops host a pc (v :: stack) world (.undefinedVariable text.chars) world := by
  refine stops_step code fun log => ⟨assembled host world (v :: stack) log, rfl, ?_⟩
  have missing : (assembled host world (v :: stack) log).global? text.chars = none := undefined
  rw [same]
  simp only [executeInstruction, Activation.frame, bind, EStateM.bind, name_of_constant there,
    peek_top, globalValue, missing]

theorem goes_defineGlobal {text : Text} {v : Value}
    (code : a.routine.chunk.decode pc = .ok ⟨op, operand, next⟩)
    (same : ∀ frame,
      executeInstruction frame op operand = executeInstruction frame .defineGlobal operand)
    (there : a.routine.chunk.constants[operand]? = some (.string text)) :
    Goes host a 1 pc (v :: stack) world next stack
      { world with globals := world.globals.insert text.chars ⟨text, v⟩ } := by
  refine goes_step code fun log => ?_
  rw [same]
  simp only [executeInstruction, Activation.frame, bind, EStateM.bind, name_of_constant there,
    pop_assembled]
  rfl

/-! ## Output -/

/-- Output reaches the sink of the world. -/
theorem withSink_assembled {α : Type} (output : Output α) (meaning : String → Fault)
    (log : Log) :
    withSink output meaning (assembled host world stack log) =
      match output world.sink with
      | .ok result sink => .ok result (assembled host { world with sink } stack log)
      | .error message sink =>
          .error (meaning message) (assembled host { world with sink } stack log) := rfl

theorem goes_print {v : Value} {sink : Sink}
    (code : a.routine.chunk.decode pc = .ok ⟨.print, operand, next⟩)
    (written : Sink.writeLine v.display world.sink = .ok () sink) :
    Goes host a 1 pc (v :: stack) world next stack { world with sink } := by
  refine goes_step code fun log => ?_
  simp only [executeInstruction, bind, EStateM.bind, pop_assembled, withSink_assembled, written]
  rfl

theorem stops_print {v : Value} {sink : Sink} {message : String}
    (code : a.routine.chunk.decode pc = .ok ⟨.print, operand, next⟩)
    (failed : Sink.writeLine v.display world.sink = .error message sink) :
    Stops host a pc (v :: stack) world (.output message) { world with sink } := by
  refine stops_step code fun log => ⟨assembled host { world with sink } stack log, rfl, ?_⟩
  simp only [executeInstruction, bind, EStateM.bind, pop_assembled, withSink_assembled, failed]

/-! ## Jumps -/

theorem goes_jump (code : a.routine.chunk.decode pc = .ok ⟨.jump, operand, next⟩) :
    Goes host a 1 pc stack world (next + operand) stack world :=
  goes_step code fun _ => rfl

theorem goes_jumpIfFalse {v : Value}
    (code : a.routine.chunk.decode pc = .ok ⟨.jumpIfFalse, operand, next⟩) :
    Goes host a 1 pc (v :: stack) world (if v.isFalsey then next + operand else next) (v :: stack)
      world := by
  refine goes_step code fun log => ?_
  simp only [executeInstruction, bind, EStateM.bind, peek_top]
  split <;> rfl

theorem goes_loop (code : a.routine.chunk.decode pc = .ok ⟨.loop, operand, next⟩)
    (near : operand ≤ next) :
    Goes host a 1 pc stack world (next - operand) stack world := by
  have inside : ¬ next < operand := by omega
  refine goes_step code fun log => ?_
  simp only [executeInstruction, Activation.frame, inside, if_false]
  rfl

end Machine
end StackScript
