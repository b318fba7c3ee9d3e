import StackScript.Proofs.Machine.Steps

/-!
# Instructions as functions

An instruction that neither calls nor returns is a function of the operand stack and the
world, whatever code it stands in and whatever is on the stack.  `turn` gives this
function, and `executeInstruction_eq` says that the machine computes it.
-/

namespace StackScript
namespace Machine

/-- What comes of an instruction: execution goes on at an offset, or a fault stops it. -/
inductive Turn where
  | on (pc : Nat) (stack : List Value) (world : World)
  | stop (fault : Fault) (stack : List Value) (world : World)

namespace Turn

/-- The same as a result of the machine. -/
def result (host : Host) (log : Log) (frame : Frame) : Turn → EStateM.Result Fault Machine Flow
  | on pc stack world => .ok (.running { frame with ip := pc }) (assembled host world stack log)
  | stop fault stack world => .error fault (assembled host world stack log)

/-- A value is pushed if there is room for it. -/
def push (limit next : Nat) (v : Value) (stack : List Value) (world : World) : Turn :=
  if limit ≤ stack.length then stop .stackOverflow stack world else on next (v :: stack) world

end Turn

/-- The value in a slot, for a stack with its top first. -/
def slotOf (stack : List Value) (index : Nat) : Option Value := stack.reverse[index]?

/-- The stack with another value in a slot. -/
def withSlot (stack : List Value) (index : Nat) (v : Value) : List Value :=
  (stack.reverse.set index v).reverse

/-- The two values on top are replaced by one that is computed from them. -/
def replaceTwo (limit next : Nat) (compute : Value → Value → Option Value) (fault : Fault)
    (world : World) : List Value → Turn
  | b :: a :: rest =>
      match compute a b with
      | none => .stop fault (b :: a :: rest) world
      | some v => .push limit next v rest world
  | stack => .stop .stackUnderflow stack world

/-- What an operation on numbers makes of two values. -/
def onNumbers (operator : Float → Float → Datum) (a b : Value) : Option Value :=
  match a.asNumber?, b.asNumber? with
  | some x, some y => some (.of (operator x y))
  | _, _ => none

/-- The sum of the two values on top, which may be a new text. -/
def sumTwo (limit next : Nat) (world : World) : List Value → Turn
  | b :: a :: rest =>
      match sum a.datum b.datum with
      | none => .stop .operandsMustBeNumbers (b :: a :: rest) world
      | some (.inl x) => .push limit next (.number x) rest world
      | some (.inr chars) =>
          .push limit next (.string (world.heap.intern chars).1) rest
            { world with heap := (world.heap.intern chars).2 }
  | stack => .stop .stackUnderflow stack world

/-- What an instruction makes of stack and world, if it is neither a call nor a return. -/
def turn (limit : Nat) (chunk : Chunk) (base next operand : Nat) (op : Opcode)
    (stack : List Value) (world : World) : Turn :=
  match op with
  | .constant | .constantLong =>
      match chunk.constants[operand]? with
      | none => .stop (.invalidConstant operand) stack world
      | some v => .push limit next v stack world
  | .null => .push limit next .null stack world
  | .true => .push limit next (.bool true) stack world
  | .false => .push limit next (.bool false) stack world
  | .pop =>
      match stack with
      | [] => .stop .stackUnderflow [] world
      | _ :: rest => .on next rest world
  | .defineGlobal | .defineGlobalLong =>
      match chunk.constants[operand]?.bind Value.asText?, stack with
      | none, _ => .stop (.invalidConstant operand) stack world
      | some _, [] => .stop .stackUnderflow [] world
      | some name, v :: rest =>
          .on next rest { world with globals := world.globals.insert name.chars ⟨name, v⟩ }
  | .getGlobal | .getGlobalLong =>
      match chunk.constants[operand]?.bind Value.asText? with
      | none => .stop (.invalidConstant operand) stack world
      | some name =>
          match world.globals[name.chars]?.map Global.value with
          | none => .stop (.undefinedVariable name.chars) stack world
          | some v => .push limit next v.copy stack world
  | .setGlobal | .setGlobalLong =>
      match chunk.constants[operand]?.bind Value.asText?, stack with
      | none, _ => .stop (.invalidConstant operand) stack world
      | some _, [] => .stop .stackUnderflow [] world
      | some name, v :: _ =>
          match world.globals[name.chars]?.map Global.value with
          | none => .stop (.undefinedVariable name.chars) stack world
          | some old =>
              if old.assignable then
                .on next stack { world with globals := world.globals.insert name.chars ⟨name, v⟩ }
              else .stop (.assignToConstant (some name.chars)) stack world
  | .getLocal =>
      match slotOf stack (base + operand) with
      | none => .stop .stackUnderflow stack world
      | some v => .push limit next v.copy stack world
  | .setLocal =>
      match stack with
      | [] => .stop .stackUnderflow [] world
      | v :: _ =>
          match slotOf stack (base + operand) with
          | none => .stop .stackUnderflow stack world
          | some old =>
              if old.assignable then .on next (withSlot stack (base + operand) v) world
              else .stop (.assignToConstant none) stack world
  | .makeConst =>
      match stack with
      | [] => .stop .stackUnderflow [] world
      | v :: rest => .push limit next v.constant rest world
  | .not =>
      match stack with
      | [] => .stop .stackUnderflow [] world
      | v :: rest => .push limit next (.bool v.isFalsey) rest world
  -- The operand is only looked at first, so a fault finds it on the stack.
  | .negate =>
      match stack with
      | [] => .stop .stackUnderflow [] world
      | v :: rest =>
          match v.asNumber? with
          | none => .stop .operandMustBeNumber (v :: rest) world
          | some x => .push limit next (.number (-x)) rest world
  | .equal =>
      match stack with
      | b :: a :: rest => .push limit next (.bool (a == b)) rest world
      | _ => .stop .stackUnderflow [] world
  | .greater =>
      replaceTwo limit next (onNumbers fun x y => .bool (x > y)) .operandsMustBeNumbers world stack
  | .less =>
      replaceTwo limit next (onNumbers fun x y => .bool (x < y)) .operandsMustBeNumbers world stack
  | .add => sumTwo limit next world stack
  | .subtract =>
      replaceTwo limit next (onNumbers fun x y => .number (x - y)) .operandsMustBeNumbers world stack
  | .multiply =>
      replaceTwo limit next (onNumbers fun x y => .number (x * y)) .operandsMustBeNumbers world stack
  | .divide =>
      replaceTwo limit next (onNumbers fun x y => .number (x / y)) .operandsMustBeNumbers world stack
  | .jump => .on (next + operand) stack world
  | .jumpIfFalse =>
      match stack with
      | [] => .stop .stackUnderflow [] world
      | v :: _ => .on (if v.isFalsey then next + operand else next) stack world
  | .loop =>
      if next < operand then .stop (.malformed .loopBeforeStart) stack world
      else .on (next - operand) stack world
  | .print =>
      match stack with
      | [] => .stop .stackUnderflow [] world
      | v :: rest =>
          match Sink.writeLine v.display world.sink with
          | .ok _ sink => .on next rest { world with sink }
          | .error message sink => .stop (.output message) rest { world with sink }
  -- Calls and returns are not turns of one call.
  | .call | .return => .on next stack world

/-! ## The parts of instructions -/

section Parts

variable (host : Host) (world : World) (stack : List Value) (log : Log)

theorem peek_eq (distance : Nat) :
    peek distance (assembled host world stack log) =
      match stack[distance]? with
      | none => .error .stackUnderflow (assembled host world stack log)
      | some v => .ok v (assembled host world stack log) := by
  cases there : stack[distance]? with
  | some v => exact peek_assembled host world stack log there
  | none =>
      have short := List.getElem?_eq_none_iff.mp there
      simp only [peek, size_assembled]
      rw [if_pos (by omega)]

theorem slot_eq (index : Nat) :
    slot index (assembled host world stack log) =
      match slotOf stack index with
      | none => .error .stackUnderflow (assembled host world stack log)
      | some v => .ok v (assembled host world stack log) := by
  have same : (assembled host world stack log).stack[index]? = slotOf stack index := by
    simp [assembled, slotOf]
  cases found : slotOf stack index with
  | none => simp only [slot, same, found]
  | some v => simp only [slot, same, found]

theorem setSlot_eq (index : Nat) (v : Value) :
    setSlot index v (assembled host world stack log) =
      .ok () (assembled host world (withSlot stack index v) log) := by
  simp [setSlot, assembled, withSlot]

theorem name_eq (chunk : Chunk) (index : Nat) (m : Machine) :
    name chunk index m =
      match chunk.constants[index]?.bind Value.asText? with
      | none => .error (.invalidConstant index) m
      | some text => .ok text m := by
  unfold name
  cases chunk.constants[index]?.bind Value.asText? <;> rfl

theorem globalValue_eq (name : Text) :
    globalValue name (assembled host world stack log) =
      match world.globals[name.chars]?.map Global.value with
      | none => .error (.undefinedVariable name.chars) (assembled host world stack log)
      | some v => .ok v (assembled host world stack log) := by
  have same : (assembled host world stack log).global? name.chars =
      world.globals[name.chars]?.map Global.value := rfl
  cases found : world.globals[name.chars]?.map Global.value with
  | none => simp only [globalValue, same, found]
  | some v => simp only [globalValue, same, found]

theorem intern_eq (chars : String) :
    intern chars (assembled host world stack log) =
      .ok (world.heap.intern chars).1
        (assembled host { world with heap := (world.heap.intern chars).2 } stack log) := rfl

theorem pushing_eq (v : Value) (frame : Frame) :
    pushing v frame (assembled host world stack log) =
      (Turn.push host.config.maxStack frame.ip v stack world).result host log frame := by
  simp only [pushing, bind, EStateM.bind, push_assembled, Turn.push]
  by_cases full : host.config.maxStack ≤ stack.length
  · simp only [if_pos full]
    rfl
  · simp only [if_neg full]
    rfl

theorem run_binaryNumber (operator : Float → Float → Datum) (frame : Frame) :
    (binaryNumber operator >>= fun _ => pure (Flow.running frame))
        (assembled host world stack log) =
      (replaceTwo host.config.maxStack frame.ip (onNumbers operator) .operandsMustBeNumbers world
        stack).result host log frame := by
  simp only [binaryNumber, bind, EStateM.bind, peek_eq]
  rcases stack with _ | ⟨b, _ | ⟨a, rest⟩⟩
  · rfl
  · rfl
  · simp only [List.getElem?_cons_zero, List.getElem?_cons_succ, replaceTwo, onNumbers, peek_eq]
    cases a.asNumber? with
    | none => rfl
    | some x =>
        cases b.asNumber? with
        | none => rfl
        | some y =>
            simp only [EStateM.bind, drop_assembled, List.drop_succ_cons, List.drop_zero]
            exact pushing_eq host world rest log _ frame

theorem run_add (frame : Frame) :
    (add >>= fun _ => pure (Flow.running frame)) (assembled host world stack log) =
      (sumTwo host.config.maxStack frame.ip world stack).result host log frame := by
  simp only [add, bind, EStateM.bind, peek_eq]
  rcases stack with _ | ⟨b, _ | ⟨a, rest⟩⟩
  · rfl
  · rfl
  · simp only [List.getElem?_cons_zero, List.getElem?_cons_succ, sumTwo, peek_eq]
    cases sum a.datum b.datum with
    | none => rfl
    | some sum =>
        cases sum with
        | inl x =>
            simp only [EStateM.bind, drop_assembled, List.drop_succ_cons, List.drop_zero]
            exact pushing_eq host world rest log _ frame
        | inr chars =>
            simp only [EStateM.bind, drop_assembled, List.drop_succ_cons, List.drop_zero, intern_eq]
            exact pushing_eq host _ rest log _ frame

end Parts

section

variable {host : Host} {log : Log} {frame : Frame} {operand : Nat} {op : Opcode}
  {stack : List Value} {world : World}

/-- The machine computes the turn. -/
theorem executeInstruction_eq (notCall : op ≠ .call) (notReturn : op ≠ .return) :
    executeInstruction frame op operand (assembled host world stack log) =
      (turn host.config.maxStack frame.routine.chunk frame.base frame.ip operand op stack world).result
        host log frame := by
  have onward (v : Value) (rest : List Value) (world : World) :=
    pushing_eq host world rest log v frame
  -- One case for each instruction, split as the instruction looks at constants, stack and globals.
  cases op with
  | call => exact absurd rfl notCall
  | «return» => exact absurd rfl notReturn
  | constant | constantLong =>
      simp only [turn, executeInstruction, constant, bind, EStateM.bind]
      cases frame.routine.chunk.constants[operand]? with
      | none => rfl
      | some v => exact onward v stack world
  | null | true | false => exact onward _ stack world
  | pop =>
      simp only [turn, executeInstruction, Functor.discard, bind, EStateM.bind, Functor.mapConst,
        EStateM.map, Function.comp]
      cases stack with
      | nil => rfl
      | cons v rest =>
          simp only [pop_assembled]
          rfl
  | defineGlobal | defineGlobalLong =>
      simp only [turn, executeInstruction, bind, EStateM.bind, name_eq]
      cases frame.routine.chunk.constants[operand]?.bind Value.asText? with
      | none => rfl
      | some name =>
          cases stack with
          | nil => rfl
          | cons v rest =>
              simp only [pop_assembled]
              rfl
  | getGlobal | getGlobalLong =>
      simp only [turn, executeInstruction, bind, EStateM.bind, name_eq]
      cases frame.routine.chunk.constants[operand]?.bind Value.asText? with
      | none => rfl
      | some name =>
          simp only [globalValue_eq]
          cases world.globals[name.chars]?.map Global.value with
          | none => rfl
          | some v => exact onward v.copy stack world
  | setGlobal | setGlobalLong =>
      simp only [turn, executeInstruction, bind, EStateM.bind, name_eq]
      cases frame.routine.chunk.constants[operand]?.bind Value.asText? with
      | none => rfl
      | some name =>
          simp only [peek_eq]
          cases stack with
          | nil => rfl
          | cons v rest =>
              simp only [List.getElem?_cons_zero, globalValue_eq]
              cases world.globals[name.chars]?.map Global.value with
              | none => rfl
              | some old =>
                  obtain ⟨datum, assignable⟩ := old
                  cases assignable <;> rfl
  | getLocal =>
      simp only [turn, executeInstruction, bind, EStateM.bind, slot_eq]
      cases slotOf stack (frame.base + operand) with
      | none => rfl
      | some v => exact onward v.copy stack world
  | setLocal =>
      simp only [turn, executeInstruction, bind, EStateM.bind, peek_eq]
      cases stack with
      | nil => rfl
      | cons v rest =>
          simp only [List.getElem?_cons_zero, slot_eq]
          cases slotOf (v :: rest) (frame.base + operand) with
          | none => rfl
          | some old =>
              obtain ⟨datum, assignable⟩ := old
              cases assignable with
              | false => rfl
              | true =>
                  simp only [Bool.not_true, Bool.false_eq_true, if_false, EStateM.bind, setSlot_eq]
                  rfl
  | makeConst | not =>
      simp only [turn, executeInstruction, bind, EStateM.bind]
      cases stack with
      | nil => rfl
      | cons v rest =>
          simp only [pop_assembled]
          exact onward _ rest world
  | negate =>
      simp only [turn, executeInstruction, bind, EStateM.bind, peek_eq]
      cases stack with
      | nil => rfl
      | cons v rest =>
          simp only [List.getElem?_cons_zero]
          cases v.asNumber? with
          | none => rfl
          | some x =>
              simp only [EStateM.bind, drop_assembled, List.drop_succ_cons, List.drop_zero]
              exact onward _ rest world
  | equal =>
      simp only [turn, executeInstruction, bind, EStateM.bind]
      rcases stack with _ | ⟨b, _ | ⟨a, rest⟩⟩
      · rfl
      · simp only [pop_assembled]
        rfl
      · simp only [pop_assembled]
        exact onward _ rest world
  | greater | less | subtract | multiply | divide => exact run_binaryNumber ..
  | add => exact run_add ..
  | jump => rfl
  | jumpIfFalse =>
      simp only [turn, executeInstruction, bind, EStateM.bind, peek_eq]
      cases stack with
      | nil => rfl
      | cons v rest =>
          simp only [List.getElem?_cons_zero]
          split <;> rfl
  | loop =>
      simp only [turn, executeInstruction]
      split <;> rfl
  | print =>
      simp only [turn, executeInstruction, bind, EStateM.bind]
      cases stack with
      | nil => rfl
      | cons v rest =>
          simp only [pop_assembled, withSink_assembled]
          cases Sink.writeLine v.display world.sink <;> rfl

end

end Machine
end StackScript
