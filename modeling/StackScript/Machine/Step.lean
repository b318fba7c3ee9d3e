import StackScript.Machine.State
import StackScript.Value.Display

/-!
# One step of the machine

A step executes the instruction at the instruction pointer of the running call.
It ends in a fault, in the end of the script, or in the call to go on with.  A
fault leaves the machine as it was at that moment, so that the trace of active
calls can be read off.
-/

namespace StackScript

/-- What comes after a step. -/
inductive Flow where
  /-- The script has returned. -/
  | finished
  /-- Execution goes on in the given call. -/
  | running (frame : Frame)

/-- Computations of the machine, which may end in a fault. -/
abbrev Exec := EStateM Fault Machine

namespace Machine

/-! ## The operand stack -/

/-- Pushes a value. -/
def push (value : Value) : Exec Unit := fun m =>
  if m.config.maxStack ≤ m.stack.size then .error .stackOverflow m
  else .ok () { m with stack := m.stack.push value }

/-- Pops a value. -/
def pop : Exec Value := fun m =>
  match m.stack.back? with
  | none => .error .stackUnderflow m
  | some value => .ok value { m with stack := m.stack.pop }

/-- The value at a distance from the top. -/
def peek (distance : Nat) : Exec Value := fun m =>
  if m.stack.size < distance + 1 then .error .stackUnderflow m
  else
    match m.stack[m.stack.size - (distance + 1)]? with
    | none => .error .stackUnderflow m
    | some value => .ok value m

/-- Drops the values above a height. -/
def truncate (height : Nat) : Exec Unit := fun m =>
  .ok () { m with stack := m.stack.shrink height }

/-- Drops a number of values. -/
def drop (count : Nat) : Exec Unit := fun m =>
  .ok () { m with stack := m.stack.shrink (m.stack.size - count) }

/-- The value in a slot. -/
def slot (index : Nat) : Exec Value := fun m =>
  match m.stack[index]? with
  | none => .error .stackUnderflow m
  | some value => .ok value m

/-- Replaces the value in a slot. -/
def setSlot (index : Nat) (value : Value) : Exec Unit := fun m =>
  .ok () { m with stack := m.stack.setIfInBounds index value }

/-! ## Constants, globals and strings -/

/-- The constant at an index. -/
def constant (chunk : Chunk) (index : Nat) : Exec Value :=
  match chunk.constants[index]? with
  | none => throw (.invalidConstant index)
  | some value => pure value

/-- The string constant at an index. -/
def name (chunk : Chunk) (index : Nat) : Exec Text :=
  match chunk.constants[index]?.bind Value.asText? with
  | none => throw (.invalidConstant index)
  | some text => pure text

/-- The value of a defined global. -/
def globalValue (name : Text) : Exec Value := fun m =>
  match m.global? name.chars with
  | none => .error (.undefinedVariable name.chars) m
  | some value => .ok value m

/-- Binds a global. -/
def setGlobal (name : Text) (value : Value) : Exec Unit := fun m =>
  .ok () { m with globals := m.globals.insert name.chars ⟨name, value⟩ }

/-- The string object for the given characters. -/
def intern (chars : String) : Exec Text := fun m =>
  let (text, heap) := m.heap.intern chars
  .ok text { m with heap }

/-- Runs an output computation; `fault` says what its failure means. -/
def withSink {α : Type} (output : Output α) (fault : String → Fault) : Exec α := fun m =>
  match m with
  | ⟨config, loader, heap, globals, natives, sink, log, stack, callers⟩ =>
    match output sink with
    | .ok result sink =>
      .ok result ⟨config, loader, heap, globals, natives, sink, log, stack, callers⟩
    | .error message sink =>
      .error (fault message) ⟨config, loader, heap, globals, natives, sink, log, stack, callers⟩

/-! ## Operators -/

/-- Applies an operator to the two numbers on top of the stack. -/
def binaryNumber (operator : Float → Float → Datum) : Exec Unit := do
  let a ← peek 1
  let b ← peek 0
  match a.asNumber?, b.asNumber? with
  | some x, some y =>
    drop 2
    push (.of (operator x y))
  | _, _ => throw .operandsMustBeNumbers

/-- The sum of two data: of numbers their sum, and of strings, or a string and a
number, their texts joined. -/
def sum : Datum → Datum → Option (Float ⊕ String)
  | .number x, .number y => some (.inl (x + y))
  | .string s, .string t => some (.inr (s.chars ++ t.chars))
  | .string s, .number y => some (.inr (s.chars ++ Number.text y))
  | .number x, .string t => some (.inr (Number.text x ++ t.chars))
  | _, _ => none

/-- Replaces the two values on top of the stack by their sum. -/
def add : Exec Unit := do
  let a ← peek 1
  let b ← peek 0
  match sum a.datum b.datum with
  | none => throw .operandsMustBeNumbers
  | some (.inl x) =>
    drop 2
    push (.number x)
  | some (.inr chars) =>
    drop 2
    push (.string (← intern chars))

/-! ## Calls -/

/-- Suspends the running call and enters a routine. -/
def enterRoutine (frame : Frame) (routine : Routine) (callee count : Nat) : Exec Flow :=
  fun m =>
    if count ≠ routine.arity then .error (.arityMismatch routine.arity count) m
    else if m.config.maxFrames < m.callers.size + 2 then .error .stackOverflow m
    else .ok (.running (.enter routine callee)) { m with callers := m.callers.push frame }

/-- Result of a host function for the arguments above `callee`. -/
def applyNative (native : Native) (callee : Nat) : Exec Value := fun m =>
  let function := (m.natives[native.id]?).getD fun _ _ => throw "unknown host function"
  let arguments := m.stack.extract (callee + 1) m.stack.size
  withSink (function ⟨m.globals, m.stack⟩ arguments) (.native native.name.chars) m

/-- Stack index of the value below the given number of arguments. -/
def calleeIndex (count : Nat) : Exec Nat := fun m =>
  if m.stack.size < count + 1 then .error .stackUnderflow m
  else .ok (m.stack.size - (count + 1)) m

/-- Calls the value below the given number of arguments. -/
def call (frame : Frame) (count : Nat) : Exec Flow := do
  let callee ← calleeIndex count
  match (← slot callee).datum with
  | .routine routine => enterRoutine frame routine callee count
  | .native native =>
    let result ← applyNative native callee
    truncate callee
    push result
    return .running frame
  | _ => throw .notCallable

/-- Takes the innermost suspended call, if there is one. -/
def resumeCaller : Exec (Option Frame) := fun m =>
  match m.callers.back? with
  | none => .ok none m
  | some caller => .ok (some caller) { m with callers := m.callers.pop }

/-- Returns from the running call. -/
def leave (frame : Frame) : Exec Flow := do
  let result ← pop
  truncate frame.base
  match ← resumeCaller with
  | none => return .finished
  | some caller =>
    push result
    return .running caller

/-! ## Instructions -/

/-- Executes an instruction; the frame's pointer is already behind it. -/
def executeInstruction (frame : Frame) (op : Opcode) (operand : Nat) : Exec Flow := do
  let chunk := frame.routine.chunk
  match op with
  | .constant | .constantLong =>
    push (← constant chunk operand)
    return .running frame
  | .null =>
    push .null
    return .running frame
  | .true =>
    push (.bool true)
    return .running frame
  | .false =>
    push (.bool false)
    return .running frame
  | .pop =>
    discard pop
    return .running frame
  | .defineGlobal | .defineGlobalLong =>
    let name ← name chunk operand
    setGlobal name (← pop)
    return .running frame
  | .getGlobal | .getGlobalLong =>
    let name ← name chunk operand
    -- a copy may be assigned to; only the variable itself is constant
    push (← globalValue name).copy
    return .running frame
  | .setGlobal | .setGlobalLong =>
    let name ← name chunk operand
    let value ← peek 0
    -- the value stays on the stack, since an assignment is an expression
    let old ← globalValue name
    if !old.assignable then throw (.assignToConstant (some name.chars))
    setGlobal name value
    return .running frame
  | .getLocal =>
    push (← slot (frame.base + operand)).copy
    return .running frame
  | .setLocal =>
    let value ← peek 0
    let old ← slot (frame.base + operand)
    if !old.assignable then throw (.assignToConstant none)
    setSlot (frame.base + operand) value
    return .running frame
  | .makeConst =>
    push (← pop).constant
    return .running frame
  | .not =>
    push (.bool (← pop).isFalsey)
    return .running frame
  | .negate =>
    -- the operand is dropped only once it is known to be a number
    match (← peek 0).asNumber? with
    | none => throw .operandMustBeNumber
    | some x =>
      drop 1
      push (.number (-x))
      return .running frame
  | .equal =>
    let b ← pop
    let a ← pop
    push (.bool (a == b))
    return .running frame
  | .greater =>
    binaryNumber fun x y => .bool (x > y)
    return .running frame
  | .less =>
    binaryNumber fun x y => .bool (x < y)
    return .running frame
  | .add =>
    add
    return .running frame
  | .subtract =>
    binaryNumber fun x y => .number (x - y)
    return .running frame
  | .multiply =>
    binaryNumber fun x y => .number (x * y)
    return .running frame
  | .divide =>
    binaryNumber fun x y => .number (x / y)
    return .running frame
  | .jump => return .running { frame with ip := frame.ip + operand }
  | .jumpIfFalse =>
    if (← peek 0).isFalsey then return .running { frame with ip := frame.ip + operand }
    else return .running frame
  | .loop =>
    -- code that was not compiled may jump anywhere
    if frame.ip < operand then throw (.malformed .loopBeforeStart)
    return .running { frame with ip := frame.ip - operand }
  | .call => call frame operand
  | .print =>
    let value ← pop
    withSink (Sink.writeLine value.display) .output
    return .running frame
  | .return => leave frame

/-- Executes the next instruction of a call. -/
def step (frame : Frame) : Exec Flow :=
  match frame.routine.chunk.decode frame.ip with
  | .error e => throw (.ofDecodeError e)
  | .ok instruction =>
    executeInstruction { frame.atNext with ip := instruction.next } instruction.opcode
      instruction.operand

end Machine
end StackScript
