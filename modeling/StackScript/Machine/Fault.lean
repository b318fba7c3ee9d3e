import StackScript.Bytecode.Chunk

/-!
# Runtime errors

A fault is the reason why the machine cannot go on.  A runtime error is a fault
together with the calls that were active when it arose.
-/

namespace StackScript

/-- What can be wrong with bytecode, apart from an unknown operation. -/
inductive CodeDefect where
  | endOfCode
  | truncatedJump
  | truncatedConstant
  | loopBeforeStart
deriving DecidableEq, Repr

/-- Wording of a defect. -/
def CodeDefect.message : CodeDefect → String
  | endOfCode => "unexpected end of code"
  | truncatedJump => "truncated jump operand"
  | truncatedConstant => "truncated constant operand"
  | loopBeforeStart => "loop before start of code"

/-- Why the machine stopped. -/
inductive Fault where
  | operandsMustBeNumbers
  | operandMustBeNumber
  | undefinedVariable (name : String)
  /-- The name is known only of globals. -/
  | assignToConstant (name : Option String)
  | arityMismatch (expected got : Nat)
  | notCallable
  | stackOverflow
  | stackUnderflow
  | invalidConstant (index : Nat)
  | unknownOpcode (byte : UInt8)
  | malformed (defect : CodeDefect)
  /-- A function of the host failed. -/
  | native (name message : String)
  /-- Output could not be written. -/
  | output (message : String)
deriving DecidableEq, Repr

namespace Fault

/-- Wording of a fault. -/
def message : Fault → String
  | operandsMustBeNumbers => "operands must be numbers"
  | operandMustBeNumber => "operand must be a number"
  | undefinedVariable name => "undefined variable '" ++ name ++ "'"
  | assignToConstant none => "cannot assign to const variable"
  | assignToConstant (some name) => "cannot assign to const variable '" ++ name ++ "'"
  | arityMismatch expected got =>
    "expected " ++ toString expected ++ " arguments but got " ++ toString got
  | notCallable => "can only call functions"
  | stackOverflow => "stack overflow"
  | stackUnderflow => "stack underflow"
  | invalidConstant index => "invalid constant index " ++ toString index
  | unknownOpcode byte => "unknown opcode " ++ toString byte.toNat
  | malformed defect => "malformed bytecode: " ++ defect.message
  | native name message => name ++ ": " ++ message
  | output message => "output error: " ++ message

/-- The fault for code that holds no instruction where one is due. -/
def ofDecodeError : Chunk.DecodeError → Fault
  | .missingOpcode => malformed .endOfCode
  | .unknownOpcode byte => unknownOpcode byte
  | .missingOperand op =>
    match op.operandWidth with
    | 2 => malformed .truncatedJump
    | 4 => malformed .truncatedConstant
    | _ => malformed .endOfCode

end Fault

/-- One active call: the routine, if it has a name, and the line it is at. -/
structure TraceEntry where
  line : Nat
  routine : Option String
deriving DecidableEq, Repr

/-- Wording of an active call. -/
def TraceEntry.describe (entry : TraceEntry) : String :=
  let place :=
    match entry.routine with
    | some name => name ++ "()"
    | none => "script"
  "[line " ++ toString entry.line ++ "] in " ++ place

/-- A fault, and the calls that were active, the innermost first. -/
structure RuntimeError where
  line : Nat
  fault : Fault
  trace : List TraceEntry
deriving DecidableEq, Repr

/-- The error as one line of text. -/
def RuntimeError.describe (e : RuntimeError) : String :=
  "[line " ++ toString e.line ++ "] RuntimeError: " ++ e.fault.message

end StackScript
