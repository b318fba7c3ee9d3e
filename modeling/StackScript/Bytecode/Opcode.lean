/-!
# Operation codes

An instruction is one byte that names its operation, followed by an operand
whose width depends on the operation alone.
-/

namespace StackScript

/-- The operations of the machine. -/
inductive Opcode where
  | constant | constantLong | null | true | false | pop | defineGlobal
  | defineGlobalLong | getGlobal | getGlobalLong | setGlobal | setGlobalLong
  | getLocal | setLocal | makeConst | not | negate | equal | greater | less | add
  | subtract | multiply | divide | jump | jumpIfFalse | loop | call | print
  | return
deriving DecidableEq, Repr

namespace Opcode

/-- All operations; the place of each is its byte. -/
def all : Array Opcode := #[
  .constant, .constantLong, .null, .true, .false, .pop, .defineGlobal,
  .defineGlobalLong, .getGlobal, .getGlobalLong, .setGlobal, .setGlobalLong,
  .getLocal, .setLocal, .makeConst, .not, .negate, .equal, .greater, .less, .add,
  .subtract, .multiply, .divide, .jump, .jumpIfFalse, .loop, .call, .print, .return]

/-- The byte of an operation. -/
def toByte (op : Opcode) : UInt8 := op.ctorIdx.toUInt8

/-- The operation of a byte. -/
def ofByte? (byte : UInt8) : Option Opcode := all[byte.toNat]?

theorem ofByte?_toByte (op : Opcode) : ofByte? op.toByte = some op := by
  cases op <;> rfl

/-- Number of operand bytes after the operation byte. -/
def operandWidth : Opcode → Nat
  | .constant | .defineGlobal | .getGlobal | .setGlobal => 1
  | .getLocal | .setLocal | .call => 1
  | .jump | .jumpIfFalse | .loop => 2
  | .constantLong | .defineGlobalLong | .getGlobalLong | .setGlobalLong => 4
  | _ => 0

/-- The form of an operation on the constant pool that has a wide operand;
other operations have no other form. -/
def longForm : Opcode → Opcode
  | .constant => .constantLong
  | .defineGlobal => .defineGlobalLong
  | .getGlobal => .getGlobalLong
  | .setGlobal => .setGlobalLong
  | op => op

/-- The name under which an operation is listed. -/
def mnemonic : Opcode → String
  | .constant => "OP_CONSTANT" | .constantLong => "OP_CONSTANT_LONG"
  | .null => "OP_NULL" | .true => "OP_TRUE" | .false => "OP_FALSE"
  | .pop => "OP_POP" | .defineGlobal => "OP_DEFINE_GLOBAL"
  | .defineGlobalLong => "OP_DEFINE_GLOBAL_LONG" | .getGlobal => "OP_GET_GLOBAL"
  | .getGlobalLong => "OP_GET_GLOBAL_LONG" | .setGlobal => "OP_SET_GLOBAL"
  | .setGlobalLong => "OP_SET_GLOBAL_LONG" | .getLocal => "OP_GET_LOCAL"
  | .setLocal => "OP_SET_LOCAL" | .makeConst => "OP_MAKECONST" | .not => "OP_NOT"
  | .negate => "OP_NEGATE" | .equal => "OP_EQUAL" | .greater => "OP_GREATER"
  | .less => "OP_LESS" | .add => "OP_ADD" | .subtract => "OP_SUBTRACT"
  | .multiply => "OP_MULTIPLY" | .divide => "OP_DIVIDE" | .jump => "OP_JUMP"
  | .jumpIfFalse => "OP_JUMP_IF_FALSE" | .loop => "OP_LOOP" | .call => "OP_CALL"
  | .print => "OP_PRINT" | .return => "OP_RETURN"

end Opcode
end StackScript
