import StackScript.Boundary
import StackScript.Bytecode.Opcode
import StackScript.Value.Basic

/-!
# Chunks of bytecode

A chunk is written byte by byte, each byte with the source line it comes from.
Operands of several bytes are little-endian.  The line table records a line only
where it differs from the line before, and looking a line up finds the last
entry at or before an offset.

`decode` reads one instruction for the machine.  Listings read code on their own.
-/

namespace StackScript
namespace Chunk

/-- A chunk without code. -/
def empty : Chunk := ⟨#[], #[], #[]⟩

instance : Inhabited Chunk := ⟨empty⟩

/-- Number of code bytes. -/
def size (chunk : Chunk) : Nat := chunk.code.size

/-- The line table after a byte at offset `offset` on the given line. -/
def recordLine (lines : Array (Nat × Nat)) (offset line : Nat) : Array (Nat × Nat) :=
  match lines.back? with
  | none => lines.push (offset, line)
  | some (_, last) => if last = line then lines else lines.push (offset, line)

/-- Appends one byte. -/
def write (chunk : Chunk) (byte : UInt8) (line : Nat) : Chunk :=
  match chunk with
  | ⟨code, constants, lines⟩ =>
    let lines := recordLine lines code.size line
    ⟨code.push byte, constants, lines⟩

/-- Appends the byte of an operation. -/
def writeOpcode (chunk : Chunk) (op : Opcode) (line : Nat) : Chunk :=
  chunk.write op.toByte line

/-- Appends the low `width` bytes of a word, least significant first. -/
def writeWord (chunk : Chunk) : (width word line : Nat) → Chunk
  | 0, _, _ => chunk
  | width + 1, word, line =>
    (chunk.write word.toUInt8 line).writeWord width (word / 256) line

/-- Reads `width` bytes as a word, least significant first. -/
def readWord (code : Array UInt8) (offset : Nat) : (width : Nat) → Option Nat
  | 0 => some 0
  | width + 1 =>
    match code[offset]?, readWord code (offset + 1) width with
    | some low, some high => some (low.toNat + 256 * high)
    | _, _ => none

/-- Overwrites two bytes of code with a word. -/
def patchWord (chunk : Chunk) (offset word : Nat) : Chunk :=
  match chunk with
  | ⟨code, constants, lines⟩ =>
    let code := code.setIfInBounds offset word.toUInt8
    ⟨code.setIfInBounds (offset + 1) (word / 256).toUInt8, constants, lines⟩

/-- Index of a constant: that of an equal constant already in the pool, or of a
new entry at its end. -/
def addConstant (chunk : Chunk) (value : Value) : Nat × Chunk :=
  match chunk.constants.findIdx? (· == value) with
  | some index => (index, chunk)
  | none => (chunk.constants.size, { chunk with constants := chunk.constants.push value })

/-- Source line of the byte at an offset; zero if no line is recorded up to
there. -/
def lineAt (chunk : Chunk) (offset : Nat) : Nat :=
  let startsBy (index : Nat) : Bool :=
    match chunk.lines[index]? with
    | some (start, _) => start ≤ offset
    | none => false
  match boundary startsBy 0 chunk.lines.size with
  | 0 => 0
  | index + 1 => (chunk.lines[index]?.map Prod.snd).getD 0

/-- One instruction, read from code. -/
structure Instruction where
  opcode : Opcode
  /-- Zero for an operation without operand. -/
  operand : Nat
  /-- Offset just after the operand. -/
  next : Nat
deriving DecidableEq, Repr

/-- Why there is no instruction at an offset. -/
inductive DecodeError where
  /-- The code ends before the operation byte. -/
  | missingOpcode
  /-- The byte names no operation. -/
  | unknownOpcode (byte : UInt8)
  /-- The code ends inside the operand. -/
  | missingOperand (op : Opcode)
deriving DecidableEq, Repr

/-- The instruction at an offset. -/
def decode (chunk : Chunk) (offset : Nat) : Except DecodeError Instruction :=
  match chunk.code[offset]? with
  | none => .error .missingOpcode
  | some byte =>
    match Opcode.ofByte? byte with
    | none => .error (.unknownOpcode byte)
    | some op =>
      match readWord chunk.code (offset + 1) op.operandWidth with
      | none => .error (.missingOperand op)
      | some operand => .ok ⟨op, operand, offset + 1 + op.operandWidth⟩

end Chunk
end StackScript
