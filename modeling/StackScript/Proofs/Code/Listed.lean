import StackScript.Bytecode.Listing

/-!
# Listings and decoded instructions

A listing reads operands by itself, by widths of its own.  What it reads is what decoding
reads, and so the listed line is that of the decoded instruction (`listAt_eq`).
-/

namespace StackScript
namespace Chunk

/-- Text of an instruction that begins at `offset`. -/
def listInstruction (chunk : Chunk) (offset : Nat) (instruction : Instruction) : String :=
  let op := instruction.opcode
  let operand := instruction.operand
  let column (n : Nat) := padLeft 4 ' ' (toString n)
  match op with
  | .constant | .defineGlobal | .getGlobal | .setGlobal
  | .constantLong | .defineGlobalLong | .getGlobalLong | .setGlobalLong =>
    listMnemonic op ++ column operand ++ " '" ++ chunk.listConstant operand ++ "'"
  | .getLocal | .setLocal | .call => listMnemonic op ++ column operand
  | .jump | .jumpIfFalse =>
    listMnemonic op ++ column offset ++ " -> " ++ toString (instruction.next + operand)
  | .loop =>
    listMnemonic op ++ column offset ++ " -> " ++
      toString ((instruction.next : Int) - (operand : Int))
  | _ => op.mnemonic

theorem readWord_one (code : Array UInt8) (offset : Nat) :
    readWord code offset 1 = code[offset]?.map UInt8.toNat := by
  simp only [readWord]
  cases code[offset]? <;> rfl

/-- A jump target is listed as the sum of its parts. -/
theorem toString_forward (offset jump : Nat) :
    toString ((offset : Int) + 3 + (jump : Int)) = toString (offset + 1 + 2 + jump) := by
  have sum : (offset : Int) + 3 + (jump : Int) = ((offset + 1 + 2 + jump : Nat) : Int) := by
    push_cast
    omega
  rw [sum]
  rfl

/-- The operand of a listed operation is the one that its width gives. -/
theorem listOperation_eq (chunk : Chunk) (op : Opcode) (offset : Nat) :
    chunk.listOperation op offset =
      match readWord chunk.code (offset + 1) op.operandWidth with
      | none => listTruncated op
      | some operand => chunk.listInstruction offset ⟨op, operand, offset + 1 + op.operandWidth⟩ := by
  cases op with
  | constant | defineGlobal | getGlobal | setGlobal | getLocal | setLocal | call =>
      simp only [listOperation, Opcode.operandWidth, readWord_one]
      cases chunk.code[offset + 1]? <;> rfl
  | constantLong | defineGlobalLong | getGlobalLong | setGlobalLong =>
      simp only [listOperation, Opcode.operandWidth]
      cases readWord chunk.code (offset + 1) 4 <;> rfl
  | jump | jumpIfFalse =>
      simp only [listOperation, Opcode.operandWidth]
      cases readWord chunk.code (offset + 1) 2 with
      | none => rfl
      | some jump =>
          simp only [listInstruction, reduceCtorEq, if_false, toString_forward]
  | loop =>
      simp only [listOperation, Opcode.operandWidth]
      cases readWord chunk.code (offset + 1) 2 <;> rfl
  | _ => rfl

/-- The listed line for an offset, by the instruction that is decoded there. -/
theorem listAt_eq (chunk : Chunk) (offset : Nat) :
    chunk.listAt offset =
      match chunk.decode offset with
      | .ok i => (chunk.listMargin offset ++ chunk.listInstruction offset i, i.next)
      | .error .missingOpcode => (chunk.listMargin offset ++ "<truncated>", offset + 1)
      | .error (.unknownOpcode byte) =>
        (chunk.listMargin offset ++ "Unknown opcode: " ++ toString byte.toNat, offset + 1)
      | .error (.missingOperand op) =>
        (chunk.listMargin offset ++ listMnemonic op ++ "<truncated>",
          offset + 1 + op.operandWidth) := by
  unfold listAt decode
  cases chunk.code[offset]? with
  | none => rfl
  | some byte =>
      dsimp only
      cases Opcode.ofByte? byte with
      | none => rfl
      | some op =>
          dsimp only
          rw [listOperation_eq]
          cases readWord chunk.code (offset + 1) op.operandWidth with
          | none => simp only [listTruncated, String.append_assoc]
          | some operand => rfl

/-- A loop that would go on before the code. -/
example : (⟨#[Opcode.loop.toByte, 4, 0], #[], #[]⟩ : Chunk).listAt 0 =
    ("0000:    0 OP_LOOP             0 -> -1", 3) := by
  decide +kernel

end Chunk
end StackScript
