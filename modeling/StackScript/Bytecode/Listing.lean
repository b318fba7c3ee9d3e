import StackScript.Bytecode.Chunk
import StackScript.Value.Display

/-!
# Listings of bytecode

A listing shows one instruction a line: its offset, its source line (or a bar
when that is the line of the byte before), the name of its operation, and its
operand.  Constants are shown with their text, jumps with their target.  Code
that breaks off inside an instruction is shown as far as it goes.
-/

namespace StackScript

/-- Text brought to a width by characters in front. -/
def padLeft (width : Nat) (fill : Char) (text : String) : String :=
  String.ofList (List.replicate (width - text.length) fill) ++ text

/-- Text brought to a width by blanks behind. -/
def padRight (width : Nat) (text : String) : String :=
  text ++ String.ofList (List.replicate (width - text.length) ' ')

namespace Chunk

/-- Offset and line columns of a listed instruction. -/
def listMargin (chunk : Chunk) (offset : Nat) : String :=
  let line := chunk.lineAt offset
  let lineColumn :=
    if 0 < offset && line == chunk.lineAt (offset - 1) then "   | "
    else padLeft 4 ' ' (toString line) ++ " "
  padLeft 4 '0' (toString offset) ++ ": " ++ lineColumn

/-- Name column of an operation that has an operand. -/
def listMnemonic (op : Opcode) : String := padRight 16 op.mnemonic ++ " "

/-- Text of the constant at an index of the pool. -/
def listConstant (chunk : Chunk) (index : Nat) : String :=
  match chunk.constants[index]? with
  | some value => value.display
  | none => "<invalid>"

/-- Text of an operation whose operand breaks off. -/
def listTruncated (op : Opcode) : String := listMnemonic op ++ "<truncated>"

/-- Text of an operation on the constant at an index of the pool. -/
def listIndexed (chunk : Chunk) (op : Opcode) (index : Option Nat) : String :=
  match index with
  | none => listTruncated op
  | some index =>
    listMnemonic op ++ padLeft 4 ' ' (toString index) ++ " '" ++ chunk.listConstant index ++ "'"

/-- Text of an operation that stands at `offset`, with its operand if it has one. -/
def listOperation (chunk : Chunk) (op : Opcode) (offset : Nat) : String :=
  match op with
  | .constant | .defineGlobal | .getGlobal | .setGlobal =>
    chunk.listIndexed op (chunk.code[offset + 1]?.map UInt8.toNat)
  | .constantLong | .defineGlobalLong | .getGlobalLong | .setGlobalLong =>
    chunk.listIndexed op (readWord chunk.code (offset + 1) 4)
  | .getLocal | .setLocal | .call =>
    match chunk.code[offset + 1]? with
    | none => listTruncated op
    | some slot => listMnemonic op ++ padLeft 4 ' ' (toString slot.toNat)
  | .jump | .jumpIfFalse | .loop =>
    match readWord chunk.code (offset + 1) 2 with
    | none => listTruncated op
    | some jump =>
      let after : Int := offset + 3
      let target := if op = .loop then after - jump else after + jump
      listMnemonic op ++ padLeft 4 ' ' (toString offset) ++ " -> " ++ toString target
  | _ => op.mnemonic

/-- The listed line for an offset, and the offset of the line to list next. -/
def listAt (chunk : Chunk) (offset : Nat) : String × Nat :=
  let margin := chunk.listMargin offset
  match chunk.code[offset]? with
  | none => (margin ++ "<truncated>", offset + 1)
  | some byte =>
    match Opcode.ofByte? byte with
    | none => (margin ++ "Unknown opcode: " ++ toString byte.toNat, offset + 1)
    | some op => (margin ++ chunk.listOperation op offset, offset + 1 + op.operandWidth)

theorem lt_listAt (chunk : Chunk) (offset : Nat) : offset < (chunk.listAt offset).2 := by
  unfold listAt
  dsimp only
  split
  · exact Nat.lt_succ_self offset
  split
  · exact Nat.lt_succ_self offset
  · dsimp only
    omega

/-- The lines from an offset on, after the text `done`. -/
def listFrom (chunk : Chunk) (offset : Nat) (done : String) : String :=
  if offset < chunk.size then
    let line := chunk.listAt offset
    listFrom chunk line.2 (done ++ line.1 ++ "\n")
  else done
termination_by chunk.size - offset
decreasing_by
  have := lt_listAt chunk offset
  omega

/-- Listing of a whole chunk under a heading. -/
def list (chunk : Chunk) (name : String) : String :=
  chunk.listFrom 0 ("=== " ++ name ++ " ===\n")

end Chunk

mutual

/-- Listing of a routine and, depth first, of every routine in its constant
pool. -/
def Routine.list : Routine → String
  | ⟨id, name, arity, ⟨code, ⟨constants⟩, lines⟩⟩ =>
    let chunk : Chunk := ⟨code, ⟨constants⟩, lines⟩
    chunk.list (Routine.displayName ⟨id, name, arity, chunk⟩) ++ Value.listRoutines constants

/-- Listings of the routines among some values, each after an empty line. -/
def Value.listRoutines : List Value → String
  | [] => ""
  | ⟨.routine r, _⟩ :: rest => "\n" ++ Routine.list r ++ Value.listRoutines rest
  | _ :: rest => Value.listRoutines rest

end
end StackScript
