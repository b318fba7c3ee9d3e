import Mathlib
import StackScript.Bytecode.Chunk

/-!
# Instructions without a place

An `Asm` is an operation with its operand.  `assemble` gives the bytes of a list
of them, and `Holds chunk pc code` says that the machine, reading on from offset
`pc`, decodes exactly the list `code`.  The main fact is `holds_of_carries`: bytes
that were assembled from operands of the right size are decoded back.
-/

namespace StackScript

/-- An operation and its operand, zero for operations that have none. -/
structure Asm where
  opcode : Opcode
  operand : Nat
deriving DecidableEq, Repr

/-- The low `width` bytes of a word, least significant first. -/
def wordBytes : (width word : Nat) → List UInt8
  | 0, _ => []
  | width + 1, word => word.toUInt8 :: wordBytes width (word / 256)

@[simp] theorem wordBytes_length (width word : Nat) :
    (wordBytes width word).length = width := by
  induction width generalizing word with
  | zero => rfl
  | succ width ih => simp [wordBytes, ih]

namespace Asm

/-- An instruction without operand. -/
def plain (opcode : Opcode) : Asm := ⟨opcode, 0⟩

/-- Number of bytes of an instruction. -/
def size (a : Asm) : Nat := 1 + a.opcode.operandWidth

/-- The bytes of an instruction. -/
def bytes (a : Asm) : List UInt8 :=
  a.opcode.toByte :: wordBytes a.opcode.operandWidth a.operand

/-- The operand has room in the bytes meant for it. -/
def Fits (a : Asm) : Prop := a.operand < 256 ^ a.opcode.operandWidth

/-- An operation on the constant pool, in its wide form if the index needs it. -/
def indexed (opcode : Opcode) (index : Nat) : Asm :=
  if index < 2 ^ 8 then ⟨opcode, index⟩ else ⟨opcode.longForm, index⟩

@[simp] theorem bytes_length (a : Asm) : a.bytes.length = a.size := by
  simp [bytes, size, Nat.add_comm]

@[simp] theorem indexed_operand (opcode : Opcode) (index : Nat) :
    (indexed opcode index).operand = index := by
  unfold indexed
  split <;> rfl

/-- The wide form has room for every index that the narrow one has no room for. -/
theorem fits_indexed {opcode : Opcode} {index : Nat} (short : opcode.operandWidth = 1)
    (long : opcode.longForm.operandWidth = 4) (small : index < 2 ^ 32) :
    (indexed opcode index).Fits := by
  unfold indexed
  by_cases narrow : index < 2 ^ 8
  · rw [if_pos narrow]
    simpa [Fits, short] using narrow
  · rw [if_neg narrow]
    simpa [Fits, long] using small

theorem size_pos (a : Asm) : 0 < a.size := by unfold size; omega

end Asm

/-- The bytes of a list of instructions. -/
def assemble (code : List Asm) : List UInt8 := code.flatMap Asm.bytes

/-- Number of bytes of a list of instructions. -/
def codeSize (code : List Asm) : Nat := (assemble code).length

@[simp] theorem assemble_nil : assemble [] = [] := rfl

@[simp] theorem assemble_cons (a : Asm) (code : List Asm) :
    assemble (a :: code) = a.bytes ++ assemble code := rfl

@[simp] theorem assemble_append (code more : List Asm) :
    assemble (code ++ more) = assemble code ++ assemble more := by
  simp [assemble]

@[simp] theorem codeSize_nil : codeSize [] = 0 := rfl

@[simp] theorem codeSize_cons (a : Asm) (code : List Asm) :
    codeSize (a :: code) = a.size + codeSize code := by
  simp [codeSize]

theorem codeSize_singleton (a : Asm) : codeSize [a] = a.size := by simp

@[simp] theorem codeSize_append (code more : List Asm) :
    codeSize (code ++ more) = codeSize code + codeSize more := by
  simp [codeSize]

namespace Chunk

/-! ## Writing -/

section Writing

variable (chunk : Chunk) (line : Nat)

@[simp] theorem write_code (byte : UInt8) :
    (chunk.write byte line).code.toList = chunk.code.toList ++ [byte] := by
  cases chunk
  simp [write]

@[simp] theorem write_constants (byte : UInt8) :
    (chunk.write byte line).constants = chunk.constants := by
  cases chunk
  rfl

@[simp] theorem writeOpcode_code (op : Opcode) :
    (chunk.writeOpcode op line).code.toList = chunk.code.toList ++ [op.toByte] :=
  write_code _ _ _

@[simp] theorem writeOpcode_constants (op : Opcode) :
    (chunk.writeOpcode op line).constants = chunk.constants :=
  write_constants _ _ _

@[simp] theorem writeWord_code (width word : Nat) :
    (chunk.writeWord width word line).code.toList =
      chunk.code.toList ++ wordBytes width word := by
  induction width generalizing chunk word with
  | zero => simp [writeWord, wordBytes]
  | succ width ih => simp [writeWord, wordBytes, ih]

@[simp] theorem writeWord_constants (width word : Nat) :
    (chunk.writeWord width word line).constants = chunk.constants := by
  induction width generalizing chunk word with
  | zero => rfl
  | succ width ih => simp [writeWord, ih]

end Writing

@[simp] theorem patchWord_constants (chunk : Chunk) (offset word : Nat) :
    (chunk.patchWord offset word).constants = chunk.constants := by
  cases chunk
  rfl

@[simp] theorem patchWord_size (chunk : Chunk) (offset word : Nat) :
    (chunk.patchWord offset word).code.size = chunk.code.size := by
  cases chunk
  simp [patchWord]

theorem size_writeOpcode (chunk : Chunk) (op : Opcode) (line : Nat) :
    chunk.size ≤ (chunk.writeOpcode op line).size := by
  have length := congrArg List.length (chunk.writeOpcode_code line op)
  simp only [List.length_append, Array.length_toList] at length
  unfold size
  omega

theorem size_writeWord (chunk : Chunk) (width word line : Nat) :
    chunk.size ≤ (chunk.writeWord width word line).size := by
  have length := congrArg List.length (chunk.writeWord_code line width word)
  simp only [List.length_append, Array.length_toList] at length
  unfold size
  omega

theorem size_patchWord (chunk : Chunk) (offset word : Nat) :
    (chunk.patchWord offset word).size = chunk.size := chunk.patchWord_size offset word

/-- A patch replaces the two bytes of an operand and no other. -/
theorem patchWord_code {chunk : Chunk} {front rest : List UInt8} {x y : UInt8}
    (h : chunk.code.toList = front ++ x :: y :: rest) (word : Nat) :
    (chunk.patchWord front.length word).code.toList = front ++ wordBytes 2 word ++ rest := by
  have second : (front ++ word.toUInt8 :: y :: rest) =
      (front ++ [word.toUInt8]) ++ y :: rest := by simp
  obtain ⟨code, constants, lines⟩ := chunk
  replace h : code.toList = front ++ x :: y :: rest := h
  simp only [patchWord, Array.toList_setIfInBounds, h, wordBytes]
  rw [List.set_append_right _ _ (Nat.le_refl _), Nat.sub_self, List.set_cons_zero, second,
    List.set_append_right _ _ (by simp)]
  simp

theorem getElem?_patchWord {chunk : Chunk} {offset i : Nat} (low : i ≠ offset)
    (high : i ≠ offset + 1) (word : Nat) :
    (chunk.patchWord offset word).code[i]? = chunk.code[i]? := by
  obtain ⟨code, constants, lines⟩ := chunk
  simp only [patchWord]
  rw [Array.getElem?_setIfInBounds_ne (Ne.symm high),
    Array.getElem?_setIfInBounds_ne (Ne.symm low)]

/-! ## Reading -/

/-- The code of the chunk has the given bytes from offset `pc` on. -/
def Carries (chunk : Chunk) (pc : Nat) (bytes : List UInt8) : Prop :=
  ∀ i < bytes.length, chunk.code[pc + i]? = bytes[i]?

/-- The instructions read from offset `pc` on are the given ones. -/
def Holds (chunk : Chunk) : (pc : Nat) → List Asm → Prop
  | _, [] => True
  | pc, a :: code =>
      chunk.decode pc = .ok ⟨a.opcode, a.operand, pc + a.size⟩ ∧
        chunk.Holds (pc + a.size) code

theorem carries_append {chunk : Chunk} {pc : Nat} {bytes more : List UInt8} :
    chunk.Carries pc (bytes ++ more) ↔
      chunk.Carries pc bytes ∧ chunk.Carries (pc + bytes.length) more := by
  constructor
  · intro h
    refine ⟨fun i hi => ?_, fun i hi => ?_⟩
    · rw [h i (by rw [List.length_append]; omega), List.getElem?_append_left hi]
    · rw [Nat.add_assoc, h (bytes.length + i) (by rw [List.length_append]; omega),
        List.getElem?_append_right (by omega), Nat.add_sub_cancel_left]
  · rintro ⟨front, back⟩ i hi
    rw [List.length_append] at hi
    by_cases inFront : i < bytes.length
    · rw [front i inFront, List.getElem?_append_left inFront]
    · have shifted := back (i - bytes.length) (by omega)
      rw [show pc + bytes.length + (i - bytes.length) = pc + i by omega] at shifted
      rw [shifted, List.getElem?_append_right (by omega)]

theorem holds_append {chunk : Chunk} {pc : Nat} {code more : List Asm} :
    chunk.Holds pc (code ++ more) ↔
      chunk.Holds pc code ∧ chunk.Holds (pc + codeSize code) more := by
  induction code generalizing pc with
  | nil => simp [Holds]
  | cons a code ih =>
      simp only [List.cons_append, Holds, ih, codeSize_cons, and_assoc, Nat.add_assoc]

/-- Code carries its bytes behind those before them. -/
theorem carries_of_toList {chunk : Chunk} {front bytes : List UInt8}
    (code : chunk.code.toList = front ++ bytes) : chunk.Carries front.length bytes := by
  intro i lt
  rw [← Array.getElem?_toList, code, List.getElem?_append_right (by omega),
    Nat.add_sub_cancel_left]

/-- The word that a patch has written stands there. -/
theorem carries_patchWord {chunk : Chunk} {offset : Nat} (inside : offset + 2 ≤ chunk.size)
    (word : Nat) : (chunk.patchWord offset word).Carries offset (wordBytes 2 word) := by
  obtain ⟨code, constants, lines⟩ := chunk
  change offset + 2 ≤ code.size at inside
  intro i lt
  rw [wordBytes_length] at lt
  have first : offset < code.size := by omega
  have second : offset + 1 < code.size := by omega
  obtain rfl | rfl : i = 0 ∨ i = 1 := by omega
  · simp [patchWord, wordBytes, first]
  · simp [patchWord, wordBytes, second]

/-- A word is read from its own bytes alone. -/
theorem readWord_congr {code code' : Array UInt8} {offset width : Nat}
    (same : ∀ i, offset ≤ i → i < offset + width → code[i]? = code'[i]?) :
    readWord code offset width = readWord code' offset width := by
  induction width generalizing offset with
  | zero => rfl
  | succ width ih =>
      rw [readWord, readWord, same offset (Nat.le_refl _) (by omega),
        ih fun i first last => same i (by omega) (by omega)]

/-- The bytes of a word are read back as the word. -/
theorem readWord_of_carries {chunk : Chunk} {offset width word : Nat}
    (small : word < 256 ^ width) (h : chunk.Carries offset (wordBytes width word)) :
    readWord chunk.code offset width = some word := by
  induction width generalizing offset word with
  | zero =>
      have : word = 0 := by simpa using small
      simp [readWord, this]
  | succ width ih =>
      have first := h 0 (by simp)
      have others : chunk.Carries (offset + 1) (wordBytes width (word / 256)) := by
        intro i hi
        have next := h (i + 1) (by simpa [wordBytes] using hi)
        rw [show offset + (i + 1) = offset + 1 + i by omega] at next
        rw [next]
        rfl
      have high := ih (by rw [Nat.pow_succ] at small; omega) others
      simp only [Nat.add_zero, wordBytes, List.getElem?_cons_zero] at first
      simp only [readWord, first, high, Nat.toUInt8, UInt8.toNat_ofNat']
      congr 1
      omega

/-- Assembled instructions are decoded back. -/
theorem holds_of_carries {chunk : Chunk} {pc : Nat} {code : List Asm}
    (fits : ∀ a ∈ code, a.Fits) (h : chunk.Carries pc (assemble code)) :
    chunk.Holds pc code := by
  induction code generalizing pc with
  | nil => trivial
  | cons a code ih =>
      rw [assemble_cons, carries_append, Asm.bytes_length] at h
      obtain ⟨here, there⟩ := h
      have opcode := here 0 (by simp [Asm.size_pos])
      have operand : chunk.Carries (pc + 1) (wordBytes a.opcode.operandWidth a.operand) := by
        intro i hi
        have next := here (i + 1) (by
          rw [wordBytes_length] at hi
          rw [Asm.bytes_length, Asm.size]
          omega)
        rw [show pc + 1 + i = pc + (i + 1) by omega, next]
        rfl
      refine ⟨?_, ih (fun b hb => fits b (List.mem_cons_of_mem a hb)) there⟩
      simp only [Nat.add_zero, Asm.bytes, List.getElem?_cons_zero] at opcode
      simp only [decode, opcode, Opcode.ofByte?_toByte,
        readWord_of_carries (fits a (List.mem_cons_self ..)) operand, Asm.size, Nat.add_assoc]

end Chunk
end StackScript
