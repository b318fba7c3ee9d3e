import Mathlib
import StackScript.Bytecode.Chunk
import StackScript.Proofs.Boundary

/-!
# Line tables of chunks

A line table that is written together with the code begins where the code begins, so a
look-up finds an entry for every byte, and what it finds is one of the lines with which bytes
were written.
-/

namespace StackScript

namespace Chunk

/-- The line table begins with the code, and all its lines are of some kind. -/
structure Lined (known : Nat → Prop) (chunk : Chunk) : Prop where
  covers : chunk.lines = #[] → chunk.code = #[]
  begins : ∀ entry, chunk.lines[0]? = some entry → entry.1 = 0
  known : ∀ entry ∈ chunk.lines, known entry.2

section Lined

variable {known : Nat → Prop} {chunk : Chunk} {line : Nat}

theorem lined_empty : Lined known .empty where
  covers _ := rfl
  begins entry there := by cases there
  known entry mem := absurd mem (Array.not_mem_empty entry)

/-- Only the size of the code and the line table matter. -/
theorem Lined.of_eq {other : Chunk} (h : chunk.Lined known)
    (code : other.code.size = chunk.code.size) (lines : other.lines = chunk.lines) :
    other.Lined known where
  covers none := by
    rw [lines] at none
    rw [← Array.size_eq_zero_iff, code, h.covers none]
    rfl
  begins := by rw [lines]; exact h.begins
  known := by rw [lines]; exact h.known

theorem Lined.write (h : chunk.Lined known) (byte : UInt8) (new : known line) :
    (chunk.write byte line).Lined known := by
  obtain ⟨code, constants, lines⟩ := chunk
  obtain ⟨covers, begins, all⟩ := h
  simp only at covers begins all
  -- The table stays as it is, or gets one more entry.
  have recorded : recordLine lines code.size line = lines ∧ lines ≠ #[] ∨
      recordLine lines code.size line = lines.push (code.size, line) := by
    unfold recordLine
    split
    · exact .inr rfl
    · rename_i last
      split
      · refine .inl ⟨rfl, fun none => ?_⟩
        rw [none] at last
        cases last
      · exact .inr rfl
  rcases recorded with ⟨same, some⟩ | more
  · refine ⟨fun none => absurd (same ▸ none) some, ?_, ?_⟩
    · show ∀ entry, (recordLine lines code.size line)[0]? = _ → _
      rw [same]
      exact begins
    · show ∀ entry ∈ recordLine lines code.size line, _
      rw [same]
      exact all
  · refine ⟨fun none => ?_, ?_, ?_⟩
    · exact absurd (more.symm.trans none) Array.push_ne_empty
    · show ∀ entry, (recordLine lines code.size line)[0]? = _ → _
      rw [more]
      intro entry there
      rw [Array.getElem?_push] at there
      split at there
      · rename_i first
        cases there
        rw [covers (Array.size_eq_zero_iff.mp first.symm)]
        rfl
      · exact begins entry there
    · show ∀ entry ∈ recordLine lines code.size line, _
      rw [more]
      intro entry mem
      rcases Array.mem_push.mp mem with old | rfl
      · exact all entry old
      · exact new

theorem Lined.writeOpcode (h : chunk.Lined known) (op : Opcode) (new : known line) :
    (chunk.writeOpcode op line).Lined known := h.write op.toByte new

theorem Lined.writeWord (h : chunk.Lined known) (width word : Nat) (new : known line) :
    (chunk.writeWord width word line).Lined known := by
  induction width generalizing chunk word with
  | zero => exact h
  | succ width ih => exact ih (h.write _ new) _

theorem Lined.patchWord (h : chunk.Lined known) (offset word : Nat) :
    (chunk.patchWord offset word).Lined known := by
  obtain ⟨code, constants, lines⟩ := chunk
  exact h.of_eq (by simp [Chunk.patchWord]) rfl

theorem Lined.addConstant (h : chunk.Lined known) (value : Value) :
    (chunk.addConstant value).2.Lined known := by
  unfold Chunk.addConstant
  split
  · exact h
  · exact h.of_eq rfl rfl

/-- In code that is not empty every look-up finds a line. -/
theorem Lined.lineAt (h : chunk.Lined known) (some : chunk.code ≠ #[]) (offset : Nat) :
    known (chunk.lineAt offset) := by
  have entries : 0 < chunk.lines.size := by
    rw [Nat.pos_iff_ne_zero, ne_eq, Array.size_eq_zero_iff]
    exact fun none => some (h.covers none)
  have there : chunk.lines[0]? = _ := Array.getElem?_eq_getElem entries
  have first := h.begins _ there
  unfold Chunk.lineAt
  dsimp only
  generalize same : boundary _ 0 chunk.lines.size = count
  have lower : 0 < count := same ▸ lt_boundary entries (by simp only [there, first]; rfl)
  have upper : count ≤ chunk.lines.size := same ▸ boundary_le _ _ _ (Nat.zero_le _)
  cases count with
  | zero => exact absurd lower (Nat.lt_irrefl 0)
  | succ index =>
      simp only [Array.getElem?_eq_getElem upper, Option.map_some, Option.getD_some]
      exact h.known _ (Array.getElem_mem upper)

end Lined

end Chunk
end StackScript
