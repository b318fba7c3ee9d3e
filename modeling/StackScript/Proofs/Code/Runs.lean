import StackScript.Proofs.Code.Lines

/-!
# Line tables tell the line of every byte

A line table has an entry for every run of bytes of one line.  `Runs` describes it by the
lines of all bytes, in the order in which they were written: the entries stand in order,
neighbours differ, and the last entry up to an offset has the line of the byte there.  Each
byte that is written keeps this (`Records.write`), and words and patches are no more than
bytes, so a look-up finds for every byte the line with which it was written.
-/

namespace StackScript
namespace Chunk

/-- The line of the last entry that begins at or before an offset. -/
def lineUpTo (table : List (Nat × Nat)) (offset : Nat) : Option Nat :=
  (table.filter fun entry => entry.1 ≤ offset).getLast?.map Prod.snd

/-- A table has an entry for every run among the lines of some bytes. -/
structure Runs (written : List Nat) (table : List (Nat × Nat)) : Prop where
  sorted : table.Pairwise (·.1 < ·.1)
  changes : table.IsChain (·.2 ≠ ·.2)
  inside : ∀ entry ∈ table, entry.1 < written.length
  last : table.getLast?.map Prod.snd = written.getLast?
  found : ∀ i < written.length, lineUpTo table i = written[i]?

section

variable {written : List Nat} {table : List (Nat × Nat)} {line : Nat}

theorem runs_nil : Runs [] [] where
  sorted := .nil
  changes := .nil
  inside := by simp
  last := rfl
  found := by simp

/-- Behind the last run begins, all entries count. -/
theorem Runs.lineUpTo_of_le (h : Runs written table) {offset : Nat} (le : written.length ≤ offset) :
    lineUpTo table offset = written.getLast? := by
  have all : table.filter (fun entry => entry.1 ≤ offset) = table := by
    apply List.filter_eq_self.mpr
    intro entry mem
    have := h.inside entry mem
    simp only [decide_eq_true_eq]
    omega
  rw [lineUpTo, all, h.last]

/-- One more byte of the last line makes that run longer. -/
theorem Runs.same (h : Runs written table) (same : written.getLast? = some line) :
    Runs (written ++ [line]) table where
  sorted := h.sorted
  changes := h.changes
  inside entry mem := by
    have := h.inside entry mem
    simp only [List.length_append, List.length_singleton]
    omega
  last := by rw [h.last, same, List.getLast?_concat]
  found i lt := by
    rw [List.length_append, List.length_singleton] at lt
    by_cases old : i < written.length
    · rw [h.found i old, List.getElem?_append_left old]
    · obtain rfl : i = written.length := by omega
      rw [h.lineUpTo_of_le (Nat.le_refl _), same, List.getElem?_concat_length]

/-- A byte of another line begins a run. -/
theorem Runs.next (h : Runs written table) (other : written.getLast? ≠ some line) :
    Runs (written ++ [line]) (table ++ [(written.length, line)]) where
  sorted := by
    apply List.pairwise_append.mpr
    refine ⟨h.sorted, List.pairwise_singleton .., fun entry mem new one => ?_⟩
    rw [List.mem_singleton.mp one]
    exact h.inside entry mem
  changes := by
    apply h.changes.append (List.isChain_singleton _)
    intro entry mem new one
    cases one
    intro same
    apply other
    rw [← h.last, Option.mem_def.mp mem, Option.map_some, same]
  inside entry mem := by
    rw [List.length_append, List.length_singleton]
    rcases List.mem_append.mp mem with old | new
    · have := h.inside entry old
      omega
    · rw [List.mem_singleton.mp new]
      exact Nat.lt_succ_self _
  last := by simp
  found i lt := by
    rw [List.length_append, List.length_singleton] at lt
    by_cases old : i < written.length
    · -- the new run begins behind the byte
      rw [List.getElem?_append_left old, ← h.found i old, lineUpTo, lineUpTo, List.filter_append]
      simp [old]
    · obtain rfl : i = written.length := by omega
      rw [lineUpTo, List.filter_append]
      simp

end

section

variable {written : List Nat} {chunk : Chunk} {line : Nat}

/-- A chunk records the lines with which its bytes were written. -/
structure Records (written : List Nat) (chunk : Chunk) : Prop where
  size : chunk.size = written.length
  runs : Runs written chunk.lines.toList

theorem records_empty : Records [] empty := ⟨rfl, runs_nil⟩

theorem toList_recordLine (lines : Array (Nat × Nat)) (offset line : Nat) :
    (recordLine lines offset line).toList =
      if lines.toList.getLast?.map Prod.snd = some line then lines.toList
      else lines.toList ++ [(offset, line)] := by
  rw [recordLine, Array.getLast?_toList]
  cases lines.back? with
  | none => simp
  | some entry =>
      obtain ⟨start, last⟩ := entry
      by_cases same : last = line
      · simp [same]
      · simp [same]

theorem Records.write (h : Records written chunk) (byte : UInt8) (line : Nat) :
    Records (written ++ [line]) (chunk.write byte line) := by
  obtain ⟨code, constants, lines⟩ := chunk
  obtain ⟨size, runs⟩ := h
  change code.size = written.length at size
  constructor
  · change (code.push byte).size = _
    rw [Array.size_push, size, List.length_append, List.length_singleton]
  · change Runs _ (recordLine lines code.size line).toList
    rw [toList_recordLine, runs.last, size]
    by_cases same : written.getLast? = some line
    · rw [if_pos same]
      exact runs.same same
    · rw [if_neg same]
      exact runs.next same

theorem Records.writeWord (h : Records written chunk) (width word line : Nat) :
    Records (written ++ List.replicate width line) (chunk.writeWord width word line) := by
  induction width generalizing written chunk word with
  | zero => simpa [Chunk.writeWord] using h
  | succ width ih =>
      have rest := ih (h.write word.toUInt8 line) (word / 256)
      rwa [List.append_assoc, List.singleton_append, ← List.replicate_succ] at rest

theorem Records.patchWord (h : Records written chunk) (offset word : Nat) :
    Records written (chunk.patchWord offset word) := by
  obtain ⟨code, constants, lines⟩ := chunk
  refine ⟨?_, h.runs⟩
  rw [← h.size]
  simp [Chunk.patchWord, Chunk.size]

/-- A look-up in a sorted table finds the last entry that begins at or before the offset. -/
theorem lineAt_eq (sorted : chunk.lines.toList.Pairwise (·.1 < ·.1)) (offset : Nat) :
    chunk.lineAt offset = (lineUpTo chunk.lines.toList offset).getD 0 := by
  have leading : Leading (fun entry : Nat × Nat => entry.1 ≤ offset) chunk.lines.toList := by
    apply sorted.imp
    intro a b less
    simp only [decide_eq_true_eq]
    omega
  rw [lineUpTo, leading.filter_eq_take, lineAt, ← Array.length_toList,
    boundary_eq_countP leading]
  · have le := List.countP_le_length (p := fun entry : Nat × Nat => entry.1 ≤ offset)
      (l := chunk.lines.toList)
    cases count : chunk.lines.toList.countP (fun entry => entry.1 ≤ offset) with
    | zero => simp
    | succ index =>
        rw [count] at le
        simp [List.getLast?_take, Array.getElem?_eq_getElem le]
  · intro i lt
    rw [← Array.getElem?_toList, List.getElem?_eq_getElem lt]

theorem Records.lineAt (h : Records written chunk) {i : Nat} (lt : i < written.length) :
    chunk.lineAt i = written[i] := by
  rw [lineAt_eq h.runs.sorted, h.runs.found i lt, List.getElem?_eq_getElem lt, Option.getD_some]

theorem Records.lineAt_of_le (h : Records written chunk) {i : Nat} (le : written.length ≤ i) :
    chunk.lineAt i = written.getLast?.getD 0 := by
  rw [lineAt_eq h.runs.sorted, h.runs.lineUpTo_of_le le]

end

/-! ## Sequences of edits -/

/-- What is done to the code of a chunk while it is written. -/
inductive Edit where
  | byte (value : UInt8) (line : Nat)
  | opcode (op : Opcode) (line : Nat)
  | word16 (word : UInt16) (line : Nat)
  | word32 (word : UInt32) (line : Nat)
  /-- Overwrites two bytes. -/
  | patch (offset : Nat) (word : UInt16)
deriving DecidableEq, Repr

/-- The chunk after an edit. -/
def Edit.apply (chunk : Chunk) : Edit → Chunk
  | .byte value line => chunk.write value line
  | .opcode op line => chunk.writeOpcode op line
  | .word16 word line => chunk.writeWord 2 word.toNat line
  | .word32 word line => chunk.writeWord 4 word.toNat line
  | .patch offset word => chunk.patchWord offset word.toNat

/-- The lines of the bytes that an edit appends. -/
def Edit.lines : Edit → List Nat
  | .byte _ line => [line]
  | .opcode _ line => [line]
  | .word16 _ line => List.replicate 2 line
  | .word32 _ line => List.replicate 4 line
  | .patch _ _ => []

theorem Records.apply {written : List Nat} {chunk : Chunk} (h : Records written chunk) (edit : Edit) :
    Records (written ++ edit.lines) (edit.apply chunk) := by
  cases edit with
  | byte value line => exact h.write value line
  | opcode op line => exact h.write op.toByte line
  | word16 word line => exact h.writeWord 2 word.toNat line
  | word32 word line => exact h.writeWord 4 word.toNat line
  | patch offset word => simpa [Edit.lines, Edit.apply] using h.patchWord offset word.toNat

theorem Records.edits {written : List Nat} {chunk : Chunk} (h : Records written chunk)
    (edits : List Edit) :
    Records (written ++ edits.flatMap Edit.lines) (edits.foldl Edit.apply chunk) := by
  induction edits generalizing written chunk with
  | nil => simpa using h
  | cons edit edits ih =>
      have rest := ih (h.apply edit)
      rwa [List.append_assoc, ← List.flatMap_cons] at rest

/-- The chunk that is written by some edits. -/
def ofEdits (edits : List Edit) : Chunk := edits.foldl Edit.apply empty

/-- The lines of the bytes that some edits write, one for each byte. -/
def linesWritten (edits : List Edit) : List Nat := edits.flatMap Edit.lines

/-- However a chunk is written, with whatever lines, its line table tells for every byte the
line with which the byte was written, and behind the end that of the last byte.  The table is
sorted, and it has no two neighbours of one line. -/
theorem lineAt_ofEdits (edits : List Edit) :
    (ofEdits edits).size = (linesWritten edits).length ∧
      (∀ i, (lt : i < (linesWritten edits).length) →
        (ofEdits edits).lineAt i = (linesWritten edits)[i]) ∧
      (∀ i, (linesWritten edits).length ≤ i →
        (ofEdits edits).lineAt i = (linesWritten edits).getLast?.getD 0) ∧
      (ofEdits edits).lines.toList.Pairwise (·.1 < ·.1) ∧
      (ofEdits edits).lines.toList.IsChain (·.2 ≠ ·.2) := by
  have records : Records (linesWritten edits) (ofEdits edits) := records_empty.edits edits
  refine ⟨records.size, ?_, ?_, records.runs.sorted, records.runs.changes⟩
  · intro i lt
    exact records.lineAt lt
  · intro i le
    exact records.lineAt_of_le le

/-- A line that comes back, and a word that is patched. -/
theorem lineAt_ofEdits_sample : ∃ edits : List Edit,
    edits = [.opcode .jump 3, .word16 0 3, .opcode .null 1, .patch 1 7, .byte 5 3] ∧
      (3 < (linesWritten edits).length ∧ (ofEdits edits).lineAt 3 = 1) ∧
      ((linesWritten edits).length ≤ 9 ∧ (ofEdits edits).lineAt 9 = 3) := by
  refine ⟨_, rfl, ?_⟩
  obtain ⟨-, inside, behind, -⟩ := lineAt_ofEdits
    [.opcode .jump 3, .word16 0 3, .opcode .null 1, .patch 1 7, .byte 5 3]
  exact ⟨⟨by decide, inside 3 (by decide)⟩, by decide, behind 9 (by decide)⟩

end Chunk
end StackScript
