import StackScript.Proofs.Code.Statement
import StackScript.Proofs.Code.Writing

/-!
# Where open jumps lead

Cells lie in a chunk if their instructions are read there and their open jumps have
been resolved, so that `break` leads to one offset and `continue` to another.  Two
facts show that they do: closing a loop resolves the cells of its body, and the cells
of a statement that is part of a larger loop lie in the completed routine.
-/

namespace StackScript

/-- A cell lies at an offset, with open jumps that lead where they should. -/
def Cell.At (chunk : Chunk) (leave again pc : Nat) : Cell → Prop
  | .op a => chunk.decode pc = .ok ⟨a.opcode, a.operand, pc + a.size⟩
  | .leave => ∃ distance, chunk.decode pc = .ok ⟨.jump, distance, pc + 3⟩ ∧
      pc + 3 + distance = leave
  | .again => ∃ distance, chunk.decode pc = .ok ⟨.loop, distance, pc + 3⟩ ∧
      pc + 3 = again + distance

/-- Cells lie one after the other from an offset on. -/
def Chunk.Lies (chunk : Chunk) (leave again : Nat) : (pc : Nat) → List Cell → Prop
  | _, [] => True
  | pc, cell :: cells =>
      cell.At chunk leave again pc ∧ chunk.Lies leave again (pc + cell.size) cells

namespace Chunk

variable {chunk : Chunk} {leave again pc : Nat}

theorem lies_append {cells more : List Cell} :
    chunk.Lies leave again pc (cells ++ more) ↔
      chunk.Lies leave again pc cells ∧ chunk.Lies leave again (pc + cellsSize cells) more := by
  induction cells generalizing pc with
  | nil => simp [Lies]
  | cons cell cells ih =>
      simp only [List.cons_append, Lies, ih, cellsSize_cons, and_assoc, Nat.add_assoc]

/-- Instructions lie where they are read. -/
theorem lies_ops {code : List Asm} :
    chunk.Lies leave again pc (ops code) ↔ chunk.Holds pc code := by
  induction code generalizing pc with
  | nil => exact Iff.rfl
  | cons a code ih =>
      show _ ∧ chunk.Lies leave again (pc + a.size) (ops code) ↔ _
      rw [ih]
      exact Iff.rfl

/-! ## Loops -/

/-- The body of a loop lies where its resolved form does. -/
theorem lies_of_resolveJumps {base target start offset : Nat} {cells : List Cell}
    (front : offset + cellsSize cells ≤ target) (behind : start ≤ offset)
    (h : chunk.Lies leave again (base + offset) (resolveJumps target start offset cells)) :
    chunk.Lies (base + target) (base + start) (base + offset) cells := by
  induction cells generalizing offset with
  | nil => trivial
  | cons cell cells ih =>
      rw [cellsSize_cons] at front
      rw [resolveJumps_cons, lies_append, cellsSize_resolveJumps, cellsSize_cons, cellsSize_nil,
        Nat.add_zero, Nat.add_assoc] at h
      refine ⟨?_, ?_⟩
      · cases cell with
        | op a => exact h.1.1
        | leave =>
            have size : Cell.size .leave = 3 := rfl
            rw [resolveJumps_leave, lies_ops] at h
            exact ⟨_, h.1.1, by rw [size] at front; simp only [jumpTo]; omega⟩
        | again =>
            rw [resolveJumps_again, lies_ops] at h
            exact ⟨_, h.1.1, by simp only [loopTo]; omega⟩
      · rw [Nat.add_assoc]
        exact ih (by omega) (by omega) h.2

/-! ## Completed routines -/

theorem lt_of_mem_sites {isOpen : Cell → Bool} {offset site : Nat} {cells : List Cell}
    (h : site ∈ sites isOpen offset cells) : offset < site := by
  induction cells generalizing offset with
  | nil => cases h
  | cons cell cells ih =>
      simp only [sites] at h
      split at h
      · rcases List.mem_cons.mp h with rfl | h
        · exact Nat.lt_succ_self _
        · exact Nat.lt_of_le_of_lt (Nat.le_add_right _ _) (ih h)
      · exact Nat.lt_of_le_of_lt (Nat.le_add_right _ _) (ih h)

/-- An instruction with an operand of two bytes, read from its bytes. -/
theorem decode_jump {op : Opcode} {distance : Nat} (jump : op.operandWidth = 2)
    (opcode : chunk.code[pc]? = some op.toByte)
    (operand : readWord chunk.code (pc + 1) 2 = some distance) :
    chunk.decode pc = .ok ⟨op, distance, pc + 3⟩ := by
  simp only [decode, opcode, Opcode.ofByte?_toByte, jump, operand, Nat.add_assoc]

/-- A patched jump is decoded with its new distance. -/
theorem decode_patchWord {op : Opcode} {distance : Nat} (jump : op.operandWidth = 2)
    (there : chunk.code[pc]? = some op.toByte) (inside : pc + 3 ≤ chunk.size)
    (near : distance ≤ Compiler.maxJump) :
    (chunk.patchWord (pc + 1) distance).decode pc = .ok ⟨op, distance, pc + 3⟩ := by
  have opcode : (chunk.patchWord (pc + 1) distance).code[pc]? = some op.toByte := by
    rw [getElem?_patchWord (by omega) (by omega), there]
  have small : distance < 256 ^ 2 := Nat.lt_succ_of_le near
  exact decode_jump jump opcode (readWord_of_carries small (carries_patchWord inside distance))

/-- The bytes from an offset on are those of the cells as they were written, apart from
the operands of open jumps, and those lead where they should. -/
structure Resolves (chunk : Chunk) (leave again pc : Nat) (cells : List Cell) : Prop where
  bytes : ∀ i < cellsSize cells,
    (∀ site ∈ sites Cell.isLeave pc cells ++ sites Cell.isAgain pc cells,
      pc + i ≠ site ∧ pc + i ≠ site + 1) →
    chunk.code[pc + i]? = (assemble (draft cells))[i]?
  leaves : ∀ site ∈ sites Cell.isLeave pc cells, ∃ distance,
    readWord chunk.code site 2 = some distance ∧ site + 2 + distance = leave
  agains : ∀ site ∈ sites Cell.isAgain pc cells, ∃ distance,
    readWord chunk.code site 2 = some distance ∧ site + 2 = again + distance

theorem Resolves.tail {cell : Cell} {cells : List Cell}
    (h : chunk.Resolves leave again pc (cell :: cells))
    (wide : cell.isLeave ∨ cell.isAgain → cell.size = 3) :
    chunk.Resolves leave again (pc + cell.size) cells := by
  have later {isOpen : Cell → Bool} {site : Nat}
      (mem : site ∈ sites isOpen (pc + cell.size) cells) :
      site ∈ sites isOpen pc (cell :: cells) := by
    simp only [sites]
    split
    · exact List.mem_cons_of_mem _ mem
    · exact mem
  refine ⟨fun i small apart => ?_, fun site mem => h.leaves site (later mem),
    fun site mem => h.agains site (later mem)⟩
  have read := h.bytes (cell.size + i) (by rw [cellsSize_cons]; omega) fun site mem => by
    -- the site of the first cell lies before, and the others are those of the rest
    have first {isOpen : Cell → Bool} (mem : site ∈ sites isOpen pc (cell :: cells))
        (wide : isOpen cell → cell.size = 3) :
        site ∈ sites isOpen (pc + cell.size) cells ∨ site = pc + 1 ∧ cell.size = 3 := by
      simp only [sites] at mem
      split at mem
      · rename_i isOpen
        rcases List.mem_cons.mp mem with rfl | mem
        · exact .inr ⟨rfl, wide isOpen⟩
        · exact .inl mem
      · exact .inl mem
    have either : site ∈ sites Cell.isLeave (pc + cell.size) cells ++
        sites Cell.isAgain (pc + cell.size) cells ∨ site = pc + 1 ∧ cell.size = 3 := by
      rcases List.mem_append.mp mem with mem | mem
      · rcases first mem fun h => wide (.inl h) with mem | here
        · exact .inl (List.mem_append_left _ mem)
        · exact .inr here
      · rcases first mem fun h => wide (.inr h) with mem | here
        · exact .inl (List.mem_append_right _ mem)
        · exact .inr here
    rcases either with mem | ⟨rfl, size⟩
    · rw [← Nat.add_assoc]
      exact apart site mem
    · omega
  rw [Nat.add_assoc, read, draft_cons, assemble_cons,
    List.getElem?_append_right (by rw [Asm.bytes_length]; exact Nat.le_add_right _ _),
    Asm.bytes_length]
  congr 1
  exact Nat.add_sub_cancel_left _ _

theorem Resolves.lies {cells : List Cell} (h : chunk.Resolves leave again pc cells)
    (fits : ∀ a ∈ draft cells, a.Fits) : chunk.Lies leave again pc cells := by
  induction cells generalizing pc with
  | nil => trivial
  | cons cell cells ih =>
      have fits' : ∀ a ∈ draft cells, a.Fits := fun a mem => fits a (List.mem_cons_of_mem _ mem)
      refine ⟨?_, ih (h.tail ?_) fits'⟩
      -- every cell's first byte is its opcode, since no patched site is an instruction's first byte
      · have opcode : chunk.code[pc]? = some cell.draft.opcode.toByte := by
          have wide : 0 < cellsSize (cell :: cells) := by
            rw [cellsSize_cons]
            exact Nat.lt_of_lt_of_le (Asm.size_pos _) (Nat.le_add_right _ _)
          have read := h.bytes 0 wide fun site mem => by
            have lt : pc < site := by
              rcases List.mem_append.mp mem with mem | mem
              · exact lt_of_mem_sites mem
              · exact lt_of_mem_sites mem
            omega
          rw [Nat.add_zero] at read
          rw [read]
          rfl
        cases cell with
        | leave =>
            obtain ⟨distance, read, leads⟩ := h.leaves (pc + 1) (List.mem_cons_self ..)
            exact ⟨distance, decode_jump rfl opcode read, by omega⟩
        | again =>
            obtain ⟨distance, read, leads⟩ := h.agains (pc + 1) (List.mem_cons_self ..)
            exact ⟨distance, decode_jump rfl opcode read, by omega⟩
        | op a =>
            -- an instruction that is not a jump out has all its bytes in front of the next site
            have carried : chunk.Carries pc (assemble [a]) := by
              intro i small
              rw [assemble_cons, assemble_nil, List.append_nil] at small ⊢
              have inside : i < a.size := by rwa [Asm.bytes_length] at small
              have wide : i < cellsSize (.op a :: cells) := by
                rw [cellsSize_cons]
                exact Nat.lt_of_lt_of_le inside (Nat.le_add_right _ _)
              have read := h.bytes i wide fun site mem => by
                have lt : pc + a.size < site := by
                  rcases List.mem_append.mp mem with mem | mem
                  · exact lt_of_mem_sites mem
                  · exact lt_of_mem_sites mem
                omega
              rw [read, draft_cons, assemble_cons]
              exact List.getElem?_append_left small
            exact (holds_of_carries (by simpa using fits a (List.mem_cons_self ..)) carried).1
      · cases cell <;> simp [Cell.isLeave, Cell.isAgain, Cell.size, Cell.draft, Asm.size,
          Opcode.operandWidth]

end Chunk

/-- The code of a statement that nothing leads out of has no open jumps. -/
theorem Statement.closed_code (layout : Layout) (s : Statement) (closed : s.Closed)
    (place : Place) (pool : Pool) : ∃ code, (s.code layout place pool).cells = ops code := by
  induction s generalizing place pool with
  | done => exact ⟨[], rfl⟩
  | print e | expression e | giveBack e => exact ⟨_, rfl⟩
  | declare assignable name init | define name parameters s =>
      simp only [Statement.code]
      split
      · exact ⟨_, rfl⟩
      · exact ⟨_, rfl⟩
  | next a b first rest =>
      obtain ⟨code, same⟩ := first closed.1 place pool
      obtain ⟨more, same'⟩ := rest closed.2 (place.knowing (a.code layout place pool).locals)
        (a.code layout place pool).pool
      exact ⟨code ++ more, by simp only [Statement.code, same, same', ops_append]⟩
  | block body ih =>
      obtain ⟨code, same⟩ := ih closed place.inner pool
      exact ⟨_, by simp only [Statement.code, same, ← ops_append]; rfl⟩
  | choose c yes no first second =>
      obtain ⟨code, same⟩ := first closed.1 place (c.code place.locals pool).2
      obtain ⟨more, same'⟩ := second closed.2
        (place.knowing (yes.code layout place (c.code place.locals pool).2).locals)
        (yes.code layout place (c.code place.locals pool).2).pool
      simp only [Statement.code, chooseCells, same, same']
      exact ⟨(c.code place.locals pool).1 ++ _ :: (_ :: code ++ _ :: _ :: more), by
        simp only [ops, List.map_append, List.map_cons]; rfl⟩
  | loop test step body => exact ⟨_, (resolveJumps_closed _ _ _ _).symm⟩
  | leave | again => exact closed.elim

namespace Compiler

/-- The open jumps of one kind recorded for the innermost loop. -/
def recorded (kind : LoopRecord → List Nat) (c : Compiler) : List Nat :=
  (c.body.loops.head?.map kind).getD []

/-- The open jumps of one kind recorded between two states. -/
def openSites (kind : LoopRecord → List Nat) (c c' : Compiler) : List Nat :=
  (c'.recorded kind).take ((c'.recorded kind).length - (c.recorded kind).length)

/-- The chunk is one in which the code written between two states has been completed:
the open jumps written there lead to the given offsets, and all other bytes are the
same. -/
structure CompletedIn (c c' : Compiler) (chunk : Chunk) (leave again : Nat) : Prop where
  bytes : ∀ i, c.here ≤ i → i < c'.here →
    (∀ site ∈ openSites LoopRecord.breaks c c' ++ openSites LoopRecord.continues c c',
      i ≠ site ∧ i ≠ site + 1) →
    chunk.code[i]? = c'.body.chunk.code[i]?
  leaves : ∀ site ∈ openSites LoopRecord.breaks c c', ∃ distance,
    Chunk.readWord chunk.code site 2 = some distance ∧ site + 2 + distance = leave
  agains : ∀ site ∈ openSites LoopRecord.continues c c', ∃ distance,
    Chunk.readWord chunk.code site 2 = some distance ∧ site + 2 = again + distance

variable {c c' : Compiler} {cells : List Cell} {locals : List LocalVariable} {p : Pool}

theorem Writes.openSites_breaks (h : Writes c c' cells locals p) (inside : c.body.loops ≠ []) :
    openSites LoopRecord.breaks c c' = (sites Cell.isLeave c.here cells).reverse := by
  cases loops : c.body.loops with
  | nil => exact absurd loops inside
  | cons loop outer => simp [openSites, recorded, h.loops, loops, record]

theorem Writes.openSites_continues (h : Writes c c' cells locals p) (inside : c.body.loops ≠ []) :
    openSites LoopRecord.continues c c' = (sites Cell.isAgain c.here cells).reverse := by
  cases loops : c.body.loops with
  | nil => exact absurd loops inside
  | cons loop outer => simp [openSites, recorded, h.loops, loops, record]

/-- The cells that were written lie in the completed chunk. -/
theorem Writes.lies {chunk : Chunk} {leave again : Nat} (h : Writes c c' cells locals p)
    (few : c.body.locals.length ≤ Body.maxLocals) (completes : CompletedIn c c' chunk leave again)
    (closed : c.body.loops = [] → ∃ code, cells = ops code) :
    chunk.Lies leave again c.here cells := by
  -- outside loops the statement writes no jumps out, so there are no sites to account for
  have leaves : ∀ site ∈ sites Cell.isLeave c.here cells, site ∈ openSites LoopRecord.breaks c c' := by
    intro site mem
    by_cases inside : c.body.loops = []
    · obtain ⟨code, rfl⟩ := closed inside
      rw [sites_ops Cell.isLeave fun _ => rfl] at mem
      cases mem
    · rw [h.openSites_breaks inside]
      exact List.mem_reverse.mpr mem
  have agains : ∀ site ∈ sites Cell.isAgain c.here cells, site ∈ openSites LoopRecord.continues c c' := by
    intro site mem
    by_cases inside : c.body.loops = []
    · obtain ⟨code, rfl⟩ := closed inside
      rw [sites_ops Cell.isAgain fun _ => rfl] at mem
      cases mem
    · rw [h.openSites_continues inside]
      exact List.mem_reverse.mpr mem
  refine Chunk.Resolves.lies ⟨fun i small apart => ?_, fun site mem =>
    completes.leaves site (leaves site mem), fun site mem =>
      completes.agains site (agains site mem)⟩ (h.fits few)
  have read := completes.bytes (c.here + i) (Nat.le_add_right _ _)
    (by rw [h.here]; omega) fun site mem => by
      by_cases inside : c.body.loops = []
      · have none (kind : LoopRecord → List Nat) : openSites kind c c' = [] := by
          have after : c'.body.loops = [] := by rw [h.loops, inside]; rfl
          simp [openSites, recorded, after]
        simp [none] at mem
      · rw [h.openSites_breaks inside, h.openSites_continues inside] at mem
        refine apart site ?_
        simpa using mem
  have length : c.body.chunk.code.toList.length = c.here := Array.length_toList
  rw [read, ← Array.getElem?_toList, h.written, List.getElem?_append_right (by omega), length,
    Nat.add_sub_cancel_left]

end Compiler
end StackScript
