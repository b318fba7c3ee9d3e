import StackScript.Proofs.Code.Emission

/-!
# Code with open jumps

While a loop is being compiled, its code holds jumps whose targets are not known
yet: those of `break`, which lead behind the loop, and those of `continue`, which
lead to the next iteration.  Such code is a list of cells.  Cells are written with
placeholders, their operand offsets are kept in the record of the loop, and closing
the loop resolves them.
-/

namespace StackScript

/-- An instruction, or a jump that is still open. -/
inductive Cell where
  | op (a : Asm)
  /-- A jump out of the innermost loop. -/
  | leave
  /-- A jump to the next iteration of the innermost loop. -/
  | again

namespace Cell

/-- The instruction as it is first written. -/
def draft : Cell → Asm
  | op a => a
  | leave => ⟨.jump, Compiler.maxJump⟩
  | again => ⟨.loop, Compiler.maxJump⟩

/-- Number of bytes of a cell. -/
def size (cell : Cell) : Nat := cell.draft.size

end Cell

/-- Cells without open jumps. -/
def ops (code : List Asm) : List Cell := code.map .op

/-- The code of cells as it is first written. -/
def draft (cells : List Cell) : List Asm := cells.map Cell.draft

/-- Number of bytes of a list of cells. -/
def cellsSize (cells : List Cell) : Nat := codeSize (draft cells)

@[simp] theorem draft_ops (code : List Asm) : draft (ops code) = code := by
  simp [draft, ops, Function.comp_def, Cell.draft]

@[simp] theorem draft_cons (cell : Cell) (cells : List Cell) :
    draft (cell :: cells) = cell.draft :: draft cells := rfl

@[simp] theorem draft_append (cells more : List Cell) :
    draft (cells ++ more) = draft cells ++ draft more := by simp [draft]

@[simp] theorem ops_append (code more : List Asm) : ops (code ++ more) = ops code ++ ops more := by
  simp [ops]

@[simp] theorem cellsSize_nil : cellsSize [] = 0 := rfl

@[simp] theorem cellsSize_cons (cell : Cell) (cells : List Cell) :
    cellsSize (cell :: cells) = cell.size + cellsSize cells := by
  simp [cellsSize, Cell.size]

@[simp] theorem cellsSize_append (cells more : List Cell) :
    cellsSize (cells ++ more) = cellsSize cells + cellsSize more := by
  simp [cellsSize]

@[simp] theorem cellsSize_ops (code : List Asm) : cellsSize (ops code) = codeSize code := by
  simp [cellsSize]

/-! ## Sites -/

/-- The operand offsets of the cells that are open jumps of the one kind or the
other, for cells that begin at an offset. -/
def sites (isOpen : Cell → Bool) : (offset : Nat) → List Cell → List Nat
  | _, [] => []
  | offset, cell :: cells =>
      if isOpen cell then (offset + 1) :: sites isOpen (offset + cell.size) cells
      else sites isOpen (offset + cell.size) cells

namespace Cell

def isLeave : Cell → Bool
  | leave => true
  | _ => false

def isAgain : Cell → Bool
  | again => true
  | _ => false

end Cell

theorem sites_append (isOpen : Cell → Bool) (offset : Nat) (cells more : List Cell) :
    sites isOpen offset (cells ++ more) =
      sites isOpen offset cells ++ sites isOpen (offset + cellsSize cells) more := by
  induction cells generalizing offset with
  | nil => simp [sites]
  | cons cell cells ih =>
      simp only [List.cons_append, sites, ih, cellsSize_cons, Nat.add_assoc]
      split <;> simp

theorem sites_ops (isOpen : Cell → Bool) (closed : ∀ a, isOpen (.op a) = false) (offset : Nat)
    (code : List Asm) : sites isOpen offset (ops code) = [] := by
  induction code generalizing offset with
  | nil => rfl
  | cons a code ih =>
      show sites isOpen offset (.op a :: ops code) = []
      simp [sites, closed, ih]

/-- The loop records after cells have been written from an offset on. -/
def record (offset : Nat) (cells : List Cell) : List LoopRecord → List LoopRecord
  | [] => []
  | loop :: outer =>
      { loop with
        breaks := (sites Cell.isLeave offset cells).reverse ++ loop.breaks
        continues := (sites Cell.isAgain offset cells).reverse ++ loop.continues } :: outer

@[simp] theorem record_ops (offset : Nat) (code : List Asm) (loops : List LoopRecord) :
    record offset (ops code) loops = loops := by
  cases loops with
  | nil => rfl
  | cons loop outer =>
      simp only [record, sites_ops Cell.isLeave (fun _ => rfl),
        sites_ops Cell.isAgain (fun _ => rfl), List.reverse_nil, List.nil_append]

theorem record_append (offset : Nat) (cells more : List Cell) (loops : List LoopRecord) :
    record offset (cells ++ more) loops =
      record (offset + cellsSize cells) more (record offset cells loops) := by
  cases loops with
  | nil => rfl
  | cons loop outer => simp [record, sites_append]

/-! ## Resolving -/

/-- The cells with the open jumps of the one kind turned into instructions, given the
offset at which the cells begin. -/
def close (isOpen : Cell → Bool) (jump : (offset : Nat) → Asm) :
    (offset : Nat) → List Cell → List Cell
  | _, [] => []
  | offset, cell :: cells =>
      (if isOpen cell then .op (jump offset) else cell) ::
        close isOpen jump (offset + cell.size) cells

/-- A jump at an offset that leads to a target further on. -/
def jumpTo (target offset : Nat) : Asm := ⟨.jump, target - (offset + 3)⟩

/-- A jump at an offset that leads back to a start. -/
def loopTo (start offset : Nat) : Asm := ⟨.loop, offset + 3 - start⟩

/-- The cells without open jumps: out of the loop to a target, and to the next
iteration at a start. -/
def resolveJumps (target start offset : Nat) (cells : List Cell) : List Cell :=
  close Cell.isLeave (jumpTo target) offset (close Cell.isAgain (loopTo start) offset cells)

@[simp] theorem size_jumpTo (target offset : Nat) : (jumpTo target offset).size = 3 := rfl

@[simp] theorem size_loopTo (start offset : Nat) : (loopTo start offset).size = 3 := rfl

section Close

variable {isOpen : Cell → Bool} {jump : Nat → Asm}

theorem cellsSize_close (same : ∀ cell offset, isOpen cell → (jump offset).size = cell.size)
    (offset : Nat) (cells : List Cell) :
    cellsSize (close isOpen jump offset cells) = cellsSize cells := by
  induction cells generalizing offset with
  | nil => rfl
  | cons cell cells ih =>
      simp only [close, cellsSize_cons, ih]
      split
      · rename_i isOpen
        rw [← same cell offset isOpen]
        rfl
      · rfl

theorem close_append (offset : Nat) (cells more : List Cell) :
    close isOpen jump offset (cells ++ more) =
      close isOpen jump offset cells ++ close isOpen jump (offset + cellsSize cells) more := by
  induction cells generalizing offset with
  | nil => simp [close]
  | cons cell cells ih => simp [close, ih, Nat.add_assoc]

theorem close_ops (closed : ∀ a, isOpen (.op a) = false) (offset : Nat) (code : List Asm) :
    close isOpen jump offset (ops code) = ops code := by
  induction code generalizing offset with
  | nil => rfl
  | cons a code ih =>
      show close isOpen jump offset (.op a :: ops code) = .op a :: ops code
      simp [close, closed, ih]

/-- Closing jumps of one kind leaves those of the other kind where they are. -/
theorem sites_close {other : Cell → Bool} (apart : ∀ cell, isOpen cell → other cell = false)
    (closed : ∀ a, other (.op a) = false)
    (same : ∀ cell offset, isOpen cell → (jump offset).size = cell.size) (offset : Nat)
    (cells : List Cell) : sites other offset (close isOpen jump offset cells) =
      sites other offset cells := by
  induction cells generalizing offset with
  | nil => rfl
  | cons cell cells ih =>
      simp only [close, sites]
      by_cases isOpen : isOpen cell
      · have size : Cell.size (.op (jump offset)) = cell.size := same cell offset isOpen
        simp [isOpen, closed, apart cell isOpen, size, ih]
      · simp [isOpen, ih]

end Close

theorem size_of_isLeave (target : Nat) (cell : Cell) (offset : Nat) (h : cell.isLeave) :
    (jumpTo target offset).size = cell.size := by
  cases cell with
  | leave => rfl
  | op | again => cases h

theorem size_of_isAgain (start : Nat) (cell : Cell) (offset : Nat) (h : cell.isAgain) :
    (loopTo start offset).size = cell.size := by
  cases cell with
  | again => rfl
  | op | leave => cases h

@[simp] theorem cellsSize_resolveJumps (target start offset : Nat) (cells : List Cell) :
    cellsSize (resolveJumps target start offset cells) = cellsSize cells := by
  rw [resolveJumps, cellsSize_close (size_of_isLeave target),
    cellsSize_close (size_of_isAgain start)]

theorem resolveJumps_append (target start offset : Nat) (cells more : List Cell) :
    resolveJumps target start offset (cells ++ more) =
      resolveJumps target start offset cells ++
        resolveJumps target start (offset + cellsSize cells) more := by
  rw [resolveJumps, close_append, close_append, cellsSize_close (size_of_isAgain start)]
  rfl

@[simp] theorem resolveJumps_ops (target start offset : Nat) (code : List Asm) :
    resolveJumps target start offset (ops code) = ops code := by
  rw [resolveJumps, close_ops (fun _ => rfl), close_ops (fun _ => rfl)]

theorem resolveJumps_cons (target start offset : Nat) (cell : Cell) (cells : List Cell) :
    resolveJumps target start offset (cell :: cells) =
      resolveJumps target start offset [cell] ++ resolveJumps target start (offset + cell.size) cells := by
  rw [← List.singleton_append, resolveJumps_append]
  simp

theorem resolveJumps_leave (target start offset : Nat) :
    resolveJumps target start offset [.leave] = ops [jumpTo target offset] := rfl

theorem resolveJumps_again (target start offset : Nat) :
    resolveJumps target start offset [.again] = ops [loopTo start offset] := rfl

/-- Only distances matter. -/
theorem resolveJumps_shift (base target start offset : Nat) (cells : List Cell) :
    resolveJumps (base + target) (base + start) (base + offset) cells =
      resolveJumps target start offset cells := by
  induction cells generalizing offset with
  | nil => rfl
  | cons cell cells ih =>
      rw [resolveJumps_cons, resolveJumps_cons target, Nat.add_assoc, ih]
      cases cell with
      | op => rfl
      | leave =>
          simp only [resolveJumps_leave, jumpTo]
          rw [show base + target - (base + offset + 3) = target - (offset + 3) by omega]
      | again =>
          simp only [resolveJumps_again, loopTo]
          rw [show base + offset + 3 - (base + start) = offset + 3 - start by omega]

/-- Nothing is left open. -/
theorem resolveJumps_closed (target start offset : Nat) (cells : List Cell) :
    ops (draft (resolveJumps target start offset cells)) = resolveJumps target start offset cells := by
  induction cells generalizing offset with
  | nil => rfl
  | cons cell cells ih =>
      rw [resolveJumps_cons, draft_append, ops_append, ih]
      cases cell <;> rfl

end StackScript
