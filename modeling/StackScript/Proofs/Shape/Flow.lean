import StackScript.Proofs.Shape.Notes

/-!
# Code that keeps to its notes

An instruction keeps to its note if it finds on the stack what it needs, if what it
leaves there is what the notes say at every place where execution can go on, and if it
is about the variable that the note names.  `Obeys` says so of the cells of a piece of
code, given by `view` the notes on the whole routine by offset.  Open jumps are about to
lead to the two offsets `leave` and `again`; `Obeys.resolveJumps` closes them.
-/

namespace StackScript

/-! ## Instructions -/

namespace Asm

/-- Number of values that an instruction takes off the stack. -/
def takes (a : Asm) : Nat :=
  match a.opcode with
  | .pop | .defineGlobal | .defineGlobalLong | .setGlobal | .setGlobalLong | .setLocal
  | .makeConst | .not | .negate | .jumpIfFalse | .print | .return => 1
  | .equal | .greater | .less | .add | .subtract | .multiply | .divide => 2
  | .call => a.operand + 1
  | _ => 0

/-- What an instruction puts on the stack. -/
def gives (a : Asm) : List Slot :=
  match a.opcode with
  | .pop | .defineGlobal | .defineGlobalLong | .jump | .loop | .print | .return => []
  | .makeConst => [.sealed]
  | _ => [.temporary]

/-- Where execution can go on after an instruction at an offset. -/
def targets (a : Asm) (pc : Nat) : List Nat :=
  match a.opcode with
  | .jump => [pc + 3 + a.operand]
  | .jumpIfFalse => [pc + 3, pc + 3 + a.operand]
  | .loop => [pc + 3 - a.operand]
  | .return => []
  | _ => [pc + a.size]

section Indexed

variable (op : Opcode) (index : Nat)

/-- An instruction with an index is in its short form or in its long form. -/
theorem indexed_eq : indexed op index = ⟨op, index⟩ ∨ indexed op index = ⟨op.longForm, index⟩ := by
  unfold indexed
  split
  · exact .inl rfl
  · exact .inr rfl

theorem takes_indexed : (indexed op index).takes = takes ⟨op, index⟩ := by
  rcases indexed_eq op index with same | same
  · rw [same]
  · rw [same]
    cases op <;> rfl

theorem gives_indexed : (indexed op index).gives = gives ⟨op, index⟩ := by
  rcases indexed_eq op index with same | same
  · rw [same]
  · rw [same]
    cases op <;> rfl

theorem targets_indexed (long : op.longForm ≠ op) (pc : Nat) :
    (indexed op index).targets pc = [pc + (indexed op index).size] := by
  rcases indexed_eq op index with same | same
  · rw [same]
    cases op <;> first | rfl | exact absurd rfl long
  · rw [same]
    cases op <;> first | rfl | exact absurd rfl long

end Indexed

/-- What an instruction makes of what stands on the stack. -/
inductive Turns : Asm → (before after : List Slot) → Prop where
  | work (a : Asm) (rest : List Slot) :
      Turns a (List.replicate a.takes .temporary ++ rest) (a.gives ++ rest)
  /-- Variables are dropped as well. -/
  | drop (x : Slot) (rest : List Slot) : Turns (.plain .pop) (x :: rest) rest
  | bind (index : Nat) (rest : List Slot) :
      Turns (.indexed .defineGlobal index) (.sealed :: rest) rest

end Asm

/-- A value that has been computed may become that of a variable. -/
inductive Becomes : (before after : List Slot) → Prop where
  | same (shape : List Slot) : Becomes shape shape
  | bind {b : Binding} (assignable : b.assignable = true) (rest : List Slot) :
      Becomes (.temporary :: rest) (.bound b :: rest)
  | freeze {b : Binding} (constant : b.assignable = false) (rest : List Slot) :
      Becomes (.sealed :: rest) (.bound b :: rest)

theorem Becomes.length {before after : List Slot} (h : Becomes before after) :
    before.length = after.length := by
  cases h <;> rfl

/-- The constant at an index is a string, namely the given name. -/
def Pool.Names (pool : Pool) (index : Nat) (name : String) : Prop :=
  ∃ text, pool.constants[index]?.bind Value.asText? = some text ∧
    (pool.heap.Valid → text.chars = name)

/-- What a name means where the given variables are in scope. -/
inductive Means (pool : Pool) (scope : List Binding) (name : String) : Compiler.Target → Prop where
  | slot {k : Nat} {b : Binding} (found : innermost name scope = some (k, b)) :
      Means pool scope name (.slot k)
  | global {index : Nat} (missing : innermost name scope = none) (names : pool.Names index name) :
      Means pool scope name (.global index)

/-- An instruction on a variable. -/
def Opcode.isAccess (op : Opcode) : Bool :=
  match op with
  | .getLocal | .setLocal | .getGlobal | .getGlobalLong | .setGlobal | .setGlobalLong
  | .defineGlobal | .defineGlobalLong => Bool.true
  | _ => Bool.false

/-- The instruction is about the variable that the note names. -/
def Note.Tells (pool : Pool) (note : Note) (a : Asm) : Prop :=
  match note.mention with
  | none => a.opcode.isAccess = false
  | some (.read name) => ∃ target, Means pool note.scope name target ∧ a = target.read
  | some (.write name) => ∃ target, Means pool note.scope name target ∧ a = target.write
  | some (.define name assignable) =>
      (∃ index, pool.Names index name ∧ a = .indexed .defineGlobal index) ∧
        note.above = [if assignable then .temporary else .sealed]

section

variable (view : Nat → Option Note)

/-- At an offset the notes say that this is on the stack. -/
def Leads (pc : Nat) (shape : List Slot) : Prop :=
  ∃ note, view pc = some note ∧ Becomes shape note.shape

/-- The notes on the given cells are these. -/
def Covers : (pc : Nat) → List Cell → List Note → Prop
  | _, [], [] => True
  | pc, cell :: cells, note :: notes => view pc = some note ∧ Covers (pc + cell.size) cells notes
  | _, _, _ => False

variable (pool : Pool)

/-- An instruction keeps to its note. -/
structure Asm.Obeys (pc : Nat) (note : Note) (a : Asm) : Prop where
  turns : ∃ shape, a.Turns note.shape shape ∧ ∀ target ∈ a.targets pc, Leads view target shape
  back : a.opcode = .loop → a.operand ≤ pc + 3
  served : a.opcode = .constant ∨ a.opcode = .constantLong → a.operand < pool.constants.size
  tells : note.Tells pool a

variable (leave again : Nat)

/-- A cell keeps to its note. -/
def Cell.Obeys (pc : Nat) (note : Note) : Cell → Prop
  | .op a => a.Obeys view pool pc note
  | .leave => Leads view leave note.shape ∧ note.mention = none
  | .again => Leads view again note.shape ∧ note.mention = none

/-- Cells keep to their notes. -/
def Obeys : (pc : Nat) → List Cell → List Note → Prop
  | _, [], [] => True
  | pc, cell :: cells, note :: notes =>
      cell.Obeys view pool leave again pc note ∧ Obeys (pc + cell.size) cells notes
  | _, _, _ => False

end

/-! ## Pieces of code -/

section

variable {view : Nat → Option Note} {pool : Pool} {leave again pc : Nat}

/-- Of an instruction other than dropping a value and defining a variable it is known what
it takes and gives. -/
theorem Asm.Obeys.worked {a : Asm} {note : Note} (obeys : a.Obeys view pool pc note)
    (notPop : a.opcode ≠ .pop) (notDefine : a.opcode ≠ .defineGlobal)
    (notLong : a.opcode ≠ .defineGlobalLong) :
    ∃ rest, note.shape = List.replicate a.takes .temporary ++ rest ∧
      ∀ target ∈ a.targets pc, Leads view target (a.gives ++ rest) := by
  obtain ⟨⟨shape, turns, leads⟩, -⟩ := obeys
  generalize note.shape = start at turns
  cases turns with
  | work _ rest => exact ⟨rest, rfl, leads⟩
  | drop => exact absurd rfl notPop
  | bind index rest =>
      by_cases short : index < 2 ^ 8
      · exact absurd (by simp only [Asm.indexed, if_pos short]) notDefine
      · exact absurd (by simp only [Asm.indexed, if_neg short]; rfl) notLong

/-- An instruction that is no access is about no variable. -/
theorem Asm.Obeys.silent {a : Asm} {note : Note} (obeys : a.Obeys view pool pc note)
    (other : a.opcode.isAccess = false) : note.mention = none := by
  have tells := obeys.tells
  unfold Note.Tells at tells
  cases mention : note.mention with
  | none => rfl
  | some about =>
      rw [mention] at tells
      have access : a.opcode.isAccess = true := by
        cases about with
        | read name =>
            obtain ⟨target, -, rfl⟩ := tells
            cases target with
            | slot k => rfl
            | global index =>
                rcases Asm.indexed_eq .getGlobal index with same | same <;>
                  simp only [Compiler.Target.read, same] <;> rfl
        | write name =>
            obtain ⟨target, -, rfl⟩ := tells
            cases target with
            | slot k => rfl
            | global index =>
                rcases Asm.indexed_eq .setGlobal index with same | same <;>
                  simp only [Compiler.Target.write, same] <;> rfl
        | define name assignable =>
            obtain ⟨⟨index, -, rfl⟩, -⟩ := tells
            rcases Asm.indexed_eq .defineGlobal index with same | same <;> rw [same] <;> rfl
      rw [other] at access
      cases access

/-- What an instruction drops a value from. -/
theorem Asm.Obeys.popped {a : Asm} {note : Note} (obeys : a.Obeys view pool pc note)
    (pop : a.opcode = .pop) :
    ∃ x rest, note.shape = x :: rest ∧ Leads view (pc + a.size) rest := by
  obtain ⟨⟨shape, turns, leads⟩, -⟩ := obeys
  obtain ⟨op, operand⟩ := a
  obtain rfl : op = .pop := pop
  have leads := leads _ (List.mem_singleton_self _)
  generalize note.shape = start at turns
  generalize made : (⟨.pop, operand⟩ : Asm) = a at turns
  cases turns with
  | work _ rest =>
      subst made
      exact ⟨_, rest, rfl, leads⟩
  | drop x => exact ⟨x, _, rfl, leads⟩
  | bind index rest =>
      rcases Asm.indexed_eq .defineGlobal index with same | same
      · rw [same] at made
        cases made
      · rw [same] at made
        cases made

theorem Leads.same {note : Note} (h : view pc = some note) : Leads view pc note.shape :=
  ⟨note, h, .same _⟩

theorem Covers.first {cells : List Cell} {note : Note} {notes : List Note}
    (h : Covers view pc cells (note :: notes)) : view pc = some note := by
  cases cells with
  | nil => exact h.elim
  | cons => exact h.1

/-- Where some notes begin, the first says what is on the stack. -/
theorem Covers.leads {cells : List Cell} {note : Note} {notes : List Note}
    (h : Covers view pc cells (note :: notes)) : Leads view pc note.shape := .same h.first

theorem covers_append {cells more : List Cell} {notes others : List Note}
    (length : notes.length = cells.length) :
    Covers view pc (cells ++ more) (notes ++ others) ↔
      Covers view pc cells notes ∧ Covers view (pc + cellsSize cells) more others := by
  induction cells generalizing pc notes with
  | nil =>
      obtain rfl := List.eq_nil_of_length_eq_zero length
      simp [Covers]
  | cons cell cells ih =>
      cases notes with
      | nil => cases length
      | cons note notes =>
          have length : notes.length = cells.length := Nat.succ.inj length
          simp only [List.cons_append, Covers, ih length, cellsSize_cons, and_assoc, Nat.add_assoc]

theorem obeys_append {cells more : List Cell} {notes others : List Note}
    (length : notes.length = cells.length) :
    Obeys view pool leave again pc (cells ++ more) (notes ++ others) ↔
      Obeys view pool leave again pc cells notes ∧
        Obeys view pool leave again (pc + cellsSize cells) more others := by
  induction cells generalizing pc notes with
  | nil =>
      obtain rfl := List.eq_nil_of_length_eq_zero length
      simp [Obeys]
  | cons cell cells ih =>
      cases notes with
      | nil => cases length
      | cons note notes =>
          have length : notes.length = cells.length := Nat.succ.inj length
          simp only [List.cons_append, Obeys, ih length, cellsSize_cons, and_assoc, Nat.add_assoc]

/-! ## Resolving -/

theorem size_resolveJump (target start offset : Nat) (cell : Cell) :
    ∃ a, resolveJumps target start offset [cell] = [.op a] ∧ a.size = cell.size := by
  cases cell with
  | op a => exact ⟨a, rfl, rfl⟩
  | leave => exact ⟨_, rfl, rfl⟩
  | again => exact ⟨_, rfl, rfl⟩

theorem covers_resolveJumps {target start offset : Nat} {cells : List Cell} {notes : List Note} :
    Covers view pc (resolveJumps target start offset cells) notes ↔ Covers view pc cells notes := by
  induction cells generalizing pc offset notes with
  | nil => exact Iff.rfl
  | cons cell cells ih =>
      obtain ⟨a, same, size⟩ := size_resolveJump target start offset cell
      rw [resolveJumps_cons, same]
      cases notes with
      | nil => exact Iff.rfl
      | cons note notes =>
          have width : Cell.size (.op a) = cell.size := size
          simp only [List.singleton_append, Covers, width, ih]

/-- Closing a loop keeps its cells to their notes. -/
theorem Obeys.resolveJumps {base target start offset : Nat} {cells : List Cell}
    {notes : List Note} (front : offset + cellsSize cells ≤ target) (behind : start ≤ offset)
    (h : Obeys view pool (base + target) (base + start) (base + offset) cells notes) :
    Obeys view pool leave again (base + offset) (resolveJumps target start offset cells) notes := by
  induction cells generalizing offset notes with
  | nil =>
      cases notes with
      | nil => trivial
      | cons => exact h.elim
  | cons cell cells ih =>
      cases notes with
      | nil => exact h.elim
      | cons note notes =>
          obtain ⟨here, there⟩ := h
          rw [cellsSize_cons] at front
          rw [Nat.add_assoc] at there
          have rest := ih (by omega) (by omega) there
          rw [resolveJumps_cons]
          cases cell with
          | op a => exact ⟨here, by rw [Nat.add_assoc]; exact rest⟩
          -- a jump out of the loop goes to the target, one to its next turn goes back to the start
          | leave =>
              have size : Cell.size .leave = 3 := rfl
              refine ⟨⟨⟨note.shape, .work (jumpTo target offset) _, ?_⟩, ?_, ?_, ?_⟩, ?_⟩
              · intro t mem
                obtain rfl := List.mem_singleton.mp mem
                simp only [jumpTo]
                rw [size] at front
                rw [show base + offset + 3 + (target - (offset + 3)) = base + target by omega]
                exact here.1
              · intro h
                cases h
              · rintro (h | h) <;> cases h
              · simp only [Note.Tells, here.2]
                rfl
              · rw [Nat.add_assoc]
                exact rest
          | again =>
              refine ⟨⟨⟨note.shape, .work (loopTo start offset) _, ?_⟩, ?_, ?_, ?_⟩, ?_⟩
              · intro t mem
                obtain rfl := List.mem_singleton.mp mem
                simp only [loopTo]
                rw [show base + offset + 3 - (offset + 3 - start) = base + start by omega]
                exact here.1
              · intro
                simp only [loopTo]
                omega
              · rintro (h | h) <;> cases h
              · simp only [Note.Tells, here.2]
                rfl
              · rw [Nat.add_assoc]
                exact rest

end

end StackScript
