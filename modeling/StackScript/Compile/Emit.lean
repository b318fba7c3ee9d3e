import StackScript.Compile.State

/-!
# Writing code

Code is written into the body of the innermost routine, each byte with the line
of the token read last.  Jumps forward are written with a placeholder and
patched when their target is known; the operand offset of such a jump is one
past the offset at which the jump is written.
-/

namespace StackScript
namespace Compiler

/-- The state with a changed body. -/
def mapBody (c : Compiler) (f : Body → Body) : Compiler :=
  match c with
  | ⟨current, previous, unread, panicking, errors, heap, body, enclosing, completed,
      exhausted⟩ =>
    ⟨current, previous, unread, panicking, errors, heap, f body, enclosing, completed,
      exhausted⟩

/-- Offset at which the next byte will be written. -/
def here (c : Compiler) : Nat := c.body.chunk.size

/-- Line of the bytes written now. -/
def line (c : Compiler) : Nat := c.previous.line

/-- Writes an operation byte. -/
def emit (c : Compiler) (op : Opcode) : Compiler :=
  let line := c.line
  c.mapBody (·.writeOpcode op line)

/-- Writes an operand of the given width. -/
def emitWord (c : Compiler) (width word : Nat) : Compiler :=
  let line := c.line
  c.mapBody (·.mapChunk (·.writeWord width word line))

/-- Writes an operation with an operand of one byte. -/
def emitByte (c : Compiler) (op : Opcode) (operand : Nat) : Compiler :=
  (c.emit op).emitWord 1 operand

/-- Writes an operation on the constant pool, in its wide form if the index does
not fit into one byte. -/
def emitIndexed (c : Compiler) (op : Opcode) (index : Nat) : Compiler :=
  if index < Nat.pow 2 8 then c.emitByte op index
  else (c.emit op.longForm).emitWord 4 index

/-- Writes a return of null. -/
def emitReturn (c : Compiler) : Compiler := (c.emit .null).emit .return

/-- Index of a value in the constant pool. -/
def constantIndex (c : Compiler) (value : Value) : Nat × Compiler :=
  let (index, chunk) := c.body.chunk.addConstant value
  let c := c.mapBody (·.mapChunk fun _ => chunk)
  if index < Nat.pow 2 32 then (index, c) else (0, c.report .tooManyConstants)

/-- Writes the loading of a constant. -/
def emitConstant (c : Compiler) (value : Value) : Compiler :=
  let (index, c) := c.constantIndex value
  c.emitIndexed .constant index

/-- The string object for the given characters. -/
def intern (c : Compiler) (chars : String) : Text × Compiler :=
  let (text, heap) := c.heap.intern chars
  (text, { c with heap })

/-- Index of a name in the constant pool. -/
def nameIndex (c : Compiler) (name : String) : Nat × Compiler :=
  let (text, c) := c.intern name
  c.constantIndex (.string text)

/-! ## Jumps -/

/-- The largest distance that a jump can cover. -/
def maxJump : Nat := Nat.pow 2 16 - 1

/-- Writes a jump whose distance is not known yet. -/
def emitJump (c : Compiler) (op : Opcode) : Compiler :=
  (c.emit op).emitWord 2 maxJump

/-- Lets the forward jump with its operand at `site` lead to the next byte. -/
def patchJump (c : Compiler) (site : Nat) : Compiler :=
  let target := c.here
  let distance := target - site - 2
  let c :=
    if distance ≤ maxJump then c.mapBody (·.mapChunk (·.patchWord site distance))
    else c.report .jumpTooFar
  c.mapBody fun body => { body with landing := some target }

/-- Writes a jump back to `start`. -/
def emitLoop (c : Compiler) (start : Nat) : Compiler :=
  let c := c.emit .loop
  -- counted from behind the operand
  let distance := c.here + 2 - start
  if distance ≤ maxJump then c.emitWord 2 distance
  else (c.report .loopTooLarge).emitWord 2 0

/-- Lets the backward jump with its operand at `site` lead to `start`. -/
def patchLoop (c : Compiler) (site start : Nat) : Compiler :=
  let distance := site + 2 - start
  if distance ≤ maxJump then c.mapBody (·.mapChunk (·.patchWord site distance))
  else c.report .loopTooLarge

/-! ## Routines -/

/-- Begins a routine inside the current one. -/
def beginRoutine (c : Compiler) (name : Option Text) : Compiler :=
  { c with body := .start name, enclosing := c.body :: c.enclosing }

/-- Completes the innermost routine and goes back to the one around it. -/
def endRoutine (c : Compiler) : Routine × Compiler :=
  let c := if c.body.endsWithReturn then c else c.emitReturn
  let (routine, heap) := c.heap.allocate c.body.name c.body.arity c.body.chunk
  let completed := c.completed.push routine
  match c.enclosing with
  -- the script has no body around it
  | [] => (routine, { c with heap, completed, body := .start none })
  | outer :: others => (routine, { c with heap, completed, body := outer, enclosing := others })

/-! ## Scopes and loops -/

/-- Opens a scope. -/
def beginScope (c : Compiler) : Compiler :=
  c.mapBody fun body => { body with depth := body.depth + 1 }

/-- Writes as many pops as the given locals. -/
def emitPops (c : Compiler) (locals : List LocalVariable) : Compiler :=
  locals.foldl (fun c _ => c.emit .pop) c

/-- Closes a scope and drops its locals. -/
def endScope (c : Compiler) : Compiler :=
  let c := c.mapBody fun body => { body with depth := body.depth - 1 }
  let dropped := c.body.localsDeeperThan c.body.depth
  (c.emitPops dropped).mapBody fun body =>
    { body with locals := body.locals.drop dropped.length }

/-- Opens a loop whose next iteration begins at `start`. -/
def beginLoop (c : Compiler) (start : Nat) : Compiler :=
  c.mapBody fun body => { body with loops := ⟨start, body.depth, [], []⟩ :: body.loops }

/-- Closes the innermost loop: its continue jumps lead to its start, and its
break jumps to the next byte. -/
def endLoop (c : Compiler) : Compiler :=
  match c.body.loops with
  | [] => c
  | loop :: outer =>
    let c := c.mapBody fun body => { body with loops := outer }
    let c := loop.continues.reverse.foldl (fun c site => c.patchLoop site loop.start) c
    loop.breaks.reverse.foldl (fun c site => c.patchJump site) c

/-- Changes the record of the innermost loop. -/
def mapLoop (c : Compiler) (f : LoopRecord → LoopRecord) : Compiler :=
  c.mapBody fun body =>
    match body.loops with
    | [] => body
    | loop :: outer => { body with loops := f loop :: outer }

end Compiler
end StackScript
