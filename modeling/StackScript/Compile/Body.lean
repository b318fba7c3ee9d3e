import StackScript.Bytecode.Chunk

/-!
# Routines under construction

While a routine is being compiled, its body holds the code written so far and
what the compiler knows about names and loops.  The list of locals describes the
machine's stack from the frame base upwards: the last local of the list sits at
slot zero, which belongs to the callee itself and has no name.
-/

namespace StackScript

/-- A local variable.  It has no depth while its initializer is compiled. -/
structure LocalVariable where
  name : String
  depth : Option Nat
deriving DecidableEq, Repr

/-- Whether a local lies deeper than a scope.  A local whose initializer is
being compiled lies deeper than every scope. -/
def LocalVariable.isDeeperThan (var : LocalVariable) (depth : Nat) : Bool :=
  match var.depth with
  | none => true
  | some d => depth < d

/-- A loop being compiled. -/
structure LoopRecord where
  /-- Offset at which the next iteration begins. -/
  start : Nat
  /-- Scope depth around the loop body. -/
  depth : Nat
  /-- Operand offsets of the jumps that leave the loop. -/
  breaks : List Nat
  /-- Operand offsets of the jumps to the next iteration. -/
  continues : List Nat
deriving DecidableEq, Repr

/-- A routine under construction. -/
structure Body where
  name : Option Text
  arity : Nat
  chunk : Chunk
  /-- Locals, the newest first. -/
  locals : List LocalVariable
  /-- Number of scopes around the place being compiled. -/
  depth : Nat
  /-- Loops around the place being compiled, the innermost first. -/
  loops : List LoopRecord
  /-- Operation written last. -/
  lastOpcode : Option Opcode
  /-- Offset to which the forward jump patched last leads. -/
  landing : Option Nat

namespace Body

/-- Number of locals that a routine may have, its own slot included. -/
def maxLocals : Nat := 256

/-- A body without code. -/
def start (name : Option Text) : Body where
  name := name
  arity := 0
  chunk := .empty
  locals := [⟨"", some 0⟩]
  depth := 0
  loops := []
  lastOpcode := none
  landing := none

/-- The body with changed code. -/
def mapChunk (body : Body) (f : Chunk → Chunk) : Body :=
  match body with
  | ⟨name, arity, chunk, locals, depth, loops, lastOpcode, landing⟩ =>
    ⟨name, arity, f chunk, locals, depth, loops, lastOpcode, landing⟩

/-- Appends the byte of an operation. -/
def writeOpcode (body : Body) (op : Opcode) (line : Nat) : Body :=
  { body.mapChunk (·.writeOpcode op line) with lastOpcode := some op }

/-- Slot and entry of the newest local of a name. -/
def findLocal (name : String) : List LocalVariable → Option (Nat × LocalVariable)
  | [] => none
  | var :: older =>
    if var.name = name then some (older.length, var) else findLocal name older

/-- Whether some local has the given name. -/
def hasLocal (body : Body) (name : String) : Bool :=
  body.locals.any (·.name = name)

/-- The locals declared deeper than a scope, which are the newest. -/
def localsDeeperThan (body : Body) (depth : Nat) : List LocalVariable :=
  body.locals.takeWhile (·.isDeeperThan depth)

/-- Whether the innermost scope declares the given name already. -/
def declares (body : Body) (name : String) : Bool :=
  (body.localsDeeperThan (body.depth - 1)).any (·.name = name)

/-- Gives the newest local the current depth if its initializer is complete. -/
def settleNewest (body : Body) : Body :=
  match body.locals with
  | ⟨name, none⟩ :: older => { body with locals := ⟨name, some body.depth⟩ :: older }
  | _ => body

/-- Whether the code written so far cannot run on past its end: it ends with a
return, and no jump leads behind that. -/
def endsWithReturn (body : Body) : Bool :=
  body.lastOpcode == some .return && body.landing != some body.chunk.size

end Body
end StackScript
