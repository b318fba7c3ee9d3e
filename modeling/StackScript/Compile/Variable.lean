import StackScript.Compile.Emit

/-!
# Variables

A variable declared outside every scope is global and known by its name at run
time.  Every other variable is local to its routine and lives in a slot of the
stack, so a routine cannot reach the locals of the routines around it.
-/

namespace StackScript
namespace Compiler

/-- Adds a local whose initializer is about to be compiled. -/
def addLocal (c : Compiler) (name : String) : Compiler :=
  if Body.maxLocals ≤ c.body.locals.length then c.report .tooManyLocals
  else c.mapBody fun body => { body with locals := ⟨name, none⟩ :: body.locals }

/-- Declares the name read last in the innermost scope; outside every scope it
does nothing. -/
def declareVariable (c : Compiler) : Compiler :=
  if c.body.depth = 0 then c
  else
    let name := c.previous.lexeme
    let c := if c.body.declares name then c.report (.redeclared name) else c
    c.addLocal name

/-- Reads and declares the name of a variable.  The result is the index of its
name in the constant pool if it is global, and zero otherwise. -/
def parseVariable (c : Compiler) (thing : String) : Nat × Compiler :=
  let c := (c.consume .identifier (.expectedName thing)).declareVariable
  if 0 < c.body.depth then (0, c) else c.nameIndex c.previous.lexeme

/-- Ends the initializer of the newest local; outside every scope it does
nothing. -/
def markInitialized (c : Compiler) : Compiler :=
  if c.body.depth = 0 then c else c.mapBody Body.settleNewest

/-- Binds a declared variable to the value on top of the stack. -/
def defineVariable (c : Compiler) (index : Nat) (assignable : Bool) : Compiler :=
  let c := if assignable then c else c.emit .makeConst
  if 0 < c.body.depth then c.markInitialized else c.emitIndexed .defineGlobal index

/-- What a name refers to. -/
inductive Target where
  /-- A local in the given slot. -/
  | slot (index : Nat)
  /-- A global whose name is the given constant. -/
  | global (index : Nat)
deriving DecidableEq, Repr

/-- Finds what a name refers to. -/
def resolve (c : Compiler) (name : String) : Target × Compiler :=
  match Body.findLocal name c.body.locals with
  | some (slot, var) =>
    (.slot slot, if var.depth.isNone then c.report .selfReference else c)
  | none =>
    -- a local of a routine around this one cannot be reached
    let c := if c.enclosing.any (·.hasLocal name) then c.report .unsupportedClosure else c
    let (index, c) := c.nameIndex name
    (.global index, c)

/-- Writes a read of a variable. -/
def emitRead (c : Compiler) : Target → Compiler
  | .slot index => c.emitByte .getLocal index
  | .global index => c.emitIndexed .getGlobal index

/-- Writes an assignment to a variable. -/
def emitWrite (c : Compiler) : Target → Compiler
  | .slot index => c.emitByte .setLocal index
  | .global index => c.emitIndexed .setGlobal index

end Compiler
end StackScript
