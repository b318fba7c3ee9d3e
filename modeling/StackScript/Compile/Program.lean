import StackScript.Compile.Statement

/-!
# Programs

A program is a sequence of declarations up to the end of the source.  Compiling
it gives the script that holds its code, or all the errors found in it.

Phrases nest, and `phrase` bounds how deeply.  Each phrase and each turn of a
loop reads a token, except that a declaration may be a statement and a statement
an expression, so twice the number of tokens is depth enough.
-/

namespace StackScript
namespace Compiler

/-- Compiles a phrase in which phrases nest less than `depth` deep. -/
def phrase : (depth : Nat) → PhraseCompiler
  | 0, _, c => c.giveUp
  | depth + 1, .expression least, c => c.expressionFrom (phrase depth) depth least
  | depth + 1, .statement, c => c.statement (phrase depth) depth
  | depth + 1, .declaration, c => c.declaration (phrase depth) depth

/-- A depth that no phrase of a source with the given tokens exceeds. -/
def depthBound (tokens : List Token) : Nat := 2 * tokens.length + 8

/-- The state after all declarations of a source. -/
def declarations (tokens : List Token) (heap : Heap) : Compiler :=
  let depth := depthBound tokens
  repeatWhile (fun c => !c.check .eof) (phrase depth .declaration) depth
    (start tokens heap).advance

end Compiler

/-- What compiling a source gives. -/
structure Compilation where
  /-- The script, or the errors in the order of their report. -/
  result : Except (Array CompileError) Routine
  /-- The heap with the strings and routines of the source, also after
  errors. -/
  heap : Heap
  /-- The routines completed, the script last. -/
  completed : Array Routine

/-- Compiles a source text whose strings are to be objects of the given heap. -/
def compile (source : String) (heap : Heap) : Compilation :=
  let c := (Compiler.declarations (Token.scan source) heap).advance
  let (script, c) := c.endRoutine
  { result := if c.errors.isEmpty then .ok script else .error c.errors
    heap := c.heap
    completed := c.completed }

end StackScript
