import StackScript.Proofs.Syntax.Expression

/-!
# Postfix code of expressions

`Expression.code` translates a tree to instructions: the operands from left to
right, then the operator.  `and` and `or` jump over their right operand, and an
assignment has the code of its value before the write.  The translation carries
the pool along, since constants are numbered in the order in which they are first
needed.
-/

namespace StackScript

/-- What code refers to: the strings, and the constants of its routine. -/
structure Pool where
  heap : Heap
  constants : Array Value

namespace Pool

/-- Index of a value: that of the first constant equal to it, or a new one. -/
def add (pool : Pool) (value : Value) : Nat × Pool :=
  match pool.constants.findIdx? (· == value) with
  | some index => (index, pool)
  | none => (pool.constants.size, ⟨pool.heap, pool.constants.push value⟩)

/-- Index of the string with the given characters. -/
def addString (pool : Pool) (chars : String) : Nat × Pool :=
  add ⟨(pool.heap.intern chars).2, pool.constants⟩ (.string (pool.heap.intern chars).1)

/-- What a name refers to where the given locals are visible. -/
def resolve (pool : Pool) (locals : List LocalVariable) (name : String) :
    Compiler.Target × Pool :=
  match Body.findLocal name locals with
  | some (slot, _) => (.slot slot, pool)
  | none => (.global (pool.addString name).1, (pool.addString name).2)

end Pool

namespace Compiler.Target

/-- The instruction that reads a variable. -/
def read : Target → Asm
  | slot index => ⟨.getLocal, index⟩
  | global index => .indexed .getGlobal index

/-- The instruction that writes a variable. -/
def write : Target → Asm
  | slot index => ⟨.setLocal, index⟩
  | global index => .indexed .setGlobal index

end Compiler.Target

mutual

/-- The code of an expression, and the pool after it. -/
def Expression.code (locals : List LocalVariable) : Expression → Pool → List Asm × Pool
  | .null, pool => ([.plain .null], pool)
  | .boolean b, pool => ([.plain (if b then .true else .false)], pool)
  | .number x, pool =>
      let (index, pool) := pool.add (.number x)
      ([.indexed .constant index], pool)
  | .string chars, pool =>
      let (index, pool) := pool.addString chars
      ([.indexed .constant index], pool)
  | .variable name, pool =>
      let (target, pool) := pool.resolve locals name
      ([target.read], pool)
  | .grouping e, pool => e.code locals pool
  | .unary op e, pool =>
      let (operand, pool) := e.code locals pool
      (operand ++ [.plain op.opcode], pool)
  | .binary op a b, pool =>
      let (left, pool) := a.code locals pool
      let (right, pool) := b.code locals pool
      (left ++ right ++ op.code, pool)
  | .and a b, pool =>
      let (left, pool) := a.code locals pool
      let (right, pool) := b.code locals pool
      let right := .plain .pop :: right
      (left ++ ⟨.jumpIfFalse, codeSize right⟩ :: right, pool)
  | .or a b, pool =>
      let (left, pool) := a.code locals pool
      let (right, pool) := b.code locals pool
      let right := .plain .pop :: right
      let skip : List Asm := [⟨.jump, codeSize right⟩]
      (left ++ ⟨.jumpIfFalse, codeSize skip⟩ :: (skip ++ right), pool)
  | .assign name e, pool =>
      let (target, pool) := pool.resolve locals name
      let (value, pool) := e.code locals pool
      (value ++ [target.write], pool)
  | .call f es, pool =>
      let (callee, pool) := f.code locals pool
      let (arguments, pool) := Expression.listCode locals es pool
      (callee ++ arguments ++ [⟨.call, es.length⟩], pool)

/-- The code of expressions one after the other. -/
def Expression.listCode (locals : List LocalVariable) :
    List Expression → Pool → List Asm × Pool
  | [], pool => ([], pool)
  | e :: es, pool =>
      let (first, pool) := e.code locals pool
      let (others, pool) := Expression.listCode locals es pool
      (first ++ others, pool)

end

end StackScript
