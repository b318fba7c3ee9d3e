import StackScript.Compile.Precedence
import StackScript.Compile.Variable
import StackScript.Number.Literal

/-!
# Expressions

An expression leaves its value on top of the stack.  The code of an operator
follows that of its operands; `and` and `or` jump over their right operand when
the left one decides.

The functions here compile one phrase each and take the compilation of smaller
phrases as an argument.
-/

namespace StackScript

/-- The phrases of the grammar whose parts may be phrases again. -/
inductive Phrase where
  /-- An expression whose operators bind at least as tightly as given. -/
  | expression (least : Precedence)
  | statement
  | declaration
deriving DecidableEq, Repr

/-- A way to compile phrases. -/
abbrev PhraseCompiler := Phrase → Compiler → Compiler

namespace Compiler

/-- Number of arguments or parameters that a call may have. -/
def maxArity : Nat := 255

variable (parse : PhraseCompiler)

/-- A whole expression. -/
def expression (c : Compiler) : Compiler := parse (.expression .assignment) c

/-! ## Beginnings of expressions

The token that begins the expression has been read. -/

/-- An expression in parentheses. -/
def grouping (c : Compiler) : Compiler :=
  (c.expression parse).consume .rightParen (.expectedMark ")" "after expression")

/-- A number literal. -/
def numberLiteral (c : Compiler) : Compiler :=
  match Number.ofLiteral? c.previous.lexeme with
  | some x => c.emitConstant (.number x)
  | none => c.report .invalidNumber

/-- The characters of a string literal, without its quotes. -/
def unquote (lexeme : String) : String :=
  String.ofList (lexeme.toList.drop 1).dropLast

/-- A string literal. -/
def stringLiteral (c : Compiler) : Compiler :=
  let (text, c) := c.intern (unquote c.previous.lexeme)
  c.emitConstant (.string text)

/-- One of the words `false`, `true` and `null`. -/
def wordLiteral (c : Compiler) : Compiler :=
  match c.previous.kind with
  | .false => c.emit .false
  | .true => c.emit .true
  | .null => c.emit .null
  | _ => c

/-- A variable, or an assignment to it where one may stand. -/
def variableUse (canAssign : Bool) (c : Compiler) : Compiler :=
  let (target, c) := c.resolve c.previous.lexeme
  if canAssign && c.check .equal then (c.advance.expression parse).emitWrite target
  else c.emitRead target

/-- A sign or a negation. -/
def unary (c : Compiler) : Compiler :=
  let operator := c.previous.kind
  let c := parse (.expression .unary) c
  match operator with
  | .bang => c.emit .not
  | .minus => c.emit .negate
  | _ => c

/-- A token that the language reserves but does not support. -/
def unsupported (c : Compiler) : Compiler := c.report (.unsupported c.previous.lexeme)

/-- The beginning of an expression. -/
def openExpression (canAssign : Bool) (c : Compiler) : Opening → Compiler
  | .grouping => c.grouping parse
  | .unary => c.unary parse
  | .variable => c.variableUse parse canAssign
  | .string => c.stringLiteral
  | .number => c.numberLiteral
  | .literal => c.wordLiteral
  | .unsupported => c.unsupported

/-! ## Continuations of expressions

The operator has been read, and the code of the left operand is written. -/

/-- Writes the operations of a binary operator. -/
def emitBinary (c : Compiler) : TokenKind → Compiler
  | .bangEqual => (c.emit .equal).emit .not
  | .equalEqual => c.emit .equal
  | .greater => c.emit .greater
  | .greaterEqual => (c.emit .less).emit .not
  | .less => c.emit .less
  | .lessEqual => (c.emit .greater).emit .not
  | .plus => c.emit .add
  | .minus => c.emit .subtract
  | .star => c.emit .multiply
  | .slash => c.emit .divide
  | _ => c

/-- A binary operator; operators of one precedence group to the left. -/
def binary (c : Compiler) : Compiler :=
  let operator := c.previous.kind
  (parse (.expression operator.precedence.tighter) c).emitBinary operator

/-- The right operand of `and`, which counts only if the left one holds. -/
def conjunction (c : Compiler) : Compiler :=
  let site := c.here + 1
  let c := (c.emitJump .jumpIfFalse).emit .pop
  (parse (.expression .and) c).patchJump site

/-- The right operand of `or`, which counts only if the left one does not
hold. -/
def disjunction (c : Compiler) : Compiler :=
  let elseSite := c.here + 1
  let c := c.emitJump .jumpIfFalse
  let endSite := c.here + 1
  let c := ((c.emitJump .jump).patchJump elseSite).emit .pop
  (parse (.expression .or) c).patchJump endSite

/-- One argument after `count` others.  The result is how many there are now;
past the limit they are no longer counted. -/
def argument (count : Nat) (c : Compiler) : Nat × Compiler :=
  let c := c.expression parse
  if count = maxArity then (count, c.report .tooManyArguments) else (count + 1, c)

/-- The arguments after the first `count`, each after a comma. -/
def moreArguments : (bound count : Nat) → Compiler → Nat × Compiler
  | 0, count, c => if c.check .comma then (count, c.giveUp) else (count, c)
  | bound + 1, count, c =>
    if c.check .comma then
      let (count, c) := argument parse count c.advance
      moreArguments bound count c
    else (count, c)

/-- The arguments of a call, and the parenthesis after them. -/
def arguments (bound : Nat) (c : Compiler) : Nat × Compiler :=
  let (count, c) :=
    if c.check .rightParen then (0, c)
    else
      let (count, c) := argument parse 0 c
      moreArguments parse bound count c
  (count, c.consume .rightParen (.expectedMark ")" "after arguments"))

/-- A call. -/
def call (bound : Nat) (c : Compiler) : Compiler :=
  let (count, c) := c.arguments parse bound
  c.emitByte .call count

/-- The continuation of an expression. -/
def continueExpression (bound : Nat) (c : Compiler) : Option Continuation → Compiler
  | some .binary => c.binary parse
  | some .and => c.conjunction parse
  | some .or => c.disjunction parse
  | some .call => c.call parse bound
  | some .unsupported => c.unsupported
  | none => c

/-- Reads one operator and what belongs to it. -/
def continueOnce (bound : Nat) (c : Compiler) : Compiler :=
  let c := c.advance
  c.continueExpression parse bound c.previous.kind.continuation?

/-- An expression whose operators bind at least as tightly as `least`. -/
def expressionFrom (bound : Nat) (least : Precedence) (c : Compiler) : Compiler :=
  let c := c.advance
  match c.previous.kind.opening? with
  | none => c.report .expectedExpression
  | some opening =>
    let canAssign := least.admits .assignment
    let c := c.openExpression parse canAssign opening
    let c := repeatWhile (fun c => least.admits c.current.kind.precedence)
      (continueOnce parse bound) bound c
    -- an equals sign that is left over has no variable in front of it
    if canAssign && c.check .equal then c.advance.report .invalidAssignmentTarget else c

end Compiler
end StackScript
