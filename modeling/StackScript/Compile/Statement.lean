import StackScript.Compile.Expression

/-!
# Statements and declarations

A statement leaves the stack as it found it.  A declaration in a scope leaves one
value on the stack, which stays there as the slot of the variable.

As with expressions, each function compiles one phrase and takes the compilation
of smaller phrases as an argument.
-/

namespace StackScript
namespace Compiler

variable (parse : PhraseCompiler)

/-- A statement inside another. -/
def substatement (c : Compiler) : Compiler := parse .statement c

/-- Declarations up to the closing brace, and the brace. -/
def block (bound : Nat) (c : Compiler) : Compiler :=
  let c := repeatWhile (fun c => !c.check .rightBrace && !c.check .eof)
    (parse .declaration) bound c
  c.consume .rightBrace (.expectedMark "\x7d" "after block")

/-! ## Declarations

The word that begins the declaration has been read. -/

/-- One parameter of a routine. -/
def parameter (c : Compiler) : Compiler :=
  let c := c.mapBody fun body => { body with arity := body.arity + 1 }
  let c := if maxArity < c.body.arity then c.reportCurrent .tooManyParameters else c
  let (index, c) := c.parseVariable "parameter"
  c.defineVariable index true

/-- The parameters of a routine. -/
def parameters (bound : Nat) (c : Compiler) : Compiler :=
  if c.check .rightParen then c
  else repeatWhile (·.check .comma) (fun c => c.advance.parameter) bound c.parameter

/-- Parameters and body of a routine whose name was read last; leaves the routine
on the stack. -/
def routine (bound : Nat) (c : Compiler) : Compiler :=
  let (name, c) := c.intern c.previous.lexeme
  let c := (c.beginRoutine (some name)).beginScope
  let c := c.consume .leftParen (.expectedMark "(" "after function name")
  let c := c.parameters bound
  let c := c.consume .rightParen (.expectedMark ")" "after parameters")
  let c := c.consume .leftBrace (.expectedMark "\x7b" "before function body")
  -- the scope is not closed, since returning drops the whole frame
  let (routine, c) := (c.block parse bound).endRoutine
  c.emitConstant (.routine routine)

/-- A function declaration.  Its name counts as initialized in its own body. -/
def functionDeclaration (bound : Nat) (c : Compiler) : Compiler :=
  let (index, c) := c.parseVariable "function"
  (c.markInitialized.routine parse bound).defineVariable index true

/-- A variable declaration; without initializer the variable is null. -/
def variableDeclaration (assignable : Bool) (c : Compiler) : Compiler :=
  let (index, c) := c.parseVariable "variable"
  let c := if c.check .equal then c.advance.expression parse else c.emit .null
  let c := c.consume .semicolon (.expectedMark ";" "after variable declaration")
  c.defineVariable index assignable

/-! ## Statements

The word that begins the statement has been read. -/

/-- A print statement. -/
def printStatement (c : Compiler) : Compiler :=
  ((c.expression parse).consume .semicolon (.expectedMark ";" "after value")).emit .print

/-- An expression whose value is dropped. -/
def expressionStatement (c : Compiler) : Compiler :=
  ((c.expression parse).consume .semicolon (.expectedMark ";" "after expression")).emit .pop

/-- A return, of null unless a value is given. -/
def returnStatement (c : Compiler) : Compiler :=
  if c.check .semicolon then c.advance.emitReturn
  else
    ((c.expression parse).consume .semicolon
      (.expectedMark ";" "after return value")).emit .return

/-- A condition in parentheses. -/
def condition (word : String) (c : Compiler) : Compiler :=
  let c := c.consume .leftParen (.expectedMark "(" ("after '" ++ word ++ "'"))
  (c.expression parse).consume .rightParen (.expectedMark ")" "after condition")

/-- A conditional statement. -/
def ifStatement (c : Compiler) : Compiler :=
  let c := c.condition parse "if"
  let thenSite := c.here + 1
  -- the condition is dropped on both ways
  let c := (c.emitJump .jumpIfFalse).emit .pop
  let c := c.substatement parse
  let elseSite := c.here + 1
  let c := ((c.emitJump .jump).patchJump thenSite).emit .pop
  let c := if c.check .else then c.advance.substatement parse else c
  c.patchJump elseSite

/-- A loop with a condition. -/
def whileStatement (c : Compiler) : Compiler :=
  let start := c.here
  let c := c.condition parse "while"
  let exitSite := c.here + 1
  let c := (c.emitJump .jumpIfFalse).emit .pop
  let c := ((c.beginLoop start).substatement parse).emitLoop start
  ((c.patchJump exitSite).emit .pop).endLoop

/-- The first clause of a counting loop, with its semicolon. -/
def forInitializer (c : Compiler) : Compiler :=
  if c.check .semicolon then c.advance
  else if c.check .var then c.advance.variableDeclaration parse true
  else if c.check .const then c.advance.variableDeclaration parse false
  else c.expressionStatement parse

/-- The second clause of a counting loop, with its semicolon.  The result is the
operand offset of the jump out of the loop, if there is a condition. -/
def forCondition (c : Compiler) : Option Nat × Compiler :=
  if c.check .semicolon then (none, c.advance)
  else
    let c := c.expression parse
    let c := c.consume .semicolon (.expectedMark ";" "after loop condition")
    (some (c.here + 1), (c.emitJump .jumpIfFalse).emit .pop)

/-- The third clause of a counting loop, with the closing parenthesis.  It runs
after the body, so the code jumps over it, and from its end back to `start`.  The
result is the offset at which the next iteration begins. -/
def forIncrement (start : Nat) (c : Compiler) : Nat × Compiler :=
  if c.check .rightParen then (start, c.advance)
  else
    let bodySite := c.here + 1
    let c := c.emitJump .jump
    let increment := c.here
    let c := (c.expression parse).emit .pop
    let c := c.consume .rightParen (.expectedMark ")" "after for clauses")
    (increment, (c.emitLoop start).patchJump bodySite)

/-- A counting loop. -/
def forStatement (c : Compiler) : Compiler :=
  let c := c.beginScope.consume .leftParen (.expectedMark "(" "after 'for'")
  let c := c.forInitializer parse
  let start := c.here
  let (exitSite, c) := c.forCondition parse
  -- the body goes back to the third clause if there is one, and to the second otherwise
  let (start, c) := c.forIncrement parse start
  let c := ((c.beginLoop start).substatement parse).emitLoop start
  let c :=
    match exitSite with
    | some site => (c.patchJump site).emit .pop
    | none => c
  c.endLoop.endScope

/-- Drops the locals declared inside the innermost loop from the stack; the code
after the statement still sees them. -/
def leaveScopes (c : Compiler) (loop : LoopRecord) : Compiler :=
  c.emitPops (c.body.localsDeeperThan loop.depth)

/-- A jump out of the innermost loop. -/
def breakStatement (c : Compiler) : Compiler :=
  match c.body.loops with
  | [] => c.report .breakOutsideLoop
  | loop :: _ =>
    let c := c.consume .semicolon (.expectedMark ";" "after 'break'")
    let c := c.leaveScopes loop
    let site := c.here + 1
    (c.emitJump .jump).mapLoop fun loop => { loop with breaks := site :: loop.breaks }

/-- A jump to the next iteration of the innermost loop. -/
def continueStatement (c : Compiler) : Compiler :=
  match c.body.loops with
  | [] => c.report .continueOutsideLoop
  | loop :: _ =>
    let c := c.consume .semicolon (.expectedMark ";" "after 'continue'")
    let c := c.leaveScopes loop
    let site := c.here + 1
    -- the distance is written when the loop is closed
    (c.emitJump .loop).mapLoop fun loop => { loop with continues := site :: loop.continues }

/-- A block with a scope of its own. -/
def blockStatement (bound : Nat) (c : Compiler) : Compiler :=
  (c.beginScope.block parse bound).endScope

/-- A statement of any kind. -/
def statement (bound : Nat) (c : Compiler) : Compiler :=
  match c.current.kind with
  | .print => c.advance.printStatement parse
  | .if => c.advance.ifStatement parse
  | .while => c.advance.whileStatement parse
  | .for => c.advance.forStatement parse
  | .return => c.advance.returnStatement parse
  | .break => c.advance.breakStatement
  | .continue => c.advance.continueStatement
  | .leftBrace => c.advance.blockStatement parse bound
  | _ => c.expressionStatement parse

/-- A declaration or statement.  After an error it goes on at a place where a
statement may begin. -/
def declaration (bound : Nat) (c : Compiler) : Compiler :=
  let c :=
    match c.current.kind with
    | .fn => c.advance.functionDeclaration parse bound
    | .var => c.advance.variableDeclaration parse true
    | .const => c.advance.variableDeclaration parse false
    | .class => c.advance.report .unsupportedClass
    | _ => c.substatement parse
  if c.panicking then c.synchronize else c

end Compiler
end StackScript
