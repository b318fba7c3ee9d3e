import StackScript.Compile.Program
import StackScript.Proofs.Code.Access

/-!
# A compiler that asks

This is the compiler with every difference of offsets and depths, every overwritten byte and
every slot checked: where one does not exist, or does not fit its operand, there is a trap.
The end of the script is checked as well, for no routine may be around it.  Everything that
needs no check is taken from the compiler itself.
-/

namespace StackScript
namespace Compiler

/-- A computation that may trap. -/
abbrev Asking (α : Type) := Except Trap α

/-- A way to compile phrases that may trap. -/
abbrev StrictPhraseCompiler := Phrase → Compiler → Asking Compiler

/-! ## Jumps -/

/-- Writes a jump whose distance is not known yet; the result is where its operand is. -/
def strictEmitJump (c : Compiler) (op : Opcode) : Asking (Nat × Compiler) := do
  let c := c.emitJump op
  let site ← strictSub c.here 2
  return (site, c)

/-- Overwrites two bytes of code, which must be there. -/
def strictPatchWord (c : Compiler) (site word : Nat) : Asking Compiler := do
  let _ ← strictGet c.body.chunk.code site
  let _ ← strictGet c.body.chunk.code (site + 1)
  return c.mapBody (·.mapChunk (·.patchWord site word))

/-- Lets a forward jump lead to the next byte. -/
def strictPatchJump (c : Compiler) (site : Nat) : Asking Compiler := do
  let target := c.here
  let behind ← strictSub target site
  let distance ← strictSub behind 2
  let c ← (if distance ≤ maxJump then c.strictPatchWord site distance
    else pure (c.report .jumpTooFar))
  return c.mapBody fun body => { body with landing := some target }

/-- Writes a jump back. -/
def strictEmitLoop (c : Compiler) (start : Nat) : Asking Compiler := do
  let c := c.emit .loop
  let distance ← strictSub (c.here + 2) start
  return if distance ≤ maxJump then c.emitWord 2 distance
    else (c.report .loopTooLarge).emitWord 2 0

/-- Lets the jump out of a loop lead to the next byte, if there is one. -/
def strictPatchExit (c : Compiler) : Option Nat → Asking Compiler
  | some site => do return (← c.strictPatchJump site).emit .pop
  | none => return c

/-- Lets a backward jump lead to `start`. -/
def strictPatchLoop (c : Compiler) (start site : Nat) : Asking Compiler := do
  let distance ← strictSub (site + 2) start
  if distance ≤ maxJump then c.strictPatchWord site distance
  else return c.report .loopTooLarge

/-! ## Scopes, loops and names -/

/-- Closes a scope, which must be open. -/
def strictEndScope (c : Compiler) : Asking Compiler := do
  let depth ← strictSub c.body.depth 1
  let c := c.mapBody fun body => { body with depth }
  let dropped := c.body.localsDeeperThan c.body.depth
  return (c.emitPops dropped).mapBody fun body =>
    { body with locals := body.locals.drop dropped.length }

/-- Closes the innermost loop. -/
def strictEndLoop (c : Compiler) : Asking Compiler :=
  match c.body.loops with
  | [] => return c
  | loop :: outer => do
    let c := c.mapBody fun body => { body with loops := outer }
    let c ← loop.continues.reverse.foldlM (fun c site => c.strictPatchLoop loop.start site) c
    loop.breaks.reverse.foldlM (fun c site => c.strictPatchJump site) c

/-- A slot, which must fit into an operand of one byte. -/
def strictTarget : Target → Asking Target
  | .slot index => if index < UInt8.size then return .slot index else throw .outOfBounds
  | .global index => return .global index

/-- Runs `step` as long as `more` holds, at most `bound` times. -/
def strictRepeat (more : Compiler → Bool) (step : Compiler → Asking Compiler) :
    (bound : Nat) → Compiler → Asking Compiler
  | 0, c => return if more c then c.giveUp else c
  | bound + 1, c =>
    if more c then do strictRepeat more step bound (← step c) else return c

variable (parse : StrictPhraseCompiler)

/-! ## Expressions -/

def strictVariableUse (canAssign : Bool) (c : Compiler) : Asking Compiler := do
  let (target, c) := c.resolve c.previous.lexeme
  let target ← strictTarget target
  if canAssign && c.check .equal then
    return (← parse (.expression .assignment) c.advance).emitWrite target
  else return c.emitRead target

/-- Writes the operation of a sign or a negation. -/
def emitUnary (c : Compiler) : TokenKind → Compiler
  | .bang => c.emit .not
  | .minus => c.emit .negate
  | _ => c

def strictOpenExpression (canAssign : Bool) (c : Compiler) : Opening → Asking Compiler
  | .grouping => do
    return (← parse (.expression .assignment) c).consume .rightParen
      (.expectedMark ")" "after expression")
  | .unary => do
    let operator := c.previous.kind
    return (← parse (.expression .unary) c).emitUnary operator
  | .variable => strictVariableUse parse canAssign c
  | .string => return c.stringLiteral
  | .number => return c.numberLiteral
  | .literal => return c.wordLiteral
  | .unsupported => return c.unsupported

def strictConjunction (c : Compiler) : Asking Compiler := do
  let (site, c) ← c.strictEmitJump .jumpIfFalse
  let c ← parse (.expression .and) (c.emit .pop)
  c.strictPatchJump site

def strictDisjunction (c : Compiler) : Asking Compiler := do
  let (elseSite, c) ← c.strictEmitJump .jumpIfFalse
  let (endSite, c) ← c.strictEmitJump .jump
  let c ← c.strictPatchJump elseSite
  let c ← parse (.expression .or) (c.emit .pop)
  c.strictPatchJump endSite

def strictArgument (count : Nat) (c : Compiler) : Asking (Nat × Compiler) := do
  let c ← parse (.expression .assignment) c
  return if count = maxArity then (count, c.report .tooManyArguments) else (count + 1, c)

def strictMoreArguments : (bound count : Nat) → Compiler → Asking (Nat × Compiler)
  | 0, count, c => return if c.check .comma then (count, c.giveUp) else (count, c)
  | bound + 1, count, c =>
    if c.check .comma then do
      let (count, c) ← strictArgument parse count c.advance
      strictMoreArguments bound count c
    else return (count, c)

def strictArguments (bound : Nat) (c : Compiler) : Asking (Nat × Compiler) :=
  if c.check .rightParen then return (0, c)
  else do
    let (count, c) ← strictArgument parse 0 c
    strictMoreArguments parse bound count c

def strictCall (bound : Nat) (c : Compiler) : Asking Compiler := do
  let (count, c) ← strictArguments parse bound c
  return (c.consume .rightParen (.expectedMark ")" "after arguments")).emitByte .call count

def strictContinueExpression (bound : Nat) (c : Compiler) : Option Continuation → Asking Compiler
  | some .binary => do
    let operator := c.previous.kind
    return (← parse (.expression operator.precedence.tighter) c).emitBinary operator
  | some .and => strictConjunction parse c
  | some .or => strictDisjunction parse c
  | some .call => strictCall parse bound c
  | some .unsupported => return c.unsupported
  | none => return c

def strictContinueOnce (bound : Nat) (c : Compiler) : Asking Compiler :=
  strictContinueExpression parse bound c.advance c.advance.previous.kind.continuation?

def strictExpressionFrom (bound : Nat) (least : Precedence) (c : Compiler) : Asking Compiler :=
  let c := c.advance
  match c.previous.kind.opening? with
  | none => return c.report .expectedExpression
  | some opening => do
    let canAssign := least.admits .assignment
    let c ← strictOpenExpression parse canAssign c opening
    let c ← strictRepeat (fun c => least.admits c.current.kind.precedence)
      (strictContinueOnce parse bound) bound c
    return if canAssign && c.check .equal then c.advance.report .invalidAssignmentTarget else c

/-! ## Declarations -/

def strictBlock (bound : Nat) (c : Compiler) : Asking Compiler := do
  let c ← strictRepeat (fun c => !c.check .rightBrace && !c.check .eof)
    (parse .declaration) bound c
  return c.consume .rightBrace (.expectedMark "\x7d" "after block")

def strictRoutine (bound : Nat) (c : Compiler) : Asking Compiler := do
  let (name, c) := c.intern c.previous.lexeme
  let c := (c.beginRoutine (some name)).beginScope
  let c := c.consume .leftParen (.expectedMark "(" "after function name")
  let c := c.parameters bound
  let c := c.consume .rightParen (.expectedMark ")" "after parameters")
  let c := c.consume .leftBrace (.expectedMark "\x7b" "before function body")
  let c ← strictBlock parse bound c
  let (routine, c) := c.endRoutine
  return c.emitConstant (.routine routine)

def strictFunctionDeclaration (bound : Nat) (c : Compiler) : Asking Compiler := do
  let (index, c) := c.parseVariable "function"
  return (← strictRoutine parse bound c.markInitialized).defineVariable index true

def strictVariableDeclaration (assignable : Bool) (c : Compiler) : Asking Compiler := do
  let (index, c) := c.parseVariable "variable"
  let c ← (if c.check .equal then parse (.expression .assignment) c.advance
    else pure (c.emit .null))
  let c := c.consume .semicolon (.expectedMark ";" "after variable declaration")
  return c.defineVariable index assignable

/-! ## Statements -/

def strictPrint (c : Compiler) : Asking Compiler := do
  return ((← parse (.expression .assignment) c).consume .semicolon
    (.expectedMark ";" "after value")).emit .print

def strictExpressionStatement (c : Compiler) : Asking Compiler := do
  return ((← parse (.expression .assignment) c).consume .semicolon
    (.expectedMark ";" "after expression")).emit .pop

def strictReturn (c : Compiler) : Asking Compiler :=
  if c.check .semicolon then return c.advance.emitReturn
  else do
    return ((← parse (.expression .assignment) c).consume .semicolon
      (.expectedMark ";" "after return value")).emit .return

def strictCondition (word : String) (c : Compiler) : Asking Compiler := do
  let c := c.consume .leftParen (.expectedMark "(" ("after '" ++ word ++ "'"))
  return (← parse (.expression .assignment) c).consume .rightParen
    (.expectedMark ")" "after condition")

def strictIf (c : Compiler) : Asking Compiler := do
  let c ← strictCondition parse "if" c
  let (thenSite, c) ← c.strictEmitJump .jumpIfFalse
  let c ← parse .statement (c.emit .pop)
  let (elseSite, c) ← c.strictEmitJump .jump
  let c := (← c.strictPatchJump thenSite).emit .pop
  let c ← (if c.check .else then parse .statement c.advance else pure c)
  c.strictPatchJump elseSite

def strictWhile (c : Compiler) : Asking Compiler := do
  let start := c.here
  let c ← strictCondition parse "while" c
  let (exitSite, c) ← c.strictEmitJump .jumpIfFalse
  let c ← parse .statement ((c.emit .pop).beginLoop start)
  let c ← c.strictEmitLoop start
  let c ← c.strictPatchJump exitSite
  (c.emit .pop).strictEndLoop

def strictForInitializer (c : Compiler) : Asking Compiler :=
  if c.check .semicolon then return c.advance
  else if c.check .var then strictVariableDeclaration parse true c.advance
  else if c.check .const then strictVariableDeclaration parse false c.advance
  else strictExpressionStatement parse c

def strictForCondition (c : Compiler) : Asking (Option Nat × Compiler) :=
  if c.check .semicolon then return (none, c.advance)
  else do
    let c ← parse (.expression .assignment) c
    let c := c.consume .semicolon (.expectedMark ";" "after loop condition")
    let (site, c) ← c.strictEmitJump .jumpIfFalse
    return (some site, c.emit .pop)

def strictForIncrement (start : Nat) (c : Compiler) : Asking (Nat × Compiler) :=
  if c.check .rightParen then return (start, c.advance)
  else do
    let (bodySite, c) ← c.strictEmitJump .jump
    let increment := c.here
    let c := (← parse (.expression .assignment) c).emit .pop
    let c := c.consume .rightParen (.expectedMark ")" "after for clauses")
    let c ← c.strictEmitLoop start
    let c ← c.strictPatchJump bodySite
    return (increment, c)

def strictFor (c : Compiler) : Asking Compiler := do
  let c := c.beginScope.consume .leftParen (.expectedMark "(" "after 'for'")
  let c ← strictForInitializer parse c
  let start := c.here
  let (exitSite, c) ← strictForCondition parse c
  let (start, c) ← strictForIncrement parse start c
  let c ← parse .statement (c.beginLoop start)
  let c ← c.strictEmitLoop start
  let c ← c.strictPatchExit exitSite
  let c ← c.strictEndLoop
  c.strictEndScope

def strictBreak (c : Compiler) : Asking Compiler :=
  match c.body.loops with
  | [] => return c.report .breakOutsideLoop
  | loop :: _ => do
    let c := c.consume .semicolon (.expectedMark ";" "after 'break'")
    let c := c.leaveScopes loop
    let (site, c) ← c.strictEmitJump .jump
    return c.mapLoop fun loop => { loop with breaks := site :: loop.breaks }

def strictContinue (c : Compiler) : Asking Compiler :=
  match c.body.loops with
  | [] => return c.report .continueOutsideLoop
  | loop :: _ => do
    let c := c.consume .semicolon (.expectedMark ";" "after 'continue'")
    let c := c.leaveScopes loop
    let (site, c) ← c.strictEmitJump .loop
    return c.mapLoop fun loop => { loop with continues := site :: loop.continues }

def strictBlockStatement (bound : Nat) (c : Compiler) : Asking Compiler := do
  (← strictBlock parse bound c.beginScope).strictEndScope

def strictStatement (bound : Nat) (c : Compiler) : Asking Compiler :=
  match c.current.kind with
  | .print => strictPrint parse c.advance
  | .if => strictIf parse c.advance
  | .while => strictWhile parse c.advance
  | .for => strictFor parse c.advance
  | .return => strictReturn parse c.advance
  | .break => c.advance.strictBreak
  | .continue => c.advance.strictContinue
  | .leftBrace => strictBlockStatement parse bound c.advance
  | _ => strictExpressionStatement parse c

def strictDeclared (bound : Nat) (c : Compiler) : Asking Compiler :=
  match c.current.kind with
  | .fn => strictFunctionDeclaration parse bound c.advance
  | .var => strictVariableDeclaration parse true c.advance
  | .const => strictVariableDeclaration parse false c.advance
  | .class => return c.advance.report .unsupportedClass
  | _ => parse .statement c

def strictDeclaration (bound : Nat) (c : Compiler) : Asking Compiler := do
  let c ← strictDeclared parse bound c
  return if c.panicking then c.synchronize else c

/-! ## Programs -/

/-- Compiles a phrase in which phrases nest less than `depth` deep. -/
def strictPhrase : (depth : Nat) → StrictPhraseCompiler
  | 0, _, c => return c.giveUp
  | depth + 1, .expression least, c => strictExpressionFrom (strictPhrase depth) depth least c
  | depth + 1, .statement, c => strictStatement (strictPhrase depth) depth c
  | depth + 1, .declaration, c => strictDeclaration (strictPhrase depth) depth c

/-- Completes the script, around which there must be nothing. -/
def strictEndScript (c : Compiler) : Asking (Routine × Compiler) :=
  match c.enclosing with
  | [] => return c.endRoutine
  | _ :: _ => throw .outOfBounds

end Compiler

/-- Compiles a source text; traps where the compiler would go wrong. -/
def strictCompile (source : String) (heap : Heap) : Compiler.Asking Compilation := do
  let tokens := Token.scan source
  let depth := Compiler.depthBound tokens
  let c ← Compiler.strictRepeat (fun c => !c.check .eof)
    (Compiler.strictPhrase depth .declaration) depth (Compiler.start tokens heap).advance
  let (script, c) ← c.advance.strictEndScript
  return {
    result := if c.errors.isEmpty then .ok script else .error c.errors
    heap := c.heap
    completed := c.completed }

end StackScript
