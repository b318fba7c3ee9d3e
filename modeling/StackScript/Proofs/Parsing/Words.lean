import StackScript.Proofs.Parsing.Alike
import StackScript.Proofs.Parsing.Loop
import StackScript.Proofs.Recognition.Program

/-!
# The compiler sees only words

Each function of the grammar keeps states alike, whatever the tokens are, so two sources with
the same words compile to routines that cannot be told apart, or fail with the same notices.
Neither blanks and comments nor what the string table holds makes a difference.
-/

namespace StackScript
namespace Compiler

/-- Compiling any phrase keeps states alike. -/
def Blind (table table' : TextTable) (parse : PhraseCompiler) : Prop :=
  ∀ (phrase : Phrase) {c c' : Compiler}, Alike table table' c c' →
    Alike table table' (parse phrase c) (parse phrase c')

section

variable {table table' : TextTable} {c c' : Compiler} {parse : PhraseCompiler}

namespace Alike

/-! ## Variables -/

section Variables

variable (h : Alike table table' c c')
include h

theorem setLocals {f : List LocalVariable → List LocalVariable} :
    Alike table table' (c.mapBody fun body => { body with locals := f body.locals })
      (c'.mapBody fun body => { body with locals := f body.locals }) :=
  h.work (fun body => { body with locals := f body.locals })
    (fun body => { body with locals := f body.locals })
    { h.body with locals := congrArg f h.body.locals } rfl rfl rfl rfl

theorem addLocal (name : String) : Alike table table' (c.addLocal name) (c'.addLocal name) :=
  .ite (by rw [h.body.locals]) (fun _ => h.report _) fun _ => h.setLocals

theorem declares (name : String) : c.body.declares name = c'.body.declares name := by
  simp only [Body.declares, Body.localsDeeperThan, h.body.locals, h.body.depth]

theorem declareVariable : Alike table table' c.declareVariable c'.declareVariable := by
  refine .ite (by rw [h.body.depth]) (fun _ => h) fun _ => ?_
  dsimp only
  rw [h.lexeme]
  exact (Alike.ite (by rw [h.declares]) (fun _ => h.report _) fun _ => h).addLocal _

theorem parseVariable (thing : String) :
    AlikeWith table table' (c.parseVariable thing) (c'.parseVariable thing) := by
  have declared := (h.consume .identifier (.expectedName thing)).declareVariable
  refine .ite (by rw [declared.body.depth]) (fun _ => ⟨rfl, declared⟩) fun _ => ?_
  rw [declared.lexeme]
  exact declared.nameIndex _

theorem markInitialized : Alike table table' c.markInitialized c'.markInitialized := by
  have settled : c.body.settleNewest.Alike c'.body.settleNewest := by
    unfold Body.settleNewest
    rw [h.body.locals, h.body.depth]
    split
    · exact { h.body with locals := rfl, depth := rfl }
    · exact h.body
  have kept (b : Body) : b.settleNewest.name = b.name ∧
      b.settleNewest.chunk.constants = b.chunk.constants := by
    unfold Body.settleNewest
    split
    · exact ⟨rfl, rfl⟩
    · exact ⟨rfl, rfl⟩
  exact .ite (by rw [h.body.depth]) (fun _ => h) fun _ =>
    h.work _ _ settled (kept _).1 (kept _).1 (kept _).2 (kept _).2

theorem defineVariable (index : Nat) (assignable : Bool) :
    Alike table table' (c.defineVariable index assignable)
      (c'.defineVariable index assignable) := by
  have marked : Alike table table' (if assignable then c else c.emit .makeConst)
      (if assignable then c' else c'.emit .makeConst) :=
    .ite .rfl (fun _ => h) fun _ => h.emit _
  exact .ite (by rw [marked.body.depth]) (fun _ => marked.markInitialized)
    fun _ => marked.emitIndexed _ _

theorem captures (name : String) :
    c.enclosing.any (·.hasLocal name) = c'.enclosing.any (·.hasLocal name) := by
  have captured {bs bs' : List Body} (around : List.Forall₂ Body.Alike bs bs') :
      bs.any (·.hasLocal name) = bs'.any (·.hasLocal name) := by
    induction around with
    | nil => rfl
    | cons first _ ih =>
        rw [List.any_cons, List.any_cons, ih, Body.hasLocal, first.locals, Body.hasLocal]
  exact captured h.enclosing

theorem resolve (name : String) :
    AlikeWith table table' (c.resolve name) (c'.resolve name) := by
  unfold Compiler.resolve
  rw [h.body.locals]
  cases Body.findLocal name c'.body.locals with
  | some found =>
      obtain ⟨slot, var⟩ := found
      exact ⟨rfl, .ite .rfl (fun _ => h.report _) fun _ => h⟩
  | none =>
      have checked : Alike table table'
          (if c.enclosing.any (·.hasLocal name) then c.report .unsupportedClosure else c)
          (if c'.enclosing.any (·.hasLocal name) then c'.report .unsupportedClosure else c') :=
        .ite (by rw [h.captures]) (fun _ => h.report _) fun _ => h
      have named := checked.nameIndex name
      exact ⟨congrArg Target.global named.value, named.state⟩

theorem emitRead (target : Target) :
    Alike table table' (c.emitRead target) (c'.emitRead target) := by
  cases target
  · exact h.emitByte _ _
  · exact h.emitIndexed _ _

theorem emitWrite (target : Target) :
    Alike table table' (c.emitWrite target) (c'.emitWrite target) := by
  cases target
  · exact h.emitByte _ _
  · exact h.emitIndexed _ _

end Variables

/-! ## Expressions -/

section Expressions

variable (blind : Blind table table' parse)

section

include blind

theorem expression (h : Alike table table' c c') :
    Alike table table' (c.expression parse) (c'.expression parse) := blind _ h

theorem variableUse (canAssign : Bool) (h : Alike table table' c c') :
    Alike table table' (c.variableUse parse canAssign) (c'.variableUse parse canAssign) := by
  have used {c c' : Compiler} (target : Target) (h : Alike table table' c c') :
      Alike table table'
        (if canAssign && c.check .equal then (c.advance.expression parse).emitWrite target
          else c.emitRead target)
        (if canAssign && c'.check .equal then (c'.advance.expression parse).emitWrite target
          else c'.emitRead target) :=
    .ite (by rw [h.check]) (fun _ => (h.advance.expression blind).emitWrite target)
      fun _ => h.emitRead target
  have resolved := (h.resolve c'.previous.lexeme).bind used
  unfold Compiler.variableUse
  rw [h.lexeme]
  exact resolved

theorem unary (h : Alike table table' c c') :
    Alike table table' (c.unary parse) (c'.unary parse) := by
  have operand := blind (.expression .unary) h
  unfold Compiler.unary
  rw [h.previousKind]
  dsimp only
  split
  · exact operand.emit _
  · exact operand.emit _
  · exact operand

end

theorem stringLiteral (h : Alike table table' c c') :
    Alike table table' c.stringLiteral c'.stringLiteral := by
  unfold Compiler.stringLiteral
  rw [h.lexeme]
  exact h.emitString _

theorem numberLiteral (h : Alike table table' c c') :
    Alike table table' c.numberLiteral c'.numberLiteral := by
  unfold Compiler.numberLiteral
  rw [h.lexeme]
  split
  · exact h.emitNumber _
  · exact h.report _

theorem wordLiteral (h : Alike table table' c c') :
    Alike table table' c.wordLiteral c'.wordLiteral := by
  unfold Compiler.wordLiteral
  rw [h.previousKind]
  split
  · exact h.emit _
  · exact h.emit _
  · exact h.emit _
  · exact h

theorem unsupported (h : Alike table table' c c') :
    Alike table table' c.unsupported c'.unsupported := by
  unfold Compiler.unsupported
  rw [h.lexeme]
  exact h.report _

theorem emitBinary (operator : TokenKind) (h : Alike table table' c c') :
    Alike table table' (c.emitBinary operator) (c'.emitBinary operator) := by
  cases operator
  case bangEqual | greaterEqual | lessEqual => exact (h.emit _).emit _
  case equalEqual | greater | less | plus | minus | star | slash => exact h.emit _
  all_goals exact h

include blind

theorem openExpression (canAssign : Bool) (h : Alike table table' c c') (opening : Opening) :
    Alike table table' (c.openExpression parse canAssign opening)
      (c'.openExpression parse canAssign opening) := by
  cases opening with
  | grouping => exact (h.expression blind).consume _ _
  | unary => exact h.unary blind
  | «variable» => exact h.variableUse blind canAssign
  | string => exact h.stringLiteral
  | number => exact h.numberLiteral
  | literal => exact h.wordLiteral
  | unsupported => exact h.unsupported

theorem conjunction (h : Alike table table' c c') :
    Alike table table' (c.conjunction parse) (c'.conjunction parse) := by
  unfold Compiler.conjunction
  rw [h.here]
  exact (blind _ ((h.emitJump _).emit _)).patchJump _

theorem disjunction (h : Alike table table' c c') :
    Alike table table' (c.disjunction parse) (c'.disjunction parse) := by
  have skipped := h.emitJump .jumpIfFalse
  unfold Compiler.disjunction
  dsimp only
  rw [h.here, skipped.here]
  exact (blind _ (((skipped.emitJump _).patchJump _).emit _)).patchJump _

theorem argument (count : Nat) (h : Alike table table' c c') :
    AlikeWith table table' (argument parse count c) (argument parse count c') := by
  have value := h.expression blind
  exact .ite .rfl (fun _ => ⟨rfl, value.report _⟩) fun _ => ⟨rfl, value⟩

theorem moreArguments (bound count : Nat) (h : Alike table table' c c') :
    AlikeWith table table' (moreArguments parse bound count c)
      (moreArguments parse bound count c') := by
  induction bound generalizing count c c' with
  | zero => exact .ite (by rw [h.check]) (fun _ => ⟨rfl, h.giveUp⟩) fun _ => ⟨rfl, h⟩
  | succ bound ih =>
      refine .ite (by rw [h.check]) (fun _ => ?_) fun _ => ⟨rfl, h⟩
      have read := h.advance.argument blind count
      generalize Compiler.argument parse count c.advance = r at read ⊢
      generalize Compiler.argument parse count c'.advance = r' at read ⊢
      obtain ⟨count, c⟩ := r
      obtain ⟨_, c'⟩ := r'
      obtain ⟨rfl, state⟩ := read
      exact ih count state

theorem arguments (bound : Nat) (h : Alike table table' c c') :
    AlikeWith table table' (c.arguments parse bound) (c'.arguments parse bound) := by
  have listed : AlikeWith table table'
      (if c.check .rightParen then (0, c) else
        Compiler.moreArguments parse bound (Compiler.argument parse 0 c).1
          (Compiler.argument parse 0 c).2)
      (if c'.check .rightParen then (0, c') else
        Compiler.moreArguments parse bound (Compiler.argument parse 0 c').1
          (Compiler.argument parse 0 c').2) := by
    refine .ite (by rw [h.check]) (fun _ => ⟨rfl, h⟩) fun _ => ?_
    have first := h.argument blind 0
    rw [first.value]
    exact first.state.moreArguments blind bound _
  exact ⟨listed.value, listed.state.consume _ _⟩

theorem continueOnce (bound : Nat) (h : Alike table table' c c') :
    Alike table table' (continueOnce parse bound c) (continueOnce parse bound c') := by
  have read := h.advance
  unfold Compiler.continueOnce
  dsimp only
  rw [read.previousKind]
  cases c'.advance.previous.kind.continuation? with
  | none => exact read
  | some continuation =>
      cases continuation with
      | binary =>
          show Alike table table' (c.advance.binary parse) (c'.advance.binary parse)
          unfold Compiler.binary
          rw [read.previousKind]
          exact (blind _ read).emitBinary _
      | and => exact read.conjunction blind
      | or => exact read.disjunction blind
      | call => exact (read.arguments blind bound).bind fun count h => h.emitByte _ count
      | unsupported => exact read.unsupported

theorem expressionFrom (bound : Nat) (least : Precedence) (h : Alike table table' c c') :
    Alike table table' (c.expressionFrom parse bound least)
      (c'.expressionFrom parse bound least) := by
  have read := h.advance
  unfold Compiler.expressionFrom
  dsimp only
  rw [read.previousKind]
  split
  · exact read.report _
  · rename_i opening _
    have begun := read.openExpression blind (least.admits .assignment) opening
    have whole := repeatWhile (fun c => least.admits c.current.kind.precedence)
      (fun h => by rw [h.kind]) (fun h => h.continueOnce blind bound) bound begun
    exact .ite (by rw [whole.check]) (fun _ => whole.advance.report _) fun _ => whole

end Expressions

/-! ## Statements -/

section Statements

theorem parameter (h : Alike table table' c c') :
    Alike table table' c.parameter c'.parameter := by
  have counted : Alike table table'
      (c.mapBody fun body => { body with arity := body.arity + 1 })
      (c'.mapBody fun body => { body with arity := body.arity + 1 }) :=
    h.work (fun body => { body with arity := body.arity + 1 })
      (fun body => { body with arity := body.arity + 1 })
      { h.body with arity := congrArg (· + 1) h.body.arity } rfl rfl rfl rfl
  have checked : Alike table table' _ _ :=
    .ite (p := maxArity < (c.mapBody fun body => { body with arity := body.arity + 1 }).body.arity)
      (by rw [counted.body.arity]) (fun _ => counted.reportCurrent .tooManyParameters)
      fun _ => counted
  exact (checked.parseVariable "parameter").bind fun index h => h.defineVariable index true

theorem parameters (bound : Nat) (h : Alike table table' c c') :
    Alike table table' (c.parameters bound) (c'.parameters bound) :=
  .ite (by rw [h.check]) (fun _ => h) fun _ =>
    repeatWhile (·.check .comma) (fun h => h.check .comma) (fun h => h.advance.parameter) bound h.parameter

theorem leaveScopes (loop : LoopRecord) (h : Alike table table' c c') :
    Alike table table' (c.leaveScopes loop) (c'.leaveScopes loop) := by
  unfold Compiler.leaveScopes Body.localsDeeperThan
  rw [h.body.locals]
  exact emitPops _ h

theorem breakStatement (h : Alike table table' c c') :
    Alike table table' c.breakStatement c'.breakStatement := by
  unfold Compiler.breakStatement
  rw [h.body.loops]
  cases c'.body.loops with
  | nil => exact h.report _
  | cons loop _ =>
      have left := (h.consume .semicolon (.expectedMark ";" "after 'break'")).leaveScopes loop
      dsimp only
      rw [left.here]
      exact (left.emitJump .jump).mapLoop _

theorem continueStatement (h : Alike table table' c c') :
    Alike table table' c.continueStatement c'.continueStatement := by
  unfold Compiler.continueStatement
  rw [h.body.loops]
  cases c'.body.loops with
  | nil => exact h.report _
  | cons loop _ =>
      have left := (h.consume .semicolon (.expectedMark ";" "after 'continue'")).leaveScopes loop
      dsimp only
      rw [left.here]
      exact (left.emitJump .loop).mapLoop _

variable (blind : Blind table table' parse)
include blind

theorem block (bound : Nat) (h : Alike table table' c c') :
    Alike table table' (c.block parse bound) (c'.block parse bound) :=
  (repeatWhile (fun c => !c.check .rightBrace && !c.check .eof)
    (fun h => by rw [h.check, h.check]) (blind .declaration) bound h).consume _ _

theorem routine (bound : Nat) (h : Alike table table' c c') :
    Alike table table' (c.routine parse bound) (c'.routine parse bound) := by
  have named := h.intern c'.previous.lexeme
  have begun := (named.beginRoutine (h.chars _) (h.orderly.valid.has_intern _)
    (h.orderly'.valid.has_intern _)).beginScope
  have closed := ((begun.consume .leftParen (.expectedMark "(" "after function name")).parameters
    bound).consume .rightParen (.expectedMark ")" "after parameters")
  have whole := (closed.consume .leftBrace
    (.expectedMark "\x7b" "before function body")).block blind bound
  unfold Compiler.routine
  rw [h.lexeme]
  exact whole.endRoutine.1.emitRoutine whole.endRoutine.2 (fresh_endRoutine whole.orderly)
    (fresh_endRoutine whole.orderly')

theorem functionDeclaration (bound : Nat) (h : Alike table table' c c') :
    Alike table table' (c.functionDeclaration parse bound)
      (c'.functionDeclaration parse bound) :=
  (h.parseVariable "function").bind fun index h =>
    (h.markInitialized.routine blind bound).defineVariable index true

theorem variableDeclaration (assignable : Bool) (h : Alike table table' c c') :
    Alike table table' (c.variableDeclaration parse assignable)
      (c'.variableDeclaration parse assignable) := by
  have initialized {c c' : Compiler} (h : Alike table table' c c') : Alike table table'
      (if c.check .equal then c.advance.expression parse else c.emit .null)
      (if c'.check .equal then c'.advance.expression parse else c'.emit .null) :=
    .ite (by rw [h.check]) (fun _ => h.advance.expression blind) fun _ => h.emit _
  exact (h.parseVariable "variable").bind fun index h =>
    ((initialized h).consume .semicolon
      (.expectedMark ";" "after variable declaration")).defineVariable index assignable

theorem substatement (h : Alike table table' c c') :
    Alike table table' (c.substatement parse) (c'.substatement parse) := blind _ h

theorem expressionStatement (h : Alike table table' c c') :
    Alike table table' (c.expressionStatement parse) (c'.expressionStatement parse) :=
  ((h.expression blind).consume _ _).emit _

theorem returnStatement (h : Alike table table' c c') :
    Alike table table' (c.returnStatement parse) (c'.returnStatement parse) :=
  .ite (by rw [h.check]) (fun _ => h.advance.emitReturn)
    fun _ => ((h.expression blind).consume _ _).emit _

theorem condition (word : String) (h : Alike table table' c c') :
    Alike table table' (c.condition parse word) (c'.condition parse word) :=
  ((h.consume _ _).expression blind).consume _ _

theorem ifStatement (h : Alike table table' c c') :
    Alike table table' (c.ifStatement parse) (c'.ifStatement parse) := by
  have tested := h.condition blind "if"
  have first := ((tested.emitJump .jumpIfFalse).emit .pop).substatement blind
  unfold Compiler.ifStatement
  dsimp only
  rw [tested.here, first.here]
  have skipped := ((first.emitJump .jump).patchJump
    ((c'.condition parse "if").here + 1)).emit .pop
  exact (Alike.ite (by rw [skipped.check]) (fun _ => skipped.advance.substatement blind)
    fun _ => skipped).patchJump _

theorem whileStatement (h : Alike table table' c c') :
    Alike table table' (c.whileStatement parse) (c'.whileStatement parse) := by
  have tested := h.condition blind "while"
  have looped := ((((tested.emitJump .jumpIfFalse).emit .pop).beginLoop
    c'.here).substatement blind).emitLoop c'.here
  unfold Compiler.whileStatement
  dsimp only
  rw [tested.here, h.here]
  exact ((looped.patchJump _).emit _).endLoop

theorem forInitializer (h : Alike table table' c c') :
    Alike table table' (c.forInitializer parse) (c'.forInitializer parse) :=
  .ite (by rw [h.check]) (fun _ => h.advance) fun _ =>
    .ite (by rw [h.check]) (fun _ => h.advance.variableDeclaration blind true) fun _ =>
      .ite (by rw [h.check]) (fun _ => h.advance.variableDeclaration blind false)
        fun _ => h.expressionStatement blind

theorem forCondition (h : Alike table table' c c') :
    AlikeWith table table' (c.forCondition parse) (c'.forCondition parse) := by
  have tested := (h.expression blind).consume .semicolon
    (.expectedMark ";" "after loop condition")
  refine .ite (by rw [h.check]) (fun _ => ⟨rfl, h.advance⟩) fun _ => ⟨?_, ?_⟩
  · exact congrArg (fun offset => some (offset + 1)) tested.here
  · exact (tested.emitJump _).emit _

theorem forIncrement (start : Nat) (h : Alike table table' c c') :
    AlikeWith table table' (c.forIncrement parse start) (c'.forIncrement parse start) := by
  have jumped := h.emitJump .jump
  have stepped := ((jumped.expression blind).emit .pop).consume .rightParen
    (.expectedMark ")" "after for clauses")
  refine .ite (by rw [h.check]) (fun _ => ⟨rfl, h.advance⟩) fun _ => ⟨jumped.here, ?_⟩
  dsimp only
  rw [h.here]
  exact (stepped.emitLoop start).patchJump _

theorem forStatement (h : Alike table table' c c') :
    Alike table table' (c.forStatement parse) (c'.forStatement parse) := by
  have looped {c c' : Compiler} (exitSite : Option Nat) (start : Nat)
      (h : Alike table table' c c') : Alike table table'
        (leaveTest exitSite (((c.beginLoop start).substatement parse).emitLoop start))
        (leaveTest exitSite (((c'.beginLoop start).substatement parse).emitLoop start)) := by
    have turned := ((h.beginLoop start).substatement blind).emitLoop start
    cases exitSite with
    | none => exact turned
    | some site => exact (turned.patchJump site).emit .pop
  have begun := (h.beginScope.consume .leftParen
    (.expectedMark "(" "after 'for'")).forInitializer blind
  unfold Compiler.forStatement
  dsimp only
  rw [begun.here]
  exact (begun.forCondition blind).bind fun exitSite h =>
    (h.forIncrement blind _).bind fun start h => (looped exitSite start h).endLoop.endScope

theorem blockStatement (bound : Nat) (h : Alike table table' c c') :
    Alike table table' (c.blockStatement parse bound) (c'.blockStatement parse bound) :=
  (h.beginScope.block blind bound).endScope

theorem statement (bound : Nat) (h : Alike table table' c c') :
    Alike table table' (c.statement parse bound) (c'.statement parse bound) := by
  have read := h.advance
  unfold Compiler.statement
  rw [h.kind]
  split
  · exact ((read.expression blind).consume _ _).emit _
  · exact read.ifStatement blind
  · exact read.whileStatement blind
  · exact read.forStatement blind
  · exact read.returnStatement blind
  · exact read.breakStatement
  · exact read.continueStatement
  · exact read.blockStatement blind bound
  · exact h.expressionStatement blind

theorem declaration (bound : Nat) (h : Alike table table' c c') :
    Alike table table' (c.declaration parse bound) (c'.declaration parse bound) := by
  have read := h.advance
  unfold Compiler.declaration
  rw [h.kind]
  extract_lets d d'
  have declared : Alike table table' d d' := by
    unfold d d'
    split
    · exact read.functionDeclaration blind bound
    · exact read.variableDeclaration blind true
    · exact read.variableDeclaration blind false
    · exact read.report _
    · exact h.substatement blind
  exact .ite (by rw [declared.panicking]) (fun _ => declared.synchronize) fun _ => declared

end Statements

end Alike

theorem blind_phrase (depth : Nat) : Blind table table' (phrase depth) := by
  induction depth with
  | zero => exact fun _ _ _ h => h.giveUp
  | succ depth ih =>
      intro form c c' h
      cases form with
      | expression least => exact h.expressionFrom ih depth least
      | statement => exact h.statement ih depth
      | declaration => exact h.declaration ih depth

end

/-! ## Whole sources -/

section

variable {source source' : String} {heap heap' : Heap}

theorem alike_start (words : (Token.scan source).map Token.word = (Token.scan source').map Token.word)
    (valid : heap.Valid) (valid' : heap'.Valid) :
    Alike heap.texts heap'.texts (start (Token.scan source) heap)
      (start (Token.scan source') heap') where
  current := rfl
  previous := rfl
  unread := words
  panicking := rfl
  errors := rfl
  body := Body.alike_start rfl
  enclosing := .nil
  exhausted := rfl
  texts := ⟨[], rfl, rfl⟩
  orderly := ⟨valid, Body.owned_start (by simp), by simp [start]⟩
  orderly' := ⟨valid', Body.owned_start (by simp), by simp [start]⟩

theorem alike_closing (words : (Token.scan source).map Token.word = (Token.scan source').map Token.word)
    (valid : heap.Valid) (valid' : heap'.Valid) :
    Alike heap.texts heap'.texts (closing source heap) (closing source' heap') := by
  have length : (Token.scan source).length = (Token.scan source').length := by
    simpa using congrArg List.length words
  have opened := (alike_start words valid valid').advance
  unfold closing declarations depthBound
  dsimp only
  rw [length]
  exact (Alike.repeatWhile (fun c => !c.check .eof) (fun h => by rw [h.check])
    (blind_phrase _ .declaration) _ opened).advance

end

end Compiler

/-- What an error says: where it was noticed, and the message. -/
def CompileError.says (e : CompileError) : ErrorLocation × String := (e.location, e.message)

/-- Two results of compiling are the same but for lines, spans and identities. -/
inductive Compilation.Alike (r r' : Compilation) : Prop
  | compiled {script script' : Routine} (ok : r.result = .ok script) (ok' : r'.result = .ok script')
      (same : script.outline = script'.outline)
  | failed {errors errors' : Array CompileError} (error : r.result = .error errors)
      (error' : r'.result = .error errors')
      (same : errors.toList.map CompileError.says = errors'.toList.map CompileError.says)

namespace Compiler

/-- Sources with the same words compile to the same code, or fail with the same messages,
whatever strings have been interned before. -/
theorem words_decide {source source' : String} {heap heap' : Heap} (valid : heap.Valid)
    (valid' : heap'.Valid)
    (words : (Token.scan source).map Token.word = (Token.scan source').map Token.word) :
    (compile source heap).Alike (compile source' heap') := by
  have closed := alike_closing words valid valid'
  have size : (closing source heap).errors.isEmpty = (closing source' heap').errors.isEmpty := by
    rw [← Array.isEmpty_toList, ← Array.isEmpty_toList,
      ← List.isEmpty_map (f := CompileError.notice), closed.errors, List.isEmpty_map]
  rw [compile_eq, compile_eq]
  by_cases none : (closing source heap).errors.isEmpty
  · exact .compiled (if_pos none) (if_pos (size ▸ none)) closed.endRoutine.2
  · refine .failed (if_neg none) (if_neg (size ▸ none)) ?_
    have said := congrArg (List.map fun notice => (notice.1, notice.2.message)) closed.errors
    rw [List.map_map, List.map_map] at said
    exact said

/-- A program written on one line and spread over several, with and without comments. -/
theorem words_decide_sample :
    (Token.scan "fn f(a) \x7b return a; \x7d print f(\"x\");").map Token.word =
      (Token.scan "fn f(a) \x7b // same\n return a; \x7d\n\nprint f ( \"x\" ) ;").map Token.word ∧
    (compile "fn f(a) \x7b return a; \x7d print f(\"x\");" .empty).Alike
      (compile "fn f(a) \x7b // same\n return a; \x7d\n\nprint f ( \"x\" ) ;"
        (Heap.empty.intern "x").2) := by
  have words : (Token.scan "fn f(a) \x7b return a; \x7d print f(\"x\");").map Token.word =
      (Token.scan "fn f(a) \x7b // same\n return a; \x7d\n\nprint f ( \"x\" ) ;").map Token.word := by
    decide +kernel
  exact ⟨words, words_decide Heap.valid_empty (Heap.valid_empty.intern "x") words⟩

/-! ## Strings -/

/-- Compiling a source looks up the same strings in any table. -/
theorem compile_texts (source : String) {heap : Heap} (valid : heap.Valid) :
    ∃ ts, (compile source heap).heap.texts = heap.texts.internAll ts ∧
      (compile source .empty).heap.texts = TextTable.empty.internAll ts := by
  obtain ⟨ts, here, there⟩ := (alike_closing rfl valid Heap.valid_empty).endRoutine.1.texts
  rw [compile_eq, compile_eq]
  exact ⟨ts, here, there⟩

/-- The strings of a script are those of the table. -/
theorem has_script {source : String} {heap : Heap} {script : Routine} (valid : heap.Valid)
    (ok : (compile source heap).result = .ok script) :
    ∀ t ∈ script.texts, (compile source heap).heap.Has t := by
  have made : Alike.Fresh (closing source heap).endRoutine.1 (closing source heap).endRoutine.2 :=
    Alike.fresh_endRoutine (alike_closing rfl valid Heap.valid_empty).orderly
  rw [compile_eq] at ok ⊢
  dsimp only at ok
  split at ok
  · cases ok
    exact made.owns.texts
  · cases ok

end Compiler
end StackScript
