import StackScript.Compile.Program
import StackScript.Proofs.Parsing.Balance

/-!
# Compiling never traps

The declarations and statements of the grammar are balanced as its expressions are, also
where they report errors and read on.  A routine leaves the routine around it as it found
it, for that one waits in `enclosing` meanwhile.  The theorem at the end collects what this
says of whole phrases and of whole sources.
-/

namespace StackScript
namespace Compiler

variable {c c' c'' : Compiler} {scopes loops : Nat}

/-! ## Routines -/

theorem sited_beginRoutine (sited : c.Sited) (name : Option Text) : (c.beginRoutine name).Sited where
  body := Body.sited_start name
  enclosing body mem := by
    rcases List.mem_cons.mp mem with rfl | outer
    · exact sited.body
    · exact sited.enclosing body outer

/-- Whatever happened inside a routine, completing it leads back to the one around it. -/
theorem Balanced.endRoutine {name : Option Text}
    (h : Balanced scopes loops (c.beginRoutine name) c') : Balanced 0 0 c c'.endRoutine.2 := by
  have around : c'.enclosing = c.body :: c.enclosing := h.enclosing
  rw [endRoutine_eq]
  exact balanced_of_body (by rw [around]; rfl) (by rw [around]; rfl)

/-- A computation inside a routine that is completed afterwards. -/
theorem Runs.routine {α : Type} {a : α} {name : Option Text} {start : Compiler}
    {x : Asking Compiler} {f : Compiler → Asking α}
    (before : Balanced scopes loops (start.beginRoutine name) c) (part : Runs c x c' c')
    (rest : Balanced 0 0 start c'.endRoutine.2 → Runs start (f c') a c'') :
    Runs start (x >>= f) a c'' where
  balanced := (rest (before.next part.balanced).endRoutine).balanced
  answers sited := by
    rw [part.answers (before.sited (sited_beginRoutine sited name))]
    exact (rest (before.next part.balanced).endRoutine).answers sited

section Phrases

variable {strict : StrictPhraseCompiler} {parse : PhraseCompiler}
  (hparse : ∀ p c, Runs c (strict p c) (parse p c) (parse p c))
include hparse

theorem runs_block (bound : Nat) (c : Compiler) :
    Runs c (strictBlock strict bound c) (c.block parse bound) (c.block parse bound) :=
  (runs_repeat (hparse .declaration) bound c).bind fun h =>
    .done (h.next (balanced_consume _ _ _))

theorem runs_routine (bound : Nat) (c : Compiler) :
    Runs c (strictRoutine strict bound c) (c.routine parse bound) (c.routine parse bound) := by
  refine .after (balanced_intern c c.previous.lexeme) ?_
  have opened (c : Compiler) : Balanced 1 0 c
      (((((c.beginScope).consume .leftParen (.expectedMark "(" "after function name")).parameters
        bound).consume .rightParen (.expectedMark ")" "after parameters")).consume .leftBrace
          (.expectedMark "\x7b" "before function body")) :=
    ((((balanced_beginScope c).next (balanced_consume _ _ _)).next
      (balanced_parameters _ _)).next (balanced_consume _ _ _)).next (balanced_consume _ _ _)
  exact Runs.routine (opened _) (runs_block hparse bound _) fun h =>
    .done (h.next (balanced_emitConstant _ _))

/-! ## Declarations -/

theorem runs_functionDeclaration (bound : Nat) (c : Compiler) :
    Runs c (strictFunctionDeclaration strict bound c) (c.functionDeclaration parse bound)
      (c.functionDeclaration parse bound) :=
  .after ((balanced_parseVariable c "function").next (balanced_markInitialized _)) <|
    (runs_routine hparse bound _).bind fun h => .done (h.next (balanced_defineVariable _ _ _))

theorem runs_variableDeclaration (assignable : Bool) (c : Compiler) :
    Runs c (strictVariableDeclaration strict assignable c)
      (c.variableDeclaration parse assignable) (c.variableDeclaration parse assignable) := by
  have initialized (c : Compiler) : Runs c
      (if c.check .equal then strict (.expression .assignment) c.advance else pure (c.emit .null))
      (if c.check .equal then c.advance.expression parse else c.emit .null)
      (if c.check .equal then c.advance.expression parse else c.emit .null) := by
    split
    · exact .after (balanced_advance c) (hparse _ _)
    · exact .done (balanced_emit c .null)
  exact .after (balanced_parseVariable c "variable") <| (initialized _).bind fun h =>
    .done ((h.next (balanced_consume _ _ _)).next (balanced_defineVariable _ _ _))

/-! ## Simple statements -/

theorem runs_print (c : Compiler) :
    Runs c (strictPrint strict c) (c.printStatement parse) (c.printStatement parse) :=
  (hparse _ c).bind fun h => .done ((h.next (balanced_consume _ _ _)).next (balanced_emit _ _))

theorem runs_expressionStatement (c : Compiler) :
    Runs c (strictExpressionStatement strict c) (c.expressionStatement parse)
      (c.expressionStatement parse) :=
  (hparse _ c).bind fun h => .done ((h.next (balanced_consume _ _ _)).next (balanced_emit _ _))

theorem runs_return (c : Compiler) :
    Runs c (strictReturn strict c) (c.returnStatement parse) (c.returnStatement parse) := by
  unfold strictReturn returnStatement
  split
  · exact .done ((balanced_advance c).next (balanced_emitReturn _))
  · exact (hparse _ c).bind fun h =>
      .done ((h.next (balanced_consume _ _ _)).next (balanced_emit _ _))

theorem runs_condition (word : String) (c : Compiler) :
    Runs c (strictCondition strict word c) (c.condition parse word) (c.condition parse word) :=
  .after (balanced_consume c _ _) <| (hparse _ _).bind fun h =>
    .done (h.next (balanced_consume _ _ _))

theorem runs_if (c : Compiler) :
    Runs c (strictIf strict c) (c.ifStatement parse) (c.ifStatement parse) := by
  have otherwise (c : Compiler) : Runs c
      (if c.check .else then strict .statement c.advance else pure c)
      (if c.check .else then parse .statement c.advance else c)
      (if c.check .else then parse .statement c.advance else c) := by
    split
    · exact .after (balanced_advance c) (hparse _ _)
    · exact .done (.refl c)
  refine (runs_condition hparse "if" c).bind fun h => .after h ?_
  unfold ifStatement substatement
  dsimp only
  generalize c.condition parse "if" = c
  refine Runs.jump (.refl c) fun h => ?_
  -- The jump over the first branch.
  have thenSite := here_emitJump c .jumpIfFalse
  have popped := balanced_emit (c.emitJump .jumpIfFalse) .pop
  have branch := hparse .statement ((c.emitJump .jumpIfFalse).emit .pop)
  refine branch.step (h.next popped) fun h => ?_
  have grown := popped.grows.trans branch.balanced.grows
  generalize parse .statement ((c.emitJump .jumpIfFalse).emit .pop) = d at h grown
  refine Runs.jump h fun h => ?_
  -- The jump over the second one.
  have elseSite := here_emitJump d .jump
  have reached : c.here + 3 ≤ (d.emitJump .jump).here := by omega
  have patched := runs_patchJump reached
  refine patched.step h fun h => ?_
  have dropped := balanced_emit ((d.emitJump .jump).patchJump (c.here + 1)) .pop
  have other := otherwise (((d.emitJump .jump).patchJump (c.here + 1)).emit .pop)
  have wide := (patched.balanced.grows.trans dropped.grows).trans other.balanced.grows
  have inside : d.here + 3 ≤ (d.emitJump .jump).here := by omega
  exact other.step (h.next dropped) fun h => .after h (runs_patchJump (inside.trans wide))

/-! ## Loops -/

theorem runs_while (c : Compiler) :
    Runs c (strictWhile strict c) (c.whileStatement parse) (c.whileStatement parse) := by
  have tested := runs_condition hparse "while" c
  refine tested.bind fun h => ?_
  have late := tested.balanced.grows
  unfold whileStatement
  generalize c.here = start at late ⊢
  generalize c.condition parse "while" = d at h late ⊢
  refine Runs.jump h fun h => ?_
  have exitSite := here_emitJump d .jumpIfFalse
  have popped := balanced_emit (d.emitJump .jumpIfFalse) .pop
  have behind : start ≤ ((d.emitJump .jumpIfFalse).emit .pop).here := by
    have := popped.grows
    omega
  have began := balanced_beginLoop behind
  have body := hparse .statement (((d.emitJump .jumpIfFalse).emit .pop).beginLoop start)
  refine body.step ((h.next popped).trans began) fun h => ?_
  have grown := (popped.grows.trans began.grows).trans body.balanced.grows
  have back := runs_emitLoop (behind.trans (began.grows.trans body.balanced.grows))
  refine back.step h fun h => ?_
  have wide := back.balanced.grows
  refine (runs_patchJump (by omega)).step h fun h => ?_
  exact ⟨(h.next (balanced_emit _ _)).endLoop,
    fun sited => strictEndLoop_eq ((h.next (balanced_emit _ _)).sited sited)⟩

theorem runs_forInitializer (c : Compiler) :
    Runs c (strictForInitializer strict c) (c.forInitializer parse) (c.forInitializer parse) := by
  unfold strictForInitializer forInitializer
  split
  · exact .done (balanced_advance c)
  · split
    · exact .after (balanced_advance c) (runs_variableDeclaration hparse true _)
    · split
      · exact .after (balanced_advance c) (runs_variableDeclaration hparse false _)
      · exact runs_expressionStatement hparse c

theorem runs_forCondition (c : Compiler) :
    Runs c (strictForCondition strict c) (c.forCondition parse) (c.forCondition parse).2 := by
  unfold strictForCondition forCondition
  split
  · exact .done (balanced_advance c)
  · refine (hparse _ c).bind fun h => Runs.jump (h.next (balanced_consume _ _ _)) fun h => ?_
    exact .done (h.next (balanced_emit _ _))

omit hparse in
/-- The jump out of a counting loop is written before what follows. -/
theorem exitSite_inside (c : Compiler) :
    ∀ site ∈ (c.forCondition parse).1, site + 2 ≤ (c.forCondition parse).2.here := by
  unfold forCondition
  split
  · exact fun site none => by cases none
  · intro site mem
    cases mem
    rw [here_emit, here_emitJump]
    omega

theorem runs_forIncrement {start : Nat} {c : Compiler} (behind : start ≤ c.here) :
    Runs c (strictForIncrement strict start c) (c.forIncrement parse start)
      (c.forIncrement parse start).2 := by
  unfold strictForIncrement forIncrement
  split
  · exact .done (balanced_advance c)
  · refine Runs.jump (.refl c) fun h => ?_
    have bodySite := here_emitJump c .jump
    have step := hparse (.expression .assignment) (c.emitJump .jump)
    refine step.step h fun h => ?_
    have dropped := (balanced_emit (parse (.expression .assignment) (c.emitJump .jump)) .pop).next
      (balanced_consume _ .rightParen (.expectedMark ")" "after for clauses"))
    have grown := step.balanced.grows.trans dropped.grows
    have back := runs_emitLoop (behind.trans ((show c.here ≤ (c.emitJump .jump).here by
      omega).trans grown))
    refine back.step (h.next dropped) fun h => ?_
    have inside : c.here + 3 ≤ (c.emitJump .jump).here := by omega
    exact (runs_patchJump (inside.trans (grown.trans back.balanced.grows))).step h fun h => .done h

/-- The next iteration of a counting loop begins in code that is written already. -/
theorem nextIteration_inside {start : Nat} {c : Compiler} (behind : start ≤ c.here) :
    (c.forIncrement parse start).1 ≤ (c.forIncrement parse start).2.here := by
  unfold forIncrement
  split
  · exact behind.trans (balanced_advance c).grows
  · exact (((((hparse _ _).balanced.next (balanced_emit _ _)).next
      (balanced_consume _ _ _)).next (balanced_emitLoop _ _)).next (balanced_patchJump _ _)).grows

theorem runs_for (c : Compiler) :
    Runs c (strictFor strict c) (c.forStatement parse) (c.forStatement parse) := by
  have entered := (balanced_beginScope c).next
    (balanced_consume _ .leftParen (.expectedMark "(" "after 'for'"))
  unfold forStatement substatement
  refine (runs_forInitializer hparse _).step entered fun h => ?_
  dsimp only
  generalize (c.beginScope.consume .leftParen (.expectedMark "(" "after 'for'")).forInitializer
    parse = d at h ⊢
  have tested := runs_forCondition hparse d
  refine tested.step h fun h => ?_
  have exitSite : ∀ site ∈ (d.forCondition parse).1, site + 2 ≤ (d.forCondition parse).2.here :=
    exitSite_inside d
  have late := tested.balanced.grows
  generalize d.forCondition parse = condition at h exitSite late ⊢
  have clause := runs_forIncrement hparse late
  refine clause.step h fun h => ?_
  have again := nextIteration_inside hparse late
  have later := clause.balanced.grows
  generalize condition.2.forIncrement parse d.here = increment at h again later ⊢
  have began := balanced_beginLoop again
  have body := hparse .statement (increment.2.beginLoop increment.1)
  refine body.step (h.trans began) fun h => ?_
  have grown := began.grows.trans body.balanced.grows
  have back := runs_emitLoop (again.trans grown)
  refine back.step h fun h => ?_
  have exit := runs_patchExit fun site mem =>
    (exitSite site mem).trans (later.trans (grown.trans back.balanced.grows))
  refine exit.step h fun h => Runs.closeLoop h fun h => Runs.close h

/-! ## Leaving a loop -/

end Phrases

/-- The jump that has just been written is a place that a loop may wait to have patched. -/
theorem balanced_noteBreak (c : Compiler) : Balanced 0 0 (c.emitJump .jump)
    ((c.emitJump .jump).mapLoop fun loop =>
      { loop with breaks := (c.here + 1) :: loop.breaks }) := by
  refine balanced_mapLoop fun loop places => { places with breaks := fun site mem => ?_ }
  rcases List.mem_cons.mp mem with rfl | old
  · exact Nat.le_of_eq (here_emitJump c .jump).symm
  · exact places.breaks site old

theorem balanced_noteContinue (c : Compiler) : Balanced 0 0 (c.emitJump .loop)
    ((c.emitJump .loop).mapLoop fun loop =>
      { loop with continues := (c.here + 1) :: loop.continues }) := by
  refine balanced_mapLoop fun loop places => { places with continues := fun site mem => ?_ }
  rcases List.mem_cons.mp mem with rfl | old
  · have start := places.start
    rw [here_emitJump] at start
    exact ⟨start, Nat.le_of_eq (here_emitJump c .loop).symm⟩
  · exact places.continues site old

theorem runs_break (c : Compiler) : Runs c c.strictBreak c.breakStatement c.breakStatement := by
  unfold strictBreak breakStatement
  cases c.body.loops with
  | nil => exact .done (balanced_report _ _)
  | cons loop outer =>
      exact Runs.jump ((balanced_consume c _ _).next (balanced_emitPops _ _)) fun h =>
        .done (h.next (balanced_noteBreak _))

theorem runs_continue (c : Compiler) :
    Runs c c.strictContinue c.continueStatement c.continueStatement := by
  unfold strictContinue continueStatement
  cases c.body.loops with
  | nil => exact .done (balanced_report _ _)
  | cons loop outer =>
      exact Runs.jump ((balanced_consume c _ _).next (balanced_emitPops _ _)) fun h =>
        .done (h.next (balanced_noteContinue _))

/-! ## Statements and declarations of any kind -/

section Phrases

variable {strict : StrictPhraseCompiler} {parse : PhraseCompiler}
  (hparse : ∀ p c, Runs c (strict p c) (parse p c) (parse p c))
include hparse

theorem runs_blockStatement (bound : Nat) (c : Compiler) :
    Runs c (strictBlockStatement strict bound c) (c.blockStatement parse bound)
      (c.blockStatement parse bound) :=
  (runs_block hparse bound _).step (balanced_beginScope c) fun h => Runs.close h

theorem runs_statement (bound : Nat) (c : Compiler) :
    Runs c (strictStatement strict bound c) (c.statement parse bound)
      (c.statement parse bound) := by
  have read := balanced_advance c
  unfold strictStatement statement
  cases c.current.kind with
  | print => exact .after read (runs_print hparse _)
  | «if» => exact .after read (runs_if hparse _)
  | «while» => exact .after read (runs_while hparse _)
  | «for» => exact .after read (runs_for hparse _)
  | «return» => exact .after read (runs_return hparse _)
  | «break» => exact .after read (runs_break _)
  | «continue» => exact .after read (runs_continue _)
  | leftBrace => exact .after read (runs_blockStatement hparse bound _)
  | _ => exact runs_expressionStatement hparse c

theorem runs_declaration (bound : Nat) (c : Compiler) :
    Runs c (strictDeclaration strict bound c) (c.declaration parse bound)
      (c.declaration parse bound) := by
  have calmed (c : Compiler) : Balanced 0 0 c (if c.panicking then c.synchronize else c) := by
    split
    · exact balanced_synchronize c
    · exact .refl c
  have read := balanced_advance c
  unfold strictDeclaration declaration strictDeclared
  refine Runs.bind ?_ fun h => .done (h.next (calmed _))
  cases c.current.kind with
  | fn => exact .after read (runs_functionDeclaration hparse bound _)
  | var => exact .after read (runs_variableDeclaration hparse true _)
  | const => exact .after read (runs_variableDeclaration hparse false _)
  | «class» => exact .done (read.next (balanced_report _ _))
  | _ => exact hparse .statement c

end Phrases

/-! ## Whole phrases and sources -/

/-- However deep phrases may nest, none of them traps. -/
theorem runs_phrase (depth : Nat) (p : Phrase) (c : Compiler) :
    Runs c (strictPhrase depth p c) (phrase depth p c) (phrase depth p c) := by
  induction depth generalizing p c with
  | zero => exact .done (balanced_giveUp c)
  | succ depth ih =>
      cases p with
      | expression least => exact runs_expressionFrom ih depth least c
      | statement => exact runs_statement ih depth c
      | declaration => exact runs_declaration ih depth c

theorem sited_start (tokens : List Token) (heap : Heap) : (start tokens heap).Sited where
  body := Body.sited_start none
  enclosing body mem := by cases mem

theorem runs_declarations (tokens : List Token) (heap : Heap) :
    Runs (start tokens heap) (strictRepeat (fun c => !c.check .eof)
        (strictPhrase (depthBound tokens) .declaration) (depthBound tokens)
        (start tokens heap).advance)
      (declarations tokens heap) (declarations tokens heap) :=
  .after (balanced_advance _) (runs_repeat (runs_phrase _ .declaration) _ _)

end Compiler

/-- The compiler that asks gives what the compiler gives. -/
theorem strictCompile_eq (source : String) (heap : Heap) :
    strictCompile source heap = .ok (compile source heap) := by
  have declared := Compiler.runs_declarations (Token.scan source) heap
  have around : (Compiler.declarations (Token.scan source) heap).advance.enclosing = [] :=
    (Compiler.advance_enclosing _).trans declared.balanced.enclosing
  unfold strictCompile
  dsimp only
  rw [declared.answers (Compiler.sited_start _ _), Compiler.ok_bind]
  unfold Compiler.strictEndScript
  rw [around]
  rfl

/-- Whatever the source, compiling it never traps: no difference of offsets or depths
underflows, each place that is patched lies inside the code of its routine, each slot fits
into a byte, and the script ends with no routine around it.  Each phrase, also one with
errors, leaves the scopes, the loops and the routines around it as it found them, takes back
no code, and keeps every routine within its slots and every pending jump within its code. -/
theorem compile_never_traps (source : String) (heap : Heap) :
    strictCompile source heap = .ok (compile source heap) ∧
      ∀ (depth : Nat) (p : Phrase) (c : Compiler),
        Compiler.Balanced 0 0 c (Compiler.phrase depth p c) :=
  ⟨strictCompile_eq source heap, fun depth p c => (Compiler.runs_phrase depth p c).balanced⟩

end StackScript
