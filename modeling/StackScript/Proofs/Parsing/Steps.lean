import Mathlib
import StackScript.Proofs.Code.Assembly
import StackScript.Proofs.Code.Lines
import StackScript.Proofs.Parsing.Stream

/-!
# What the compiler does in one step

Every function of the compiler is made of a few kinds of steps: it reads a token,
reports, enters a string or a constant, works on the innermost routine, or begins
or ends a routine.  An `Act` is a step that also keeps the landing of the last patched
jump inside the code, writes no line but that of the token read last, makes constants of
no routines but completed ones, and reports syntax errors only where tokens are read.  Each
function is followed by its `acts_` lemma, up to `acts_phrase`; what no step destroys,
no phrase destroys, however it is nested and however many errors it has.
-/

namespace StackScript

/-- A string is in its table after it has been looked up there. -/
theorem TextTable.intern_entry (table : TextTable) (chars : String) :
    (table.intern chars).2.entries[chars]? = some (table.intern chars).1 := by
  unfold intern
  split
  · assumption
  · simp

/-- The constants that the compiler makes: numbers written in the source, strings
of the heap, and routines. -/
inductive Heap.Made (heap : Heap) : Value → Prop where
  | number {lexeme : String} {x : Float} (literal : Number.ofLiteral? lexeme = some x) :
      heap.Made (.number x)
  | string {chars : String} {text : Text} (entry : heap.texts.entries[chars]? = some text) :
      heap.Made (.string text)
  | routine (r : Routine) : heap.Made (.routine r)

/-- A problem of a program whose syntax is right. -/
def Problem.isStatic : Problem → Bool
  | redeclared _ | selfReference | unsupportedClosure | breakOutsideLoop | continueOutsideLoop
  | tooManyLocals | tooManyParameters | tooManyArguments | tooManyConstants | jumpTooFar
  | loopTooLarge => true
  | _ => false

/-- No jump has been patched to lead behind the code. -/
def Body.Grounded (body : Body) : Prop := ∀ target ∈ body.landing, target ≤ body.chunk.size

theorem Body.Grounded.grow {body body' : Body} (h : body.Grounded)
    (landing : body'.landing = body.landing) (size : body.chunk.size ≤ body'.chunk.size) :
    body'.Grounded := by
  intro target mem
  rw [landing] at mem
  exact Nat.le_trans (h target mem) size

namespace Compiler

/-- One step of the compiler.  Only a step of a `reading` stretch reads a token. -/
inductive Step : (reading : Bool) → Compiler → Compiler → Prop where
  | read (c : Compiler) : Step true c c.advance
  | report {reading : Bool} (c : Compiler) (token : Token) (problem : Problem) :
      Step reading c (c.reportAt token problem)
  | giveUp {reading : Bool} (c : Compiler) : Step reading c c.giveUp
  | recover {reading : Bool} (c : Compiler) : Step reading c { c with panicking := false }
  | intern {reading : Bool} (c : Compiler) (chars : String) : Step reading c (c.intern chars).2
  | constant {reading : Bool} (c : Compiler) {value : Value} (made : c.heap.Made value) :
      Step reading c (c.mapBody (·.mapChunk fun _ => (c.body.chunk.addConstant value).2))
  /-- Work on the innermost routine that leaves its constants alone and does not
  give it too many locals. -/
  | work {reading : Bool} (c : Compiler) {f : Body → Body}
      (constants : (f c.body).chunk.constants = c.body.chunk.constants)
      (locals : c.body.locals.length ≤ Body.maxLocals →
        (f c.body).locals.length ≤ Body.maxLocals) :
      Step reading c (c.mapBody f)
  | beginRoutine {reading : Bool} (c : Compiler) (name : Option Text) :
      Step reading c (c.beginRoutine name)
  | endRoutine {reading : Bool} (c : Compiler) : Step reading c c.endRoutine.2

/-- Any number of steps. -/
abbrev Steps (reading : Bool) : Compiler → Compiler → Prop := Relation.ReflTransGen (Step reading)

variable {reading : Bool}

/-- A preorder that contains every step contains every sequence of steps. -/
theorem Steps.lift {R : Compiler → Compiler → Prop} (refl : ∀ c, R c c)
    (trans : ∀ {a b c}, R a b → R b c → R a c) (step : ∀ {c c'}, Step reading c c' → R c c')
    {c c' : Compiler} (h : Steps reading c c') : R c c' := by
  induction h with
  | refl => exact refl c
  | tail _ last ih => exact trans ih (step last)

/-- What no step destroys is there after any number of steps. -/
theorem Steps.preserve {P : Compiler → Prop}
    (step : ∀ {c c'}, Step reading c c' → P c → P c') {c c' : Compiler}
    (h : Steps reading c c') : P c → P c' :=
  h.lift (R := fun c c' => P c → P c') (fun _ => id) (fun hab hbc => hbc ∘ hab) step

/-- The chunk of the innermost routine once it is completed. -/
def finished (c : Compiler) : Chunk :=
  (if c.body.endsWithReturn then c else c.emitReturn).body.chunk

/-- Completing a routine allocates it and goes back to the one around it. -/
theorem endRoutine_eq (c : Compiler) :
    let built := c.heap.allocate c.body.name c.body.arity c.finished
    c.endRoutine = (built.1, { c with
      heap := built.2, completed := c.completed.push built.1
      body := c.enclosing.headD (.start none), enclosing := c.enclosing.tail }) := by
  have completed (ends : Bool) : ∃ chunk lastOpcode, (if ends then c else c.emitReturn) =
      { c with body := { c.body with chunk, lastOpcode } } := by
    cases ends
    · exact ⟨_, _, rfl⟩
    · exact ⟨_, _, rfl⟩
  obtain ⟨chunk, last, same⟩ := completed c.body.endsWithReturn
  obtain ⟨current, previous, unread, panicking, errors, heap, body, enclosing, completed,
    exhausted⟩ := c
  unfold endRoutine finished
  rw [same]
  cases enclosing <;> rfl

theorem endRoutine_frame (c : Compiler) :
    c.endRoutine.2.current = c.current ∧ c.endRoutine.2.previous = c.previous ∧
      c.endRoutine.2.unread = c.unread ∧ c.endRoutine.2.errors = c.errors ∧
      c.endRoutine.2.panicking = c.panicking ∧ c.endRoutine.2.exhausted = c.exhausted := by
  rw [endRoutine_eq]
  exact ⟨rfl, rfl, rfl, rfl, rfl, rfl⟩

theorem Step.still {c c' : Compiler} (h : Step false c c') :
    c'.current = c.current ∧ c'.previous = c.previous ∧ c'.unread = c.unread := by
  cases h with
  | report => simp
  | giveUp | recover | intern | constant | work | beginRoutine => exact ⟨rfl, rfl, rfl⟩
  | endRoutine =>
      obtain ⟨current, previous, unread, -⟩ := endRoutine_frame c
      exact ⟨current, previous, unread⟩

/-- A stretch that does not read stays at its token. -/
theorem Steps.still {c c' : Compiler} (h : Steps false c c') :
    c'.current = c.current ∧ c'.previous = c.previous ∧ c'.unread = c.unread := by
  refine h.lift (R := fun c c' => c'.current = c.current ∧ c'.previous = c.previous ∧
    c'.unread = c.unread) (fun _ => ⟨rfl, rfl, rfl⟩) ?_ Step.still
  rintro a b c ⟨current, previous, unread⟩ ⟨current', previous', unread'⟩
  exact ⟨current'.trans current, previous'.trans previous, unread'.trans unread⟩

theorem Steps.stream {c c' : Compiler} (h : Steps false c c') : c'.stream = c.stream := by
  obtain ⟨current, -, unread⟩ := h.still
  rw [Compiler.stream, Compiler.stream, current, unread]

/-! ## Acts -/

/-- What the compiler makes a constant of: numbers written in the source, strings of the
heap, and routines that are complete. -/
inductive Made (c : Compiler) : Value → Prop where
  | number {lexeme : String} {x : Float} (literal : Number.ofLiteral? lexeme = some x) :
      c.Made (.number x)
  | string {chars : String} {text : Text} (entry : c.heap.texts.entries[chars]? = some text) :
      c.Made (.string text)
  | routine {r : Routine} (complete : r ∈ c.completed) : c.Made (.routine r)

theorem Made.heap {c : Compiler} {value : Value} (h : c.Made value) : c.heap.Made value := by
  cases h with
  | number literal => exact .number literal
  | string entry => exact .string entry
  | routine => exact .routine _

/-- A routine has been completed when its end has been compiled. -/
theorem made_endRoutine (c : Compiler) : c.endRoutine.2.Made (.routine c.endRoutine.1) := by
  refine .routine ?_
  rw [endRoutine_eq]
  exact Array.mem_push_self

/-- One step of the compiler, as its functions take them.  Only a `reading` stretch reads
a token, reports a syntax error or runs into a bound; the others report, if at all, at one
of the two tokens at hand. -/
inductive Act : (reading : Bool) → Compiler → Compiler → Prop where
  | read (c : Compiler) : Act true c c.advance
  | complain (c : Compiler) (token : Token) (problem : Problem) :
      Act true c (c.reportAt token problem)
  | report {reading : Bool} (c : Compiler) {token : Token} {problem : Problem}
      (near : token = c.previous ∨ token = c.current) (static : problem.isStatic = true) :
      Act reading c (c.reportAt token problem)
  | giveUp (c : Compiler) : Act true c c.giveUp
  | recover (c : Compiler) : Act true c { c with panicking := false }
  | intern {reading : Bool} (c : Compiler) (chars : String) : Act reading c (c.intern chars).2
  | constant {reading : Bool} (c : Compiler) {value : Value} (made : c.Made value) :
      Act reading c (c.mapBody (·.mapChunk fun _ => (c.body.chunk.addConstant value).2))
  | work {reading : Bool} (c : Compiler) {f : Body → Body}
      (constants : (f c.body).chunk.constants = c.body.chunk.constants)
      (locals : c.body.locals.length ≤ Body.maxLocals →
        (f c.body).locals.length ≤ Body.maxLocals)
      (grounded : c.body.Grounded → (f c.body).Grounded)
      (lined : ∀ {known : Nat → Prop}, known c.line → c.body.chunk.Lined known →
        (f c.body).chunk.Lined known) : Act reading c (c.mapBody f)
  | beginRoutine {reading : Bool} (c : Compiler) (name : Option Text) :
      Act reading c (c.beginRoutine name)
  | endRoutine {reading : Bool} (c : Compiler) : Act reading c c.endRoutine.2

/-- Any number of acts. -/
abbrev Acts (reading : Bool) : Compiler → Compiler → Prop := Relation.ReflTransGen (Act reading)

theorem Act.step {c c' : Compiler} (h : Act reading c c') : Step reading c c' := by
  cases h with
  | read => exact .read _
  | complain | report => exact .report ..
  | giveUp => exact .giveUp _
  | recover => exact .recover _
  | intern => exact .intern ..
  | constant _ made => exact .constant _ made.heap
  | work _ constants locals => exact .work _ constants locals
  | beginRoutine => exact .beginRoutine ..
  | endRoutine => exact .endRoutine _

theorem Act.acts {c c' : Compiler} (h : Act reading c c') : Acts reading c c' := .single h

theorem Acts.steps {c c' : Compiler} (h : Acts reading c c') : Steps reading c c' :=
  Relation.ReflTransGen.mono (fun _ _ => Act.step) _ _ h

/-- A preorder that contains every act contains every sequence of acts. -/
theorem Acts.lift {R : Compiler → Compiler → Prop} (refl : ∀ c, R c c)
    (trans : ∀ {a b c}, R a b → R b c → R a c) (act : ∀ {c c'}, Act reading c c' → R c c')
    {c c' : Compiler} (h : Acts reading c c') : R c c' := by
  induction h with
  | refl => exact refl c
  | tail _ last ih => exact trans ih (act last)

/-- What no act destroys is there after any number of acts. -/
theorem Acts.preserve {P : Compiler → Prop}
    (act : ∀ {c c'}, Act reading c c' → P c → P c') {c c' : Compiler}
    (h : Acts reading c c') : P c → P c' :=
  h.lift (R := fun c c' => P c → P c') (fun _ => id) (fun hab hbc => hbc ∘ hab) act

/-- A stretch that does not read may be taken for one that does. -/
theorem Acts.toReading {c c' : Compiler} (h : Acts false c c') : Acts reading c c' := by
  refine Relation.ReflTransGen.mono (fun _ _ act => ?_) _ _ h
  cases act with
  | report _ near static => exact .report _ near static
  | intern => exact .intern ..
  | constant _ made => exact .constant _ made
  | work _ constants locals grounded lined => exact .work _ constants locals grounded lined
  | beginRoutine => exact .beginRoutine ..
  | endRoutine => exact .endRoutine _

theorem Acts.stream {c c' : Compiler} (h : Acts false c c') : c'.stream = c.stream :=
  h.steps.stream

/-! ## Reading and reporting -/

theorem acts_report (c : Compiler) {problem : Problem} (static : problem.isStatic = true) :
    Acts reading c (c.report problem) := (Act.report c (.inl rfl) static).acts

theorem acts_complain (c : Compiler) (problem : Problem) : Acts true c (c.report problem) :=
  (Act.complain c _ problem).acts

theorem acts_advance (c : Compiler) : Acts true c c.advance := (Act.read c).acts

theorem acts_consume (c : Compiler) (kind : TokenKind) (problem : Problem) :
    Acts true c (c.consume kind problem) := by
  unfold consume
  split
  · exact acts_advance c
  · exact (Act.complain c _ problem).acts

theorem acts_giveUp (c : Compiler) : Acts true c c.giveUp := (Act.giveUp c).acts

theorem acts_repeatWhile {more : Compiler → Bool} {step : Compiler → Compiler}
    (hstep : ∀ c, Acts true c (step c)) (bound : Nat) (c : Compiler) :
    Acts true c (repeatWhile more step bound c) := by
  induction bound generalizing c with
  | zero =>
      unfold repeatWhile
      split
      · exact acts_giveUp c
      · exact .refl
  | succ bound ih =>
      unfold repeatWhile
      split
      · exact (hstep c).trans (ih _)
      · exact .refl

theorem acts_skipToStatement (c : Compiler) : Acts true c c.skipToStatement := by
  fun_induction skipToStatement c with
  | case1 => exact .refl
  | case2 => exact .refl
  | case3 c _ _ ih => exact (acts_advance c).trans ih

theorem acts_synchronize (c : Compiler) : Acts true c c.synchronize :=
  (Act.recover c).acts.trans (acts_skipToStatement _)

/-- Work on the innermost routine that touches neither constants nor locals, and takes
back no code. -/
theorem acts_work (c : Compiler) {f : Body → Body}
    (constants : (f c.body).chunk.constants = c.body.chunk.constants)
    (locals : (f c.body).locals = c.body.locals) (landing : (f c.body).landing = c.body.landing)
    (size : c.body.chunk.size ≤ (f c.body).chunk.size)
    (lined : ∀ {known : Nat → Prop}, known c.line → c.body.chunk.Lined known →
      (f c.body).chunk.Lined known) : Acts reading c (c.mapBody f) :=
  (Act.work c constants (by rw [locals]; exact id) (fun h => h.grow landing size) lined).acts

/-- Work on the innermost routine that does not touch its code. -/
theorem acts_aside (c : Compiler) {f : Body → Body} (chunk : (f c.body).chunk = c.body.chunk)
    (locals : (f c.body).locals = c.body.locals) (landing : (f c.body).landing = c.body.landing) :
    Acts reading c (c.mapBody f) :=
  acts_work c (by rw [chunk]) locals landing (Nat.le_of_eq (by rw [chunk])) fun _ h => chunk ▸ h

/-! ## Writing code -/

theorem acts_emit (c : Compiler) (op : Opcode) : Acts reading c (c.emit op) := by
  unfold emit
  exact acts_work _ (Chunk.writeOpcode_constants _ _ _) rfl rfl (Chunk.size_writeOpcode ..)
    fun line h => h.writeOpcode op line

theorem acts_emitWord (c : Compiler) (width word : Nat) : Acts reading c (c.emitWord width word) := by
  unfold emitWord
  exact acts_work _ (Chunk.writeWord_constants _ _ _ _) rfl rfl (Chunk.size_writeWord ..)
    fun line h => h.writeWord width word line

theorem acts_emitByte (c : Compiler) (op : Opcode) (operand : Nat) :
    Acts reading c (c.emitByte op operand) := (acts_emit _ _).trans (acts_emitWord _ _ _)

theorem acts_emitIndexed (c : Compiler) (op : Opcode) (index : Nat) :
    Acts reading c (c.emitIndexed op index) := by
  unfold emitIndexed
  split
  · exact acts_emitByte _ _ _
  · exact (acts_emit _ _).trans (acts_emitWord _ _ _)

theorem acts_emitReturn (c : Compiler) : Acts reading c c.emitReturn :=
  (acts_emit _ _).trans (acts_emit _ _)

theorem acts_constantIndex (c : Compiler) {value : Value} (made : c.Made value) :
    Acts reading c (c.constantIndex value).2 := by
  have pooled : Acts reading c
      (c.mapBody (·.mapChunk fun _ => (c.body.chunk.addConstant value).2)) :=
    (Act.constant c made).acts
  unfold constantIndex
  dsimp only
  split
  · exact pooled
  · exact pooled.trans (acts_report _ rfl)

theorem acts_emitConstant (c : Compiler) {value : Value} (made : c.Made value) :
    Acts reading c (c.emitConstant value) :=
  (acts_constantIndex c made).trans (acts_emitIndexed _ _ _)

theorem acts_intern (c : Compiler) (chars : String) : Acts reading c (c.intern chars).2 :=
  (Act.intern c chars).acts

/-- A string is in the heap after it has been looked up there. -/
theorem made_intern (c : Compiler) (chars : String) :
    (c.intern chars).2.Made (.string (c.intern chars).1) := by
  exact .string (TextTable.intern_entry c.heap.texts chars)

theorem acts_nameIndex (c : Compiler) (name : String) : Acts reading c (c.nameIndex name).2 :=
  (acts_intern c name).trans (acts_constantIndex _ (made_intern c name))

theorem acts_emitJump (c : Compiler) (op : Opcode) : Acts reading c (c.emitJump op) :=
  (acts_emit _ _).trans (acts_emitWord _ _ _)

theorem acts_patchWord (c : Compiler) (site word : Nat) :
    Acts reading c (c.mapBody (·.mapChunk (·.patchWord site word))) :=
  acts_work _ (Chunk.patchWord_constants _ _ _) rfl rfl
    (Nat.le_of_eq (Chunk.size_patchWord ..).symm) fun _ h => h.patchWord site word

theorem acts_patchJump (c : Compiler) (site : Nat) : Acts reading c (c.patchJump site) := by
  have landed (c : Compiler) {target : Nat} (inside : target ≤ c.here) :
      Acts reading c (c.mapBody fun body => { body with landing := some target }) := by
    refine (Act.work c rfl id (fun _ other mem => ?_) fun _ h => h).acts
    cases mem
    exact inside
  unfold patchJump
  dsimp only
  split
  · exact (acts_patchWord _ _ _).trans (landed _ (Nat.le_of_eq (Chunk.size_patchWord ..).symm))
  · exact (acts_report _ rfl).trans (landed _ (by simp [here]))

theorem acts_emitLoop (c : Compiler) (start : Nat) : Acts reading c (c.emitLoop start) := by
  unfold emitLoop
  dsimp only
  split
  · exact (acts_emit _ _).trans (acts_emitWord _ _ _)
  · exact ((acts_emit _ _).trans (acts_report _ rfl)).trans (acts_emitWord _ _ _)

theorem acts_patchLoop (c : Compiler) (site start : Nat) : Acts reading c (c.patchLoop site start) := by
  unfold patchLoop
  dsimp only
  split
  · exact acts_patchWord _ _ _
  · exact acts_report _ rfl

theorem acts_beginRoutine (c : Compiler) (name : Option Text) : Acts reading c (c.beginRoutine name) :=
  (Act.beginRoutine c name).acts

theorem acts_endRoutine (c : Compiler) : Acts reading c c.endRoutine.2 := (Act.endRoutine c).acts

theorem acts_foldl {α : Type} {step : Compiler → α → Compiler}
    (hstep : ∀ c x, Acts reading c (step c x)) (xs : List α) (c : Compiler) :
    Acts reading c (xs.foldl step c) := by
  induction xs generalizing c with
  | nil => exact .refl
  | cons x xs ih => exact (hstep c x).trans (ih _)

theorem acts_emitPops (c : Compiler) (locals : List LocalVariable) :
    Acts reading c (c.emitPops locals) := acts_foldl (fun c _ => acts_emit c .pop) locals c

theorem acts_beginScope (c : Compiler) : Acts reading c c.beginScope := acts_aside _ rfl rfl rfl

theorem acts_endScope (c : Compiler) : Acts reading c c.endScope := by
  have closed : Acts reading c (c.mapBody fun body => { body with depth := body.depth - 1 }) :=
    acts_aside _ rfl rfl rfl
  have dropped (c : Compiler) (count : Nat) :
      Acts reading c (c.mapBody fun body => { body with locals := body.locals.drop count }) := by
    refine (Act.work c rfl (fun small => ?_) (fun h => h.grow rfl (Nat.le_refl _))
      fun _ h => h).acts
    rw [List.length_drop]
    omega
  unfold endScope
  exact (closed.trans (acts_emitPops _ _)).trans (dropped _ _)

theorem acts_beginLoop (c : Compiler) (start : Nat) : Acts reading c (c.beginLoop start) :=
  acts_aside _ rfl rfl rfl

theorem acts_mapLoop (c : Compiler) (f : LoopRecord → LoopRecord) : Acts reading c (c.mapLoop f) := by
  unfold mapLoop
  cases loops : c.body.loops with
  | nil => exact acts_aside _ (by simp only [loops]) (by simp only [loops]) (by simp only [loops])
  | cons loop outer =>
      exact acts_aside _ (by simp only [loops]) (by simp only [loops]) (by simp only [loops])

theorem acts_endLoop (c : Compiler) : Acts reading c c.endLoop := by
  unfold endLoop
  split
  · exact .refl
  · exact ((acts_aside _ rfl rfl rfl).trans (acts_foldl (fun c _ => acts_patchLoop c _ _) _ _)).trans
      (acts_foldl (fun c _ => acts_patchJump c _) _ _)

/-! ## Variables -/

theorem acts_addLocal (c : Compiler) (name : String) : Acts reading c (c.addLocal name) := by
  unfold addLocal
  split
  · exact acts_report _ rfl
  · rename_i room
    refine (Act.work c rfl (fun _ => ?_) (fun h => h.grow rfl (Nat.le_refl _)) fun _ h => h).acts
    simp only [List.length_cons]
    omega

theorem acts_declareVariable (c : Compiler) : Acts reading c c.declareVariable := by
  unfold declareVariable
  split
  · exact .refl
  · dsimp only
    split
    · exact (acts_report _ rfl).trans (acts_addLocal _ _)
    · exact acts_addLocal _ _

theorem acts_parseVariable (c : Compiler) (thing : String) : Acts true c (c.parseVariable thing).2 := by
  have declared := (acts_consume c .identifier (.expectedName thing)).trans
    (acts_declareVariable _)
  unfold parseVariable
  dsimp only
  split
  · exact declared
  · exact declared.trans (acts_nameIndex _ _)

theorem length_settleNewest (body : Body) :
    body.settleNewest.locals.length = body.locals.length := by
  unfold Body.settleNewest
  split <;> simp [*]

theorem chunk_settleNewest (body : Body) : body.settleNewest.chunk = body.chunk := by
  unfold Body.settleNewest
  split <;> rfl

theorem landing_settleNewest (body : Body) : body.settleNewest.landing = body.landing := by
  unfold Body.settleNewest
  split <;> rfl

theorem acts_markInitialized (c : Compiler) : Acts reading c c.markInitialized := by
  unfold markInitialized
  split
  · exact .refl
  · exact (Act.work c (by rw [chunk_settleNewest]) (by rw [length_settleNewest]; exact id)
      (fun h => h.grow (landing_settleNewest _) (Nat.le_of_eq (by rw [chunk_settleNewest])))
      fun _ h => (chunk_settleNewest _).symm ▸ h).acts

theorem acts_defineVariable (c : Compiler) (index : Nat) (assignable : Bool) :
    Acts reading c (c.defineVariable index assignable) := by
  have marked : Acts reading c (if assignable then c else c.emit .makeConst) := by
    split
    · exact .refl
    · exact acts_emit _ _
  unfold defineVariable
  dsimp only
  generalize (if assignable then c else c.emit .makeConst) = c' at marked ⊢
  refine marked.trans ?_
  split
  · exact acts_markInitialized _
  · exact acts_emitIndexed _ _ _

theorem acts_resolve (c : Compiler) (name : String) : Acts reading c (c.resolve name).2 := by
  unfold resolve
  split
  · dsimp only
    split
    · exact acts_report _ rfl
    · exact .refl
  · dsimp only
    split
    · exact (acts_report _ rfl).trans (acts_nameIndex _ _)
    · exact acts_nameIndex _ _

theorem acts_emitRead (c : Compiler) (target : Target) : Acts reading c (c.emitRead target) := by
  cases target
  · exact acts_emitByte _ _ _
  · exact acts_emitIndexed _ _ _

theorem acts_emitWrite (c : Compiler) (target : Target) : Acts reading c (c.emitWrite target) := by
  cases target
  · exact acts_emitByte _ _ _
  · exact acts_emitIndexed _ _ _

/-! ## Expressions -/

section Phrases

variable {parse : PhraseCompiler} (hparse : ∀ p c, Acts true c (parse p c))
include hparse

theorem acts_expression (c : Compiler) : Acts true c (c.expression parse) := hparse _ _

theorem acts_variableUse (canAssign : Bool) (c : Compiler) :
    Acts true c (c.variableUse parse canAssign) := by
  have resolved : Acts true c (c.resolve c.previous.lexeme).2 := acts_resolve _ _
  unfold variableUse
  dsimp only
  split
  · exact ((resolved.trans (acts_advance _)).trans (hparse _ _)).trans (acts_emitWrite _ _)
  · exact resolved.trans (acts_emitRead _ _)

theorem acts_openExpression (canAssign : Bool) (c : Compiler) (opening : Opening) :
    Acts true c (c.openExpression parse canAssign opening) := by
  match opening with
  | .grouping => exact (hparse _ _).trans (acts_consume _ _ _)
  | .unary =>
      have operand := hparse (.expression .unary) c
      simp only [openExpression, unary]
      split
      · exact operand.trans (acts_emit _ _)
      · exact operand.trans (acts_emit _ _)
      · exact operand
  | .variable => exact acts_variableUse hparse canAssign c
  | .string => exact (acts_intern c _).trans (acts_emitConstant _ (made_intern c _))
  | .number =>
      simp only [openExpression, numberLiteral]
      split
      · rename_i literal
        exact acts_emitConstant _ (.number literal)
      · exact acts_complain _ _
  | .literal =>
      simp only [openExpression, wordLiteral]
      split
      · exact acts_emit _ _
      · exact acts_emit _ _
      · exact acts_emit _ _
      · exact .refl
  | .unsupported => exact acts_complain _ _

omit hparse in
theorem acts_emitBinary (c : Compiler) (operator : TokenKind) :
    Acts reading c (c.emitBinary operator) := by
  have twice (first second : Opcode) : Acts reading c ((c.emit first).emit second) :=
    (acts_emit _ _).trans (acts_emit _ _)
  unfold emitBinary
  split
  · exact twice _ _
  · exact acts_emit _ _
  · exact acts_emit _ _
  · exact twice _ _
  · exact acts_emit _ _
  · exact twice _ _
  · exact acts_emit _ _
  · exact acts_emit _ _
  · exact acts_emit _ _
  · exact acts_emit _ _
  · exact .refl

theorem acts_conjunction (c : Compiler) : Acts true c (c.conjunction parse) :=
  (((acts_emitJump c .jumpIfFalse).trans (acts_emit _ _)).trans (hparse _ _)).trans
    (acts_patchJump _ _)

theorem acts_disjunction (c : Compiler) : Acts true c (c.disjunction parse) :=
  (((((acts_emitJump c .jumpIfFalse).trans (acts_emitJump _ _)).trans
    (acts_patchJump _ _)).trans (acts_emit _ _)).trans (hparse _ _)).trans
    (acts_patchJump _ _)

theorem acts_argument (count : Nat) (c : Compiler) : Acts true c (argument parse count c).2 := by
  have value : Acts true c (c.expression parse) := hparse _ _
  unfold argument
  dsimp only
  split
  · exact value.trans (acts_report _ rfl)
  · exact value

theorem acts_moreArguments (bound count : Nat) (c : Compiler) :
    Acts true c (moreArguments parse bound count c).2 := by
  induction bound generalizing count c with
  | zero =>
      unfold moreArguments
      split
      · exact acts_giveUp c
      · exact .refl
  | succ bound ih =>
      unfold moreArguments
      split
      · exact ((acts_advance c).trans (acts_argument hparse count _)).trans (ih _ _)
      · exact .refl

theorem acts_arguments (bound : Nat) (c : Compiler) : Acts true c (c.arguments parse bound).2 := by
  have listed : Acts true c
      (if c.check .rightParen then ((0, c) : Nat × Compiler)
      else
        moreArguments parse bound (argument parse 0 c).1 (argument parse 0 c).2).2 := by
    split
    · exact .refl
    · exact (acts_argument hparse 0 c).trans (acts_moreArguments hparse bound _ _)
  exact listed.trans (acts_consume _ _ _)

theorem acts_continueExpression (bound : Nat) (c : Compiler) (next : Option Continuation) :
    Acts true c (c.continueExpression parse bound next) := by
  unfold continueExpression
  split
  · exact (hparse _ _).trans (acts_emitBinary _ _)
  · exact acts_conjunction hparse _
  · exact acts_disjunction hparse _
  · exact (acts_arguments hparse bound _).trans (acts_emitByte _ _ _)
  · exact acts_complain _ _
  · exact .refl

theorem acts_continueOnce (bound : Nat) (c : Compiler) :
    Acts true c (continueOnce parse bound c) :=
  (acts_advance c).trans (acts_continueExpression hparse bound _ _)

/-- An expression begins with the token that is read first. -/
theorem acts_expressionFrom_advance (bound : Nat) (least : Precedence) (c : Compiler) :
    Acts true c.advance (c.expressionFrom parse bound least) := by
  unfold expressionFrom
  dsimp only
  split
  · exact acts_complain _ _
  · rename_i opening _
    have begun := acts_openExpression hparse (least.admits .assignment) c.advance opening
    have turns (c : Compiler) : Acts true c
        (repeatWhile (fun c => least.admits c.current.kind.precedence)
          (continueOnce parse bound) bound c) :=
      acts_repeatWhile (acts_continueOnce hparse bound) bound c
    have whole := begun.trans (turns _)
    split
    · exact (whole.trans (acts_advance _)).trans (acts_complain _ _)
    · exact whole

theorem acts_expressionFrom (bound : Nat) (least : Precedence) (c : Compiler) :
    Acts true c (c.expressionFrom parse bound least) :=
  (acts_advance c).trans (acts_expressionFrom_advance hparse bound least c)

/-! ## Statements -/

theorem acts_block (bound : Nat) (c : Compiler) : Acts true c (c.block parse bound) :=
  (acts_repeatWhile (fun c => hparse .declaration c) bound c).trans (acts_consume _ _ _)

omit hparse in
theorem acts_parameter (c : Compiler) : Acts true c c.parameter := by
  have counted : Acts true c (c.mapBody fun body => { body with arity := body.arity + 1 }) :=
    acts_aside _ rfl rfl rfl
  unfold parameter
  dsimp only
  refine counted.trans ?_
  split
  · exact ((Act.report _ (.inr rfl) rfl).acts.trans (acts_parseVariable _ _)).trans
      (acts_defineVariable _ _ _)
  · exact (acts_parseVariable _ _).trans (acts_defineVariable _ _ _)

omit hparse in
theorem acts_parameters (bound : Nat) (c : Compiler) : Acts true c (c.parameters bound) := by
  unfold parameters
  split
  · exact .refl
  · exact (acts_parameter c).trans (acts_repeatWhile
      (fun c => (acts_advance c).trans (acts_parameter _)) bound _)

theorem acts_routine (bound : Nat) (c : Compiler) : Acts true c (c.routine parse bound) := by
  have named : Acts true c ((c.intern c.previous.lexeme).2.beginRoutine
      (some (c.intern c.previous.lexeme).1)).beginScope :=
    (acts_intern _ _).trans ((acts_beginRoutine _ _).trans (acts_beginScope _))
  unfold routine
  refine Relation.ReflTransGen.trans ?_ (acts_emitConstant _ (made_endRoutine _))
  refine Relation.ReflTransGen.trans ?_ (acts_endRoutine _)
  refine Relation.ReflTransGen.trans ?_ (acts_block hparse bound _)
  refine Relation.ReflTransGen.trans ?_ (acts_consume _ .leftBrace _)
  refine Relation.ReflTransGen.trans ?_ (acts_consume _ .rightParen _)
  refine Relation.ReflTransGen.trans ?_ (acts_parameters bound _)
  exact named.trans (acts_consume _ .leftParen _)

theorem acts_functionDeclaration (bound : Nat) (c : Compiler) :
    Acts true c (c.functionDeclaration parse bound) :=
  (((acts_parseVariable c _).trans (acts_markInitialized _)).trans
    (acts_routine hparse bound _)).trans (acts_defineVariable _ _ _)

theorem acts_variableDeclaration (assignable : Bool) (c : Compiler) :
    Acts true c (c.variableDeclaration parse assignable) := by
  have named := acts_parseVariable c "variable"
  unfold variableDeclaration
  dsimp only
  generalize c.parseVariable "variable" = named_ at named ⊢
  refine named.trans (Relation.ReflTransGen.trans ?_ ((acts_consume _ _ _).trans (acts_defineVariable _ _ _)))
  split
  · exact (acts_advance _).trans (hparse _ _)
  · exact acts_emit _ _

theorem acts_printStatement (c : Compiler) : Acts true c (c.printStatement parse) :=
  ((hparse _ _).trans (acts_consume _ _ _)).trans (acts_emit _ _)

theorem acts_expressionStatement (c : Compiler) : Acts true c (c.expressionStatement parse) :=
  ((hparse _ _).trans (acts_consume _ _ _)).trans (acts_emit _ _)

theorem acts_returnStatement (c : Compiler) : Acts true c (c.returnStatement parse) := by
  unfold returnStatement
  split
  · exact (acts_advance _).trans (acts_emitReturn _)
  · exact ((hparse _ _).trans (acts_consume _ _ _)).trans (acts_emit _ _)

theorem acts_condition (word : String) (c : Compiler) : Acts true c (c.condition parse word) :=
  ((acts_consume _ _ _).trans (hparse _ _)).trans (acts_consume _ _ _)

theorem acts_ifStatement (c : Compiler) : Acts true c (c.ifStatement parse) := by
  have first := (((acts_condition hparse "if" c).trans (acts_emitJump _ .jumpIfFalse)).trans
    (acts_emit _ .pop)).trans (hparse .statement _)
  have second := ((first.trans (acts_emitJump _ .jump)).trans
    (acts_patchJump _ ((c.condition parse "if").here + 1))).trans (acts_emit _ .pop)
  unfold ifStatement
  refine Relation.ReflTransGen.trans (second.trans ?_) (acts_patchJump _ _)
  split
  · exact (acts_advance _).trans (hparse _ _)
  · exact .refl

theorem acts_whileStatement (c : Compiler) : Acts true c (c.whileStatement parse) := by
  have entered := ((acts_condition hparse "while" c).trans (acts_emitJump _ .jumpIfFalse)).trans
    (acts_emit _ .pop)
  have looped := ((entered.trans (acts_beginLoop _ c.here)).trans (hparse .statement _)).trans
    (acts_emitLoop _ c.here)
  unfold whileStatement
  exact ((looped.trans (acts_patchJump _ _)).trans (acts_emit _ _)).trans (acts_endLoop _)

theorem acts_forInitializer (c : Compiler) : Acts true c (c.forInitializer parse) := by
  unfold forInitializer
  split
  · exact acts_advance c
  split
  · exact (acts_advance c).trans (acts_variableDeclaration hparse true _)
  split
  · exact (acts_advance c).trans (acts_variableDeclaration hparse false _)
  · exact acts_expressionStatement hparse c

theorem acts_forCondition (c : Compiler) : Acts true c (c.forCondition parse).2 := by
  unfold forCondition
  split
  · exact acts_advance c
  · exact (((hparse _ c).trans (acts_consume _ _ _)).trans (acts_emitJump _ _)).trans
      (acts_emit _ _)

theorem acts_forIncrement (start : Nat) (c : Compiler) :
    Acts true c (c.forIncrement parse start).2 := by
  unfold forIncrement
  split
  · exact acts_advance c
  · exact (((((acts_emitJump c .jump).trans (hparse _ _)).trans (acts_emit _ _)).trans
      (acts_consume _ _ _)).trans (acts_emitLoop _ _)).trans (acts_patchJump _ _)

theorem acts_forStatement (c : Compiler) : Acts true c (c.forStatement parse) := by
  have begun := (acts_beginScope c).trans (acts_consume _ .leftParen
    (.expectedMark "(" "after 'for'"))
  have started := begun.trans (acts_forInitializer hparse _)
  unfold forStatement
  dsimp only
  refine Relation.ReflTransGen.trans ?_ ((acts_endLoop _).trans (acts_endScope _))
  generalize (c.beginScope.consume .leftParen _).forInitializer parse = c₁ at started ⊢
  have clauses := (acts_forCondition hparse c₁).trans (acts_forIncrement hparse c₁.here _)
  generalize forIncrement parse c₁.here (forCondition parse c₁).2 = c₂ at clauses ⊢
  have looped := ((acts_beginLoop c₂.2 c₂.1).trans (hparse .statement _)).trans
    (acts_emitLoop _ c₂.1)
  refine (started.trans clauses).trans (looped.trans ?_)
  split
  · exact (acts_patchJump _ _).trans (acts_emit _ _)
  · exact .refl

omit hparse in
theorem acts_breakStatement (c : Compiler) : Acts true c c.breakStatement := by
  unfold breakStatement
  split
  · exact acts_report _ rfl
  · exact (((acts_consume _ _ _).trans (acts_emitPops _ _)).trans (acts_emitJump _ _)).trans
      (acts_mapLoop _ _)

omit hparse in
theorem acts_continueStatement (c : Compiler) : Acts true c c.continueStatement := by
  unfold continueStatement
  split
  · exact acts_report _ rfl
  · exact (((acts_consume _ _ _).trans (acts_emitPops _ _)).trans (acts_emitJump _ _)).trans
      (acts_mapLoop _ _)

theorem acts_blockStatement (bound : Nat) (c : Compiler) :
    Acts true c (c.blockStatement parse bound) :=
  ((acts_beginScope c).trans (acts_block hparse bound _)).trans (acts_endScope _)

/-- A statement reads a token before anything else, if expressions do. -/
theorem acts_statement_advance
    (first : ∀ c, Acts true c.advance (parse (.expression .assignment) c)) (bound : Nat)
    (c : Compiler) : Acts true c.advance (c.statement parse bound) := by
  unfold statement
  split
  · exact acts_printStatement hparse _
  · exact acts_ifStatement hparse _
  · exact acts_whileStatement hparse _
  · exact acts_forStatement hparse _
  · exact acts_returnStatement hparse _
  · exact acts_breakStatement _
  · exact acts_continueStatement _
  · exact acts_blockStatement hparse bound _
  · exact ((first c).trans (acts_consume _ _ _)).trans (acts_emit _ _)

theorem acts_statement (bound : Nat) (c : Compiler) : Acts true c (c.statement parse bound) := by
  have read := acts_advance c
  unfold statement
  split
  · exact read.trans (acts_printStatement hparse _)
  · exact read.trans (acts_ifStatement hparse _)
  · exact read.trans (acts_whileStatement hparse _)
  · exact read.trans (acts_forStatement hparse _)
  · exact read.trans (acts_returnStatement hparse _)
  · exact read.trans (acts_breakStatement _)
  · exact read.trans (acts_continueStatement _)
  · exact read.trans (acts_blockStatement hparse bound _)
  · exact acts_expressionStatement hparse c

omit hparse in
/-- After an error a declaration reads on. -/
theorem acts_calmed (c : Compiler) : Acts true c (if c.panicking then c.synchronize else c) := by
  split
  · exact acts_synchronize c
  · exact .refl

/-- A declaration reads a token before anything else, if statements do. -/
theorem acts_declaration_advance (first : ∀ c, Acts true c.advance (parse .statement c))
    (bound : Nat) (c : Compiler) : Acts true c.advance (c.declaration parse bound) := by
  unfold declaration
  refine Relation.ReflTransGen.trans ?_ (acts_calmed _)
  split
  · exact acts_functionDeclaration hparse bound _
  · exact acts_variableDeclaration hparse true _
  · exact acts_variableDeclaration hparse false _
  · exact acts_complain _ _
  · exact first c

theorem acts_declaration (bound : Nat) (c : Compiler) : Acts true c (c.declaration parse bound) := by
  have read := acts_advance c
  unfold declaration
  refine Relation.ReflTransGen.trans ?_ (acts_calmed _)
  split
  · exact read.trans (acts_functionDeclaration hparse bound _)
  · exact read.trans (acts_variableDeclaration hparse true _)
  · exact read.trans (acts_variableDeclaration hparse false _)
  · exact read.trans (acts_complain _ _)
  · exact hparse _ _

end Phrases

/-- Compiling a phrase only adds errors. -/
theorem acts_phrase (depth : Nat) (p : Phrase) (c : Compiler) : Acts true c (phrase depth p c) := by
  induction depth generalizing p c with
  | zero => exact acts_giveUp c
  | succ depth ih =>
      cases p with
      | expression least => exact acts_expressionFrom ih depth least c
      | statement => exact acts_statement ih depth c
      | declaration => exact acts_declaration ih depth c

/-- A declaration reads a token before anything else, if its phrases may nest at all. -/
theorem acts_phrase_advance (depth : Nat) (c : Compiler) :
    Acts true c.advance (phrase (depth + 3) .declaration c) := by
  have expression (c : Compiler) :
      Acts true c.advance (phrase (depth + 1) (.expression .assignment) c) :=
    acts_expressionFrom_advance (acts_phrase depth) depth .assignment c
  have statement (c : Compiler) : Acts true c.advance (phrase (depth + 2) .statement c) :=
    acts_statement_advance (acts_phrase (depth + 1)) expression _ c
  exact acts_declaration_advance (acts_phrase (depth + 2)) statement _ c

end Compiler
end StackScript
