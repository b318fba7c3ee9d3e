import StackScript.Proofs.Code.Checks
import StackScript.Proofs.Parsing.Ending

/-!
# Reading statements

The main fact is `compiles_of_written`: however a statement is written, the compiler
reads the tokens of the statement and no more, and unless it reports an error it
writes the code of the statement, which then is allowed where it stands.
-/

namespace StackScript
namespace Compiler

variable {c : Compiler} {f : Token} {rest : List Token}

/-- A statement may begin: every initializer is complete, and no jump leads behind the
code. -/
structure Steady (c : Compiler) : Prop where
  placed : c.place.Scoped
  grounded : c.Grounded

/-- The layout has the lines of the routines completed so far. -/
def Agrees (layout : Layout) (c : Compiler) : Prop :=
  ∀ r ∈ c.completed, layout r.id = r.chunk.lines

theorem Agrees.before {reading : Bool} {layout : Layout} {c c' : Compiler}
    (h : Agrees layout c') (acts : Acts reading c c') : Agrees layout c :=
  fun r mem => h r (acts.completed r mem)

/-- The line tables of the routines completed so far. -/
def lineTables (c : Compiler) : Layout := fun id =>
  ((c.completed.find? (·.id = id)).map (·.chunk.lines)).getD #[]

theorem Numbered.agrees {c : Compiler} (h : c.Numbered) : Agrees c.lineTables c := by
  intro r mem
  cases found : c.completed.find? (·.id = r.id) with
  | none => exact absurd (Array.find?_eq_none.mp found r mem) (by simp)
  | some r' =>
      have same := h.apart r' (Array.mem_of_find?_eq_some found) r mem
        (by simpa using Array.find?_some found)
      rw [lineTables, found, same]
      rfl

/-- Between two states a statement was compiled; outside every loop it was one that
nothing leads out of. -/
structure Yields (layout : Layout) (s : Statement) (c c' : Compiler) : Prop where
  coding : Coding c c' (s.code layout)
  closed : c.body.loops = [] → s.Closed
  allowed : s.Allowed c.outer c.body.locals c.body.depth
  finishes : Finishes (s.ending c.body.depth) c c'
  narrow : s.Narrow layout c.place c.pool

/-- Between two states a statement was compiled, provided that it could begin. -/
def Codes (s : Statement) (c c' : Compiler) : Prop :=
  c.Steady → ∀ ⦃layout : Layout⦄, Agrees layout c' → Yields layout s c c'

theorem Coding.loops_nil {c c' : Compiler} {f : Coder} (h : Coding c c' f)
    (outside : c.body.loops = []) : c'.body.loops = [] := by
  rw [h.loops, outside]
  rfl

theorem Coding.outer {c c' : Compiler} {f : Coder} (h : Coding c c' f) : c'.outer = c.outer := by
  rw [Compiler.outer, Compiler.outer, h.enclosing]

/-- What is allowed depends on the place. -/
theorem allowed_of_place {s : Statement} {outer : List (List LocalVariable)} {c c' : Compiler}
    (place : c'.place = c.place) (h : s.Allowed outer c'.body.locals c'.body.depth) :
    s.Allowed outer c.body.locals c.body.depth := by
  change s.Allowed outer c'.place.locals c'.place.depth at h
  rw [place] at h
  exact h

section

variable {layout : Layout} {s : Statement} {b c' : Compiler}

theorem Yields.locals (h : Yields layout s c c') (proper : s.Proper) (steady : c.Steady) :
    c'.body.locals = s.declared c.body.depth ++ c.body.locals :=
  h.coding.locals.trans (s.locals_code layout proper c.pool steady.placed)

theorem Yields.steady (h : Yields layout s c c') (proper : s.Proper) (steady : c.Steady)
    (acts : Acts true c c') : c'.Steady := by
  refine ⟨?_, acts.grounded steady.grounded⟩
  have locals := h.locals proper steady
  have placed : (c.place.knowing (s.declared c.body.depth ++ c.place.locals)).Scoped :=
    steady.placed.knowing s.depth_declared
  rw [h.coding.place, ← h.coding.locals, locals]
  exact placed

/-- Steps that touch neither routines nor strings do not matter before a statement. -/
theorem Codes.silent (body : b.body = c.body) (heap : b.heap = c.heap)
    (enclosing : b.enclosing = c.enclosing) (h : Codes s b c') : Codes s c c' := by
  intro steady layout agrees
  have place : b.place = c.place := by rw [Compiler.place, Compiler.place, body]
  have outer : b.outer = c.outer := by rw [Compiler.outer, Compiler.outer, enclosing]
  have grounded : b.Grounded :=
    ⟨by rw [body]; exact steady.grounded.body, by rw [enclosing]; exact steady.grounded.enclosing⟩
  obtain ⟨coding, closed, allowed, finishes, narrow⟩ := h ⟨place ▸ steady.placed, grounded⟩ agrees
  have begun : Coding c b .none := coding_none (.silent body heap enclosing)
  rw [outer, body] at allowed
  rw [body] at closed finishes
  rw [place, show b.pool = c.pool by rw [pool, pool, body, heap]] at narrow
  exact ⟨(begun.seq coding).of_eq (by simp), closed, allowed, finishes.of_body body, narrow⟩

theorem Codes.advance (h : Codes s c.advance c') : Codes s c c' :=
  h.silent (advance_body c) (advance_heap c) (advance_enclosing c)

/-- A token is read before a statement is compiled. -/
theorem Stage.advance {t : Token} {tokens after : List Token} (stream : c.stream = t :: tokens)
    (more : tokens ≠ []) (acts : Acts true c.advance c')
    (h : c.advance.stream = tokens → Stage c.advance c' after (Codes s c.advance c')) :
    Stage c c' after (Codes s c c') := by
  obtain ⟨u, tail, rfl⟩ := List.exists_cons_of_ne_nil more
  exact ((stage_advance stream).andThen acts h).map fun ⟨_, coded⟩ => coded.advance

/-- Nothing was written. -/
theorem codes_done (c : Compiler) : Codes .done c c := fun _ _ _ =>
  ⟨(coding_none (Emits.refl c)).of_eq rfl, fun _ => trivial, trivial, .refl c, trivial⟩

end

/-- Whether more declarations follow: in a block up to its brace, in a script up to the
end of the source. -/
def goesOn (script : Bool) (c : Compiler) : Bool :=
  (script || !c.check .rightBrace) && !c.check .eof

/-- The token behind the last declaration. -/
def closingKind (script : Bool) : TokenKind := if script then .eof else .rightBrace

/-- The tokens are read as the statement, wherever it may stand. -/
def Compiles : Category → (ends : Bool) → Statement → List Token → Prop
  | .statement, ends, s, ts => ∀ ⦃depth : Nat⦄ ⦃c : Compiler⦄ ⦃f : Token⦄ ⦃rest : List Token⦄,
      ts.length ≤ depth → c.stream = ts ++ f :: rest → (ends → f.kind ≠ .else) →
      Stage c (phrase depth .statement c) (f :: rest) (Codes s c (phrase depth .statement c))
  | .declaration, ends, s, ts => ∀ ⦃depth : Nat⦄ ⦃c : Compiler⦄ ⦃f : Token⦄ ⦃rest : List Token⦄,
      ts.length + 1 ≤ depth → c.stream = ts ++ f :: rest → (ends → f.kind ≠ .else) →
      Stage c (phrase depth .declaration c) (f :: rest) (Codes s c (phrase depth .declaration c))
  | .sequence, _, s, ts => ∀ ⦃depth bound : Nat⦄ ⦃script : Bool⦄ ⦃c : Compiler⦄ ⦃f : Token⦄
      ⦃rest : List Token⦄, ts.length + 1 ≤ depth → ts.length ≤ bound → c.stream = ts ++ f :: rest →
      f.kind = closingKind script →
      Stage c (repeatWhile (goesOn script) (phrase depth .declaration) bound c) (f :: rest)
        (Codes s c (repeatWhile (goesOn script) (phrase depth .declaration) bound c))

/-- A statement that begins with a keyword is read by the function which the keyword selects. -/
theorem compiles_of_word (run : Nat → Compiler → Compiler) {k : Token} {ends : Bool} {s : Statement}
    {ts : List Token}
    (select : ∀ (depth : Nat) (c : Compiler), c.current = k →
      phrase (depth + 1) .statement c = run depth c.advance)
    (acts : ∀ (depth : Nat) (c : Compiler), Acts true c (run depth c))
    (stages : ∀ (depth : Nat) (c : Compiler) (f : Token) (rest : List Token), ts.length ≤ depth →
      c.stream = ts ++ f :: rest → (ends → f.kind ≠ .else) →
        Stage c (run depth c) (f :: rest) (Codes s c (run depth c))) :
    Compiles .statement ends s (k :: ts) := by
  intro depth c f rest fuel stream apart
  obtain ⟨depth, rfl⟩ : ∃ d, depth = d + 1 := ⟨depth - 1, by simp at fuel; omega⟩
  rw [select depth c (current_of_stream stream)]
  exact .advance stream (by simp) (acts depth _) fun stream =>
    stages depth _ f rest (by simpa using fuel) stream apart

/-! ## Parts of statements -/

/-- An expression up to a mark. -/
theorem stage_value {p : Precedence} {e : Expression} {ts : List Token} {m : Token} {depth : Nat}
    {kind : TokenKind} (value : Written p e ts) (fuel : ts.length ≤ depth) (mark : m.kind = kind)
    (noInfix : kind.continuation? = none) (noAssign : kind ≠ .equal) (problem : Problem)
    (stream : c.stream = ts ++ m :: f :: rest) :
    Stage c ((c.expression (phrase depth)).consume kind problem) (f :: rest)
      (Coding c ((c.expression (phrase depth)).consume kind problem) (.value e) ∧
        Known c.outer c.body.locals e.names) := by
  subst mark
  have parsed := (parsed_of_written value fuel stream noInfix noAssign).stage
  refine (parsed.andThen (acts_consume _ _ _) fun stream =>
    stage_consume stream rfl problem).map ?_
  rintro ⟨⟨coded, known⟩, consumed⟩
  exact ⟨(coded.seq consumed).of_eq (by simp), known⟩

/-- An expression up to a semicolon, and an instruction for its value. -/
theorem stage_simple {p : Precedence} {e : Expression} {ts : List Token} {m : Token} {depth : Nat}
    (value : Written p e ts) (fuel : ts.length ≤ depth) (closed : m.kind = .semicolon)
    (problem : Problem) {op : Opcode} (plain : op.operandWidth = 0)
    (stream : c.stream = ts ++ m :: f :: rest) :
    Stage c (((c.expression (phrase depth)).consume .semicolon problem).emit op) (f :: rest)
      (Coding c (((c.expression (phrase depth)).consume .semicolon problem).emit op)
        (fun place pool => ⟨ops ((e.code place.locals pool).1 ++ [.plain op]), place.locals,
          (e.code place.locals pool).2⟩) ∧ Known c.outer c.body.locals e.names) := by
  have valued := stage_value value fuel closed rfl (by decide) problem stream
  refine (valued.andThen (acts_emit _ op).toReading fun stream => stage_emit stream plain).map ?_
  rintro ⟨⟨coded, known⟩, written⟩
  exact ⟨(coded.seq written).of_eq (by simp), known⟩

theorem compiles_print {k m : Token} {p : Precedence} {e : Expression} {ts : List Token}
    (word : k.kind = .print) (value : Written p e ts) (closed : m.kind = .semicolon) :
    Compiles .statement false (.print e) (k :: (ts ++ [m])) := by
  refine compiles_of_word (fun depth => printStatement (phrase depth))
    (fun depth c current => by simp only [phrase, statement, current, word])
    (fun depth => acts_printStatement (acts_phrase depth)) ?_
  intro depth c f rest fuel stream _
  simp only [List.length_append] at fuel
  refine (stage_simple value (by omega) closed (.expectedMark ";" "after value") rfl
    (by simpa using stream)).map ?_
  rintro ⟨coded, known⟩ _ layout _
  exact ⟨coded.of_eq (by simp [Statement.code]), fun _ => trivial, known,
    finishes_of_last rfl (by decide), trivial⟩

theorem compiles_expression {m : Token} {p : Precedence} {e : Expression} {ts : List Token}
    (value : Written p e ts) (closed : m.kind = .semicolon) :
    Compiles .statement false (.expression e) (ts ++ [m]) := by
  intro depth c f rest fuel stream _
  obtain ⟨depth, rfl⟩ : ∃ d, depth = d + 1 := ⟨depth - 1, by simp at fuel; omega⟩
  simp only [List.length_append, List.length_cons, List.length_nil] at fuel
  have same : phrase (depth + 1) .statement c = c.expressionStatement (phrase depth) := by
    obtain ⟨t, others, rfl, opens⟩ := value.head
    have current : c.current = t := current_of_stream stream
    simp only [phrase, statement, current]
    cases kind : t.kind <;> first | rfl | (rw [kind] at opens; cases opens)
  rw [same]
  refine (stage_simple value (by omega) closed (.expectedMark ";" "after expression") rfl
    (by simpa using stream)).map ?_
  rintro ⟨coded, known⟩ _ layout _
  exact ⟨coded.of_eq (by simp [Statement.code]), fun _ => trivial, known,
    finishes_of_last rfl (by decide), trivial⟩

/-! ## Jumps out of loops -/

theorem emits_emitPops (c : Compiler) (locals : List LocalVariable) :
    Emits c (c.emitPops locals) (pops locals) c.pool := by
  induction locals generalizing c with
  | nil => exact Emits.refl c
  | cons var locals ih =>
      have popped := emits_emit c .pop rfl
      have others := ih (c.emit .pop)
      rw [popped.pooled] at others
      exact popped.trans others

/-- A jump whose operand goes into the record of the innermost loop. -/
theorem writes_openJump (c : Compiler) {cell : Cell} {op : Opcode} (jump : op.operandWidth = 2)
    (drafted : cell.draft = ⟨op, maxJump⟩) {f : LoopRecord → LoopRecord}
    (recorded : ∀ loop, record c.here [cell] [loop] = [f loop]) :
    Writes c ((c.emitJump op).mapLoop f) [cell] c.body.locals c.pool := by
  have written := emits_emitJump c op jump
  have same : ∃ loops, (c.emitJump op).mapLoop f =
      { c.emitJump op with body := { (c.emitJump op).body with loops } } ∧
      loops = record c.here [cell] c.body.loops := by
    have loops := written.loops
    unfold mapLoop
    cases known : c.body.loops with
    | nil => exact ⟨[], by simp only [mapBody, loops, known]; rw [← known, ← loops], rfl⟩
    | cons loop outer =>
        refine ⟨f loop :: outer, by simp only [mapBody, loops, known], ?_⟩
        have first := recorded loop
        simp only [record, List.cons.injEq, and_true] at first ⊢
        exact first.symm
  obtain ⟨loops, same, recorded⟩ := same
  rw [same]
  refine ⟨?_, written.pooled, written.signature, written.locals, written.depth, recorded,
    written.enclosing, ?_, ?_⟩
  · rw [draft_cons, drafted]
    exact written.written
  · rw [draft_cons, drafted]
    exact written.fits
  · intro small
    rw [written.locals]
    exact small

/-- The record of a loop is not the code. -/
theorem lastOpcode_openJump (c : Compiler) (op : Opcode) (f : LoopRecord → LoopRecord) :
    ((c.emitJump op).mapLoop f).body.lastOpcode = some op := by
  unfold mapLoop
  cases loops : (c.emitJump op).body.loops <;> simp only [mapBody, loops] <;> rfl

/-- Drops the locals of the loop, and leaves a jump open. -/
def openJump (cell : Cell) : Coder := fun place pool =>
  ⟨ops (pops (deeper place.locals (place.loop.getD 0))) ++ [cell], place.locals, pool⟩

theorem coding_openJump {c : Compiler} {loop : LoopRecord} {outer : List LoopRecord}
    (loops : c.body.loops = loop :: outer) {cell : Cell} {op : Opcode}
    (jump : op.operandWidth = 2) (drafted : cell.draft = ⟨op, maxJump⟩)
    {f : LoopRecord → LoopRecord}
    (recorded : ∀ inner, record (c.leaveScopes loop).here [cell] [inner] = [f inner]) :
    Coding c (((c.leaveScopes loop).emitJump op).mapLoop f) (openJump cell) := by
  have dropped := emits_emitPops c (c.body.localsDeeperThan loop.depth)
  have jumped := writes_openJump (c.leaveScopes loop) jump drafted recorded
  rw [show (c.leaveScopes loop).body.locals = c.body.locals from dropped.locals,
    show (c.leaveScopes loop).pool = c.pool from dropped.pooled] at jumped
  have whole := dropped.writes.trans jumped
  unfold Coding
  simp only [openJump, place, loops, List.head?_cons, Option.map_some, Option.getD_some]
  exact whole

theorem stage_openJump {m : Token} (stream : c.stream = m :: f :: rest)
    (closed : m.kind = .semicolon) {loop : LoopRecord} {outer : List LoopRecord}
    (loops : c.body.loops = loop :: outer) (problem : Problem) (cell : Cell) {op : Opcode}
    (jump : op.operandWidth = 2) (drafted : cell.draft = ⟨op, maxJump⟩)
    {g : Nat → LoopRecord → LoopRecord}
    (recorded : ∀ offset inner, record offset [cell] [inner] = [g (offset + 1) inner]) :
    let c' := (c.consume .semicolon problem).leaveScopes loop
    Stage c ((c'.emitJump op).mapLoop (g (c'.here + 1))) (f :: rest)
      (Coding c ((c'.emitJump op).mapLoop (g (c'.here + 1))) (openJump cell)) := by
  intro c'
  have out : Acts false (c.consume .semicolon problem)
      ((c'.emitJump op).mapLoop (g (c'.here + 1))) :=
    ((acts_emitPops _ _).trans (acts_emitJump _ _)).trans (acts_mapLoop _ _)
  rw [← consume_body c .semicolon problem] at loops
  refine ((stage_consume stream closed problem).andThen out.toReading fun stream =>
    stage_still stream out fun _ =>
      coding_openJump loops jump drafted (fun inner => recorded c'.here inner)).map ?_
  rintro ⟨start, coded⟩
  exact (start.seq coded).of_eq (by simp [openJump])

theorem stage_breakStatement {m : Token} (stream : c.stream = m :: f :: rest)
    (closed : m.kind = .semicolon) :
    Stage c c.breakStatement (f :: rest) (Codes .leave c c.breakStatement) := by
  unfold breakStatement
  cases loops : c.body.loops with
  | nil =>
      exact ⟨acts_report c rfl, static_reportAt _ _ rfl, fun quiet =>
        absurd quiet (not_quiet_report _ _)⟩
  | cons loop outer =>
      refine (stage_openJump (g := fun site loop => { loop with breaks := site :: loop.breaks })
        stream closed loops _ .leave rfl rfl fun _ _ => rfl).map fun coded _ _ _ =>
          ⟨coded.of_eq (by simp [openJump, Statement.code]), ?_, trivial, ?_, trivial⟩
      · simp [loops]
      · exact finishes_of_last (lastOpcode_openJump ..) (by decide)

theorem compiles_leave {k m : Token} (word : k.kind = .break) (closed : m.kind = .semicolon) :
    Compiles .statement false .leave [k, m] :=
  compiles_of_word (fun _ => breakStatement)
    (fun depth c current => by simp only [phrase, statement, current, word])
    (fun _ => acts_breakStatement) fun _ _ _ _ _ stream _ => stage_breakStatement stream closed

theorem stage_continueStatement {m : Token} (stream : c.stream = m :: f :: rest)
    (closed : m.kind = .semicolon) :
    Stage c c.continueStatement (f :: rest) (Codes .again c c.continueStatement) := by
  unfold continueStatement
  cases loops : c.body.loops with
  | nil =>
      exact ⟨acts_report c rfl, static_reportAt _ _ rfl, fun quiet =>
        absurd quiet (not_quiet_report _ _)⟩
  | cons loop outer =>
      refine (stage_openJump (g := fun site loop => { loop with continues := site :: loop.continues })
        stream closed loops _ .again rfl rfl fun _ _ => rfl).map fun coded _ _ _ =>
          ⟨coded.of_eq (by simp [openJump, Statement.code]), ?_, trivial, ?_, trivial⟩
      · simp [loops]
      · exact finishes_of_last (lastOpcode_openJump ..) (by decide)

theorem compiles_again {k m : Token} (word : k.kind = .continue) (closed : m.kind = .semicolon) :
    Compiles .statement false .again [k, m] :=
  compiles_of_word (fun _ => continueStatement)
    (fun depth c current => by simp only [phrase, statement, current, word])
    (fun _ => acts_continueStatement) fun _ _ _ _ _ stream _ => stage_continueStatement stream closed

/-! ## Blocks -/

/-- Closing a scope drops the locals declared in it. -/
theorem Writes.endScope {c c' : Compiler} {cells : List Cell} {locals : List LocalVariable}
    {p : Pool} (h : Writes c.beginScope c' cells locals p) :
    Writes c c'.endScope (cells ++ ops (pops (deeper locals c.body.depth)))
      (locals.drop (deeper locals c.body.depth).length) p := by
  let dropped := deeper locals c.body.depth
  have depth : c'.body.depth - 1 = c.body.depth := by
    rw [h.depth]
    exact Nat.add_sub_cancel _ _
  let closed := c'.mapBody fun body => { body with depth := body.depth - 1 }
  -- the locals that are dropped are those deeper than the scope that goes on
  have known : closed.body.localsDeeperThan closed.body.depth = dropped := by
    show c'.body.locals.takeWhile (·.isDeeperThan (c'.body.depth - 1)) = _
    rw [h.locals, depth]
    rfl
  have same : c'.endScope = (closed.emitPops dropped).mapBody fun body =>
      { body with locals := body.locals.drop dropped.length } := by
    rw [← known]
    rfl
  have popped := emits_emitPops closed dropped
  have spelled := popped.written
  rw [same]
  refine ⟨?_, ?_, ?_, ?_, ?_, ?_, ?_, ?_, ?_⟩
  · show (closed.emitPops dropped).body.chunk.code.toList = _
    rw [spelled, draft_append, draft_ops, assemble_append, ← List.append_assoc]
    exact congrArg (· ++ _) h.written
  · exact popped.pooled.trans h.pooled
  · exact ⟨popped.signature.1.trans h.signature.1, popped.signature.2.trans h.signature.2⟩
  · show (closed.emitPops dropped).body.locals.drop _ = _
    rw [popped.locals]
    exact congrArg (List.drop _) h.locals
  · exact popped.depth.trans depth
  · show (closed.emitPops dropped).body.loops = _
    rw [popped.loops, record_append, record_ops]
    exact h.loops
  · exact popped.enclosing.trans h.enclosing
  · intro small a mem
    rw [draft_append, draft_ops] at mem
    rcases List.mem_append.mp mem with mem | mem
    · exact h.fits small a mem
    · exact popped.fits (h.small small) a mem
  · intro small
    show ((closed.emitPops dropped).body.locals.drop _).length ≤ _
    rw [popped.locals, List.length_drop]
    have := h.small small
    show c'.body.locals.length - _ ≤ _
    omega

/-- The end of a scope without locals writes nothing. -/
theorem Finishes.endScope {e : Ending} {c' : Compiler} {locals : List LocalVariable}
    (h : Finishes e c.beginScope c') (dropped : c'.body.localsDeeperThan (c'.body.depth - 1) = locals) :
    Finishes (if locals = [] then e else .unsealed) c c'.endScope := by
  have same : c'.endScope = ((c'.mapBody fun body => { body with depth := body.depth - 1 }).emitPops
      locals).mapBody fun body => { body with locals := body.locals.drop locals.length } := by
    rw [← dropped]
    rfl
  rw [same]
  cases locals with
  | nil => cases e <;> exact h
  | cons var others =>
      rw [if_neg nofun]
      have popped := emits_emitPops (c'.mapBody fun body => { body with depth := body.depth - 1 })
        (var :: others)
      exact popped.unsealed nofun (by simp [pops, Asm.plain])

/-- What was compiled in a scope of its own is a block. -/
theorem Stage.scoped {c' : Compiler} {after : List Token} {s : Statement} (proper : s.Proper)
    (h : Stage c.beginScope c' after (Codes s c.beginScope c')) :
    Stage c c'.endScope after (Codes (.block s) c c'.endScope) := by
  have begun : Acts false c c.beginScope := acts_beginScope c
  have out : Acts false c' c'.endScope := acts_endScope c'
  refine ⟨begun.toReading.trans (h.acts.trans out.toReading), begun.static.trans begun.toReading
    (h.acts.trans out.toReading) fun _ => h.static.still h.acts out, fun quiet => ?_⟩
  obtain ⟨-, calm⟩ := quiet.split begun.toReading (h.acts.trans out.toReading)
  obtain ⟨calm, -⟩ := calm.split h.acts out.toReading
  obtain ⟨stream, coded⟩ := h.holds calm
  refine ⟨out.stream.trans stream, fun steady layout agrees => ?_⟩
  have inner : c.beginScope.Steady := ⟨steady.placed.inner, begun.grounded steady.grounded⟩
  have yields := coded inner (agrees.before out)
  have locals := yields.locals proper inner
  have depth : c'.body.depth - 1 = c.body.depth := by
    rw [yields.coding.depth]
    exact Nat.add_sub_cancel _ _
  have dropped : c'.body.localsDeeperThan (c'.body.depth - 1) = s.declared (c.body.depth + 1) := by
    rw [depth]
    show deeper c'.body.locals c.body.depth = _
    rw [locals]
    exact steady.placed.deeper_inner s.depth_declared
  exact ⟨yields.coding.endScope, yields.closed, yields.allowed, yields.finishes.endScope dropped,
    yields.narrow⟩

/-- Declarations up to a closing brace, and the brace. -/
theorem stage_block {r : Token} {ends : Bool} {s : Statement} {ts : List Token}
    {depth bound : Nat} (body : Compiles .sequence ends s ts) (closed : r.kind = .rightBrace)
    (fuel : ts.length + 1 ≤ depth) (turns : ts.length ≤ bound)
    (stream : c.stream = ts ++ r :: f :: rest) :
    Stage c (c.block (phrase depth) bound) (f :: rest) (Codes s c (c.block (phrase depth) bound)) := by
  let c' := repeatWhile (goesOn false) (phrase depth .declaration) bound c
  have inner : Stage c c' (r :: f :: rest) (Codes s c c') := body fuel turns stream closed
  refine (inner.andThen (acts_consume c' .rightBrace (.expectedMark "\x7d" "after block"))
    fun stream => stage_consume stream closed _).map ?_
  rintro ⟨coded, ended⟩ steady layout agrees
  have yields := coded steady (agrees.before (acts_consume c' .rightBrace _))
  exact ⟨(yields.coding.seq ended).of_eq (by simp), yields.closed, yields.allowed,
    yields.finishes.to_body (consume_body ..), yields.narrow⟩

theorem compiles_block {l r : Token} {ends : Bool} {s : Statement} {ts : List Token}
    (opened : l.kind = .leftBrace) (written : StatementWritten .sequence ends s ts)
    (body : Compiles .sequence ends s ts) (closed : r.kind = .rightBrace) :
    Compiles .statement false (.block s) (l :: (ts ++ [r])) := by
  refine compiles_of_word (fun depth => blockStatement (phrase depth) depth)
    (fun depth c current => by simp only [phrase, statement, current, opened])
    (fun depth => acts_blockStatement (acts_phrase depth) depth) ?_
  intro depth c f rest fuel stream _
  simp only [List.length_append, List.length_singleton] at fuel
  have tokens : c.stream = ts ++ r :: f :: rest := by simpa using stream
  exact (stage_block (c := c.beginScope) body closed (by omega) (by omega) tokens).scoped
    written.proper.1

/-- Nothing up to the end, or what is left of it. -/
theorem compiles_done : Compiles .sequence false .done [] := by
  intro depth bound script c f rest _ _ stream closed
  have passed : goesOn script c = false := by
    cases script <;> simp [goesOn, check_of_stream stream, closed, closingKind]
  have same : repeatWhile (goesOn script) (phrase depth .declaration) bound c = c := by
    cases bound <;> simp [repeatWhile, passed]
  rw [same]
  exact ⟨.refl, .silent fun _ => rfl, fun _ => ⟨stream, codes_done c⟩⟩

/-- One statement after another. -/
theorem Yields.next {layout : Layout} {s t : Statement} {a b c : Compiler}
    (first : Yields layout s a b) (second : Yields layout t b c) (proper : s.Proper)
    (steady : a.Steady) : Yields layout (.next s t) a c where
  coding := (first.coding.seq second.coding).of_eq rfl
  closed outside := ⟨first.closed outside, second.closed (first.coding.loops_nil outside)⟩
  allowed := by
    have later := second.allowed
    rw [first.coding.outer, first.locals proper steady, first.coding.depth] at later
    exact ⟨first.allowed, later⟩
  finishes := by
    have later := second.finishes
    rw [first.coding.depth] at later
    exact first.finishes.after later
  narrow := by
    have later := second.narrow
    rw [first.coding.place, first.coding.pooled] at later
    exact ⟨first.narrow, later⟩

theorem compiles_next {ends ends' : Bool} {s t : Statement} {ts us : List Token}
    (written : StatementWritten .declaration ends s ts)
    (others : StatementWritten .sequence ends' t us) (first : Compiles .declaration ends s ts)
    (later : Compiles .sequence ends' t us) :
    Compiles .sequence ends' (.next s t) (ts ++ us) := by
  intro depth bound script c f rest fuel turns stream closed
  have proper := written.proper.1
  obtain ⟨token, ts, rfl, begins⟩ := written.head (by simp)
  simp only [List.length_append, List.length_cons] at fuel turns
  obtain ⟨bound, rfl⟩ : ∃ n, bound = n + 1 := ⟨bound - 1, by omega⟩
  have more : goesOn script c = true := by
    simp [goesOn, check_of_stream stream, begins.1, begins.2.2]
  simp only [repeatWhile, more, if_true]
  have follows : ∃ g later, us ++ f :: rest = g :: later ∧ g.kind ≠ .else := by
    rcases others.sequence_head with rfl | ⟨u, us, rfl, begins⟩
    · exact ⟨f, rest, rfl, by rw [closed]; cases script <;> decide⟩
    · exact ⟨u, _, rfl, begins.2.1⟩
  obtain ⟨g, tokens, tail, noElse⟩ := follows
  have room : (token :: ts).length + 1 ≤ depth := by
    simp only [List.length_cons]
    omega
  have step := first (c := c) room (by rw [stream, List.append_assoc, tail]) (fun _ => noElse)
  have turned : Acts true _ (repeatWhile (goesOn script) (phrase depth .declaration) bound
      (phrase depth .declaration c)) :=
    acts_repeatWhile (fun c => acts_phrase depth .declaration c) bound _
  refine (step.andThen turned fun stream =>
    later (by omega) (by omega) (by rw [stream, tail]) closed).map ?_
  rintro ⟨start, others⟩ steady layout agrees
  have yields := start steady (agrees.before turned)
  exact yields.next (others (yields.steady proper steady step.acts) agrees) proper steady

/-! ## Branches -/

/-- A condition in parentheses. -/
theorem stage_condition {p : Precedence} {e : Expression} {ts : List Token} {l r : Token}
    {depth : Nat} (opened : l.kind = .leftParen) (test : Written p e ts)
    (fuel : ts.length ≤ depth) (closed : r.kind = .rightParen) (word : String)
    (stream : c.stream = l :: (ts ++ r :: f :: rest)) :
    Stage c (c.condition (phrase depth) word) (f :: rest)
      (Coding c (c.condition (phrase depth) word) (.value e) ∧
        Known c.outer c.body.locals e.names) := by
  obtain ⟨t, others, rfl, -⟩ := test.head
  have entered := stage_consume stream opened (.expectedMark "(" ("after '" ++ word ++ "'"))
  refine (entered.andThen ((acts_phrase depth _ _).trans (acts_consume _ _ _)) fun stream =>
    stage_value test fuel closed rfl (by decide) (.expectedMark ")" "after condition")
      stream).map ?_
  rintro ⟨start, coded, known⟩
  rw [start.outer, start.locals] at known
  exact ⟨(start.seq coded).of_eq (by simp), known⟩

/-- A jump is patched to lead to the next byte. -/
theorem stage_patchJump {site : Nat} {after : List Token} (stream : c.stream = after) :
    Stage c (c.patchJump site) after (Quiet c (c.patchJump site)) :=
  stage_still stream (acts_patchJump c site) id

theorem place_patchJump (c : Compiler) (site : Nat) : (c.patchJump site).place = c.place := by
  obtain ⟨_, _, _, -, -, same⟩ := patchJump_eq c site
  rw [same]
  rfl

theorem patchJump_loops (c : Compiler) (site : Nat) :
    (c.patchJump site).body.loops = c.body.loops := by
  obtain ⟨_, _, _, -, -, same⟩ := patchJump_eq c site
  rw [same]

theorem outer_patchJump (c : Compiler) (site : Nat) : (c.patchJump site).outer = c.outer := by
  obtain ⟨_, _, _, -, -, same⟩ := patchJump_eq c site
  rw [same]
  rfl

theorem pool_patchJump (c : Compiler) (site : Nat) : (c.patchJump site).pool = c.pool := by
  obtain ⟨chunk, _, _, -, constants, same⟩ := patchJump_eq c site
  rw [same, pool, pool, constants]

/-- A condition and two branches, as they are put together. -/
theorem writes_choose {c c₁ c₃ c₅ : Compiler} {test : List Asm} {yes no : List Cell}
    {locals₁ locals₃ locals₅ : List LocalVariable} {p₁ p₃ p₅ : Pool}
    (tested : Writes c c₁ (ops test) locals₁ p₁)
    (first : Writes ((c₁.emitJump .jumpIfFalse).emit .pop) c₃ yes locals₃ p₃)
    (passed : Quiet (c₃.emitJump .jump) ((c₃.emitJump .jump).patchJump (c₁.here + 1)))
    (second : Writes (((c₃.emitJump .jump).patchJump (c₁.here + 1)).emit .pop) c₅ no locals₅ p₅)
    (done : Quiet c₅ (c₅.patchJump (c₃.here + 1))) :
    Writes c (c₅.patchJump (c₃.here + 1)) (chooseCells test yes no) locals₅ p₅ := by
  have begun := ((tested.emits (emits_emitJump c₁ .jumpIfFalse rfl)).emits
    (emits_emit _ .pop rfl)).trans first
  have skipping : Writes c (c₃.emitJump .jump)
      (ops test ++ .op ⟨.jumpIfFalse, maxJump⟩ :: (.op (.plain .pop) :: (yes ++
        [.op ⟨.jump, maxJump⟩]))) locals₃ c₃.pool := by
    simpa [ops] using begun.emits (emits_emitJump c₃ .jump rfl)
  have patched := skipping.patch rfl (by rw [tested.here]) passed
  have both : Writes c c₅
      ((ops test ++ .op ⟨.jumpIfFalse, cellsSize (.op (.plain .pop) :: (yes ++
          [.op ⟨.jump, maxJump⟩]))⟩ :: .op (.plain .pop) :: yes) ++
        .op ⟨.jump, maxJump⟩ :: .op (.plain .pop) :: no) locals₅ p₅ := by
    simpa [ops] using (patched.emits (emits_emit _ .pop rfl)).trans second
  have here : c₃.here + 1 = c.here + cellsSize (ops test ++
      .op ⟨.jumpIfFalse, cellsSize (.op (.plain .pop) :: (yes ++ [.op ⟨.jump, maxJump⟩]))⟩ ::
        .op (.plain .pop) :: yes) + 1 := by
    rw [begun.here]
    simp [Cell.size, Cell.draft, Asm.size]
  have whole := both.patch rfl here done
  simpa [chooseCells, Cell.size, Cell.draft, Asm.size] using whole

/-- What may stand behind the first branch. -/
def otherwise (depth : Nat) (c : Compiler) : Compiler :=
  if c.check .else then c.advance.substatement (phrase depth) else c

theorem acts_otherwise (depth : Nat) (c : Compiler) : Acts true c (otherwise depth c) := by
  unfold otherwise
  split
  · exact (acts_advance _).trans (acts_phrase depth _ _)
  · exact .refl

theorem stage_ifStatement {p : Precedence} {ends : Bool} {e : Expression} {s t : Statement}
    {ts us tail : List Token} {l r g : Token} {depth : Nat} (opened : l.kind = .leftParen)
    (test : Written p e ts) (testFuel : ts.length ≤ depth) (closed : r.kind = .rightParen)
    (written : StatementWritten .statement ends s us) (yes : Compiles .statement ends s us)
    (fuel : us.length ≤ depth) (apart : ends → g.kind ≠ .else)
    (no : ∀ c : Compiler, c.stream = g :: tail →
      Stage c (otherwise depth c) (f :: rest) (Codes t c (otherwise depth c)))
    (stream : c.stream = l :: (ts ++ r :: (us ++ g :: tail))) :
    Stage c (c.ifStatement (phrase depth)) (f :: rest)
      (Codes (.choose e s t) c (c.ifStatement (phrase depth))) := by
  obtain ⟨u, us, rfl, -⟩ := written.head (by simp)
  let c₁ := c.condition (phrase depth) "if"
  let c₂ := (c₁.emitJump .jumpIfFalse).emit .pop
  let c₃ := c₂.substatement (phrase depth)
  let c₄ := ((c₃.emitJump .jump).patchJump (c₁.here + 1)).emit .pop
  let c₅ := otherwise depth c₄
  have tested : Stage c c₁ (u :: (us ++ g :: tail)) _ :=
    stage_condition opened test testFuel closed "if" stream
  have jump : Acts false c₁ c₂ := (acts_emitJump _ _).trans (acts_emit _ _)
  have chain := ((((tested.andThen jump.toReading fun stream =>
      stage_still stream jump fun _ => True.intro).andThen (acts_phrase depth _ _) fun stream =>
    yes (c := c₂) fuel stream apart).andThen (acts_emitJump c₃ .jump).toReading fun stream =>
      stage_emitJump stream rfl).andThen (acts_patchJump _ (c₁.here + 1)).toReading fun stream =>
    stage_patchJump stream).andThen (acts_emit _ .pop).toReading fun stream =>
      stage_emit stream rfl
  have whole := (chain.andThen (acts_otherwise depth c₄) (no c₄)).andThen
    (acts_patchJump c₅ (c₃.here + 1)).toReading fun stream => stage_patchJump stream
  refine whole.map ?_
  rintro ⟨⟨⟨⟨⟨⟨⟨⟨coded, known⟩, -⟩, first⟩, -⟩, passed⟩, -⟩, second⟩, done⟩ steady layout agrees
  have proper := written.proper
  have entered := (coded.seq (coding_of_emits (emits_emitJump c₁ .jumpIfFalse rfl))).seq
    (coding_of_emits (emits_emit _ .pop rfl))
  have placed₂ : c₂.place = c.place := entered.place
  have pooled₂ : c₂.pool = (e.code c.place.locals c.pool).2 := entered.pooled
  have behind₅ : Acts true c₅ (c₅.patchJump (c₃.here + 1)) := acts_patchJump _ _
  have behind₄ : Acts true c₄ c₅ := acts_otherwise depth c₄
  have behind₃ : Acts true c₃ c₄ :=
    ((acts_emitJump c₃ .jump).trans (acts_patchJump _ _)).trans (acts_emit _ _)
  have steady₂ : c₂.Steady := by
    have behind₂ : Acts true c c₂ := tested.acts.trans jump.toReading
    exact ⟨placed₂ ▸ steady.placed, behind₂.grounded steady.grounded⟩
  have first : Yields layout s c₂ c₃ := first steady₂ (((agrees.before behind₅).before behind₄).before behind₃)
  have steady₃ : c₃.Steady := first.steady proper.1 steady₂ (acts_phrase depth _ _)
  -- a branch declares nothing in the scope around it, so both branches start from the same locals
  have placed₃ : c₃.place = c.place := by
    have locals := first.locals proper.1 steady₂
    rw [(proper.2 rfl).declared, List.nil_append] at locals
    rw [first.coding.place, ← first.coding.locals, locals]
    exact placed₂
  have placed₄ : c₄.place = c₃.place := by
    rw [(coding_of_emits (emits_emit _ .pop rfl)).place]
    exact (place_patchJump _ _).trans (coding_of_emits (emits_emitJump c₃ .jump rfl)).place
  have pooled₄ : c₄.pool = c₃.pool :=
    ((emits_emit _ .pop rfl).pooled.trans (pool_patchJump _ _)).trans
      (emits_emitJump c₃ .jump rfl).pooled
  have steady₄ : c₄.Steady := ⟨placed₄ ▸ steady₃.placed, behind₃.grounded steady₃.grounded⟩
  have second : Yields layout t c₄ c₅ := second steady₄ (agrees.before behind₅)
  have outer₂ : c₂.outer = c.outer := entered.outer
  have outer₄ : c₄.outer = c.outer := by
    rw [(emits_emit _ .pop rfl).outer, outer_patchJump, (emits_emitJump c₃ .jump rfl).outer,
      first.coding.outer, outer₂]
  refine ⟨?_, fun outside => ?_, ⟨known, ?_, ?_⟩, finishes_of_landing (landing_patchJump ..), ?_, ?_⟩
  · have joined := writes_choose coded first.coding passed second.coding done
    rw [placed₄, pooled₄, first.coding.place, first.coding.pooled, placed₂, pooled₂] at joined
    exact joined
  -- outside loops both branches are closed
  · have outside₂ : c₂.body.loops = [] := entered.loops_nil outside
    have outside₄ : c₄.body.loops = [] := by
      show (c₃.emitJump .jump |>.patchJump (c₁.here + 1)).body.loops = []
      rw [patchJump_loops]
      exact first.coding.loops_nil outside₂
    exact ⟨first.closed outside₂, second.closed outside₄⟩
  · have allowed := first.allowed
    rw [outer₂] at allowed
    exact allowed_of_place placed₂ allowed
  · have allowed := second.allowed
    rw [outer₄] at allowed
    exact allowed_of_place (placed₄.trans placed₃) allowed
  · have narrow := first.narrow
    rw [placed₂, pooled₂] at narrow
    exact narrow
  · have narrow := second.narrow
    rw [placed₄, pooled₄, first.coding.place, first.coding.pooled, placed₂, pooled₂] at narrow
    exact narrow

/-- A branch without `else` does nothing in place of it. -/
theorem compiles_when {k l r : Token} {p : Precedence} {ends : Bool} {e : Expression}
    {s : Statement} {ts us : List Token} (word : k.kind = .if) (opened : l.kind = .leftParen)
    (test : Written p e ts) (closed : r.kind = .rightParen)
    (written : StatementWritten .statement ends s us) (yes : Compiles .statement ends s us) :
    Compiles .statement true (.choose e s .done) (k :: l :: (ts ++ r :: us)) := by
  refine compiles_of_word (fun depth => ifStatement (phrase depth))
    (fun depth c current => by simp only [phrase, statement, current, word])
    (fun depth => acts_ifStatement (acts_phrase depth)) ?_
  intro depth c f rest fuel stream apart
  simp only [List.length_cons, List.length_append] at fuel
  have noElse (c : Compiler) (stream : c.stream = f :: rest) :
      Stage c (otherwise depth c) (f :: rest) (Codes .done c (otherwise depth c)) := by
    have passed : c.check .else = false := by
      rw [check_of_stream stream]
      simpa using apart rfl
    simp only [otherwise, passed, Bool.false_eq_true, if_false]
    exact ⟨.refl, .silent fun _ => rfl, fun _ => ⟨stream, codes_done c⟩⟩
  exact stage_ifStatement opened test (by omega) closed written yes (by omega) (fun _ => apart rfl)
    noElse (by simpa using stream)

theorem compiles_choose {k l r o : Token} {p : Precedence} {ends : Bool} {e : Expression}
    {s t : Statement} {ts us vs : List Token} (word : k.kind = .if) (opened : l.kind = .leftParen)
    (test : Written p e ts) (closed : r.kind = .rightParen)
    (written : StatementWritten .statement false s us) (yes : Compiles .statement false s us)
    (other : o.kind = .else) (written' : StatementWritten .statement ends t vs)
    (no : Compiles .statement ends t vs) :
    Compiles .statement ends (.choose e s t) (k :: l :: (ts ++ r :: (us ++ o :: vs))) := by
  refine compiles_of_word (fun depth => ifStatement (phrase depth))
    (fun depth c current => by simp only [phrase, statement, current, word])
    (fun depth => acts_ifStatement (acts_phrase depth)) ?_
  intro depth c f rest fuel stream apart
  simp only [List.length_cons, List.length_append] at fuel
  obtain ⟨v, vs, rfl, -⟩ := written'.head (by simp)
  have elseBranch (c : Compiler) (stream : c.stream = o :: (v :: vs ++ f :: rest)) :
      Stage c (otherwise depth c) (f :: rest) (Codes t c (otherwise depth c)) := by
    have more : c.check .else = true := by
      rw [check_of_stream stream, other]
      rfl
    simp only [otherwise, more, if_true]
    exact .advance stream (by simp) (acts_phrase depth _ _) fun stream =>
      no (by omega) stream apart
  exact stage_ifStatement opened test (by omega) closed written yes (by omega) (by simp) elseBranch
    (by simpa using stream)

end Compiler
end StackScript
