import StackScript.Proofs.Parsing.Declaration

/-!
# Reading loops

Both kinds of loop are compiled alike: a condition that may be missing, a step that
may be missing, the body and the jump back.  `writes_loop` says what comes of the
parts when they are put together.
-/

namespace StackScript

namespace Compiler

variable {c : Compiler} {f : Token} {rest : List Token}

/-- A jump back to a start leads there. -/
theorem emits_emitLoop {c : Compiler} {start : Nat} (quiet : Quiet c (c.emitLoop start)) :
    Emits c (c.emitLoop start) [loopTo start c.here] c.pool := by
  by_cases near : c.here + 3 - start ≤ maxJump
  · rw [emitLoop_near c near]
    exact emits_operand c .loop _ fun _ => fits_jump rfl near
  · rw [emitLoop_far c (Nat.not_le.mp near)] at quiet
    have reported := quiet.split (a := c) (b := (c.emit .loop).report .loopTooLarge)
      ((acts_emit _ _).trans (acts_report _ rfl)) (acts_emitWord _ _ _)
    exact absurd (reported.1.split (acts_emit _ _) (acts_report _ rfl)).2 (not_quiet_report _ _)

/-- Lets the jump out of a loop lead to the next byte, where the condition is dropped. -/
def leaveTest (site : Option Nat) (c : Compiler) : Compiler :=
  match site with
  | some site => (c.patchJump site).emit .pop
  | none => c

theorem acts_leaveTest (site : Option Nat) (c : Compiler) : Acts false c (leaveTest site c) := by
  cases site with
  | none => exact .refl
  | some site => exact (acts_patchJump _ _).trans (acts_emit _ _)

/-- A loop, as it is put together. -/
theorem writes_loop {c c₂ c₃ : Compiler} {test step : Option (List Asm)} {body : List Cell}
    {locals locals' : List LocalVariable} {p q : Pool} {start : Nat}
    (head : Writes c c₂ (ops (testCode maxJump test ++
      stepCode (codeSize (testCode 0 test) + codeSize (stepCode 0 step)) step)) locals p)
    (next : start = c.here + nextStart (codeSize (testCode 0 test)) step)
    (written : Writes (c₂.beginLoop start) c₃ body locals' q)
    (back : Quiet c₃ (c₃.emitLoop start)) (site : Option Nat)
    (here : site = test.map fun test => c.here + codeSize test + 1)
    (left : Quiet (c₃.emitLoop start) (leaveTest site (c₃.emitLoop start)))
    (ended : Quiet (leaveTest site (c₃.emitLoop start))
      (leaveTest site (c₃.emitLoop start)).endLoop) :
    Writes c (leaveTest site (c₃.emitLoop start)).endLoop (loopCode test step body) locals' q := by
  let before := codeSize (testCode 0 test) + codeSize (stepCode 0 step)
  have inside := (head.beginLoop start).trans written
  have size : c₃.here = c.here + (before + cellsSize body) := by
    rw [inside.here, cellsSize_append, cellsSize_ops, codeSize_append, codeSize_testCode,
      codeSize_stepCode]
    rfl
  let jump := loopTo (nextStart (codeSize (testCode 0 test)) step) (before + cellsSize body)
  have jumped : Emits c₃ (c₃.emitLoop start) [jump] q := by
    have emitted := emits_emitLoop back
    rw [size, next, written.pooled] at emitted
    have same : loopTo (c.here + nextStart (codeSize (testCode 0 test)) step)
        (c.here + (before + cellsSize body)) = jump := by
      simp only [jump, loopTo, Asm.mk.injEq, true_and]
      omega
    rw [same] at emitted
    rw [next]
    exact emitted
  -- with a condition, its jump out is patched behind the jump back
  have around : Writes (c.beginLoop start) (leaveTest site (c₃.emitLoop start))
      (loopCells test step body) locals' q := by
    have whole := inside.emits jumped
    cases test with
    | none =>
        subst here
        simpa [leaveTest, loopCells, testCode, exitCode, ops, jump, before] using whole
    | some test =>
        obtain rfl : site = some (c.here + codeSize test + 1) := here
        let iteration : List Cell := ops (stepCode before step) ++ (body ++ [.op jump])
        have whole : Writes (c.beginLoop start) (c₃.emitLoop start)
            (ops test ++ .op ⟨.jumpIfFalse, maxJump⟩ :: .op (.plain .pop) :: iteration)
            locals' q := by
          simpa [testCode, ops, iteration, before] using whole
        obtain ⟨patching, -⟩ := left.split (acts_patchJump _ _) (acts_emit _ .pop)
        have here : (c.beginLoop start).here = c.here := rfl
        have size : cellsSize (.op (.plain .pop) :: iteration) = 1 + cellsSize iteration := by
          rw [cellsSize_cons]
          rfl
        have patched := whole.patch rfl (by rw [here, cellsSize_ops]) patching
        have dropped : Emits _ (leaveTest (some (c.here + codeSize test + 1)) _) _ _ :=
          emits_emit ((c₃.emitLoop start).patchJump (c.here + codeSize test + 1)) .pop rfl
        rw [patched.pooled] at dropped
        rw [size] at patched
        simpa [loopCells, testCode, exitCode, ops, jump, before, iteration, leaveTest]
          using patched.emits dropped
  have closed := around.endLoop ended
  rw [next, show c.here = c.here + 0 from rfl] at closed
  rw [loopCode, ← resolveJumps_shift c.here]
  simpa only [Nat.add_zero, next] using closed

/-- What is left of a loop whose clauses have been read. -/
def loopEnd (depth start : Nat) (site : Option Nat) (c : Compiler) : Compiler :=
  (leaveTest site (((c.beginLoop start).substatement (phrase depth)).emitLoop start)).endLoop

theorem acts_loopEnd (depth start : Nat) (site : Option Nat) (c : Compiler) :
    Acts true c (loopEnd depth start site c) :=
  ((((acts_beginLoop c start).trans (acts_phrase depth _ _)).trans (acts_emitLoop _ _)).trans
    (acts_leaveTest _ _).toReading).trans (acts_endLoop _)

/-- Closing a loop patches bytes and writes none. -/
theorem lastOpcode_endLoop (c : Compiler) : c.endLoop.body.lastOpcode = c.body.lastOpcode := by
  have folded {patch : Compiler → Nat → Compiler}
      (kept : ∀ c site, (patch c site).body.lastOpcode = c.body.lastOpcode) (sites : List Nat)
      (c : Compiler) : (sites.foldl patch c).body.lastOpcode = c.body.lastOpcode := by
    induction sites generalizing c with
    | nil => rfl
    | cons site sites ih => exact (ih _).trans (kept c site)
  have looped (start : Nat) (c : Compiler) (site : Nat) :
      (c.patchLoop site start).body.lastOpcode = c.body.lastOpcode := by
    obtain ⟨_, _, _, -, -, same⟩ := patchLoop_eq c site start
    rw [same]
  have jumped (c : Compiler) (site : Nat) :
      (c.patchJump site).body.lastOpcode = c.body.lastOpcode := by
    obtain ⟨_, _, _, -, -, same⟩ := patchJump_eq c site
    rw [same]
  unfold endLoop
  split
  · rfl
  · exact (folded jumped _ _).trans (folded (looped _) _ _)

theorem finishes_leaveTest {a : Compiler} (site : Option Nat) (c : Compiler) (start : Nat) :
    Finishes .unsealed a (leaveTest site (c.emitLoop start)).endLoop := by
  have looped : (c.emitLoop start).body.lastOpcode = some .loop := by
    unfold emitLoop
    dsimp only
    split
    · rfl
    · simp only [emitWord, mapBody, report, reportAt_body]
      rfl
  have left : ∃ op, (leaveTest site (c.emitLoop start)).body.lastOpcode = some op ∧
      op ≠ .return := by
    cases site with
    | none => exact ⟨_, looped, by decide⟩
    | some site => exact ⟨.pop, rfl, by decide⟩
  obtain ⟨op, last, other⟩ := left
  exact finishes_of_last ((lastOpcode_endLoop _).trans last) other

/-- A loop whose clauses have been read. -/
theorem stage_loop {c₂ : Compiler} {test step : Option Expression} {s : Statement} {ends : Bool}
    {ts : List Token} {depth start : Nat} {site : Option Nat}
    (head : Coding c c₂ fun place pool =>
      let test := clauseCode place.locals test pool
      let step := clauseCode place.locals step test.2
      ⟨ops (testCode maxJump test.1 ++
        stepCode (codeSize (testCode 0 test.1) + codeSize (stepCode 0 step.1)) step.1),
        place.locals, step.2⟩)
    (next : start = c.here + nextStart (codeSize (testCode 0 (clauseCode c.place.locals test c.pool).1))
      (clauseCode c.place.locals step (clauseCode c.place.locals test c.pool).2).1)
    (here : site = (clauseCode c.place.locals test c.pool).1.map fun test =>
      c.here + codeSize test + 1)
    (known : (∀ e ∈ test, Known c.outer c.body.locals e.names) ∧
      ∀ e ∈ step, Known c.outer c.body.locals e.names) (before : Acts true c c₂)
    (body : Compiles .statement ends s ts) (fuel : ts.length ≤ depth)
    (apart : ends → f.kind ≠ .else) (stream : c₂.stream = ts ++ f :: rest) :
    Stage c₂ (loopEnd depth start site c₂) (f :: rest)
      (Codes (.loop test step s) c (loopEnd depth start site c₂)) := by
  have opened := stage_still stream (acts_beginLoop c₂ start) fun _ => True.intro
  have whole := (((opened.andThen (acts_phrase depth .statement _) fun stream =>
    body fuel stream apart).andThen (acts_emitLoop _ start) fun stream =>
      stage_still stream (acts_emitLoop _ start) id).andThen (acts_leaveTest site _).toReading
    fun stream => stage_still stream (acts_leaveTest site _) id).andThen
      (acts_endLoop _).toReading fun stream => stage_still stream (acts_endLoop _) id
  refine whole.map ?_
  rintro ⟨⟨⟨⟨-, coded⟩, back⟩, left⟩, closed⟩ steady layout agrees
  -- the body is compiled where the clauses have left off, inside the new loop
  have inside : (c₂.beginLoop start).place = c.place.looped := by
    have placed := head.place
    show c₂.place.looped = _
    rw [placed]
    rfl
  have begun : Acts true c (c₂.beginLoop start) := before.trans (acts_beginLoop c₂ start)
  have steady₂ : (c₂.beginLoop start).Steady :=
    ⟨inside ▸ steady.placed.looped, begun.grounded steady.grounded⟩
  have rest : Acts true (phrase depth .statement (c₂.beginLoop start)) (loopEnd depth start site c₂) :=
    ((acts_emitLoop _ start).trans (acts_leaveTest site _).toReading).trans (acts_endLoop _)
  have yields := coded steady₂ (agrees.before rest)
  have body := yields.coding
  unfold Coding at body
  rw [inside, show (c₂.beginLoop start).pool = c₂.pool from rfl, head.pooled] at body
  refine ⟨writes_loop head next body back site here left closed, fun _ => trivial,
    ⟨known.1, known.2, ?_⟩, finishes_leaveTest site _ start, ?_⟩
  · have allowed := yields.allowed
    rw [show (c₂.beginLoop start).outer = c₂.outer from rfl, head.outer] at allowed
    exact allowed_of_place (c := c.beginLoop start) (inside.trans rfl) allowed
  · have narrow := yields.narrow
    rw [inside, show (c₂.beginLoop start).pool = c₂.pool from rfl, head.pooled] at narrow
    exact narrow

/-! ## Loops with a condition -/

theorem stage_whileStatement {l r : Token} {p : Precedence} {ends : Bool} {e : Expression}
    {s : Statement} {ts us : List Token} {depth : Nat} (opened : l.kind = .leftParen)
    (test : Written p e ts) (fuel : ts.length ≤ depth) (closed : r.kind = .rightParen)
    (written : StatementWritten .statement ends s us) (body : Compiles .statement ends s us)
    (room : us.length ≤ depth) (apart : ends → f.kind ≠ .else)
    (stream : c.stream = l :: (ts ++ r :: (us ++ f :: rest))) :
    Stage c (c.whileStatement (phrase depth)) (f :: rest)
      (Codes (.whileLoop e s) c (c.whileStatement (phrase depth))) := by
  obtain ⟨u, us, rfl, -⟩ := written.head (by simp)
  have tested := stage_condition opened test fuel closed "while" stream
  have entered := (tested.andThen (acts_emitJump _ .jumpIfFalse).toReading fun stream =>
    stage_emitJump stream rfl).andThen (acts_emit _ .pop).toReading fun stream =>
      stage_emit stream rfl
  let site := some ((c.condition (phrase depth) "while").here + 1)
  refine (entered.bind (acts_loopEnd depth c.here site _) fun stream coded => ?_).map And.right
  obtain ⟨⟨⟨tested, known⟩, jumped⟩, dropped⟩ := coded
  have here : site = (clauseCode c.place.locals (some e) c.pool).1.map fun test =>
      c.here + codeSize test + 1 := by
    rw [show site = some ((c.condition (phrase depth) "while").here + 1) from rfl, tested.here]
    simp [clauseCode]
  -- a while loop is a loop whose second clause is missing
  have head : Coding c _ fun place pool =>
      let test := clauseCode place.locals (some e) pool
      let step := clauseCode place.locals none test.2
      ⟨ops (testCode maxJump test.1 ++
        stepCode (codeSize (testCode 0 test.1) + codeSize (stepCode 0 step.1)) step.1),
        place.locals, step.2⟩ :=
    ((tested.seq jumped).seq dropped).of_eq (by simp [clauseCode, testCode, stepCode, ops])
  exact stage_loop head rfl here ⟨by simpa using known, by simp⟩ entered.acts body room apart stream

theorem compiles_whileLoop {k l r : Token} {p : Precedence} {ends : Bool} {e : Expression}
    {s : Statement} {ts us : List Token} (word : k.kind = .while) (opened : l.kind = .leftParen)
    (test : Written p e ts) (closed : r.kind = .rightParen)
    (written : StatementWritten .statement ends s us) (body : Compiles .statement ends s us) :
    Compiles .statement ends (.whileLoop e s) (k :: l :: (ts ++ r :: us)) := by
  refine compiles_of_word (fun depth => whileStatement (phrase depth))
    (fun depth c current => by simp only [phrase, statement, current, word])
    (fun depth => acts_whileStatement (acts_phrase depth)) ?_
  intro depth c f rest fuel stream apart
  simp only [List.length_cons, List.length_append] at fuel
  exact stage_whileStatement opened test (by omega) closed written body (by omega) apart
    (by simpa using stream)

/-! ## Counting loops -/

theorem stage_forInitializer {init : Statement} {ts : List Token} {depth : Nat}
    (written : InitializerWritten init ts) (fuel : ts.length ≤ depth)
    (stream : c.stream = ts ++ f :: rest) :
    Stage c (c.forInitializer (phrase depth)) (f :: rest)
      (Codes init c (c.forInitializer (phrase depth))) := by
  cases written with
  | none closed =>
      have empty : c.check .semicolon = true := by rw [check_of_stream stream, closed]; rfl
      simp only [forInitializer, empty, if_true]
      exact (stage_advance stream).map fun _ => (codes_done c.advance).advance
  | declaration written =>
      obtain ⟨k, ts, rfl, word⟩ := written.head
      simp only [List.length_cons] at fuel
      have same : c.forInitializer (phrase depth) =
          c.advance.variableDeclaration (phrase depth) (k.kind == .var) := by
        have apart : (TokenKind.const == TokenKind.var) = false := rfl
        rcases word with word | word <;>
          simp [forInitializer, check_of_stream stream, word, apart]
      rw [same]
      exact .advance stream (by simp) (acts_variableDeclaration (acts_phrase depth) _ _)
        fun stream => stage_variableDeclaration written (by omega) stream
  | expression value closed =>
      have same : c.forInitializer (phrase depth) = c.expressionStatement (phrase depth) := by
        have opens := opens_of_written value (stream.trans (List.append_assoc ..))
        have apart (kind : TokenKind) : kind.opening? = none → c.check kind = false :=
          check_of_opens opens
        simp only [forInitializer, apart .semicolon rfl, apart .var rfl, apart .const rfl,
          Bool.false_eq_true, if_false]
      rw [same]
      simp only [List.length_append, List.length_cons, List.length_nil] at fuel
      exact (stage_simple value (by omega) closed (.expectedMark ";" "after expression") rfl
        (by simpa using stream)).map fun ⟨coded, known⟩ _ _ _ =>
          ⟨coded.of_eq (by simp [Statement.code]), fun _ => trivial, known,
            finishes_of_last rfl (by decide), trivial⟩

/-- The condition of a loop. -/
def testing (test : Option Expression) : Coder := fun place pool =>
  ⟨ops (testCode maxJump (clauseCode place.locals test pool).1), place.locals,
    (clauseCode place.locals test pool).2⟩

theorem stage_forCondition {test : Option Expression} {ts : List Token} {m : Token} {depth : Nat}
    (written : ClauseWritten test ts) (fuel : ts.length ≤ depth) (closed : m.kind = .semicolon)
    (stream : c.stream = ts ++ m :: f :: rest) :
    Stage c (c.forCondition (phrase depth)).2 (f :: rest)
      ((Coding c (c.forCondition (phrase depth)).2 (testing test) ∧
        ∀ e ∈ test, Known c.outer c.body.locals e.names) ∧
        (c.forCondition (phrase depth)).1 =
          (clauseCode c.place.locals test c.pool).1.map fun test => c.here + codeSize test + 1) := by
  unfold forCondition
  cases written with
  | none =>
      have empty : c.check .semicolon = true := by rw [check_of_stream stream, closed]; rfl
      simp only [if_pos empty]
      exact (stage_advance stream).map fun read => ⟨⟨read.of_eq rfl, nofun⟩, rfl⟩
  | some value =>
      rename_i e
      have more : c.check .semicolon = false := check_of_opens (opens_of_written value stream) rfl
      simp only [more, Bool.false_eq_true, if_false]
      have valued := stage_value value fuel closed rfl (by decide)
        (.expectedMark ";" "after loop condition") stream
      refine ((valued.andThen (acts_emitJump _ .jumpIfFalse).toReading fun stream =>
        stage_emitJump stream rfl).andThen (acts_emit _ .pop).toReading fun stream =>
          stage_emit stream rfl).map ?_
      rintro ⟨⟨⟨coded, known⟩, jumped⟩, dropped⟩
      refine ⟨⟨((coded.seq jumped).seq dropped).of_eq ?_, by simpa using known⟩, ?_⟩
      · simp [testing, clauseCode, testCode, ops]
      · rw [coded.here]
        simp [clauseCode]

/-- The step of a loop, behind a condition of so many bytes. -/
def stepping (before : Nat) (step : Option Expression) : Coder := fun place pool =>
  ⟨ops (stepCode (before + codeSize (stepCode 0 (clauseCode place.locals step pool).1))
    (clauseCode place.locals step pool).1), place.locals, (clauseCode place.locals step pool).2⟩

theorem stage_forIncrement {step : Option Expression} {ts : List Token} {r : Token}
    {depth start : Nat} (before : start ≤ c.here) (written : ClauseWritten step ts)
    (fuel : ts.length ≤ depth) (closed : r.kind = .rightParen)
    (stream : c.stream = ts ++ r :: f :: rest) :
    Stage c (c.forIncrement (phrase depth) start).2 (f :: rest)
      ((Coding c (c.forIncrement (phrase depth) start).2 (stepping (c.here - start) step) ∧
        ∀ e ∈ step, Known c.outer c.body.locals e.names) ∧
        (c.forIncrement (phrase depth) start).1 =
          start + nextStart (c.here - start) (clauseCode c.place.locals step c.pool).1) := by
  unfold forIncrement
  cases written with
  | none =>
      have empty : c.check .rightParen = true := by rw [check_of_stream stream, closed]; rfl
      simp only [if_pos empty]
      exact (stage_advance stream).map fun read => ⟨⟨read.of_eq rfl, nofun⟩, rfl⟩
  | some value =>
      rename_i e
      have more : c.check .rightParen = false := check_of_opens (opens_of_written value stream) rfl
      simp only [more, Bool.false_eq_true, if_false]
      let c₄ := (((c.emitJump .jump).expression (phrase depth)).emit .pop).consume .rightParen
        (.expectedMark ")" "after for clauses")
      have jumped : Stage c (c.emitJump .jump) _ _ := stage_emitJump stream rfl
      have valued := ((jumped.andThen (acts_phrase depth _ _) fun stream =>
        (parsed_of_written value fuel stream (by rw [closed]; rfl) (by rw [closed]; decide)).stage
          ).andThen (acts_emit _ .pop).toReading fun stream => stage_emit stream rfl).andThen
            (acts_consume _ .rightParen (.expectedMark ")" "after for clauses")) fun stream =>
              stage_consume stream closed _
      refine ((valued.andThen (acts_emitLoop c₄ start) fun stream =>
        stage_still stream (acts_emitLoop _ _) id).andThen
          (acts_patchJump _ (c.here + 1)).toReading fun stream => stage_patchJump stream).map ?_
      rintro ⟨⟨⟨⟨⟨jumped, coded, known⟩, dropped⟩, read⟩, back⟩, passed⟩
      let value := e.code c.place.locals c.pool
      have front : Writes c c₄ (.op ⟨.jump, maxJump⟩ :: ops (value.1 ++ [.plain .pop]))
          c.place.locals value.2 := by
        have joined : Coding c c₄ _ := ((jumped.seq coded).seq dropped).seq read
        simpa [Coding, value, ops] using joined
      have size : c₄.here = c.here + (3 + (codeSize value.1 + 1)) := by
        rw [front.here, cellsSize_cons, cellsSize_ops, codeSize_append, codeSize_singleton]
        rfl
      let distance := c.here - start + (3 + (codeSize value.1 + 4))
      -- the distance back covers the clause itself and the jump over it
      have same : loopTo start c₄.here = ⟨.loop, distance⟩ := by
        simp only [loopTo, size, distance, Asm.mk.injEq, true_and]
        omega
      have looped : Emits c₄ (c₄.emitLoop start) [loopTo start c₄.here] c₄.pool :=
        emits_emitLoop back
      rw [same, front.pooled] at looped
      have whole : Writes c (c₄.emitLoop start) ([] ++ .op ⟨.jump, maxJump⟩ ::
          ops (value.1 ++ [.plain .pop, ⟨.loop, distance⟩])) c.place.locals value.2 := by
        simpa [ops] using front.emits looped
      have patched := whole.patch rfl rfl passed
      have width : codeSize (value.1 ++ [.plain .pop, ⟨.loop, distance⟩]) =
          codeSize value.1 + 4 := by
        rw [codeSize_append]
        rfl
      rw [jumped.outer, jumped.locals] at known
      have known : Known c.outer c.body.locals e.names := known
      refine ⟨⟨?_, by simpa using known⟩, ?_⟩
      · rw [cellsSize_ops, width] at patched
        have written : stepCode (c.here - start + codeSize (stepCode 0 (some value.1)))
            (some value.1) =
              ⟨.jump, codeSize value.1 + 4⟩ :: (value.1 ++ [.plain .pop, ⟨.loop, distance⟩]) := by
          simp only [stepCode, codeSize_cons, codeSize_append, codeSize_nil, distance]
          rfl
        show Writes _ _ (ops (stepCode _ (some value.1))) _ _
        rw [show clauseCode c.place.locals (some e) c.pool = (some value.1, value.2) from rfl,
          written]
        exact patched
      · rw [jumped.here]
        show c.here + 3 = start + (c.here - start + 3)
        omega

/-- A counting loop whose word has been read. -/
theorem stage_forStatement {l m r : Token} {ends : Bool} {init : Statement}
    {test step : Option Expression} {s : Statement} {is ts us vs : List Token} {depth : Nat}
    (opened : l.kind = .leftParen) (first : InitializerWritten init is)
    (firstFuel : is.length ≤ depth) (second : ClauseWritten test ts)
    (secondFuel : ts.length ≤ depth) (middle : m.kind = .semicolon) (third : ClauseWritten step us)
    (thirdFuel : us.length ≤ depth) (closed : r.kind = .rightParen)
    (written : StatementWritten .statement ends s vs) (body : Compiles .statement ends s vs)
    (fuel : vs.length ≤ depth) (apart : ends → f.kind ≠ .else)
    (stream : c.stream = l :: (is ++ (ts ++ m :: (us ++ r :: (vs ++ f :: rest))))) :
    Stage c (c.forStatement (phrase depth)) (f :: rest)
      (Codes (.forLoop init test step s) c (c.forStatement (phrase depth))) := by
  let c₀ := c.beginScope.consume .leftParen (.expectedMark "(" "after 'for'")
  let c₁ := c₀.forInitializer (phrase depth)
  let c₂ := (c₁.forCondition (phrase depth)).2
  let c₃ := (c₂.forIncrement (phrase depth) c₁.here).2
  let start := (c₂.forIncrement (phrase depth) c₁.here).1
  let site := (c₁.forCondition (phrase depth)).1
  have same : c.forStatement (phrase depth) = (loopEnd depth start site c₃).endScope := rfl
  rw [same]
  have proper : (Statement.next init (.loop test step s)).Proper :=
    ⟨first.proper, second.genuine, third.genuine, written.proper.1, written.proper.2 rfl⟩
  refine Stage.scoped (s := .next init (.loop test step s)) proper ?_
  obtain ⟨v, vs, rfl, -⟩ := written.head (by simp)
  obtain ⟨g₁, tail₁, follows₁⟩ : ∃ g tail,
      is ++ (ts ++ m :: (us ++ r :: (v :: vs ++ f :: rest))) = g :: tail :=
    List.exists_cons_of_ne_nil (by simp)
  obtain ⟨g₂, tail₂, follows₂⟩ : ∃ g tail,
      ts ++ m :: (us ++ r :: (v :: vs ++ f :: rest)) = g :: tail :=
    List.exists_cons_of_ne_nil (by simp)
  obtain ⟨g₃, tail₃, follows₃⟩ : ∃ g tail, us ++ r :: (v :: vs ++ f :: rest) = g :: tail :=
    List.exists_cons_of_ne_nil (by simp)
  have begun : c.beginScope.stream = l :: g₁ :: tail₁ := by
    rw [← follows₁]
    exact stream
  have entered : Stage c.beginScope c₀ (g₁ :: tail₁) _ := stage_consume begun opened _
  have chain := (entered.andThen (acts_forInitializer (acts_phrase depth) _) fun stream =>
    stage_forInitializer first firstFuel (stream.trans (follows₁.symm.trans
      (congrArg (is ++ ·) follows₂)))).andThen (acts_forCondition (acts_phrase depth) _)
    fun stream => stage_forCondition second secondFuel middle (stream.trans (follows₂.symm.trans
      (congrArg (ts ++ m :: ·) follows₃)))
  -- the increment has to know how far the condition is behind it
  have size (tested : Coding c₁ c₂ (testing test)) :
      c₂.here = c₁.here + codeSize (testCode 0 (clauseCode c₁.place.locals test c₁.pool).1) := by
    rw [tested.here, testing, cellsSize_ops, codeSize_testCode]
  have clauses := chain.bind (acts_forIncrement (acts_phrase depth) c₁.here c₂)
    fun stream done => stage_forIncrement (by rw [size done.2.1.1]; omega) third thirdFuel closed
      (stream.trans follows₃.symm)
  have read₃ : Acts true c₁ c₃ := (acts_forCondition (acts_phrase depth) c₁).trans
    (acts_forIncrement (acts_phrase depth) c₁.here c₂)
  have looped (tested : Coding c₁ c₂ (testing test))
      (stepped : Coding c₂ c₃ (stepping (c₂.here - c₁.here) step))
      (here : site = (clauseCode c₁.place.locals test c₁.pool).1.map fun test =>
        c₁.here + codeSize test + 1)
      (next : start = c₁.here + nextStart (c₂.here - c₁.here)
        (clauseCode c₂.place.locals step c₂.pool).1)
      (known : ∀ e ∈ test, Known c₁.outer c₁.body.locals e.names)
      (known' : ∀ e ∈ step, Known c₂.outer c₂.body.locals e.names) (stream : c₃.stream = v :: vs ++ f :: rest) :
      Stage c₃ (loopEnd depth start site c₃) (f :: rest)
        (Codes (.loop test step s) c₁ (loopEnd depth start site c₃)) := by
    have before : c₂.here - c₁.here =
        codeSize (testCode 0 (clauseCode c₁.place.locals test c₁.pool).1) := by
      rw [size tested, Nat.add_sub_cancel_left]
    rw [before] at next stepped
    rw [tested.place, tested.pooled] at next
    rw [tested.outer, tested.locals] at known'
    exact stage_loop ((tested.seq stepped).of_eq (by simp [testing, stepping])) next here
      ⟨known, known'⟩ read₃ body fuel apart stream
  refine (clauses.bind (acts_loopEnd depth start site c₃) fun stream done =>
    looped done.1.2.1.1 done.2.1.1 done.1.2.2 done.2.2 done.1.2.1.2 done.2.1.2 stream).map ?_
  rintro ⟨⟨⟨⟨-, first⟩, -⟩, -⟩, looped⟩
  -- opening the parenthesis writes nothing
  refine Codes.silent (b := c₀) (consume_body ..) (consume_heap ..) (consume_enclosing ..) ?_
  intro steady layout agrees
  have turned : Acts true c₃ (loopEnd depth start site c₃) := acts_loopEnd ..
  have declared : Acts true c₀ c₁ := acts_forInitializer (acts_phrase depth) c₀
  have first : Yields layout init c₀ c₁ :=
    first steady ((agrees.before turned).before read₃)
  exact first.next (looped (first.steady proper.1 steady declared) agrees) proper.1 steady

theorem compiles_forLoop {k l m r : Token} {ends : Bool} {init : Statement}
    {test step : Option Expression} {s : Statement} {is ts us vs : List Token}
    (word : k.kind = .for) (opened : l.kind = .leftParen) (first : InitializerWritten init is)
    (second : ClauseWritten test ts) (middle : m.kind = .semicolon) (third : ClauseWritten step us)
    (closed : r.kind = .rightParen) (written : StatementWritten .statement ends s vs)
    (body : Compiles .statement ends s vs) :
    Compiles .statement ends (.forLoop init test step s)
      (k :: l :: (is ++ (ts ++ m :: (us ++ r :: vs)))) := by
  refine compiles_of_word (fun depth => forStatement (phrase depth))
    (fun depth c current => by simp only [phrase, statement, current, word])
    (fun depth => acts_forStatement (acts_phrase depth)) ?_
  intro depth c f rest fuel stream apart
  simp only [List.length_cons, List.length_append] at fuel
  exact stage_forStatement opened first (by omega) second (by omega) middle third (by omega) closed
    written body (by omega) apart (by simpa using stream)

end Compiler
end StackScript
