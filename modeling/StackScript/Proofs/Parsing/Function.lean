import StackScript.Proofs.Parsing.Loop

/-!
# Reading functions

A function is compiled into a routine of its own, inside which the locals of the
routines around are out of reach.  When the routine is complete it becomes a constant
of the routine around it.  With functions all kinds of statements have been dealt with,
and `compiles_of_written` puts them together.
-/

namespace StackScript
namespace Compiler

variable {c : Compiler} {f : Token} {rest : List Token}

/-! ## Returns -/

theorem stage_returnStatement {value : Option Expression} {ts : List Token} {m : Token}
    {depth : Nat} (written : ClauseWritten value ts) (fuel : ts.length ≤ depth)
    (closed : m.kind = .semicolon) (stream : c.stream = ts ++ m :: f :: rest) :
    Stage c (c.returnStatement (phrase depth)) (f :: rest)
      (Codes (.giveBack value) c (c.returnStatement (phrase depth))) := by
  unfold returnStatement
  cases written with
  | none =>
      have empty : c.check .semicolon = true := by rw [check_of_stream stream, closed]; rfl
      rw [if_pos empty]
      have read : Acts true c (c.advance.emit .null) := (acts_advance c).trans (acts_emit _ _)
      refine (((stage_advance stream).andThen (acts_emit _ .null) fun stream =>
        stage_emit stream rfl).andThen (acts_emit _ .return) fun stream =>
          stage_emit stream rfl).map ?_
      rintro ⟨⟨taken, first⟩, second⟩ steady layout _
      exact ⟨((taken.seq first).seq second).of_eq rfl, fun _ => trivial, nofun,
        finishes_return (read.grounded steady.grounded), trivial⟩
  | some value =>
      rename_i e
      -- an expression starts with a token that is no semicolon
      have more : c.check .semicolon = false := check_of_opens (opens_of_written value stream) rfl
      rw [more]
      refine (stage_simple value fuel closed (.expectedMark ";" "after return value") rfl
        stream).map ?_
      rintro ⟨coded, known⟩ steady layout _
      have read : Acts true c ((c.expression (phrase depth)).consume .semicolon
          (.expectedMark ";" "after return value")) :=
        (acts_phrase depth _ _).trans (acts_consume _ _ _)
      exact ⟨coded.of_eq rfl, fun _ => trivial,
        by simpa [Statement.Allowed] using known,
        finishes_return (read.grounded steady.grounded), trivial⟩

theorem compiles_giveBack {k m : Token} {value : Option Expression} {ts : List Token}
    (word : k.kind = .return) (clause : ClauseWritten value ts) (closed : m.kind = .semicolon) :
    Compiles .statement false (.giveBack value) (k :: (ts ++ [m])) := by
  refine compiles_of_word (fun depth => returnStatement (phrase depth))
    (fun depth c current => by simp only [phrase, statement, current, word])
    (fun depth => acts_returnStatement (acts_phrase depth)) ?_
  intro depth c f rest fuel stream _
  simp only [List.length_append] at fuel
  exact stage_returnStatement clause (by omega) closed (by simpa using stream)

/-! ## Parameters -/

/-- Between two states the given parameters were added to the innermost routine. -/
structure Enlists (names : List String) (c c' : Compiler) : Prop where
  body : c'.body = { c.body with
    arity := c.body.arity + names.length
    locals := names.reverse.map (⟨·, some c.body.depth⟩) ++ c.body.locals }
  heap : c'.heap = c.heap
  enclosing : c'.enclosing = c.enclosing
  /-- No more locals than a routine may have. -/
  small : c.body.locals.length ≤ Body.maxLocals → c'.body.locals.length ≤ Body.maxLocals

theorem Enlists.trans {names more : List String} {a b c : Compiler} (hab : Enlists names a b)
    (hbc : Enlists more b c) : Enlists (names ++ more) a c := by
  refine ⟨?_, hbc.heap.trans hab.heap, hbc.enclosing.trans hab.enclosing,
    fun small => hbc.small (hab.small small)⟩
  rw [hbc.body, hab.body]
  simp [Nat.add_assoc]

theorem Enlists.silent {a b : Compiler} (body : b.body = a.body) (heap : b.heap = a.heap)
    (enclosing : b.enclosing = a.enclosing) : Enlists [] a b :=
  ⟨by rw [body]; rfl, heap, enclosing, by rw [body]; exact id⟩

/-- A new local is known from now on, if there is room for it. -/
theorem declareVariable_eq (inside : 0 < c.body.depth) (quiet : Quiet c c.declareVariable) :
    c.declareVariable = c.mapBody (fun body =>
      { body with locals := ⟨c.previous.lexeme, none⟩ :: body.locals }) ∧
        c.body.locals.length < Body.maxLocals := by
  have deep : c.body.depth ≠ 0 := by omega
  simp only [declareVariable, deep, if_false] at quiet ⊢
  split at quiet
  · exact absurd (quiet.split (acts_report _ rfl) (acts_addLocal _ _)).1 (not_quiet_report _ _)
  · rename_i fresh
    rw [if_neg fresh]
    unfold addLocal at quiet ⊢
    split at quiet
    · exact absurd quiet (not_quiet_report _ _)
    · rename_i few
      rw [if_neg few]
      exact ⟨rfl, Nat.lt_of_not_le few⟩

/-- A parameter counts, and becomes a local that has its slot already. -/
theorem stage_parameter {n : Token} (inside : 0 < c.body.depth) (stream : c.stream = n :: f :: rest)
    (name : n.kind = .identifier) :
    Stage c c.parameter (f :: rest) (Enlists [n.lexeme] c c.parameter) := by
  let c₀ := c.mapBody fun body => { body with arity := body.arity + 1 }
  let c₁ := if maxArity < c₀.body.arity then c₀.reportCurrent .tooManyParameters else c₀
  have counted : Acts false c c₀ := acts_aside _ rfl rfl rfl
  have checked : Acts false c₀ c₁ := by
    unfold c₁
    split
    · exact (Act.report c₀ (.inr rfl) rfl).acts
    · exact .refl
  have deep : 0 < c₁.body.depth := by
    unfold c₁
    split
    · rw [reportCurrent, reportAt_body]
      exact inside
    · exact inside
  have stream₁ : c₁.stream = n :: f :: rest :=
    (checked.stream.trans counted.stream).trans stream
  have there : c₁.check .identifier = true := by rw [check_of_stream stream₁, name]; rfl
  have same : c.parameter = c₁.advance.declareVariable.markInitialized := by
    have depth : 0 < c₁.advance.declareVariable.body.depth := by
      rw [declareVariable_depth, advance_body]
      exact deep
    show (c₁.parseVariable "parameter").2.defineVariable (c₁.parseVariable "parameter").1 true = _
    simp only [parseVariable, consume_of_check there, depth, if_true, defineVariable]
  have begun : Acts false c c₁ := counted.trans checked
  have read : Acts true c c₁.advance := begun.toReading.trans (acts_advance c₁)
  have declared : Acts false c₁.advance c₁.advance.declareVariable := acts_declareVariable _
  have still : Acts false c₁.advance c.parameter := by
    rw [same]
    exact declared.trans (acts_markInitialized _)
  refine ⟨read.trans still.toReading, Static.still (begun.static.trans begun.toReading
    (acts_advance c₁) fun _ => static_advance c₁) read still, fun quiet =>
      ⟨still.stream.trans (stream_advance stream₁), ?_⟩⟩
  obtain ⟨first, second⟩ := quiet.split read still.toReading
  -- one parameter too many would have been reported
  have few : c₁ = c₀ := by
    obtain ⟨first, -⟩ := first.split begun.toReading (acts_advance c₁)
    obtain ⟨-, reported⟩ := first.split counted.toReading checked.toReading
    unfold c₁ at reported ⊢
    split at reported
    · exact absurd reported (not_quiet_reportAt _ _ _)
    · rename_i few
      rw [if_neg few]
  rw [same] at second ⊢
  have quiet := (second.split declared.toReading (acts_markInitialized _)).1
  obtain ⟨declared, room⟩ := declareVariable_eq (by rw [advance_body]; exact deep) quiet
  rw [advance_body, few] at room
  rw [declared, advance_previous, current_of_stream stream₁, few]
  have deep : c.body.depth ≠ 0 := by omega
  have depth : (c₀.advance.mapBody fun body =>
      { body with locals := ⟨n.lexeme, none⟩ :: body.locals }).body.depth = c.body.depth := by
    show c₀.advance.body.depth = _
    rw [advance_body]
    rfl
  unfold markInitialized
  rw [depth, if_neg deep]
  have settled : ({ c₀.advance.body with
      locals := ⟨n.lexeme, none⟩ :: c₀.advance.body.locals } : Body).settleNewest =
        { c.body with
          arity := c.body.arity + 1
          locals := ⟨n.lexeme, some c.body.depth⟩ :: c.body.locals } := by
    rw [advance_body]
    rfl
  refine ⟨settled, advance_heap c₀, advance_enclosing c₀, fun _ => ?_⟩
  exact (congrArg (List.length ∘ Body.locals) settled).trans_le room

theorem acts_moreParameters (bound : Nat) (c : Compiler) :
    Acts true c (repeatWhile (·.check .comma) (fun c => c.advance.parameter) bound c) :=
  acts_repeatWhile (fun c => (acts_advance c).trans (acts_parameter _)) bound c

/-- No comma, no more parameters. -/
theorem stage_noParameters {r : Token} {bound : Nat} (stream : c.stream = r :: rest)
    (closed : r.kind = .rightParen) :
    let c' := repeatWhile (·.check .comma) (fun c => c.advance.parameter) bound c
    Stage c c' (r :: rest) (Enlists [] c c') := by
  have passed : c.check .comma = false := by
    rw [check_of_stream stream, closed]
    rfl
  have same : repeatWhile (·.check .comma) (fun c => c.advance.parameter) bound c = c := by
    cases bound <;> simp [repeatWhile, passed]
  rw [same]
  exact ⟨.refl, .silent fun _ => rfl, fun _ => ⟨stream, .silent rfl rfl rfl⟩⟩

/-- One parameter after another. -/
theorem stage_moreParameters {names : List String} {ts : List Token} {r : Token}
    (written : NamesWritten names ts) (closed : r.kind = .rightParen) :
    ∀ {c : Compiler} {bound : Nat}, 0 < c.body.depth → ts.length ≤ bound →
      c.stream = ts ++ r :: rest →
      let c' := repeatWhile (·.check .comma) (fun c => c.advance.parameter) bound c.parameter
      Stage c c' (r :: rest) (Enlists names c c') := by
  induction written with
  | @single n name =>
      intro c bound inside _ stream
      exact ((stage_parameter inside stream name).andThen (acts_moreParameters bound _)
        fun stream => stage_noParameters stream closed).map fun both => both.1.trans both.2
  | @cons n m names ts name comma others ih =>
      intro c bound inside fuel stream
      simp only [List.length_cons] at fuel
      obtain ⟨bound, rfl⟩ : ∃ b, bound = b + 1 := ⟨bound - 1, by omega⟩
      obtain ⟨u, us, follows⟩ : ∃ u us, ts ++ r :: rest = u :: us :=
        List.exists_cons_of_ne_nil (by simp)
      refine ((stage_parameter inside stream name).bind (acts_moreParameters _ _)
        fun stream first => ?_).map fun both => both.1.trans both.2
      have more : c.parameter.check .comma = true := by
        rw [check_of_stream stream, comma]
        rfl
      have deep : 0 < c.parameter.advance.body.depth := by
        rw [advance_body, first.body]
        exact inside
      simp only [repeatWhile, more, if_true]
      have read := stage_advance (stream.trans (congrArg (m :: ·) follows))
      refine (read.andThen ((acts_parameter _).trans (acts_moreParameters bound _)) fun stream =>
        ih deep (by omega) (stream.trans follows.symm)).map fun both => ?_
      exact (Enlists.silent (advance_body _) (advance_heap _) (advance_enclosing _)).trans both.2

theorem stage_parameters {names : List String} {ts : List Token} {r : Token} {bound : Nat}
    (inside : 0 < c.body.depth) (written : ParametersWritten names ts) (fuel : ts.length ≤ bound)
    (closed : r.kind = .rightParen) (stream : c.stream = ts ++ r :: rest) :
    Stage c (c.parameters bound) (r :: rest) (Enlists names c (c.parameters bound)) := by
  unfold parameters
  cases written with
  | none =>
      have empty : c.check .rightParen = true := by
        rw [check_of_stream stream, closed]
        rfl
      rw [if_pos empty]
      exact ⟨.refl, .silent fun _ => rfl, fun _ => ⟨stream, .silent rfl rfl rfl⟩⟩
  | some list =>
      have more : c.check .rightParen = false := by
        cases list with
        | single name | cons name =>
            rw [check_of_stream stream, name]
            rfl
      rw [more]
      exact stage_moreParameters list closed inside fuel stream

/-! ## Bodies -/

/-- The chunk that is completed is the one of the tree. -/
theorem finished_eq {layout : Layout} {c : Compiler} {coded : Coded} {ending : Ending}
    (spelled : c.body.chunk.code.toList = assemble (draft coded.cells))
    (pooled : c.pool = coded.pool) (ends : c.body.endsWithReturn = (ending == .sealed))
    (lines : layout c.heap.routines = c.finished.lines) :
    c.finished = ⟨(assemble (draft coded.cells ++ ending.closing)).toArray, coded.pool.constants,
      layout coded.pool.heap.routines⟩ := by
  have same : c.finished.code.toList = assemble (draft coded.cells ++ ending.closing) ∧
      c.finished.constants = c.body.chunk.constants := by
    have returned : (c.emit .null).body.chunk.constants = c.body.chunk.constants :=
      congrArg Pool.constants (emits_emit c .null rfl).pooled
    have appended := (emits_emit c .null rfl).trans (emits_emit (c.emit .null) .return rfl)
    have closing : (c.emitReturn.body.chunk.code.toList =
        assemble (draft coded.cells ++ [.plain .null, .plain .return])) := by
      rw [assemble_append, ← spelled]
      exact appended.written
    unfold finished
    rw [ends]
    cases ending with
    | sealed => exact ⟨by rw [Ending.closing, List.append_nil]; exact spelled, rfl⟩
    | untouched | unsealed =>
        exact ⟨closing, (congrArg Pool.constants appended.pooled).trans returned⟩
  rw [← pooled]
  obtain ⟨code, constants⟩ := same
  cases finished : c.finished
  rw [finished] at code constants lines
  simp only [Chunk.mk.injEq]
  exact ⟨by rw [← code], constants, lines.symm⟩

/-- The body of a function in its own routine, up to its closing brace. -/
theorem stage_body {l r b d : Token} {ends : Bool} {names : List String} {s : Statement}
    {ps ts : List Token} {depth bound : Nat} {name : Option Text}
    (fresh : c.body = { Body.start name with depth := 1 })
    (opened : l.kind = .leftParen) (parameters : ParametersWritten names ps)
    (room : ps.length ≤ bound) (closed : r.kind = .rightParen) (begun : b.kind = .leftBrace)
    (body : Compiles .sequence ends s ts) (fuel : ts.length + 1 ≤ depth)
    (turns : ts.length ≤ bound) (ended : d.kind = .rightBrace)
    (stream : c.stream = l :: (ps ++ r :: b :: (ts ++ d :: f :: rest))) :
    let c₁ := c.consume .leftParen (.expectedMark "(" "after function name")
    let c₂ := c₁.parameters bound
    let c₃ := c₂.consume .rightParen (.expectedMark ")" "after parameters")
    let c₄ := c₃.consume .leftBrace (.expectedMark "\x7b" "before function body")
    let c₅ := c₄.block (phrase depth) bound
    Stage c c₅ (f :: rest) (c.Grounded → ∀ ⦃layout : Layout⦄, Agrees layout c₅ →
      c₄.body = { Body.start name with
        depth := 1, arity := names.length, locals := (Place.function names).locals } ∧
      c₄.pool = ⟨c.heap, #[]⟩ ∧ c₄.enclosing = c.enclosing ∧
        c₄.body.locals.length ≤ Body.maxLocals ∧ Yields layout s c₄ c₅) := by
  intro c₁ c₂ c₃ c₄ c₅
  obtain ⟨p, ps', follows⟩ : ∃ p ps', ps ++ r :: b :: (ts ++ d :: f :: rest) = p :: ps' :=
    List.exists_cons_of_ne_nil (by simp)
  obtain ⟨t, ts', follows'⟩ : ∃ t ts', ts ++ d :: f :: rest = t :: ts' :=
    List.exists_cons_of_ne_nil (by simp)
  have inside : 0 < c₁.body.depth := by
    rw [consume_body, fresh]
    exact Nat.one_pos
  have header := (((stage_consume (stream.trans (congrArg (l :: ·) follows)) opened
    (.expectedMark "(" "after function name")).andThen (acts_parameters bound _) fun stream =>
      stage_parameters inside parameters room closed
        (show _ = ps ++ r :: b :: t :: ts' by rw [stream, ← follows, follows'])).andThen (acts_consume _ _ _) fun stream =>
          stage_consume stream closed (.expectedMark ")" "after parameters")).andThen
            (acts_consume _ _ _) fun stream =>
              stage_consume stream begun (.expectedMark "\x7b" "before function body")
  refine (header.andThen (acts_block (acts_phrase depth) bound c₄) fun stream =>
    stage_block body ended fuel turns (stream.trans follows'.symm)).map ?_
  rintro ⟨⟨⟨⟨-, listed⟩, -⟩, -⟩, coded⟩ grounded layout agrees
  have listed : Enlists names c₁ c₂ := listed
  -- the two brackets change nothing but the position in the source
  have between : c₄.body = c₂.body ∧ c₄.heap = c₂.heap ∧ c₄.enclosing = c₂.enclosing :=
    ⟨(consume_body ..).trans (consume_body ..), (consume_heap ..).trans (consume_heap ..),
      (consume_enclosing ..).trans (consume_enclosing ..)⟩
  have known : c₄.body = { Body.start name with
      depth := 1, arity := names.length, locals := (Place.function names).locals } := by
    rw [between.1, listed.body, consume_body, fresh]
    simp [Body.start, Place.function]
  have heap : c₄.heap = c.heap := by rw [between.2.1, listed.heap, consume_heap]
  have enclosing : c₄.enclosing = c.enclosing := by
    rw [between.2.2, listed.enclosing, consume_enclosing]
  -- all parameters are initialized, and no loop is open in the new body
  have steady : c₄.Steady := by
    refine ⟨⟨fun var mem => ?_, ?_⟩, header.acts.grounded grounded⟩
    · change var ∈ c₄.body.locals at mem
      show ∃ d, var.depth = some d ∧ d ≤ c₄.body.depth
      rw [known] at mem ⊢
      rcases List.mem_append.mp mem with mem | mem
      · obtain ⟨other, -, rfl⟩ := List.mem_map.mp mem
        exact ⟨1, rfl, Nat.le_refl _⟩
      · rw [List.mem_singleton.mp mem]
        exact ⟨0, rfl, Nat.zero_le _⟩
    · show ∀ d ∈ c₄.body.loops.head?.map LoopRecord.depth, d ≤ c₄.body.depth
      rw [known]
      intro d mem
      cases mem
  have small : c₄.body.locals.length ≤ Body.maxLocals := by
    rw [between.1]
    refine listed.small ?_
    rw [consume_body, fresh]
    exact show 1 ≤ Body.maxLocals by decide
  refine ⟨known, ?_, enclosing, small, coded steady agrees⟩
  rw [pool, known, heap]
  rfl

/-- A routine that has been completed is the routine of the tree. -/
theorem endRoutine_yields {layout : Layout} {s : Statement} {locals : List LocalVariable}
    {depth arity : Nat} {name : Option Text} {heap : Heap} {c c' : Compiler}
    (fresh : c.body = { Body.start name with depth, arity, locals })
    (pooled : c.pool = ⟨heap, #[]⟩) (yields : Yields layout s c c')
    (agrees : Agrees layout c'.endRoutine.2) :
    (c'.endRoutine.1, c'.endRoutine.2.heap) =
      (s.code layout ⟨locals, depth, none⟩ ⟨heap, #[]⟩).routine layout name arity
        (s.ending depth) := by
  have place : c.place = ⟨locals, depth, none⟩ := by
    rw [Compiler.place, fresh]
    rfl
  have coding := yields.coding
  unfold Coding at coding
  rw [place, pooled] at coding
  -- an empty body ends with whatever came before it, which is nothing in a new routine
  have ends : c'.body.endsWithReturn = (s.ending depth == .sealed) := by
    have finishes := yields.finishes
    rw [fresh] at finishes
    cases ending : s.ending depth with
    | sealed | unsealed =>
        simp only [ending] at finishes
        exact finishes
    | untouched =>
        simp only [ending] at finishes
        obtain ⟨last, landing, here⟩ := finishes
        rw [endsWithReturn_congr last landing here, fresh]
        rfl
  have spelled := coding.written
  rw [fresh] at spelled
  have signature := coding.signature
  rw [fresh] at signature
  rw [endRoutine_eq] at agrees ⊢
  have lines : layout c'.heap.routines = c'.finished.lines :=
    agrees _ (Array.mem_push.mpr (.inr rfl))
  have finished := finished_eq spelled coding.pooled ends lines
  simp only [Coded.routine, ← coding.pooled, finished, signature.1, signature.2]
  rfl

/-- The body of a function becomes a constant of the routine around it. -/
theorem stage_routine {n l r b d : Token} {ends : Bool} {names : List String} {s : Statement}
    {ps ts : List Token} {depth bound : Nat} (previous : c.previous = n)
    (opened : l.kind = .leftParen) (parameters : ParametersWritten names ps)
    (room : ps.length ≤ bound) (closed : r.kind = .rightParen) (begun : b.kind = .leftBrace)
    (body : Compiles .sequence ends s ts) (fuel : ts.length + 1 ≤ depth)
    (turns : ts.length ≤ bound) (ended : d.kind = .rightBrace)
    (stream : c.stream = l :: (ps ++ r :: b :: (ts ++ d :: f :: rest))) :
    Stage c (c.routine (phrase depth) bound) (f :: rest) (
      c.Grounded → ∀ ⦃layout : Layout⦄, Agrees layout (c.routine (phrase depth) bound) →
        let body := s.code layout (.function names) (c.pool.function n.lexeme)
        let routine := body.routine layout (some (c.heap.intern n.lexeme).1) names.length
          (s.ending 1)
        let value := Pool.add ⟨routine.2, c.pool.constants⟩ (.routine routine.1)
        Emits c (c.routine (phrase depth) bound) [.indexed .constant value.1] value.2 ∧
          (s.Closed ∧ s.Allowed (c.body.locals :: c.outer) (Place.function names).locals 1) ∧
          (∀ a ∈ draft body.cells, a.Fits) ∧
          s.Narrow layout (.function names) (c.pool.function n.lexeme)) := by
  subst previous
  let name := (c.heap.intern c.previous.lexeme).1
  let c₀ := ((c.intern c.previous.lexeme).2.beginRoutine (some name)).beginScope
  let c₄ := (((c₀.consume .leftParen (.expectedMark "(" "after function name")).parameters
    bound).consume .rightParen (.expectedMark ")" "after parameters")).consume .leftBrace
      (.expectedMark "\x7b" "before function body")
  let c₅ := c₄.block (phrase depth) bound
  have begins : Acts false c c₀ :=
    ((acts_intern c _).trans (acts_beginRoutine _ _)).trans (acts_beginScope _)
  have completes : Acts false c₅ c₅.endRoutine.2 := acts_endRoutine c₅
  have loads : Acts false c₅.endRoutine.2
      (c₅.endRoutine.2.emitConstant (.routine c₅.endRoutine.1)) := acts_emitConstant _ (made_endRoutine _)
  have inside : Stage c₀ c₅ (f :: rest) _ := stage_body
    (show c₀.body = { Body.start (some name) with depth := 1 } from rfl) opened parameters room closed
    begun body fuel turns ended (begins.stream.trans stream)
  refine ((((stage_still stream begins fun _ => True.intro).andThen inside.acts fun _ =>
    inside).andThen completes.toReading fun stream =>
      stage_still stream completes fun _ => True.intro).andThen loads.toReading fun stream =>
        stage_still stream loads id).map ?_
  rintro ⟨⟨⟨-, inside⟩, -⟩, quiet⟩ grounded layout agrees
  have agrees₆ : Agrees layout c₅.endRoutine.2 := agrees.before loads
  obtain ⟨known, pooled, around, small, yields⟩ :=
    inside (begins.grounded grounded) (agrees₆.before completes)
  have built := endRoutine_yields known pooled yields agrees₆
  -- the body that was suspended is the one that goes on
  have around₅ : c₅.enclosing = c.body :: c.enclosing := yields.coding.enclosing.trans around
  have back : c₅.endRoutine.2.body = c.body ∧ c₅.endRoutine.2.enclosing = c.enclosing := by
    rw [endRoutine_eq, around₅]
    exact ⟨rfl, rfl⟩
  have left : Emits c c₅.endRoutine.2 [] ⟨c₅.endRoutine.2.heap, c.pool.constants⟩ := by
    have still := Emits.still back.1 back.2
    rwa [pool, back.1] at still
  have loaded := emits_emitConstant (made_endRoutine c₅) quiet
  rw [left.pooled] at loaded
  have built : (c₅.endRoutine.1, c₅.endRoutine.2.heap) =
      (s.code layout (.function names) (c.pool.function c.previous.lexeme)).routine layout
        (some (c.heap.intern c.previous.lexeme).1) names.length (s.ending 1) := built
  have place : c₄.place = .function names := by
    rw [Compiler.place, known]
    rfl
  have pooled : c₄.pool = c.pool.function c.previous.lexeme := pooled
  refine ⟨?_, ⟨yields.closed (by rw [known]; rfl), ?_⟩, ?_, ?_⟩
  · rw [← built]
    exact left.after loaded
  · have allowed := yields.allowed
    rw [show c₄.outer = c.body.locals :: c.outer by rw [outer, around]; rfl, known] at allowed
    exact allowed
  · rw [← place, ← pooled]
    exact yields.coding.fits small
  · rw [← place, ← pooled]
    exact yields.narrow

/-! ## Function declarations -/

/-- The name of a function is known before its body begins. -/
theorem stage_functionName {g n : Token} {tail : List Token} (stream : c.stream = n :: g :: tail)
    (name : n.kind = .identifier) :
    let parsed := c.parseVariable "function"
    Stage c parsed.2.markInitialized (g :: tail)
      ((Coding c parsed.2.markInitialized (fun place pool =>
          ⟨[], declaredName place.depth n.lexeme ++ place.locals,
            (pool.declare place.depth n.lexeme).2⟩) ∧
        parsed.1 = (c.pool.declare c.body.depth n.lexeme).1 ∧ parsed.1 < 2 ^ 32) ∧
        parsed.2.markInitialized.previous = n) := by
  intro parsed
  have settles : Acts false parsed.2 parsed.2.markInitialized := acts_markInitialized _
  have there : c.check .identifier = true := by rw [check_of_stream stream, name]; rfl
  have stays : Acts false c.advance parsed.2.markInitialized := by
    refine Relation.ReflTransGen.trans ?_ settles
    simp only [parsed, parseVariable, consume_of_check there]
    split
    · exact acts_declareVariable _
    · exact (acts_declareVariable _).trans (acts_nameIndex _ _)
  have previous : parsed.2.markInitialized.previous = n := by
    rw [stays.steps.still.2.1, advance_previous, current_of_stream stream]
  -- a global name becomes a constant, a local one a slot that is initialized at once
  rcases Nat.eq_zero_or_pos c.body.depth with outside | inside
  · refine ((stage_globalName outside stream name "function").andThen settles.toReading fun stream =>
      stage_still stream settles fun _ => True.intro).map ?_
    rintro ⟨⟨coded, index, small⟩, -⟩
    have depth : parsed.2.body.depth = 0 := coded.depth.trans outside
    have here : c.place.depth = 0 := outside
    have same : parsed.2.markInitialized = parsed.2 := by rw [markInitialized, if_pos depth]
    rw [same] at previous ⊢
    refine ⟨⟨coded.of_eq ?_, ?_, index ▸ small⟩, previous⟩
    · simp [here, Pool.declare, declaredName]
    · rw [Pool.declare, if_pos outside]
      exact index
  · refine ((stage_localName inside stream name "function").andThen settles.toReading fun stream =>
      stage_still stream settles fun _ => True.intro).map ?_
    rintro ⟨coded, -⟩
    have index : parsed.1 = 0 := by
      have deep : 0 < c.advance.declareVariable.body.depth := by
        rw [declareVariable_depth, advance_body]
        exact inside
      simp only [parsed, parseVariable, consume_of_check there, deep, if_true]
    have deep : c.body.depth ≠ 0 := by omega
    have settled := writes_markInitialized (c := parsed.2) (by rw [coded.depth]; exact inside)
      coded.locals
    rw [coded.depth, coded.pooled] at settled
    refine ⟨⟨?_, ?_, ?_⟩, previous⟩
    · have whole : Writes c parsed.2.markInitialized _ _ _ := coded.trans settled
      have depth : c.place.depth = c.body.depth := rfl
      simpa [Coding, depth, deep, Pool.declare, declaredName] using whole
    · rw [index, Pool.declare, if_neg deep]
    · rw [index]
      exact Nat.two_pow_pos 32

/-- A global function is bound to its name, a local one has its slot already. -/
theorem emits_defineFunction {index : Nat} {name : String} {older : List LocalVariable}
    (small : index < 2 ^ 32) (known : c.body.locals = declaredName c.body.depth name ++ older) :
    Emits c (c.defineVariable index true)
      (if c.body.depth = 0 then [.indexed .defineGlobal index] else []) c.pool := by
  split
  · rename_i outside
    exact emits_defineGlobal outside small true
  · rename_i deep
    have inside : 0 < c.body.depth := by omega
    have newest : c.body.locals = ⟨name, some c.body.depth⟩ :: older := by
      rw [known, declaredName, if_neg deep]
      rfl
    have same : c.defineVariable index true = c := by
      simp only [defineVariable, if_true, inside, markInitialized, deep, if_false, mapBody,
        Body.settleNewest, newest]
    rw [same]
    exact .refl c

theorem stage_functionDeclaration {n l r b d : Token} {ends : Bool} {names : List String}
    {s : Statement} {ps ts : List Token} {depth bound : Nat} (name : n.kind = .identifier)
    (opened : l.kind = .leftParen) (parameters : ParametersWritten names ps)
    (room : ps.length ≤ bound) (closed : r.kind = .rightParen) (begun : b.kind = .leftBrace)
    (body : Compiles .sequence ends s ts) (fuel : ts.length + 1 ≤ depth)
    (turns : ts.length ≤ bound) (ended : d.kind = .rightBrace)
    (stream : c.stream = n :: l :: (ps ++ r :: b :: (ts ++ d :: f :: rest))) :
    Stage c (c.functionDeclaration (phrase depth) bound) (f :: rest)
      (Codes (.define n.lexeme names s) c (c.functionDeclaration (phrase depth) bound)) := by
  let index := (c.parseVariable "function").1
  let c₁ := (c.parseVariable "function").2.markInitialized
  let c₂ := c₁.routine (phrase depth) bound
  have named : Stage c c₁ _ _ := stage_functionName stream name
  have built : Acts true c₁ c₂ := acts_routine (acts_phrase depth) bound c₁
  have defines : Acts false c₂ (c.functionDeclaration (phrase depth) bound) :=
    acts_defineVariable c₂ index true
  refine ((named.bind built fun stream known =>
    stage_routine known.2 opened parameters room closed begun body fuel turns ended stream).andThen
      defines.toReading fun stream => stage_still stream defines fun _ => True.intro).map ?_
  rintro ⟨⟨⟨⟨coded, first, small⟩, -⟩, routine⟩, -⟩ steady layout agrees
  obtain ⟨loaded, ⟨inner, allowed⟩, narrow⟩ :=
    routine (named.acts.grounded steady.grounded) (agrees.before defines)
  have locals : c₁.body.locals = declaredName c.body.depth n.lexeme ++ c.body.locals := coded.locals
  have depth : c₁.body.depth = c.body.depth := coded.depth
  have known : c₂.body.locals = declaredName c₂.body.depth n.lexeme ++ c.body.locals := by
    rw [loaded.locals, locals, loaded.depth, depth]
  have bound := emits_defineFunction small known
  -- the routine is loaded as a constant, and then bound like any other value
  have made : Coding c₁ c₂ fun place pool =>
      let routine := (s.code layout (.function names) (pool.function n.lexeme)).routine layout
        (some (pool.heap.intern n.lexeme).1) names.length (s.ending 1)
      let value := Pool.add ⟨routine.2, pool.constants⟩ (.routine routine.1)
      ⟨ops [.indexed .constant value.1], place.locals, value.2⟩ := loaded.writes
  have whole : Coding c (c.functionDeclaration (phrase _) _) _ :=
    (coded.seq made).seq (coding_of_emits bound)
  refine ⟨whole.of_eq ?_, fun _ => trivial, ⟨inner, ?_⟩, ?_, ?_⟩
  · have first : (c.parseVariable "function").1 = (c.pool.declare c.place.depth n.lexeme).1 := first
    have here : c₂.body.depth = c.place.depth := loaded.depth.trans depth
    simp only [Coder.seq_apply, Coder.emit_apply, Statement.code, Place.knowing_locals, here,
      List.nil_append, first]
    split
    · rename_i outside
      simp only [declaredName, outside, if_true, ← ops_append]
      rfl
    · rename_i deep
      simp only [declaredName, deep, if_false]
      rfl
  · rw [coded.outer, locals] at allowed
    exact allowed
  · refine (loaded.trans bound).unsealed (by simp) ?_
    simp only [List.forall_mem_append, List.forall_mem_singleton]
    refine ⟨Asm.indexed_ne_return (by decide) (by decide) _, ?_⟩
    split
    · simpa using Asm.indexed_ne_return (by decide) (by decide) index
    · simp
  · rw [coded.pooled] at narrow
    exact narrow

theorem compiles_define {k n l r b d : Token} {ends : Bool} {names : List String} {s : Statement}
    {ps ts : List Token} (word : k.kind = .fn) (name : n.kind = .identifier)
    (opened : l.kind = .leftParen) (parameters : ParametersWritten names ps)
    (closed : r.kind = .rightParen) (begun : b.kind = .leftBrace)
    (body : Compiles .sequence ends s ts) (ended : d.kind = .rightBrace) :
    Compiles .declaration false (.define n.lexeme names s)
      (k :: n :: l :: (ps ++ r :: b :: (ts ++ [d]))) := by
  intro depth c f rest fuel stream _
  obtain ⟨depth, rfl⟩ : ∃ d, depth = d + 1 := ⟨depth - 1, by omega⟩
  simp only [List.length_cons, List.length_append, List.length_nil] at fuel
  have same : phrase (depth + 1) .declaration c =
      (c.advance.functionDeclaration (phrase depth) depth).recovered := by
    simp only [phrase, declaration, current_of_stream stream, word]
    rfl
  rw [same]
  have tokens : c.stream = k :: n :: l :: (ps ++ r :: b :: (ts ++ d :: f :: rest)) := by
    simpa using stream
  refine (Stage.advance tokens (by simp) (acts_functionDeclaration (acts_phrase depth) _ _)
    fun stream => ?_).recovered (Q := Codes (.define n.lexeme names s) c)
  exact stage_functionDeclaration name opened parameters (by omega) closed begun body (by omega)
    (by omega) ended stream

/-! ## All together -/

/-- However a statement is written, it is read as itself. -/
theorem compiles_of_written {k : Category} {ends : Bool} {s : Statement} {ts : List Token}
    (written : StatementWritten k ends s ts) : Compiles k ends s ts := by
  induction written with
  | print word value closed => exact compiles_print word value closed
  | expression value closed => exact compiles_expression value closed
  | block opened written closed body => exact compiles_block opened written body closed
  | when word opened test closed written yes =>
      exact compiles_when word opened test closed written yes
  | choose word opened test closed written other written' yes no =>
      exact compiles_choose word opened test closed written yes other written' no
  | whileLoop word opened test closed written body =>
      exact compiles_whileLoop word opened test closed written body
  | forLoop word opened first second middle third closed written body =>
      exact compiles_forLoop word opened first second middle third closed written body
  | leave word closed => exact compiles_leave word closed
  | again word closed => exact compiles_again word closed
  | giveBack word clause closed => exact compiles_giveBack word clause closed
  | declare written => exact compiles_declare written
  | define word name opened parameters closed begun _ ended body =>
      exact compiles_define word name opened parameters closed begun body ended
  | statement written inner => exact compiles_statement written inner
  | done => exact compiles_done
  | next written others first later => exact compiles_next written others first later

end Compiler
end StackScript
