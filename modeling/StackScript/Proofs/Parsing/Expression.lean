import StackScript.Proofs.Code.Emission

/-!
# Expressions are parsed as they are written

The compiler reads an expression in turns: first its beginning, then one operator
after the other as long as they bind tightly enough.  For tokens that write a tree
there is a moment after which exactly these tokens are read, and what has been
emitted by then is the postfix code of the tree; `Spine` names that moment and the
number of turns up to it.  Whether the turns go on behind it depends on the token
that follows, and on how tightly the operators have to bind.
-/

namespace StackScript
namespace Compiler

/-- All of the names are bound. -/
def Known (outer : List (List LocalVariable)) (locals : List LocalVariable)
    (names : List String) : Prop := ∀ name ∈ names, Bound outer locals name

theorem Known.append {outer : List (List LocalVariable)} {locals : List LocalVariable}
    {names more : List String} (h : Known outer locals names) (h' : Known outer locals more) :
    Known outer locals (names ++ more) := by
  intro name mem
  rcases List.mem_append.mp mem with mem | mem
  · exact h name mem
  · exact h' name mem

/-- What was written between two states is the code of an expression. -/
structure Translates (e : Expression) (c c' : Compiler) : Prop where
  emits : Emits c c' (e.code c.body.locals c.pool).1 (e.code c.body.locals c.pool).2
  known : Known c.outer c.body.locals e.names

/-- Between two states the tokens of an expression were read, and if nothing was
reported then its code was written. -/
structure Parsed (e : Expression) (c c' : Compiler) (after : List Token) : Prop where
  stream : c'.stream = after
  acts : Acts true c c'
  static : Static c c'
  translates : Quiet c c' → Translates e c c'

/-! ## Beginning and turns -/

/-- The first of the tokens that write an expression opens one. -/
theorem opens_of_written {c : Compiler} {p : Precedence} {e : Expression} {ts rest : List Token}
    (written : Written p e ts) (stream : c.stream = ts ++ rest) :
    c.current.kind.opening?.isSome := by
  obtain ⟨t, others, rfl, opens⟩ := written.head
  rwa [current_of_stream stream]

/-- Where an expression is opened, no token is found that opens none. -/
theorem check_of_opens {c : Compiler} {kind : TokenKind} (opens : c.current.kind.opening?.isSome)
    (closes : kind.opening? = none) : c.check kind = false := by
  rw [check, beq_eq_false_iff_ne]
  rintro rfl
  rw [closes] at opens
  cases opens

/-- The beginning of an expression. -/
def opened (depth : Nat) (least : Precedence) (c : Compiler) : Compiler :=
  match c.advance.previous.kind.opening? with
  | none => c.advance.report .expectedExpression
  | some opening => c.advance.openExpression (phrase depth) (least.admits .assignment) opening

/-- Turns of the loop over operators. -/
def turns (depth : Nat) (least : Precedence) : (bound : Nat) → Compiler → Compiler :=
  repeatWhile (fun c => least.admits c.current.kind.precedence) (continueOnce (phrase depth) depth)

theorem phrase_expression {depth : Nat} {least : Precedence} {c : Compiler}
    (opens : c.current.kind.opening?.isSome) :
    phrase (depth + 1) (.expression least) c =
      let c := turns depth least depth (opened depth least c)
      if least.admits .assignment && c.check .equal then c.advance.report .invalidAssignmentTarget
      else c := by
  obtain ⟨opening, found⟩ := Option.isSome_iff_exists.mp opens
  simp only [phrase, expressionFrom, opened, turns, advance_previous, found]

/-- A token of an operator that binds tightly enough begins a turn. -/
theorem turns_succ {depth bound : Nat} {least : Precedence} {c : Compiler} {t : Token}
    {rest : List Token} (stream : c.stream = t :: rest)
    (tight : least.rank ≤ t.kind.precedence.rank) :
    turns depth least (bound + 1) c =
      turns depth least bound (continueOnce (phrase depth) depth c) := by
  have more : least.admits c.current.kind.precedence = true := by
    simpa [current_of_stream stream, Precedence.admits] using tight
  simp only [turns, repeatWhile, more, if_true]

/-- Any other token ends the turns. -/
theorem turns_stop {depth bound : Nat} {least : Precedence} {c : Compiler} {t : Token}
    {rest : List Token} (stream : c.stream = t :: rest)
    (loose : t.kind.precedence.rank < least.rank) : turns depth least bound c = c := by
  have passed : least.admits c.current.kind.precedence = false := by
    simpa [current_of_stream stream, Precedence.admits] using loose
  cases bound <;> simp [turns, repeatWhile, passed]

/-- The moment at which an expression of `length` tokens has been read. -/
def Spine (depth : Nat) (least : Precedence) (c : Compiler) (e : Expression) (length : Nat)
    (after : List Token) : Prop :=
  ∃ c' k, k < length ∧ Parsed e c c' after ∧
    ∀ bound, turns depth least (bound + k) (opened depth least c) = turns depth least bound c'

/-- Whether a token leaves a construct of the given precedence complete: the
operands of the construct do not go on with it. -/
def Completes (p : Precedence) (kind : TokenKind) : Prop :=
  match p with
  | .call | .primary => True
  | .equality | .comparison | .term | .factor => kind.precedence.rank ≤ p.rank
  | _ => kind.precedence.rank < p.rank

theorem completes_of_lt {p : Precedence} {kind : TokenKind}
    (h : kind.precedence.rank < p.rank) : Completes p kind := by
  cases p <;> first | trivial | exact h | exact Nat.le_of_lt h

theorem completes_operand {op : BinaryOperator} {p : Precedence} {kind : TokenKind}
    (tight : op.precedence.rank ≤ p.rank) (binds : kind.precedence = op.precedence) :
    Completes p kind := by
  rcases Nat.lt_or_eq_of_le tight with lt | eq
  · exact completes_of_lt (by rw [binds]; exact lt)
  · obtain rfl := Precedence.rank_inj eq
    cases op <;> exact Nat.le_of_eq (by rw [binds])

theorem completes_call {p : Precedence} {kind : TokenKind}
    (tight : Precedence.call.rank ≤ p.rank) : Completes p kind := by
  unfold Precedence.rank at tight
  cases p <;> trivial

/-- `ts` is read as `e`, from wherever an operator of precedence `p` may stand. -/
def Reads (p : Precedence) (e : Expression) (ts : List Token) : Prop :=
  ∀ ⦃depth : Nat⦄ ⦃least : Precedence⦄ ⦃c : Compiler⦄ ⦃f : Token⦄ ⦃rest : List Token⦄,
    ts.length ≤ depth + 1 → least.rank ≤ p.rank → c.stream = ts ++ f :: rest →
    Completes p f.kind → (least.admits .assignment → f.kind ≠ .equal) →
    Spine depth least c e ts.length (f :: rest)

/-- An operand ends where a token follows that binds too loosely. -/
theorem Reads.parsed {p : Precedence} {e : Expression} {ts : List Token}
    (reads : Reads p e ts) (written : Written p e ts) (depth : Nat) (least : Precedence)
    {c : Compiler} {f : Token} {rest : List Token} (fuel : ts.length ≤ depth)
    (loose : least.rank ≤ p.rank) (stream : c.stream = ts ++ f :: rest)
    (stop : f.kind.precedence.rank < least.rank)
    (assign : least.admits .assignment → f.kind ≠ .equal) :
    Parsed e c (phrase depth (.expression least) c) (f :: rest) := by
  obtain ⟨t, others, rfl, opens⟩ := written.head
  obtain ⟨depth, rfl⟩ : ∃ d, depth = d + 1 := ⟨depth - 1, by simp at fuel; omega⟩
  obtain ⟨c', k, short, parsed, same⟩ :=
    reads fuel loose stream (completes_of_lt (by omega)) assign
  have whole : turns depth least depth (opened depth least c) = c' := by
    have := same (depth - k)
    rw [Nat.sub_add_cancel (by omega)] at this
    rw [this, turns_stop parsed.stream stop]
  have passed : (least.admits .assignment && c'.check .equal) = false := by
    rw [check_of_stream parsed.stream]
    cases can : least.admits .assignment with
    | false => rfl
    | true => simpa using assign can
  rw [phrase_expression (by rw [current_of_stream stream]; exact opens)]
  simp only [whole, passed, Bool.false_eq_true, if_false]
  exact parsed

/-- What has been parsed stays so when the next token is read. -/
theorem Parsed.advance {e : Expression} {c c' : Compiler} {t u : Token} {rest : List Token}
    (h : Parsed e c c' (t :: u :: rest)) : Parsed e c c'.advance (u :: rest) where
  stream := stream_advance h.stream
  acts := h.acts.trans (acts_advance c')
  static := h.static.trans h.acts (acts_advance c') fun _ => static_advance c'
  translates := by
    intro quiet
    obtain ⟨calm, -⟩ := quiet.split h.acts (acts_advance c')
    obtain ⟨emitted, known⟩ := h.translates calm
    have between := emits_advance c'
    rw [emitted.pooled] at between
    exact ⟨emitted.before between, known⟩

/-! ## Beginnings -/

theorem opened_eq {depth : Nat} {least : Precedence} {c : Compiler} {t : Token}
    {rest : List Token} (opening : Opening) (stream : c.stream = t :: rest)
    (found : t.kind.opening? = some opening) :
    opened depth least c =
      c.advance.openExpression (phrase depth) (least.admits .assignment) opening := by
  rw [← current_of_stream stream, ← advance_previous] at found
  simp only [opened, found]

theorem Spine.begin {depth : Nat} {least : Precedence} {c : Compiler} {e : Expression}
    {length : Nat} {after : List Token} (pos : 0 < length)
    (h : Parsed e c (opened depth least c) after) : Spine depth least c e length after :=
  ⟨_, 0, pos, h, fun _ => rfl⟩

theorem advance_pool (c : Compiler) : c.advance.pool = c.pool := by
  simp [pool]

/-- One of the words that stand for a value. -/
theorem spine_word {depth length : Nat} {least : Precedence} {c : Compiler} {e : Expression}
    {t f : Token} {rest : List Token} (op : Opcode) (pos : 0 < length)
    (stream : c.stream = t :: f :: rest) (word : t.kind.opening? = some .literal)
    (writes : ∀ c : Compiler, c.previous = t → c.wordLiteral = c.emit op)
    (plain : op.operandWidth = 0)
    (code : e.code c.body.locals c.pool = ([.plain op], c.pool)) (names : e.names = []) :
    Spine depth least c e length (f :: rest) := by
  refine Spine.begin pos ?_
  rw [opened_eq .literal stream word]
  have written : c.advance.openExpression (phrase depth) (least.admits .assignment) .literal =
      c.advance.emit op := writes _ (by rw [advance_previous, current_of_stream stream])
  rw [written]
  refine ⟨?_, (acts_advance c).trans (acts_emit _ _),
    (static_advance c).still (acts_advance c) (acts_emit _ _), fun _ => ⟨?_, ?_⟩⟩
  · rw [(acts_emit c.advance op).stream]
    exact stream_advance stream
  · rw [code]
    have emitted := emits_emit c.advance op plain
    rw [advance_pool] at emitted
    exact (emits_advance c).after emitted
  · rw [names]
    intro name mem
    cases mem

theorem reads_null {t : Token} (word : t.kind = .null) : Reads .primary .null [t] := by
  intro depth least c f rest _ _ stream _ _
  exact spine_word .null (by simp) stream (by rw [word]; rfl)
    (fun c same => by simp [wordLiteral, same, word]) rfl rfl rfl

theorem reads_true {t : Token} (word : t.kind = .true) : Reads .primary (.boolean true) [t] := by
  intro depth least c f rest _ _ stream _ _
  exact spine_word .true (by simp) stream (by rw [word]; rfl)
    (fun c same => by simp [wordLiteral, same, word]) rfl rfl rfl

theorem reads_false {t : Token} (word : t.kind = .false) :
    Reads .primary (.boolean false) [t] := by
  intro depth least c f rest _ _ stream _ _
  exact spine_word .false (by simp) stream (by rw [word]; rfl)
    (fun c same => by simp [wordLiteral, same, word]) rfl rfl rfl

/-- A literal that stands in the constant pool. -/
theorem spine_constant {depth length : Nat} {least : Precedence} {c c' : Compiler}
    {e : Expression} {t f : Token} {rest : List Token} (opening : Opening) {value : Value}
    {pool : Pool} (pos : 0 < length) (stream : c.stream = t :: f :: rest)
    (begins : t.kind.opening? = some opening)
    (writes : c.advance.openExpression (phrase depth) (least.admits .assignment) opening =
      c'.emitConstant value) (looked : Acts false c.advance c')
    (entered : Emits c.advance c' [] pool) (made : c'.Made value)
    (code : e.code c.body.locals c.pool =
      ([.indexed .constant (pool.add value).1], (pool.add value).2))
    (names : e.names = []) : Spine depth least c e length (f :: rest) := by
  have read : Acts true c c' := (acts_advance c).trans looked.toReading
  refine Spine.begin pos ?_
  rw [opened_eq opening stream begins, writes]
  refine ⟨?_, read.trans (acts_emitConstant _ made), (static_advance c).still (acts_advance c)
    (looked.trans (acts_emitConstant _ made)), fun quiet => ⟨?_, ?_⟩⟩
  · rw [(acts_emitConstant c' made).stream, looked.stream]
    exact stream_advance stream
  · have written := emits_emitConstant made
      (quiet.split read (acts_emitConstant _ made)).2
    rw [entered.pooled] at written
    rw [code]
    exact ((emits_advance c).after entered).after written
  · rw [names]
    intro name mem
    cases mem

theorem reads_number {t : Token} {x : Float} (literal : t.kind = .number)
    (value : Number.ofLiteral? t.lexeme = some x) : Reads .primary (.number x) [t] := by
  intro depth least c f rest _ _ stream _ _
  have same : c.advance.numberLiteral = c.advance.emitConstant (.number x) := by
    simp only [numberLiteral, advance_previous, current_of_stream stream, value]
  exact spine_constant .number (by simp) stream (by rw [literal]; rfl) same .refl
    (Emits.refl _) (.number value) (by rw [advance_pool]; rfl) rfl

theorem reads_string {t : Token} (literal : t.kind = .string) :
    Reads .primary (.string (unquote t.lexeme)) [t] := by
  intro depth least c f rest _ _ stream _ _
  have same : c.advance.stringLiteral =
      (c.advance.intern (unquote t.lexeme)).2.emitConstant
        (.string (c.advance.intern (unquote t.lexeme)).1) := by
    simp only [stringLiteral, advance_previous, current_of_stream stream]
  refine spine_constant .string (by simp) stream (by rw [literal]; rfl) same
    (acts_intern _ _) (emits_intern _ _) (made_intern _ _) ?_ rfl
  simp only [Expression.code, Pool.addString, advance_pool]
  simp [intern, pool]

/-- A name that is read and looked up. -/
theorem resolve_name {c : Compiler} {name : String}
    (quiet : Quiet c (c.advance.resolve name).2) :
    (c.advance.resolve name).1 = (c.pool.resolve c.body.locals name).1 ∧
      (c.advance.resolve name).1.Small c.body.locals.length ∧
      Emits c (c.advance.resolve name).2 [] (c.pool.resolve c.body.locals name).2 ∧
      Known c.outer c.body.locals [name] := by
  obtain ⟨-, calm⟩ := quiet.split (acts_advance c) (acts_resolve _ _)
  obtain ⟨target, small, resolved, known⟩ := emits_resolve calm
  rw [advance_pool, advance_body] at target resolved
  rw [advance_body] at small known
  rw [(emits_advance c).outer] at known
  refine ⟨target, small, (emits_advance c).after resolved, ?_⟩
  intro other mem
  rw [List.mem_singleton.mp mem]
  exact known

theorem reads_variable {t : Token} (name : t.kind = .identifier) :
    Reads .primary (.variable t.lexeme) [t] := by
  intro depth least c f rest _ _ stream _ assign
  have next : c.advance.stream = f :: rest := stream_advance stream
  have looked : Acts false c.advance (c.advance.resolve t.lexeme).2 := acts_resolve _ _
  have same : c.advance.variableUse (phrase depth) (least.admits .assignment) =
      (c.advance.resolve t.lexeme).2.emitRead (c.advance.resolve t.lexeme).1 := by
    have passed : (least.admits .assignment && (c.advance.resolve t.lexeme).2.check .equal) =
        false := by
      rw [check_of_stream (looked.stream.trans next)]
      cases can : least.admits .assignment with
      | false => rfl
      | true => simpa using assign can
    simp only [variableUse, advance_previous, current_of_stream stream, passed,
      Bool.false_eq_true, if_false]
  have read : Acts true c (c.advance.resolve t.lexeme).2 :=
    (acts_advance c).trans looked.toReading
  refine Spine.begin (by simp) ?_
  rw [opened_eq .variable stream (by rw [name]; rfl)]
  simp only [openExpression, same]
  refine ⟨?_, read.trans (acts_emitRead _ _), (static_advance c).still (acts_advance c)
    (looked.trans (acts_emitRead _ _)), fun quiet => ?_⟩
  · rw [(acts_emitRead _ _).stream, looked.stream, next]
  · obtain ⟨calm, -⟩ := quiet.split read (acts_emitRead _ _)
    obtain ⟨target, small, resolved, known⟩ := resolve_name calm
    have written := emits_emitRead (c.advance.resolve t.lexeme).2
      (c.advance.resolve t.lexeme).1 (by rw [resolved.locals]; exact small)
    rw [resolved.pooled] at written
    refine ⟨?_, known⟩
    have whole := resolved.after written
    rw [target] at whole ⊢
    exact whole

/-- The code of an expression, in terms of what was known before it. -/
theorem Translates.given {e : Expression} {b c c' : Compiler} {code : List Asm} {pool : Pool}
    (h : Translates e c c') (before : Emits b c code pool) :
    Emits c c' (e.code b.body.locals pool).1 (e.code b.body.locals pool).2 ∧
      Known b.outer b.body.locals e.names := by
  rw [← before.locals, ← before.pooled, ← before.outer]
  exact ⟨h.emits, h.known⟩

/-- An expression in parentheses is the expression inside. -/
theorem parsed_grouping {p : Precedence} {e : Expression} {ts : List Token} {l r : Token}
    (written : Written p e ts) (reads : Reads p e ts) (opened : l.kind = .leftParen)
    (closed : r.kind = .rightParen) (depth : Nat) (least : Precedence) {c : Compiler} {f : Token}
    {rest : List Token} (fuel : ts.length ≤ depth)
    (stream : c.stream = l :: (ts ++ r :: f :: rest)) :
    Parsed e c (Compiler.opened depth least c) (f :: rest) := by
  obtain ⟨t, others, rfl, -⟩ := written.head
  have inner := reads.parsed written depth .assignment (c := c.advance) fuel written.rank_pos
    (stream_advance stream) (by rw [closed]; decide) (by rw [closed]; decide)
  rw [opened_eq .grouping stream (by rw [opened]; rfl)]
  simp only [openExpression, grouping, expression]
  generalize phrase depth (.expression .assignment) c.advance = c' at inner ⊢
  have ended := acts_consume c' .rightParen (.expectedMark ")" "after expression")
  have within := (static_advance c).trans (acts_advance c) inner.acts fun _ => inner.static
  refine ⟨stream_consume inner.stream closed _, ((acts_advance c).trans inner.acts).trans ended,
    within.trans ((acts_advance c).trans inner.acts) ended fun _ => static_consume ?_ _,
    fun quiet => ?_⟩
  · rw [check_of_stream inner.stream, closed]
    rfl
  obtain ⟨-, calm⟩ := quiet.split (acts_advance c) (inner.acts.trans ended)
  obtain ⟨calm, -⟩ := calm.split inner.acts ended
  obtain ⟨emitted, known⟩ := (inner.translates calm).given (emits_advance c)
  have consumed := emits_consume c' .rightParen (.expectedMark ")" "after expression")
  rw [emitted.pooled] at consumed
  exact ⟨((emits_advance c).after emitted).before consumed, known⟩

theorem reads_grouping {p : Precedence} {e : Expression} {ts : List Token} {l r : Token}
    (written : Written p e ts) (reads : Reads p e ts) (opened : l.kind = .leftParen)
    (closed : r.kind = .rightParen) : Reads .primary (.grouping e) (l :: (ts ++ [r])) := by
  intro depth least c f rest fuel _ stream _ _
  simp only [List.length_cons, List.length_append, List.length_nil] at fuel
  have inner := parsed_grouping written reads opened closed depth least (by omega) (by simpa using stream)
  exact Spine.begin (by simp) ⟨inner.stream, inner.acts, inner.static, fun quiet =>
    ⟨(inner.translates quiet).emits, (inner.translates quiet).known⟩⟩

theorem reads_parentheses {p : Precedence} {e : Expression} {ts : List Token} {l r : Token}
    (written : Written p e ts) (reads : Reads p e ts) (opened : l.kind = .leftParen)
    (closed : r.kind = .rightParen) : Reads .primary e (l :: (ts ++ [r])) := by
  intro depth least c f rest fuel _ stream _ _
  simp only [List.length_cons, List.length_append, List.length_nil] at fuel
  exact Spine.begin (by simp) (parsed_grouping written reads opened closed depth least
    (by omega) (by simpa using stream))

theorem reads_unary {t : Token} {p : Precedence} {op : UnaryOperator} {e : Expression}
    {ts : List Token} (operator : t.kind = op.kind) (written : Written p e ts)
    (tight : Precedence.unary.rank ≤ p.rank) (reads : Reads p e ts) :
    Reads .unary (.unary op e) (t :: ts) := by
  intro depth least c f rest fuel _ stream stop _
  obtain ⟨u, others, rfl, -⟩ := written.head
  have operand := reads.parsed written depth .unary (c := c.advance)
    (by simp only [List.length_cons] at fuel ⊢; omega) tight (stream_advance stream) stop
    (fun can => absurd can (by decide))
  have same : c.advance.unary (phrase depth) =
      (phrase depth (.expression .unary) c.advance).emit op.opcode := by
    simp only [unary, advance_previous, current_of_stream stream, operator]
    cases op <;> rfl
  refine Spine.begin (by simp) ?_
  rw [opened_eq .unary stream (by rw [operator]; cases op <;> rfl)]
  simp only [openExpression, same]
  generalize phrase depth (.expression .unary) c.advance = c' at operand ⊢
  have within := (static_advance c).trans (acts_advance c) operand.acts fun _ => operand.static
  refine ⟨?_, ((acts_advance c).trans operand.acts).trans (acts_emit _ _),
    within.still ((acts_advance c).trans operand.acts) (acts_emit _ _), fun quiet => ?_⟩
  · rw [(acts_emit c' _).stream]
    exact operand.stream
  · obtain ⟨-, calm⟩ := quiet.split (acts_advance c) (operand.acts.trans (acts_emit _ _))
    obtain ⟨calm, -⟩ := calm.split operand.acts (acts_emit _ _)
    obtain ⟨emitted, known⟩ :=
      (operand.translates calm).given (emits_advance c)
    have applied := emits_emit c' op.opcode (by cases op <;> rfl)
    rw [emitted.pooled] at applied
    exact ⟨((emits_advance c).after emitted).trans applied, known⟩

/-! ## Turns -/

/-- A turn goes on from what has been read so far. -/
theorem Spine.turn {depth length length' : Nat} {least : Precedence} {c : Compiler}
    {a e : Expression} {t : Token} {rest after : List Token}
    (left : Spine depth least c a length (t :: rest)) (longer : length < length')
    (tight : least.rank ≤ t.kind.precedence.rank)
    (more : ∀ c', Parsed a c c' (t :: rest) →
      Parsed e c (continueOnce (phrase depth) depth c') after) :
    Spine depth least c e length' after := by
  obtain ⟨c', k, short, parsed, same⟩ := left
  refine ⟨_, k + 1, by omega, more c' parsed, fun bound => ?_⟩
  rw [show bound + (k + 1) = (bound + 1) + k by omega, same, turns_succ parsed.stream tight]

theorem continueOnce_eq {depth : Nat} {c : Compiler} {t : Token} {rest : List Token}
    (continuation : Continuation) (stream : c.stream = t :: rest)
    (found : t.kind.continuation? = some continuation) :
    continueOnce (phrase depth) depth c =
      c.advance.continueExpression (phrase depth) depth (some continuation) := by
  rw [← current_of_stream stream, ← advance_previous] at found
  simp only [continueOnce, found]

theorem reads_binary {t : Token} {p q : Precedence} {op : BinaryOperator} {a b : Expression}
    {ts us : List Token} (leftTight : op.precedence.rank ≤ p.rank)
    (operator : t.kind = op.kind) (right : Written q b us)
    (rightTight : op.precedence.rank < q.rank) (readsLeft : Reads p a ts)
    (readsRight : Reads q b us) : Reads op.precedence (.binary op a b) (ts ++ t :: us) := by
  intro depth least c f rest fuel loose stream stop assign
  simp only [List.length_append, List.length_cons] at fuel
  obtain ⟨u, others, rfl, -⟩ := right.head
  have binds : t.kind.precedence = op.precedence := by rw [operator, op.precedence_kind]
  have left : Spine depth least c a ts.length (t :: (u :: others) ++ f :: rest) :=
    readsLeft (by omega) (by omega) (by simpa using stream) (completes_operand leftTight binds)
      (fun _ => by rw [operator]; cases op <;> decide)
  refine left.turn (by simp) (by rw [binds]; exact loose) fun c' before => ?_
  have operand := readsRight.parsed right depth op.precedence.tighter (c := c'.advance)
    (by simp only [List.length_cons] at fuel ⊢; omega)
    (by cases op <;> exact rightTight) (stream_advance before.stream)
    (by cases op <;> exact Nat.lt_succ_of_le stop) (by cases op <;> exact fun can => by cases can)
  rw [continueOnce_eq .binary before.stream (by rw [operator, op.continuation?_kind])]
  simp only [continueExpression, binary, advance_previous, current_of_stream before.stream, operator,
    op.precedence_kind]
  have read := before.advance
  generalize c'.advance = c₁ at read operand ⊢
  generalize phrase depth (.expression op.precedence.tighter) c₁ = c₂ at operand ⊢
  -- reading goes on without problems, whatever the operand emits
  have both := read.static.trans read.acts operand.acts fun _ => operand.static
  refine ⟨?_, (read.acts.trans operand.acts).trans (acts_emitBinary _ _),
    both.still (read.acts.trans operand.acts) (acts_emitBinary _ _), fun quiet => ?_⟩
  · rw [(acts_emitBinary c₂ _).stream]
    exact operand.stream
  · obtain ⟨calm, -⟩ := quiet.split (read.acts.trans operand.acts) (acts_emitBinary _ _)
    obtain ⟨first, second⟩ := calm.split read.acts operand.acts
    obtain ⟨emitted, known⟩ := read.translates first
    obtain ⟨emitted', known'⟩ :=
      (operand.translates second).given emitted
    have applied := emits_emitBinary c₂ op
    rw [emitted'.pooled] at applied
    exact ⟨(emitted.trans emitted').trans applied, known.append known'⟩

theorem reads_and {t : Token} {p q : Precedence} {a b : Expression} {ts us : List Token}
    (leftTight : Precedence.and.rank < p.rank) (operator : t.kind = .and)
    (right : Written q b us) (rightTight : Precedence.and.rank ≤ q.rank)
    (readsLeft : Reads p a ts) (readsRight : Reads q b us) :
    Reads .and (.and a b) (ts ++ t :: us) := by
  intro depth least c f rest fuel loose stream stop assign
  simp only [List.length_append, List.length_cons] at fuel
  obtain ⟨u, others, rfl, -⟩ := right.head
  have binds : t.kind.precedence = .and := by rw [operator]; rfl
  have left : Spine depth least c a ts.length (t :: (u :: others) ++ f :: rest) :=
    readsLeft (by omega) (by omega) (by simpa using stream)
      (completes_of_lt (by rw [binds]; exact leftTight)) (fun _ => by rw [operator]; decide)
  refine left.turn (by simp) (by rw [binds]; exact loose) fun c' before => ?_
  rw [continueOnce_eq .and before.stream (by rw [operator]; rfl)]
  simp only [continueExpression, conjunction]
  have read := before.advance
  generalize c'.advance = c₁ at read ⊢
  have skipped : Acts false c₁ ((c₁.emitJump .jumpIfFalse).emit .pop) :=
    (acts_emitJump _ _).trans (acts_emit _ _)
  -- the distance of the jump is written once the right operand has been compiled
  have jumped : Emits c₁ ((c₁.emitJump .jumpIfFalse).emit .pop)
      ([⟨.jumpIfFalse, maxJump⟩] ++ [.plain .pop]) c₁.pool := by
    have popped := emits_emit (c₁.emitJump .jumpIfFalse) .pop rfl
    rw [(emits_emitJump c₁ .jumpIfFalse rfl).pooled] at popped
    exact (emits_emitJump c₁ _ rfl).trans popped
  generalize (c₁.emitJump .jumpIfFalse).emit .pop = c₂ at skipped jumped ⊢
  have operand := readsRight.parsed right depth .and (c := c₂)
    (by simp only [List.length_cons] at fuel ⊢; omega) rightTight
    (skipped.stream.trans read.stream) stop (fun can => absurd can (by decide))
  generalize phrase depth (.expression .and) c₂ = c₃ at operand ⊢
  have read₂ : Acts true c c₂ := read.acts.trans skipped.toReading
  have both := (read.static.still read.acts skipped).trans read₂ operand.acts
    fun _ => operand.static
  refine ⟨?_, (read₂.trans operand.acts).trans (acts_patchJump _ _),
    both.still (read₂.trans operand.acts) (acts_patchJump _ _), fun quiet => ?_⟩
  · rw [(acts_patchJump c₃ _).stream]
    exact operand.stream
  · obtain ⟨calm, patched⟩ := quiet.split (read₂.trans operand.acts) (acts_patchJump _ _)
    obtain ⟨first, second⟩ := calm.split read₂ operand.acts
    obtain ⟨first, -⟩ := first.split read.acts skipped.toReading
    obtain ⟨emitted, known⟩ := read.translates first
    rw [emitted.pooled] at jumped
    have entered := emitted.trans jumped
    obtain ⟨emitted', known'⟩ :=
      (operand.translates second).given entered
    have whole := entered.trans emitted'
    simp only [List.append_assoc, List.cons_append, List.nil_append] at whole
    exact ⟨whole.patch rfl (by rw [emitted.here]) patched, known.append known'⟩

theorem reads_or {t : Token} {p q : Precedence} {a b : Expression} {ts us : List Token}
    (leftTight : Precedence.or.rank < p.rank) (operator : t.kind = .or)
    (right : Written q b us) (rightTight : Precedence.or.rank ≤ q.rank)
    (readsLeft : Reads p a ts) (readsRight : Reads q b us) :
    Reads .or (.or a b) (ts ++ t :: us) := by
  intro depth least c f rest fuel loose stream stop assign
  simp only [List.length_append, List.length_cons] at fuel
  obtain ⟨u, others, rfl, -⟩ := right.head
  have binds : t.kind.precedence = .or := by rw [operator]; rfl
  have left : Spine depth least c a ts.length (t :: (u :: others) ++ f :: rest) :=
    readsLeft (by omega) (by omega) (by simpa using stream)
      (completes_of_lt (by rw [binds]; exact leftTight)) (fun _ => by rw [operator]; decide)
  refine left.turn (by simp) (by rw [binds]; exact loose) fun c' before => ?_
  rw [continueOnce_eq .or before.stream (by rw [operator]; rfl)]
  simp only [continueExpression, disjunction]
  have read := before.advance
  generalize c'.advance = c₁ at read ⊢
  have forked : Acts false c₁ ((c₁.emitJump .jumpIfFalse).emitJump .jump) :=
    (acts_emitJump _ _).trans (acts_emitJump _ _)
  -- two jumps: past the second one when the left operand is falsey, and to the end otherwise
  have jumped : Emits c₁ ((c₁.emitJump .jumpIfFalse).emitJump .jump)
      [⟨.jumpIfFalse, maxJump⟩, ⟨.jump, maxJump⟩] c₁.pool := by
    have second := emits_emitJump (c₁.emitJump .jumpIfFalse) .jump rfl
    rw [(emits_emitJump c₁ .jumpIfFalse rfl).pooled] at second
    exact (emits_emitJump c₁ _ rfl).trans second
  have endSite : (c₁.emitJump .jumpIfFalse).here = c₁.here + 3 :=
    (emits_emitJump c₁ .jumpIfFalse rfl).here
  rw [endSite]
  have still := forked.stream
  generalize (c₁.emitJump .jumpIfFalse).emitJump .jump = c₂ at forked jumped still ⊢
  have skipped : Acts false c₂ ((c₂.patchJump (c₁.here + 1)).emit .pop) :=
    (acts_patchJump _ _).trans (acts_emit _ _)
  have popped := emits_emit (c₂.patchJump (c₁.here + 1)) .pop rfl
  generalize heq : (c₂.patchJump (c₁.here + 1)).emit .pop = c₃ at skipped popped ⊢
  have operand := readsRight.parsed right depth .or (c := c₃)
    (by simp only [List.length_cons] at fuel ⊢; omega) rightTight
    ((skipped.stream.trans still).trans read.stream) stop (fun can => absurd can (by decide))
  generalize phrase depth (.expression .or) c₃ = c₄ at operand ⊢
  have read₂ : Acts true c c₂ := read.acts.trans forked.toReading
  have read₃ : Acts true c c₃ := read₂.trans skipped.toReading
  have both := (read.static.still read.acts (forked.trans skipped)).trans read₃ operand.acts
    fun _ => operand.static
  refine ⟨?_, (read₃.trans operand.acts).trans (acts_patchJump _ _),
    both.still (read₃.trans operand.acts) (acts_patchJump _ _), fun quiet => ?_⟩
  · rw [(acts_patchJump c₄ _).stream]
    exact operand.stream
  · obtain ⟨calm, patched⟩ := quiet.split (read₃.trans operand.acts) (acts_patchJump _ _)
    obtain ⟨first, second⟩ := calm.split read₃ operand.acts
    obtain ⟨first, last⟩ := first.split read₂ skipped.toReading
    obtain ⟨first, -⟩ := first.split read.acts forked.toReading
    obtain ⟨emitted, known⟩ := read.translates first
    rw [emitted.pooled] at jumped
    -- the first jump lands behind the second one, before the right operand is read
    have landed : Quiet c₂ (c₂.patchJump (c₁.here + 1)) := by
      rw [← heq] at last
      exact (last.split (acts_patchJump _ _) (acts_emit _ _)).1
    have fork := (emitted.trans jumped).patch rfl (by rw [emitted.here]) landed
    rw [fork.pooled] at popped
    have entered := fork.trans popped
    obtain ⟨emitted', known'⟩ :=
      (operand.translates second).given entered
    have whole := entered.trans emitted'
    refine ⟨?_, known.append known'⟩
    -- the second jump is what the last patch is about, so the code is split in front of it
    have split : (a.code c.body.locals c.pool).1 ++
        [⟨.jumpIfFalse, codeSize [⟨.jump, maxJump⟩]⟩, ⟨.jump, maxJump⟩] ++ [.plain .pop] ++
          (b.code c.body.locals (a.code c.body.locals c.pool).2).1 =
        ((a.code c.body.locals c.pool).1 ++ [⟨.jumpIfFalse, codeSize [⟨.jump, maxJump⟩]⟩]) ++
          ⟨.jump, maxJump⟩ :: (.plain .pop ::
            (b.code c.body.locals (a.code c.body.locals c.pool).2).1) := by simp
    rw [split] at whole
    have done := whole.patch rfl
      (by rw [emitted.here]; simp [Asm.size, Opcode.operandWidth, Nat.add_assoc]) patched
    simpa [Expression.code, Asm.size, Opcode.operandWidth] using done

theorem reads_assign {t s : Token} {p : Precedence} {e : Expression} {ts : List Token}
    (name : t.kind = .identifier) (operator : s.kind = .equal) (written : Written p e ts)
    (reads : Reads p e ts) : Reads .assignment (.assign t.lexeme e) (t :: s :: ts) := by
  intro depth least c f rest fuel loose stream stop assign
  simp only [List.length_cons] at fuel
  obtain ⟨u, others, rfl, -⟩ := written.head
  have can : least.admits .assignment = true := by simpa [Precedence.admits] using loose
  have next : c.advance.stream = s :: (u :: others ++ f :: rest) := stream_advance stream
  have looked : Acts false c.advance (c.advance.resolve t.lexeme).2 := acts_resolve _ _
  have there := looked.stream.trans next
  -- the next token is an equals sign where an assignment is allowed
  have same : c.advance.variableUse (phrase depth) (least.admits .assignment) =
      (phrase depth (.expression .assignment) (c.advance.resolve t.lexeme).2.advance).emitWrite
        (c.advance.resolve t.lexeme).1 := by
    have equal : (c.advance.resolve t.lexeme).2.check .equal = true := by
      rw [check_of_stream there, operator]
      rfl
    simp only [variableUse, advance_previous, current_of_stream stream, equal, can,
      Bool.and_self, if_true, expression]
  have value := reads.parsed written depth .assignment (c := (c.advance.resolve t.lexeme).2.advance)
    (by simp only [List.length_cons] at fuel ⊢; omega) written.rank_pos
    (stream_advance there) stop (fun _ => assign can)
  refine Spine.begin (by simp) ?_
  rw [opened_eq .variable stream (by rw [name]; rfl)]
  simp only [openExpression, same]
  have named : Acts true c (c.advance.resolve t.lexeme).2 :=
    (acts_advance c).trans looked.toReading
  have announced := ((static_advance c).still (acts_advance c) looked).trans named
    (acts_advance _) fun _ => static_advance _
  have begun := acts_advance (c.advance.resolve t.lexeme).2
  have between := emits_advance (c.advance.resolve t.lexeme).2
  generalize (c.advance.resolve t.lexeme).2.advance = c₂ at value begun between announced ⊢
  generalize phrase depth (.expression .assignment) c₂ = c₃ at value ⊢
  have read : Acts true c c₂ := named.trans begun
  have both := announced.trans read value.acts fun _ => value.static
  refine ⟨?_, (read.trans value.acts).trans (acts_emitWrite _ _),
    both.still (read.trans value.acts) (acts_emitWrite _ _), fun quiet => ?_⟩
  · rw [(acts_emitWrite c₃ _).stream]
    exact value.stream
  · obtain ⟨calm, -⟩ := quiet.split (read.trans value.acts) (acts_emitWrite _ _)
    obtain ⟨first, second⟩ := calm.split read value.acts
    obtain ⟨target, small, resolved, known⟩ := resolve_name (first.split named begun).1
    rw [resolved.pooled] at between
    have entered := resolved.after between
    obtain ⟨emitted, known'⟩ :=
      (value.translates second).given entered
    -- the target was found before the value was compiled, and still means the same slot
    have written := emits_emitWrite c₃ (c.advance.resolve t.lexeme).1 (by
      rw [emitted.locals, entered.locals]
      exact small)
    rw [emitted.pooled] at written
    have whole := (entered.after emitted).trans written
    rw [target] at whole ⊢
    exact ⟨whole, known.append known'⟩

/-! ## Calls -/

/-- Between two states the arguments of a call were read, and if nothing was
reported then their code was written and they were counted. -/
structure Listed (es : List Expression) (count : Nat) (c : Compiler) (out : Nat × Compiler)
    (after : List Token) : Prop where
  stream : out.2.stream = after
  acts : Acts true c out.2
  static : Static c out.2
  small : out.1 ≤ maxArity
  counted : Quiet c out.2 → out.1 = count + es.length
  translates : Quiet c out.2 →
    Emits c out.2 (Expression.listCode c.body.locals es c.pool).1
      (Expression.listCode c.body.locals es c.pool).2 ∧
    Known c.outer c.body.locals (Expression.listNames es)

/-- One argument more. -/
theorem listed_argument {depth count : Nat} {c c' : Compiler} {e : Expression} {after : List Token}
    (h : Parsed e c c' after) (here : phrase depth (.expression .assignment) c = c')
    (small : count ≤ maxArity) :
    Listed [e] count c (argument (phrase depth) count c) after := by
  have single : ∀ c'', Emits c c'' (e.code c.body.locals c.pool).1
      (e.code c.body.locals c.pool).2 → Emits c c''
        (Expression.listCode c.body.locals [e] c.pool).1
        (Expression.listCode c.body.locals [e] c.pool).2 := by
    intro c'' emitted
    simpa [Expression.listCode] using emitted
  simp only [argument, expression, here]
  split
  · have loud : ¬ Quiet c (c'.report .tooManyArguments) := fun quiet =>
      not_quiet_report _ _ (quiet.split h.acts (acts_report _ rfl)).2
    exact ⟨by simpa using h.stream, h.acts.trans (acts_report _ rfl),
      h.static.still h.acts (acts_report _ rfl), small,
      fun quiet => absurd quiet loud, fun quiet => absurd quiet loud⟩
  · rename_i room
    refine ⟨h.stream, h.acts, h.static, by simp only; omega, fun _ => rfl, fun quiet => ?_⟩
    obtain ⟨emitted, known⟩ := h.translates quiet
    exact ⟨single _ emitted, by simpa [Expression.listNames] using known⟩

/-- `us` is read as the arguments `es`. -/
def ReadsList (es : List Expression) (us : List Token) : Prop :=
  ∀ ⦃depth bound count : Nat⦄ ⦃c : Compiler⦄ ⦃r : Token⦄ ⦃rest : List Token⦄,
    us.length ≤ depth → us.length ≤ bound → count ≤ maxArity → c.stream = us ++ r :: rest →
    r.kind = .rightParen →
    Listed es count c
      (moreArguments (phrase depth) bound (argument (phrase depth) count c).1
        (argument (phrase depth) count c).2) (r :: rest)

theorem readsList_single {p : Precedence} {e : Expression} {ts : List Token}
    (written : Written p e ts) (reads : Reads p e ts) : ReadsList [e] ts := by
  intro depth bound count c r rest fuel _ small stream closed
  have value := reads.parsed written depth .assignment fuel written.rank_pos stream
    (by rw [closed]; decide) (fun _ => by rw [closed]; decide)
  have listed := listed_argument value rfl small
  generalize argument (phrase depth) count c = out at listed ⊢
  have passed : out.2.check .comma = false := by
    rw [check_of_stream listed.stream, closed]
    rfl
  cases bound <;> simpa [moreArguments, passed] using listed

theorem readsList_cons {t : Token} {p : Precedence} {e : Expression} {es : List Expression}
    {ts us : List Token} (written : Written p e ts) (comma : t.kind = .comma)
    (others : WrittenList es us) (reads : Reads p e ts) (readsList : ReadsList es us) :
    ReadsList (e :: es) (ts ++ t :: us) := by
  intro depth bound count c r rest fuel enough small stream closed
  simp only [List.length_append, List.length_cons] at fuel enough
  obtain ⟨bound, rfl⟩ : ∃ b, bound = b + 1 := ⟨bound - 1, by omega⟩
  obtain ⟨u, us', rfl, -⟩ := others.head
  have value := reads.parsed written depth .assignment (by omega) written.rank_pos
    (show c.stream = ts ++ t :: (u :: us' ++ r :: rest) by simpa using stream) (by rw [comma]; decide) (fun _ => by rw [comma]; decide)
  have listed := listed_argument value rfl small
  generalize argument (phrase depth) count c = out at listed ⊢
  -- the comma is there, so the loop takes another turn
  have more : out.2.check .comma = true := by
    rw [check_of_stream listed.stream, comma]
    rfl
  have rest_ := readsList (by omega : (u :: us').length ≤ depth) (by omega : (u :: us').length ≤ bound)
    listed.small (stream_advance listed.stream) closed
  simp only [moreArguments, more, if_true]
  generalize moreArguments (phrase depth) bound (argument (phrase depth) out.1 out.2.advance).1
    (argument (phrase depth) out.1 out.2.advance).2 = out' at rest_ ⊢
  have read : Acts true c out.2.advance := listed.acts.trans (acts_advance _)
  have announced := listed.static.trans listed.acts (acts_advance _) fun _ => static_advance _
  refine ⟨rest_.stream, read.trans rest_.acts, announced.trans read rest_.acts fun _ =>
    rest_.static, rest_.small, fun quiet => ?_, fun quiet => ?_⟩
  · obtain ⟨first, second⟩ := quiet.split read rest_.acts
    obtain ⟨first, -⟩ := first.split listed.acts (acts_advance _)
    rw [rest_.counted second, listed.counted first]
    simp only [List.length_cons, List.length_nil]
    omega
  · obtain ⟨first, second⟩ := quiet.split read rest_.acts
    obtain ⟨first, -⟩ := first.split listed.acts (acts_advance _)
    obtain ⟨emitted, known⟩ := listed.translates first
    have between := emits_advance out.2
    rw [emitted.pooled] at between
    have entered := emitted.before between
    obtain ⟨emitted', known'⟩ := rest_.translates second
    rw [entered.locals, entered.pooled] at emitted'
    rw [entered.locals, entered.outer] at known'
    have whole := entered.trans emitted'
    simp only [Expression.listCode, Expression.listNames, List.append_nil] at whole known ⊢
    exact ⟨whole, known.append known'⟩

/-- The end of a call: its parenthesis and its instruction. -/
theorem parsed_call {c c₁ : Compiler} {out : Nat × Compiler} {g : Expression}
    {es : List Expression} {r f : Token} {before rest : List Token} (callee : Parsed g c c₁ before)
    (listed : Listed es 0 c₁ out (r :: f :: rest)) (closed : r.kind = .rightParen) :
    Parsed (.call g es) c
      ((out.2.consume .rightParen (.expectedMark ")" "after arguments")).emitByte .call out.1)
      (f :: rest) := by
  have ended := acts_consume out.2 .rightParen (.expectedMark ")" "after arguments")
  have consumed := emits_consume out.2 .rightParen (.expectedMark ")" "after arguments")
  have next := stream_consume listed.stream closed (.expectedMark ")" "after arguments")
  have found : Static out.2 (out.2.consume .rightParen (.expectedMark ")" "after arguments")) :=
    static_consume (by rw [check_of_stream listed.stream, closed]; rfl) _
  generalize out.2.consume .rightParen (.expectedMark ")" "after arguments") = c₂
    at ended consumed next found ⊢
  have read : Acts true c out.2 := callee.acts.trans listed.acts
  have both := (callee.static.trans callee.acts listed.acts fun _ => listed.static).trans read
    ended fun _ => found
  refine ⟨?_, (read.trans ended).trans (acts_emitByte _ _ _),
    both.still (read.trans ended) (acts_emitByte _ _ _), fun quiet => ?_⟩
  · rw [(acts_emitByte c₂ _ _).stream]
    exact next
  · obtain ⟨calm, -⟩ := quiet.split (read.trans ended) (acts_emitByte _ _ _)
    obtain ⟨calm, -⟩ := calm.split read ended
    obtain ⟨first, second⟩ := calm.split callee.acts listed.acts
    obtain ⟨emitted, known⟩ := callee.translates first
    obtain ⟨emitted', known'⟩ := listed.translates second
    rw [emitted.locals, emitted.pooled] at emitted'
    rw [emitted.locals, emitted.outer] at known'
    have count : out.1 = es.length := by rw [listed.counted second, Nat.zero_add]
    -- the number of arguments fits in the byte of the operand
    have small := listed.small
    unfold maxArity at small
    have called := emits_emitByte c₂ .call out.1 rfl (fun _ => by omega)
    rw [emitted'.pooled] at consumed
    rw [consumed.pooled] at called
    have whole := ((emitted.trans emitted').before consumed).trans called
    rw [count] at whole ⊢
    exact ⟨whole, known.append known'⟩

/-- A call, if what stands in the parentheses is read as the arguments. -/
theorem reads_applied {l r : Token} {p : Precedence} {g : Expression} {es : List Expression}
    {ts us : List Token} (tight : Precedence.call.rank ≤ p.rank) (opened : l.kind = .leftParen)
    (closed : r.kind = .rightParen) (reads : Reads p g ts)
    (given : ∀ (depth : Nat) (c : Compiler) (f : Token) (rest : List Token), us.length ≤ depth →
      c.stream = us ++ r :: f :: rest → ∃ out, Listed es 0 c out (r :: f :: rest) ∧
        c.arguments (phrase depth) depth =
          (out.1, out.2.consume .rightParen (.expectedMark ")" "after arguments"))) :
    Reads .call (.call g es) (ts ++ l :: (us ++ [r])) := by
  intro depth least c f rest fuel loose stream _ assign
  simp only [List.length_append, List.length_cons, List.length_nil] at fuel
  have binds : l.kind.precedence = .call := by rw [opened]; rfl
  obtain ⟨u, tail, follows⟩ : ∃ u tail, us ++ r :: f :: rest = u :: tail :=
    List.exists_cons_of_ne_nil (by simp)
  have callee : Spine depth least c g ts.length (l :: u :: tail) :=
    reads (by omega) (by omega) (by simpa [← follows] using stream) (completes_call tight)
      (fun _ => by rw [opened]; decide)
  refine callee.turn (by simp) (by rw [binds]; exact loose) fun c' before => ?_
  rw [continueOnce_eq .call before.stream (by rw [opened]; rfl)]
  have read := before.advance
  generalize c'.advance = c₁ at read ⊢
  obtain ⟨out, listed, same⟩ := given depth c₁ f rest (by omega) (read.stream.trans follows.symm)
  simp only [continueExpression, call, same]
  exact parsed_call read listed closed

theorem reads_callPlain {l r : Token} {p : Precedence} {g : Expression} {ts : List Token}
    (tight : Precedence.call.rank ≤ p.rank) (opened : l.kind = .leftParen)
    (closed : r.kind = .rightParen) (reads : Reads p g ts) :
    Reads .call (.call g []) (ts ++ [l, r]) := by
  show Reads .call (.call g []) (ts ++ l :: ([] ++ [r]))
  refine reads_applied tight opened closed reads fun depth c f rest _ stream => ?_
  have passed : c.check .rightParen = true := by
    rw [check_of_stream stream, closed]
    rfl
  refine ⟨(0, c), ⟨stream, .refl, .silent fun _ => rfl, Nat.zero_le _, fun _ => rfl,
    fun _ => ⟨Emits.refl c, ?_⟩⟩, by simp only [arguments, passed, if_true]⟩
  intro name mem
  cases mem

theorem reads_call {l r : Token} {p : Precedence} {g : Expression} {es : List Expression}
    {ts us : List Token} (tight : Precedence.call.rank ≤ p.rank) (opened : l.kind = .leftParen)
    (written : WrittenList es us) (closed : r.kind = .rightParen) (reads : Reads p g ts)
    (readsList : ReadsList es us) : Reads .call (.call g es) (ts ++ l :: (us ++ [r])) := by
  refine reads_applied tight opened closed reads fun depth c f rest fuel stream => ?_
  have more : c.check .rightParen = false := by
    obtain ⟨u, others, rfl, opens⟩ := written.head
    exact check_of_opens (by rwa [current_of_stream stream]) rfl
  exact ⟨_, readsList fuel fuel (Nat.zero_le _) stream closed,
    by simp only [arguments, more, Bool.false_eq_true, if_false]⟩

mutual

/-- However an expression is written, it is read as that expression. -/
theorem reads_of_written {p : Precedence} {e : Expression} {ts : List Token}
    (h : Written p e ts) : Reads p e ts := by
  match h with
  | .null word => exact reads_null word
  | .true word => exact reads_true word
  | .false word => exact reads_false word
  | .number literal value => exact reads_number literal value
  | .string literal => exact reads_string literal
  | .variable name => exact reads_variable name
  | .grouping opened inner closed =>
      exact reads_grouping inner (reads_of_written inner) opened closed
  | .parentheses opened inner closed =>
      exact reads_parentheses inner (reads_of_written inner) opened closed
  | .unary operator operand tight =>
      exact reads_unary operator operand tight (reads_of_written operand)
  | .binary left leftTight operator right rightTight =>
      exact reads_binary leftTight operator right rightTight (reads_of_written left)
        (reads_of_written right)
  | .and left leftTight operator right rightTight =>
      exact reads_and leftTight operator right rightTight (reads_of_written left)
        (reads_of_written right)
  | .or left leftTight operator right rightTight =>
      exact reads_or leftTight operator right rightTight (reads_of_written left)
        (reads_of_written right)
  | .assign name operator value =>
      exact reads_assign name operator value (reads_of_written value)
  | .callPlain callee tight opened closed =>
      exact reads_callPlain tight opened closed (reads_of_written callee)
  | .call callee tight opened arguments closed =>
      exact reads_call tight opened arguments closed (reads_of_written callee)
        (readsList_of_written arguments)

theorem readsList_of_written {es : List Expression} {ts : List Token}
    (h : WrittenList es ts) : ReadsList es ts := by
  match h with
  | .single only => exact readsList_single only (reads_of_written only)
  | .cons first comma others =>
      exact readsList_cons first comma others (reads_of_written first)
        (readsList_of_written others)

end

/-! ## Whole expressions -/

theorem precedence_of_no_continuation {kind : TokenKind} (h : kind.continuation? = none) :
    kind.precedence = .none := by
  cases kind <;> first | rfl | cases h

/-- A whole expression in front of a token that does not go on with it. -/
theorem parsed_of_written {p : Precedence} {e : Expression} {ts : List Token}
    (written : Written p e ts) {depth : Nat} {c : Compiler} {f : Token} {rest : List Token}
    (fuel : ts.length ≤ depth) (stream : c.stream = ts ++ f :: rest)
    (noInfix : f.kind.continuation? = none) (noAssign : f.kind ≠ .equal) :
    Parsed e c (phrase depth (.expression .assignment) c) (f :: rest) :=
  (reads_of_written written).parsed written depth .assignment fuel written.rank_pos stream
    (by rw [precedence_of_no_continuation noInfix]; decide) (fun _ => noAssign)

/-- Whatever tokens write an expression, and whatever follows them without going
on with it, the compiler reads these tokens and no more, and unless it reports an
error it writes the postfix code of the expression and nothing else. -/
theorem expression_reads_exactly {p : Precedence} {e : Expression} {ts : List Token}
    (written : Written p e ts) {depth : Nat} {c : Compiler} {f : Token} {rest : List Token}
    (fuel : ts.length ≤ depth) (stream : c.stream = ts ++ f :: rest)
    (noInfix : f.kind.continuation? = none) (noAssign : f.kind ≠ .equal) :
    (phrase depth (.expression .assignment) c).stream = f :: rest ∧
      (Quiet c (phrase depth (.expression .assignment) c) →
        Emits c (phrase depth (.expression .assignment) c)
          (e.code c.body.locals c.pool).1 (e.code c.body.locals c.pool).2) := by
  have parsed := parsed_of_written written fuel stream noInfix noAssign
  exact ⟨parsed.stream, fun quiet => (parsed.translates quiet).emits⟩

section Example

/-- The tokens of `false == !true or null` and the semicolon behind them. -/
def sampleTokens : List Token :=
  [⟨.false, "false", 1, .unknown⟩, ⟨.equalEqual, "==", 1, .unknown⟩, ⟨.bang, "!", 1, .unknown⟩,
    ⟨.true, "true", 1, .unknown⟩, ⟨.or, "or", 1, .unknown⟩, ⟨.null, "null", 1, .unknown⟩,
    ⟨.semicolon, ";", 1, .unknown⟩]

/-- They group as `(false == (!true)) or null`. -/
theorem sampleTokens_written :
    Written .or (.or (.binary .equal (.boolean false) (.unary .not (.boolean true))) .null)
      (sampleTokens.take 6) :=
  .or (.binary (.false rfl) (by decide) rfl (.unary rfl (.true rfl) (by decide)) (by decide))
    (by decide) rfl (.null rfl) (by decide)

theorem expression_reads_exactly_sample :
    (phrase 6 (.expression .assignment) (start sampleTokens .empty).advance).stream =
        [⟨.semicolon, ";", 1, .unknown⟩] ∧
      (phrase 6 (.expression .assignment)
        (start sampleTokens .empty).advance).body.chunk.code.toList =
        assemble [.plain .false, .plain .true, .plain .not, .plain .equal, ⟨.jumpIfFalse, 3⟩,
          ⟨.jump, 2⟩, .plain .pop, .plain .null] := by
  have written : (start sampleTokens .empty).advance.stream =
      sampleTokens.take 6 ++ [⟨.semicolon, ";", 1, .unknown⟩] := rfl
  obtain ⟨stream, emits⟩ := expression_reads_exactly sampleTokens_written
    (show (sampleTokens.take 6).length ≤ 6 by decide) written rfl (by decide)
  exact ⟨stream, (emits ⟨rfl, rfl⟩).written⟩

end Example

end Compiler
end StackScript
