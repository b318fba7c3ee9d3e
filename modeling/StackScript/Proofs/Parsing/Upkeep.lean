import StackScript.Proofs.Recognition.Program

/-!
# What the grammar keeps up

A compilation gives each phrase a depth and each loop a number of turns.  Here the tokens
that are left pay for both: with `n` tokens behind the current one, a declaration makes do
with a depth of `2 * n + 3`, and does the same with any greater one.  So the bounds are
never felt, however wrong the tokens are.

The walk follows the grammar twice at once, with a lesser and with a greater depth, and
carries along what an `Upkeep` asks: a firm state within phrases, a loose one between them.
-/

namespace StackScript
namespace Compiler

/-- What can be kept up along the grammar, with at most `n` tokens behind the current one.
A state is firm within a phrase.  A declaration may leave it loose, since it ends with a
recovery; what comes behind a declaration reads a token first, or reports at the current
one. -/
structure Upkeep where
  Loose : Nat → Compiler → Prop
  Firm : Nat → Compiler → Prop
  loose : ∀ {n c}, Firm n c → Loose n c
  loose_mono : ∀ {n m c}, Loose n c → n ≤ m → Loose m c
  firm_mono : ∀ {n m c}, Firm n c → n ≤ m → Firm m c
  ended : ∀ {c}, Loose 0 c → c.current.kind = .eof
  advance : ∀ {n c}, Loose n c → Firm (n - 1) c.advance
  reportCurrent : ∀ {n c}, Loose n c → ∀ problem, Firm n (c.reportAt c.current problem)
  report : ∀ {n c}, Firm n c → ∀ problem, Firm n (c.report problem)
  recover : ∀ {n c}, Loose n c → Loose n { c with panicking := false }
  act : ∀ {n c c'}, Act false c c' → Firm n c → Firm n c'

namespace Upkeep

variable {U : Upkeep} {n m : Nat} {c c' : Compiler}

theorem Firm.toLoose (h : U.Firm n c) : U.Loose n c := U.loose h

theorem Loose.less (h : U.Loose (n - 1) c) : U.Loose n c := U.loose_mono h (Nat.sub_le ..)

theorem Firm.less (h : U.Firm (n - 1) c) : U.Firm n c := U.firm_mono h (Nat.sub_le ..)

theorem Loose.advance (h : U.Loose n c) : U.Firm (n - 1) c.advance := U.advance h

/-- Any token but the end marker leaves fewer behind it. -/
theorem Loose.step (h : U.Loose n c) (more : c.current.kind ≠ .eof) :
    ∃ m, n = m + 1 ∧ U.Firm m c.advance := by
  cases n with
  | zero => exact absurd (U.ended h) more
  | succ m => exact ⟨m, rfl, h.advance⟩

theorem Loose.consume (h : U.Loose n c) (kind : TokenKind) (problem : Problem) :
    U.Firm n (c.consume kind problem) := by
  unfold Compiler.consume
  split
  · exact h.advance.less
  · exact U.reportCurrent h problem

theorem Loose.synchronize (h : U.Loose n c) : U.Loose n c.synchronize := by
  have skipped : ∀ c, U.Loose n c → U.Loose n c.skipToStatement := by
    intro c
    fun_induction skipToStatement c with
    | case1 | case2 => exact id
    | case3 c _ _ ih => exact fun h => ih h.advance.less.toLoose
  exact skipped _ (U.recover h)

theorem Firm.report (h : U.Firm n c) (problem : Problem) : U.Firm n (c.report problem) :=
  U.report h problem

end Upkeep

/-- What does not read keeps a state firm. -/
theorem Acts.firm {U : Upkeep} {n : Nat} {c c' : Compiler} (acts : Acts false c c') :
    U.Firm n c → U.Firm n c' := acts.preserve U.act

/-! ## Two depths -/

/-- Two ways to compile the same thing do the same, and keep up what they should. -/
structure Meets (P : Nat → Compiler → Prop) (n : Nat) (x x' : Compiler) : Prop where
  same : x' = x
  holds : P n x

/-- Compiling phrases in two ways is the same, as long as few tokens are left. -/
structure Deepens (U : Upkeep) (depth : Nat) (parse parse' : PhraseCompiler) : Prop where
  expression : ∀ {least : Precedence} {n : Nat} {c : Compiler}, least ≠ .none →
    2 * n + 1 ≤ depth → U.Loose n c →
    Meets U.Firm (n - 1) (parse (.expression least) c) (parse' (.expression least) c)
  statement : ∀ {n : Nat} {c : Compiler}, 2 * n + 2 ≤ depth → U.Loose n c →
    Meets U.Firm (n - 1) (parse .statement c) (parse' .statement c)
  declaration : ∀ {n : Nat} {c : Compiler}, 2 * n + 3 ≤ depth → U.Loose n c →
    Meets U.Loose (n - 1) (parse .declaration c) (parse' .declaration c)

theorem repeatWhile_of_not {more : Compiler → Bool} {c : Compiler} (stop : more c = false)
    (step : Compiler → Compiler) (bound : Nat) : repeatWhile more step bound c = c := by
  cases bound <;> simp [repeatWhile, stop]

theorem admits_eof {least : Precedence} (proper : least ≠ .none) {c : Compiler}
    (last : c.current.kind = .eof) : least.admits c.current.kind.precedence = false := by
  rw [last]
  cases least <;> first | rfl | exact absurd rfl proper

theorem tighter_ne_none (p : Precedence) : p.tighter ≠ .none := by cases p <;> decide

variable {U : Upkeep}

theorem Meets.less {n : Nat} {x x' : Compiler} (h : Meets U.Firm (n - 1) x x') :
    Meets U.Firm n x x' := ⟨h.same, h.holds.less⟩

namespace Upkeep

theorem Firm.meets {n : Nat} {c : Compiler} (h : U.Firm n c) : Meets U.Firm n c c := ⟨rfl, h⟩

/-- A loop that reads in every turn ends before its bound, so a greater bound changes
nothing. -/
theorem meets_repeatWhile {P : Nat → Compiler → Prop} (loose : ∀ {n c}, P n c → U.Loose n c)
    (mono : ∀ {n c}, P n c → P (n + 1) c) {more : Compiler → Bool}
    {step step' : Compiler → Compiler} (stop : ∀ c, c.current.kind = .eof → more c = false)
    {n bound bound' : Nat} {c : Compiler}
    (turn : ∀ m c, m < n → P (m + 1) c → c.current.kind ≠ .eof → Meets P m (step c) (step' c))
    (h : P n c) (room : n ≤ bound) (le : bound ≤ bound') :
    Meets P n (repeatWhile more step bound c) (repeatWhile more step' bound' c) := by
  induction bound generalizing n c bound' with
  | zero =>
      obtain rfl := Nat.le_zero.mp room
      have done := stop c (U.ended (loose h))
      rw [repeatWhile_of_not done, repeatWhile_of_not done]
      exact ⟨rfl, h⟩
  | succ bound ih =>
      obtain ⟨bound', rfl⟩ := Nat.exists_eq_add_of_le' (Nat.le_of_add_left_le le)
      rw [repeatWhile, repeatWhile]
      split
      · rename_i goes
        have proper : c.current.kind ≠ .eof := fun last => by simp [stop c last] at goes
        cases n with
        | zero => exact absurd (U.ended (loose h)) proper
        | succ m =>
            obtain ⟨same, turned⟩ := turn m c (Nat.lt_succ_self m) h proper
            rw [same]
            obtain ⟨same, left⟩ := ih (fun k c' less => turn k c' (Nat.lt_succ_of_lt less))
              turned (Nat.le_of_succ_le_succ room) (Nat.le_of_succ_le_succ le)
            exact ⟨same, mono left⟩
      · exact ⟨rfl, h⟩

section

variable {n depth bound bound' : Nat} {c : Compiler} {parse parse' : PhraseCompiler}

/-! ## Expressions -/

section Expressions

variable (deep : Deepens U depth parse parse') (room : 2 * n + 2 ≤ depth)
include deep room

theorem Loose.operand {least : Precedence} (proper : least ≠ .none) (h : U.Loose n c) :
    Meets U.Firm n (parse (.expression least) c) (parse' (.expression least) c) :=
  (deep.expression proper (by omega) h).less

theorem Loose.expression (h : U.Loose n c) : Meets U.Firm n (c.expression parse) (c.expression parse') :=
  h.operand deep room (by decide)

theorem Firm.variableUse (canAssign : Bool) (h : U.Firm n c) :
    Meets U.Firm n (c.variableUse parse canAssign) (c.variableUse parse' canAssign) := by
  have resolved : U.Firm n (c.resolve c.previous.lexeme).2 := (acts_resolve _ _).firm h
  unfold Compiler.variableUse
  dsimp only
  split
  · obtain ⟨same, value⟩ := resolved.toLoose.advance.less.toLoose.expression deep room
    rw [same]
    exact ((acts_emitWrite _ _).firm value).meets
  · exact ((acts_emitRead _ _).firm resolved).meets

theorem Firm.openExpression (canAssign : Bool) (opening : Opening) (h : U.Firm n c) :
    Meets U.Firm n (c.openExpression parse canAssign opening)
      (c.openExpression parse' canAssign opening) := by
  match opening with
  | .grouping =>
      obtain ⟨same, value⟩ := h.toLoose.expression deep room
      simp only [Compiler.openExpression, grouping, same]
      exact (value.toLoose.consume _ _).meets
  | .unary =>
      -- an operand of a unary operator is not read at the loosest level
      have negated : Precedence.unary ≠ .none := by decide
      obtain ⟨same, operand⟩ := h.toLoose.operand deep room negated
      simp only [Compiler.openExpression, unary, same]
      split
      · exact ((acts_emit _ _).firm operand).meets
      · exact ((acts_emit _ _).firm operand).meets
      · exact operand.meets
  | .variable => exact h.variableUse deep room canAssign
  | .string =>
      exact ((acts_emitConstant _ (made_intern c _)).firm ((acts_intern c _).firm h)).meets
  | .number =>
      simp only [Compiler.openExpression, numberLiteral]
      split
      · rename_i literal
        exact ((acts_emitConstant _ (.number literal)).firm h).meets
      · exact (h.report _).meets
  | .literal =>
      simp only [Compiler.openExpression, wordLiteral]
      split
      · exact ((acts_emit _ _).firm h).meets
      · exact ((acts_emit _ _).firm h).meets
      · exact ((acts_emit _ _).firm h).meets
      · exact h.meets
  | .unsupported => exact (h.report _).meets

theorem Loose.argument (count : Nat) (h : U.Loose n c) :
    argument parse' count c = argument parse count c ∧ U.Firm n (argument parse count c).2 := by
  obtain ⟨same, value⟩ := h.expression deep room
  unfold Compiler.argument
  dsimp only
  rw [same]
  refine ⟨rfl, ?_⟩
  split
  · exact value.report _
  · exact value

/-- Past the end there is no comma, so the arguments end before their bound. -/
theorem Firm.moreArguments (count : Nat) (h : U.Firm n c) (enough : n ≤ bound)
    (le : bound ≤ bound') :
    moreArguments parse' bound' count c = moreArguments parse bound count c ∧
      U.Firm n (moreArguments parse bound count c).2 := by
  have stop {c : Compiler} (last : c.current.kind = .eof) : c.check .comma = false := by
    simp [check, last]
  induction bound generalizing n count c bound' with
  | zero =>
      obtain rfl := Nat.le_zero.mp enough
      have done := stop (U.ended h.toLoose)
      cases bound' <;> simp [Compiler.moreArguments, done, h]
  | succ bound ih =>
      obtain ⟨bound', rfl⟩ := Nat.exists_eq_add_of_le' (Nat.le_of_add_left_le le)
      rw [Compiler.moreArguments, Compiler.moreArguments]
      split
      · rename_i comma
        obtain ⟨m, rfl, read⟩ := h.toLoose.step fun last => by simp [stop last] at comma
        have less : 2 * m + 2 ≤ depth := by omega
        obtain ⟨same, value⟩ := read.toLoose.argument deep less count
        obtain ⟨same', listed⟩ := ih less _ value (Nat.le_of_succ_le_succ enough)
          (Nat.le_of_succ_le_succ le)
        dsimp only
        rw [same]
        exact ⟨same', U.firm_mono listed (Nat.le_succ m)⟩
      · exact ⟨rfl, h⟩

theorem Firm.arguments (h : U.Firm n c) (enough : n ≤ bound) (le : bound ≤ bound') :
    c.arguments parse' bound' = c.arguments parse bound ∧
      U.Firm n (c.arguments parse bound).2 := by
  unfold Compiler.arguments
  by_cases closed : c.check .rightParen = true
  · simp only [closed, if_true]
    exact ⟨trivial, h.toLoose.consume _ _⟩
  · obtain ⟨same, first⟩ := h.toLoose.argument deep room 0
    obtain ⟨same', listed⟩ :=
      first.moreArguments deep room (Compiler.argument parse 0 c).1 enough le
    simp only [closed, Bool.false_eq_true, if_false, same, same']
    exact ⟨trivial, listed.toLoose.consume _ _⟩

theorem Firm.continueExpression (h : U.Firm n c) (enough : n ≤ bound) (le : bound ≤ bound')
    (next : Option Continuation) :
    Meets U.Firm n (c.continueExpression parse bound next)
      (c.continueExpression parse' bound' next) := by
  match next with
  | some .binary =>
      obtain ⟨same, operand⟩ := h.toLoose.operand deep room (tighter_ne_none c.previous.kind.precedence)
      simp only [Compiler.continueExpression, Compiler.binary, same]
      exact ((acts_emitBinary _ _).firm operand).meets
  | some .and =>
      have begun := (acts_emit _ .pop).firm ((acts_emitJump _ .jumpIfFalse).firm h)
      have joined : Precedence.and ≠ .none := by decide
      obtain ⟨same, operand⟩ := begun.toLoose.operand deep room joined
      simp only [Compiler.continueExpression, Compiler.conjunction, same]
      exact ((acts_patchJump _ _).firm operand).meets
  | some .or =>
      have begun := (acts_emit _ .pop).firm ((acts_patchJump _ (c.here + 1)).firm
        ((acts_emitJump _ .jump).firm ((acts_emitJump _ .jumpIfFalse).firm h)))
      have joined : Precedence.or ≠ .none := by decide
      obtain ⟨same, operand⟩ := begun.toLoose.operand deep room joined
      simp only [Compiler.continueExpression, Compiler.disjunction, same]
      exact ((acts_patchJump _ _).firm operand).meets
  | some .call =>
      obtain ⟨same, listed⟩ := h.arguments deep room enough le
      simp only [Compiler.continueExpression, Compiler.call, same]
      exact ((acts_emitByte _ _ _).firm listed).meets
  | some .unsupported => exact (h.report _).meets
  | none => exact h.meets

end Expressions

/-- A whole expression; at the end of the source nothing nests. -/
theorem Loose.expressionFrom {depth' : Nat} (deep : Deepens U depth parse parse')
    (le : depth ≤ depth') {least : Precedence} (proper : least ≠ .none)
    (room : 2 * n + 1 ≤ depth + 1) (h : U.Loose n c) :
    Meets U.Firm (n - 1) (c.expressionFrom parse depth least)
      (c.expressionFrom parse' depth' least) := by
  unfold Compiler.expressionFrom
  dsimp only
  split
  · exact (h.advance.report _).meets
  · rename_i opening begins
    have more : c.current.kind ≠ .eof := by
      intro last
      rw [advance_previous, last] at begins
      cases begins
    obtain ⟨m, rfl, read⟩ := h.step more
    have turn (k : Nat) (c : Compiler) (less : k < m) (h : U.Firm (k + 1) c)
        (_ : c.current.kind ≠ .eof) :
        Meets U.Firm k (continueOnce parse depth c) (continueOnce parse' depth' c) :=
      Firm.continueExpression deep (by omega) h.toLoose.advance (by omega) le _
    obtain ⟨same, begun⟩ :=
      read.openExpression deep (by omega) (least.admits .assignment) opening
    obtain ⟨same', whole⟩ :=
      meets_repeatWhile U.loose (U.firm_mono · (Nat.le_succ _))
        (fun c last => admits_eof proper last) turn begun (by omega) le
    rw [same, same']
    split
    · exact (whole.toLoose.advance.less.report _).meets
    · exact whole.meets

/-! ## Declarations -/

theorem Loose.parseVariable (h : U.Loose n c) (thing : String) :
    U.Firm n (c.parseVariable thing).2 := by
  have declared := (acts_declareVariable _).firm (h.consume .identifier (.expectedName thing))
  unfold Compiler.parseVariable
  dsimp only
  split
  · exact declared
  · exact (acts_nameIndex _ _).firm declared

theorem Firm.parameter (h : U.Firm n c) : U.Firm n c.parameter := by
  have counted : U.Firm n (c.mapBody fun body => { body with arity := body.arity + 1 }) :=
    (acts_aside _ rfl rfl rfl).firm h
  have named (c : Compiler) (h : U.Firm n c) : U.Firm n
      ((c.parseVariable "parameter").2.defineVariable (c.parseVariable "parameter").1 true) :=
    (acts_defineVariable _ _ _).firm (h.toLoose.parseVariable "parameter")
  unfold Compiler.parameter
  dsimp only
  split
  · exact named _ (U.reportCurrent counted.toLoose _)
  · exact named _ counted

theorem Firm.parameters (h : U.Firm n c) (enough : n ≤ bound) (le : bound ≤ bound') :
    Meets U.Firm n (c.parameters bound) (c.parameters bound') := by
  unfold Compiler.parameters
  split
  · exact h.meets
  · exact meets_repeatWhile U.loose (U.firm_mono · (Nat.le_succ _))
      (fun c last => by simp [check, last])
      (fun k c _ h _ => h.toLoose.advance.parameter.meets) h.parameter enough le

section Statements

variable (deep : Deepens U depth parse parse') (room : 2 * n + 3 ≤ depth)
include deep room

/-- Declarations up to the closing brace. -/
theorem Loose.block (h : U.Loose n c) (enough : n ≤ bound) (le : bound ≤ bound') :
    Meets U.Firm n (c.block parse bound) (c.block parse' bound') := by
  have stop (c : Compiler) (last : c.current.kind = .eof) :
      (!c.check .rightBrace && !c.check .eof) = false := by
    simp [check, last]
  obtain ⟨same, listed⟩ := meets_repeatWhile id (U.loose_mono · (Nat.le_succ _)) stop
    (fun k c less h _ => deep.declaration (by omega) h) h enough le
  unfold Compiler.block
  dsimp only
  rw [same]
  exact (listed.consume _ _).meets

theorem Firm.routine (h : U.Firm n c) (enough : n ≤ bound) (le : bound ≤ bound') :
    Meets U.Firm n (c.routine parse bound) (c.routine parse' bound') := by
  have begun : U.Firm n ((c.intern c.previous.lexeme).2.beginRoutine
      (some (c.intern c.previous.lexeme).1)).beginScope :=
    (acts_beginScope _).firm ((acts_beginRoutine _ _).firm ((acts_intern _ _).firm h))
  have named := begun.toLoose.consume .leftParen (.expectedMark "(" "after function name")
  obtain ⟨same, listed⟩ := named.parameters enough le
  have closed := listed.toLoose.consume .rightParen (.expectedMark ")" "after parameters")
  have opened := closed.toLoose.consume .leftBrace (.expectedMark "\x7b" "before function body")
  obtain ⟨same', block⟩ := opened.toLoose.block deep room enough le
  unfold Compiler.routine
  dsimp only
  rw [same, same']
  exact ((acts_emitConstant _ (made_endRoutine _)).firm ((acts_endRoutine _).firm block)).meets

theorem Firm.functionDeclaration (h : U.Firm n c) (enough : n ≤ bound) (le : bound ≤ bound') :
    Meets U.Firm n (c.functionDeclaration parse bound) (c.functionDeclaration parse' bound') := by
  have named := (acts_markInitialized _).firm (h.toLoose.parseVariable "function")
  obtain ⟨same, built⟩ := named.routine deep room enough le
  unfold Compiler.functionDeclaration
  dsimp only
  rw [same]
  exact ((acts_defineVariable _ _ _).firm built).meets

theorem Firm.variableDeclaration (assignable : Bool) (h : U.Firm n c) :
    Meets U.Firm n (c.variableDeclaration parse assignable) (c.variableDeclaration parse' assignable) := by
  have named := h.toLoose.parseVariable "variable"
  have defined (c : Compiler) (index : Nat) (h : U.Firm n c) :
      U.Firm n ((c.consume .semicolon (.expectedMark ";" "after variable declaration")).defineVariable
        index assignable) :=
    (acts_defineVariable _ _ _).firm (h.toLoose.consume _ _)
  unfold Compiler.variableDeclaration
  dsimp only
  split
  · obtain ⟨same, value⟩ := named.toLoose.advance.less.toLoose.expression deep (by omega)
    rw [same]
    exact (defined _ _ value).meets
  · exact (defined _ _ ((acts_emit _ _).firm named)).meets

/-! ## Statements -/

theorem Loose.substatement (h : U.Loose n c) :
    Meets U.Firm n (c.substatement parse) (c.substatement parse') :=
  (deep.statement (by omega) h).less

theorem Loose.printStatement (h : U.Loose n c) :
    Meets U.Firm n (c.printStatement parse) (c.printStatement parse') := by
  obtain ⟨same, value⟩ := h.expression deep (by omega)
  unfold Compiler.printStatement
  rw [same]
  exact ((acts_emit _ _).firm (value.toLoose.consume _ _)).meets

theorem Loose.expressionStatement (h : U.Loose n c) :
    Meets U.Firm n (c.expressionStatement parse) (c.expressionStatement parse') := by
  obtain ⟨same, value⟩ := h.expression deep (by omega)
  unfold Compiler.expressionStatement
  rw [same]
  exact ((acts_emit _ _).firm (value.toLoose.consume _ _)).meets

theorem Firm.returnStatement (h : U.Firm n c) :
    Meets U.Firm n (c.returnStatement parse) (c.returnStatement parse') := by
  unfold Compiler.returnStatement
  split
  · exact ((acts_emitReturn _).firm h.toLoose.advance.less).meets
  · obtain ⟨same, value⟩ := h.toLoose.expression deep (by omega)
    rw [same]
    exact ((acts_emit _ _).firm (value.toLoose.consume _ _)).meets

theorem Loose.condition (word : String) (h : U.Loose n c) :
    Meets U.Firm n (c.condition parse word) (c.condition parse' word) := by
  have begun := h.consume .leftParen (.expectedMark "(" ("after '" ++ word ++ "'"))
  obtain ⟨same, value⟩ := begun.toLoose.expression deep (by omega)
  unfold Compiler.condition
  dsimp only
  rw [same]
  exact (value.toLoose.consume _ _).meets

theorem Firm.ifStatement (h : U.Firm n c) :
    Meets U.Firm n (c.ifStatement parse) (c.ifStatement parse') := by
  obtain ⟨same, condition⟩ := h.toLoose.condition deep room "if"
  have tested := (acts_emit _ .pop).firm ((acts_emitJump _ .jumpIfFalse).firm condition)
  obtain ⟨same₁, first⟩ := tested.toLoose.substatement deep room
  have second := (acts_emit _ .pop).firm
    ((acts_patchJump _ ((c.condition parse "if").here + 1)).firm
      ((acts_emitJump _ .jump).firm first))
  unfold Compiler.ifStatement
  dsimp only
  rw [same, same₁]
  split
  · obtain ⟨same₂, rest⟩ := second.toLoose.advance.less.toLoose.substatement deep room
    rw [same₂]
    exact ((acts_patchJump _ _).firm rest).meets
  · exact ((acts_patchJump _ _).firm second).meets

theorem Firm.whileStatement (h : U.Firm n c) :
    Meets U.Firm n (c.whileStatement parse) (c.whileStatement parse') := by
  obtain ⟨same, condition⟩ := h.toLoose.condition deep room "while"
  have tested := (acts_emit _ .pop).firm ((acts_emitJump _ .jumpIfFalse).firm condition)
  obtain ⟨same', repeated⟩ :=
    ((acts_beginLoop _ c.here).firm tested).toLoose.substatement deep room
  have looped := (acts_emitLoop _ c.here).firm repeated
  unfold Compiler.whileStatement
  dsimp only
  rw [same, same']
  exact ((acts_endLoop _).firm ((acts_emit _ _).firm
    ((acts_patchJump _ _).firm looped))).meets

theorem Firm.forInitializer (h : U.Firm n c) :
    Meets U.Firm n (c.forInitializer parse) (c.forInitializer parse') := by
  have read := h.toLoose.advance.less
  unfold Compiler.forInitializer
  split
  · exact read.meets
  split
  · exact read.variableDeclaration deep room true
  split
  · exact read.variableDeclaration deep room false
  · exact h.toLoose.expressionStatement deep room

theorem Firm.forCondition (h : U.Firm n c) :
    c.forCondition parse' = c.forCondition parse ∧ U.Firm n (c.forCondition parse).2 := by
  unfold Compiler.forCondition
  split
  · exact ⟨rfl, h.toLoose.advance.less⟩
  · obtain ⟨same, value⟩ := h.toLoose.expression deep (by omega)
    rw [same]
    exact ⟨rfl, (acts_emit _ _).firm ((acts_emitJump _ _).firm (value.toLoose.consume _ _))⟩

theorem Firm.forIncrement (start : Nat) (h : U.Firm n c) :
    c.forIncrement parse' start = c.forIncrement parse start ∧
      U.Firm n (c.forIncrement parse start).2 := by
  unfold Compiler.forIncrement
  split
  · exact ⟨rfl, h.toLoose.advance.less⟩
  · obtain ⟨same, value⟩ := ((acts_emitJump _ .jump).firm h).toLoose.expression deep (by omega)
    have stepped := (acts_emit _ .pop).firm value
    dsimp only
    rw [same]
    exact ⟨rfl, (acts_patchJump _ _).firm ((acts_emitLoop _ _).firm (stepped.toLoose.consume _ _))⟩

theorem Firm.forStatement (h : U.Firm n c) :
    Meets U.Firm n (c.forStatement parse) (c.forStatement parse') := by
  have begun := ((acts_beginScope _).firm h).toLoose.consume .leftParen
    (.expectedMark "(" "after 'for'")
  obtain ⟨same, started⟩ := begun.forInitializer deep room
  unfold Compiler.forStatement
  dsimp only
  rw [same]
  generalize (c.beginScope.consume .leftParen _).forInitializer parse = c₁ at started ⊢
  obtain ⟨same₁, tested⟩ := started.forCondition deep room
  rw [same₁]
  obtain ⟨same₂, clauses⟩ := tested.forIncrement deep room c₁.here
  rw [same₂]
  generalize Compiler.forIncrement parse c₁.here (Compiler.forCondition parse c₁).2 = c₂
    at clauses ⊢
  obtain ⟨same₃, repeated⟩ := ((acts_beginLoop _ c₂.1).firm clauses).toLoose.substatement deep room
  rw [same₃]
  have looped := (acts_emitLoop _ c₂.1).firm repeated
  have left (c : Compiler) (h : U.Firm n c) : U.Firm n c.endLoop.endScope :=
    (acts_endScope _).firm ((acts_endLoop _).firm h)
  split
  · exact (left _ ((acts_emit _ _).firm ((acts_patchJump _ _).firm looped))).meets
  · exact (left _ looped).meets

omit deep room in
theorem Firm.breakStatement (h : U.Firm n c) : U.Firm n c.breakStatement := by
  unfold Compiler.breakStatement
  split
  · exact h.report _
  · exact (acts_mapLoop _ _).firm ((acts_emitJump _ _).firm
      ((acts_emitPops _ _).firm (h.toLoose.consume _ _)))

omit deep room in
theorem Firm.continueStatement (h : U.Firm n c) : U.Firm n c.continueStatement := by
  unfold Compiler.continueStatement
  split
  · exact h.report _
  · exact (acts_mapLoop _ _).firm ((acts_emitJump _ _).firm
      ((acts_emitPops _ _).firm (h.toLoose.consume _ _)))

theorem Firm.blockStatement (h : U.Firm n c) (enough : n ≤ bound) (le : bound ≤ bound') :
    Meets U.Firm n (c.blockStatement parse bound) (c.blockStatement parse' bound') := by
  obtain ⟨same, block⟩ := ((acts_beginScope _).firm h).toLoose.block deep room enough le
  unfold Compiler.blockStatement
  rw [same]
  exact ((acts_endScope _).firm block).meets

end Statements

/-- A phrase that begins with a token of its own: with that read, there is depth for what is
inside. -/
theorem Loose.behind {f f' : Compiler → Compiler} (h : U.Loose n c)
    (more : c.current.kind ≠ .eof) (room : 2 * n + 2 ≤ depth + 1)
    (inside : ∀ {m : Nat} {c : Compiler}, 2 * m + 3 ≤ depth → U.Firm m c →
      Meets U.Firm m (f c) (f' c)) : Meets U.Firm (n - 1) (f c.advance) (f' c.advance) := by
  obtain ⟨m, rfl, read⟩ := h.step more
  exact inside (by omega) read

/-- A statement; only an expression may stand at the end of the source. -/
theorem Loose.statement {depth' : Nat} (deep : Deepens U depth parse parse')
    (le : depth ≤ depth') (room : 2 * n + 2 ≤ depth + 1) (h : U.Loose n c) :
    Meets U.Firm (n - 1) (c.statement parse depth) (c.statement parse' depth') := by
  unfold Compiler.statement
  split
  case h_9 =>
    have proper : Precedence.assignment ≠ .none := by decide
    obtain ⟨same, value⟩ := deep.expression proper (by omega) h
    unfold Compiler.expressionStatement Compiler.expression
    rw [same]
    exact ((acts_emit _ _).firm (value.toLoose.consume _ _)).meets
  all_goals
    rename_i kind
    have more : c.current.kind ≠ .eof := by rw [kind]; decide
  · exact h.behind more room fun room h => h.toLoose.printStatement deep room
  · exact h.behind more room fun room h => h.ifStatement deep room
  · exact h.behind more room fun room h => h.whileStatement deep room
  · exact h.behind more room fun room h => h.forStatement deep room
  · exact h.behind more room fun room h => h.returnStatement deep room
  · exact h.behind more room fun _ h => h.breakStatement.meets
  · exact h.behind more room fun _ h => h.continueStatement.meets
  · exact h.behind more room fun room h => h.blockStatement deep room (by omega) le

/-- A declaration, and the recovery at its end. -/
theorem Loose.declaration {depth' : Nat} (deep : Deepens U depth parse parse')
    (le : depth ≤ depth') (room : 2 * n + 3 ≤ depth + 1) (h : U.Loose n c) :
    Meets U.Loose (n - 1) (c.declaration parse depth) (c.declaration parse' depth') := by
  have recovered {x x' : Compiler} (meets : Meets U.Firm (n - 1) x x') : Meets U.Loose (n - 1)
      (if x.panicking then x.synchronize else x)
      (if x'.panicking then x'.synchronize else x') := by
    obtain ⟨rfl, declared⟩ := meets
    split
    · exact ⟨rfl, declared.toLoose.synchronize⟩
    · exact ⟨rfl, declared.toLoose⟩
  have room' : 2 * n + 2 ≤ depth + 1 := by omega
  unfold Compiler.declaration
  refine recovered ?_
  split
  case h_5 => exact deep.statement (by omega) h
  all_goals
    rename_i kind
    have more : c.current.kind ≠ .eof := by rw [kind]; decide
  · exact h.behind more room' fun room h => h.functionDeclaration deep room (by omega) le
  · exact h.behind more room' fun room h => h.variableDeclaration deep room true
  · exact h.behind more room' fun room h => h.variableDeclaration deep room false
  · exact h.behind more room' fun _ h => (h.report _).meets

end

/-- A greater depth makes no difference where the lesser one is enough. -/
theorem deepens_phrase {depth depth' : Nat} (le : depth ≤ depth') :
    Deepens U depth (phrase depth) (phrase depth') := by
  induction depth generalizing depth' with
  | zero =>
      refine ⟨fun _ room => ?_, fun room => ?_, fun room => ?_⟩
      all_goals omega
  | succ depth ih =>
      obtain ⟨depth', rfl⟩ := Nat.exists_eq_add_of_le' (Nat.le_of_add_left_le le)
      have less := Nat.le_of_succ_le_succ le
      have deep := ih less
      exact ⟨fun proper room h => h.expressionFrom deep less proper room,
        fun room h => h.statement deep less room, fun room h => h.declaration deep less room⟩

/-- Declarations are the same with every depth that is enough for the tokens. -/
theorem meets_declarations (U : Upkeep) {n depth depth' : Nat} {c : Compiler}
    (room : 2 * n + 3 ≤ depth) (le : depth ≤ depth') (h : U.Loose n c) :
    Meets U.Loose n (repeatWhile (fun c => !c.check .eof) (phrase depth .declaration) depth c)
      (repeatWhile (fun c => !c.check .eof) (phrase depth' .declaration) depth' c) :=
  meets_repeatWhile id (fun h => U.loose_mono h (Nat.le_succ _))
    (fun c last => by simp [check, last])
    (fun k c less h _ => (deepens_phrase le).declaration (by omega) h) h (by omega) le

end Upkeep

end Compiler
end StackScript
