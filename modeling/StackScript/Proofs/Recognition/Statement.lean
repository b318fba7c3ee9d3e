import StackScript.Proofs.Parsing.Statement
import StackScript.Proofs.Recognition.Expression

/-!
# What is read as a statement is one

As for expressions: a statement, a declaration or a sequence of them that is compiled
without a report was written from some tree.  A statement that ends openly is never
followed by an `else`, because the parser would have taken it.
-/

namespace StackScript
namespace Compiler

/-- The tokens write a statement of a category, and an `else` behind it is not its own. -/
def Stands (k : Category) (after : Token) (ts : List Token) : Prop :=
  ∃ ends s, StatementWritten k ends s ts ∧ (ends = true → after.kind ≠ .else)

/-- At this depth statements and declarations are read as they are written. -/
structure RecognizesAll (depth : Nat) : Prop where
  statement : ∀ ⦃c : Compiler⦄, 2 * c.left + 1 < depth →
    Finds c (phrase depth .statement c) (Stands .statement (phrase depth .statement c).current)
  declaration : ∀ ⦃c : Compiler⦄, 2 * c.left + 2 < depth →
    Finds c (phrase depth .declaration c)
      (Stands .declaration (phrase depth .declaration c).current)

section

variable {depth : Nat} {c : Compiler}

/-! ## Statements without statements in them -/

theorem finds_value (fuel : 2 * c.left < depth) :
    Finds c (c.expression (phrase depth)) fun ts => ∃ p e, Written p e ts := by
  refine (finds_expression (recognizes_expression depth) fuel).map ?_
  rintro ts ⟨p, e, -, written, -⟩
  exact ⟨p, e, written⟩

theorem finds_terminated (fuel : 2 * c.left < depth) (problem : Problem) :
    Finds c ((c.expression (phrase depth)).consume .semicolon problem) fun ts =>
      ∃ p e us m, ts = us ++ [m] ∧ Written p e us ∧ m.kind = .semicolon := by
  refine ((finds_value fuel).bind (acts_consume _ _ _) fun _ _ _ =>
    finds_consume _ (by decide) _).map ?_
  rintro _ ⟨us, _, rfl, ⟨p, e, written⟩, m, rfl, closed⟩
  exact ⟨p, e, us, m, rfl, written, closed⟩

theorem finds_printStatement (fuel : 2 * c.left < depth) {k : Token} (word : k.kind = .print) :
    let c' := c.printStatement (phrase depth)
    Finds c c' fun ts => Stands .statement c'.current (k :: ts) := by
  refine (finds_terminated fuel (.expectedMark ";" "after value")).still (acts_emit _ _) ?_
  rintro - _ ⟨p, e, us, m, rfl, written, closed⟩
  exact ⟨_, _, .print word written closed, by simp⟩

theorem finds_expressionStatement (fuel : 2 * c.left < depth) :
    Finds c (c.expressionStatement (phrase depth)) fun ts =>
      ∃ p e us m, ts = us ++ [m] ∧ Written p e us ∧ m.kind = .semicolon :=
  (finds_terminated fuel (.expectedMark ";" "after expression")).still (acts_emit _ _)
    fun _ _ => id

theorem finds_returnStatement (fuel : 2 * c.left < depth) {k : Token} (word : k.kind = .return) :
    let c' := c.returnStatement (phrase depth)
    Finds c c' fun ts => Stands .statement c'.current (k :: ts) := by
  unfold returnStatement
  dsimp only
  split
  · rename_i empty
    refine (finds_check empty (by decide)).still (acts_emitReturn _) ?_
    rintro - _ ⟨m, rfl, closed⟩
    exact ⟨_, _, .giveBack word .none closed, by simp⟩
  · refine (finds_terminated fuel (.expectedMark ";" "after return value")).still
      (acts_emit _ _) ?_
    rintro - _ ⟨p, e, us, m, rfl, written, closed⟩
    exact ⟨_, _, .giveBack word (.some written) closed, by simp⟩

theorem finds_breakStatement {k : Token} (word : k.kind = .break) :
    Finds c c.breakStatement fun ts => Stands .statement c.breakStatement.current (k :: ts) := by
  unfold breakStatement
  split
  · exact finds_report .refl
  · refine (finds_consume c (by decide) (.expectedMark ";" "after 'break'")).still
      (((acts_emitPops _ _).trans (acts_emitJump _ _)).trans (acts_mapLoop _ _)) ?_
    rintro - _ ⟨m, rfl, closed⟩
    exact ⟨_, _, .leave word closed, by simp⟩

theorem finds_continueStatement {k : Token} (word : k.kind = .continue) :
    Finds c c.continueStatement fun ts =>
      Stands .statement c.continueStatement.current (k :: ts) := by
  unfold continueStatement
  split
  · exact finds_report .refl
  · refine (finds_consume c (by decide) (.expectedMark ";" "after 'continue'")).still
      (((acts_emitPops _ _).trans (acts_emitJump _ _)).trans (acts_mapLoop _ _)) ?_
    rintro - _ ⟨m, rfl, closed⟩
    exact ⟨_, _, .again word closed, by simp⟩

theorem finds_condition (fuel : 2 * c.left < depth) (word : String) :
    Finds c (c.condition (phrase depth) word) fun ts => ∃ l p e us r, ts = l :: (us ++ [r]) ∧
      l.kind = .leftParen ∧ Written p e us ∧ r.kind = .rightParen := by
  have apart : TokenKind.leftParen ≠ .eof := by decide
  have opened := finds_consume c apart (.expectedMark "(" ("after '" ++ word ++ "'"))
  refine ((opened.bind (acts_expression (acts_phrase depth) _) fun ts stream _ =>
    finds_value (by
      have := left_of_append stream
      omega)).bind (acts_consume _ .rightParen (.expectedMark ")" "after condition"))
    fun _ _ _ => finds_consume _ (by decide) _).map ?_
  rintro _ ⟨_, _, rfl, ⟨_, us, rfl, ⟨l, rfl, opened⟩, p, e, written⟩, r, rfl, closed⟩
  exact ⟨l, p, e, us, r, by simp, opened, written, closed⟩

/-! ## Declarations of variables -/

theorem finds_parseVariable (thing : String) :
    Finds c (c.parseVariable thing).2 fun ts => ∃ n, ts = [n] ∧ n.kind = .identifier := by
  have apart : TokenKind.identifier ≠ .eof := by decide
  have name := (finds_consume c apart (.expectedName thing)).still
    (R := fun ts => ∃ n, ts = [n] ∧ n.kind = .identifier) (acts_declareVariable _) fun _ _ => id
  unfold parseVariable
  dsimp only
  split
  · exact name
  · exact name.still (acts_nameIndex _ _) fun _ _ => id

theorem finds_variableDeclaration (assignable : Bool) (fuel : 2 * c.left < depth) {k : Token}
    (word : k.kind = if assignable then .var else .const) :
    Finds c (c.variableDeclaration (phrase depth) assignable) fun ts =>
      ∃ s, DeclarationWritten s (k :: ts) := by
  have named := finds_parseVariable (c := c) "variable"
  unfold variableDeclaration
  dsimp only
  generalize c.parseVariable "variable" = named' at named ⊢
  obtain ⟨index, c₁⟩ := named'
  dsimp only at named ⊢
  split
  · rename_i equal
    have given := ((named.bind (acts_advance c₁) fun _ _ _ =>
      finds_check equal (by decide)).bind (acts_expression (acts_phrase depth) _)
        fun ts stream _ => show Finds _ (Compiler.expression (phrase depth) _) _ from
          finds_value (by
            have := left_of_append stream
            omega))
    have closed := given.bind (acts_consume _ .semicolon
      (.expectedMark ";" "after variable declaration")) fun _ _ _ =>
        finds_consume _ (by decide) _
    refine closed.still (acts_defineVariable _ _ _) ?_
    rintro - _ ⟨_, _, rfl, ⟨_, us, rfl, ⟨_, _, rfl, ⟨n, rfl, name⟩, q, rfl, equal⟩, p, e, written⟩,
      m, rfl, closed⟩
    exact ⟨_, by simpa using .initialized word name equal written closed⟩
  · have closed := (named.still (acts_emit _ .null) fun _ _ => id).bind (acts_consume _ .semicolon
      (.expectedMark ";" "after variable declaration")) fun _ _ _ =>
        finds_consume _ (by decide) _
    refine closed.still (acts_defineVariable _ _ _) ?_
    rintro - _ ⟨_, _, rfl, ⟨n, rfl, name⟩, m, rfl, closed⟩
    exact ⟨_, .plain word name closed⟩

/-! ## Clauses -/

theorem finds_forInitializer (fuel : 2 * c.left < depth) :
    Finds c (c.forInitializer (phrase depth)) fun ts => ∃ s, InitializerWritten s ts := by
  have declared (assignable : Bool)
      (word : c.current.kind = if assignable then .var else .const) :
      Finds c (c.advance.variableDeclaration (phrase depth) assignable) fun ts =>
        ∃ s, InitializerWritten s ts := by
    have more : c.current.kind ≠ .eof := by
      rw [word]
      cases assignable <;> decide
    refine ((finds_advance c more).bind (acts_variableDeclaration (acts_phrase depth) _ _)
      fun ts stream _ => finds_variableDeclaration assignable (by
        have := left_of_append stream
        omega) word).map ?_
    rintro _ ⟨_, us, rfl, rfl, s, written⟩
    exact ⟨s, .declaration written⟩
  unfold forInitializer
  split
  · rename_i empty
    refine (finds_check empty (by decide)).map ?_
    rintro _ ⟨m, rfl, closed⟩
    exact ⟨_, .none closed⟩
  split
  · rename_i word
    exact declared true (by simpa [check] using word)
  split
  · rename_i word
    exact declared false (by simpa [check] using word)
  · refine (finds_expressionStatement fuel).map ?_
    rintro _ ⟨p, e, us, m, rfl, written, closed⟩
    exact ⟨_, .expression written closed⟩

theorem finds_forCondition (fuel : 2 * c.left < depth) :
    Finds c (c.forCondition (phrase depth)).2 fun ts => ∃ test us m, ts = us ++ [m] ∧
      ClauseWritten test us ∧ m.kind = .semicolon := by
  unfold forCondition
  split
  · rename_i empty
    refine (finds_check empty (by decide)).map ?_
    rintro _ ⟨m, rfl, closed⟩
    exact ⟨_, [], m, rfl, .none, closed⟩
  · refine (finds_terminated fuel (.expectedMark ";" "after loop condition")).still
      ((acts_emitJump _ _).trans (acts_emit _ _)) ?_
    rintro - _ ⟨p, e, us, m, rfl, written, closed⟩
    exact ⟨_, us, m, rfl, .some written, closed⟩

theorem finds_forIncrement (start : Nat) (fuel : 2 * c.left < depth) :
    Finds c (c.forIncrement (phrase depth) start).2 fun ts => ∃ step us r, ts = us ++ [r] ∧
      ClauseWritten step us ∧ r.kind = .rightParen := by
  unfold forIncrement
  split
  · rename_i empty
    refine (finds_check empty (by decide)).map ?_
    rintro _ ⟨m, rfl, closed⟩
    exact ⟨_, [], m, rfl, .none, closed⟩
  · have jump : Acts false c (c.emitJump .jump) := acts_emitJump _ _
    have step : Finds (c.emitJump .jump) _ fun ts => ∃ p e, Written p e ts :=
      show Finds _ (Compiler.expression (phrase depth) _) _ from finds_value (by
        rw [left, jump.stream]
        exact fuel)
    refine ((((Finds.after jump (fun _ => step) (acts_phrase _ _ _)).still (acts_emit _ .pop)
      fun _ _ => id).bind (acts_consume _ .rightParen (.expectedMark ")" "after for clauses"))
        fun _ _ _ => finds_consume _ (by decide) _).still
          ((acts_emitLoop _ _).trans (acts_patchJump _ _)) ?_)
    rintro - _ ⟨us, _, rfl, ⟨p, e, written⟩, r, rfl, closed⟩
    exact ⟨_, us, r, rfl, .some written, closed⟩

end

/-! ## Statements with statements in them -/

section

variable {depth : Nat} (ih : RecognizesAll depth) {c : Compiler}
include ih

/-- What may stand behind the first branch. -/
theorem finds_otherwise (fuel : 2 * c.left + 1 < depth) :
    let c' := otherwise depth c
    Finds c c' fun ts => (ts = [] ∧ c.current.kind ≠ .else ∧ c'.current.kind ≠ .else) ∨
      ∃ o us, ts = o :: us ∧ c.current.kind = .else ∧ o.kind = .else ∧
        Stands .statement c'.current us := by
  unfold otherwise
  dsimp only
  split
  · rename_i other
    have other : c.current.kind = .else := by simpa [check] using other
    refine ((finds_advance c (by rw [other]; decide)).bind (acts_phrase depth .statement _)
      fun ts stream _ => ih.statement (by
        have := left_of_append stream
        omega)).map ?_
    rintro _ ⟨_, us, rfl, rfl, no⟩
    exact .inr ⟨_, us, rfl, other, other, no⟩
  · rename_i alone
    have alone : c.current.kind ≠ .else := by simpa [check] using alone
    exact (finds_nothing .refl).map fun _ empty => .inl ⟨empty, alone, alone⟩

theorem finds_ifStatement (fuel : 2 * c.left + 1 < depth) {k : Token} (word : k.kind = .if) :
    let c' := c.ifStatement (phrase depth)
    Finds c c' fun ts => Stands .statement c'.current (k :: ts) := by
  have shallow : 2 * c.left < depth := by omega
  have entered := (finds_condition shallow "if").still
    ((acts_emitJump _ .jumpIfFalse).trans (acts_emit _ .pop)) fun _ _ => id
  let c₁ := phrase depth .statement (((c.condition (phrase depth) "if").emitJump .jumpIfFalse).emit .pop)
  let c₂ := ((c₁.emitJump .jump).patchJump ((c.condition (phrase depth) "if").here + 1)).emit .pop
  have between : Acts false c₁ c₂ :=
    ((acts_emitJump _ _).trans (acts_patchJump _ _)).trans (acts_emit _ _)
  have yes := entered.bind ((acts_phrase depth .statement _).trans between.toReading)
    fun ts stream _ => (ih.statement (by
      have := left_of_append stream
      omega)).still (R := Stands .statement c₂.current) between fun same ts yes => by rwa [same]
  refine (yes.bind (acts_otherwise depth _) fun ts stream _ => finds_otherwise ih (by
    have := left_of_append stream
    omega)).still (acts_patchJump _ _) ?_
  rintro same _ ⟨_, ws, rfl, ⟨_, vs, rfl, ⟨l, p, e, us, r, rfl, opened, test, closed⟩, ends, s, yes,
    apart⟩, ⟨rfl, -, alone⟩ | ⟨o, ws, rfl, met, other, ends', t, no, apart'⟩⟩
  · refine ⟨true, _, by simpa using .when word opened test closed yes, fun _ => ?_⟩
    rw [same]
    exact alone
  · obtain rfl : ends = false := by
      cases ends with
      | false => rfl
      | true => exact absurd met (apart rfl)
    refine ⟨ends', _, by simpa using .choose word opened test closed yes other no, ?_⟩
    rw [same]
    exact apart'

theorem finds_whileStatement (fuel : 2 * c.left + 1 < depth) {k : Token} (word : k.kind = .while) :
    let c' := c.whileStatement (phrase depth)
    Finds c c' fun ts => Stands .statement c'.current (k :: ts) := by
  have shallow : 2 * c.left < depth := by omega
  have entered := (finds_condition shallow "while").still
    (((acts_emitJump _ .jumpIfFalse).trans (acts_emit _ .pop)).trans (acts_beginLoop _ c.here))
    fun _ _ => id
  refine (entered.bind (acts_phrase depth .statement _) fun ts stream _ => ih.statement (by
    have := left_of_append stream
    omega)).still (((acts_emitLoop _ c.here).trans (acts_patchJump _ _)).trans
      ((acts_emit _ _).trans (acts_endLoop _))) ?_
  rintro same _ ⟨_, vs, rfl, ⟨l, p, e, us, r, rfl, opened, test, closed⟩, ends, s, body, apart⟩
  refine ⟨_, _, by simpa using .whileLoop word opened test closed body, ?_⟩
  rw [same]
  exact apart

theorem finds_forStatement (fuel : 2 * c.left + 1 < depth) {k : Token} (word : k.kind = .for) :
    let c' := c.forStatement (phrase depth)
    Finds c c' fun ts => Stands .statement c'.current (k :: ts) := by
  have scope : Acts false c c.beginScope := acts_beginScope c
  have opened : Finds c (c.beginScope.consume .leftParen (.expectedMark "(" "after 'for'"))
      fun ts => ∃ l, ts = [l] ∧ l.kind = .leftParen :=
    Finds.after scope (fun _ => finds_consume _ (by decide) _) (acts_consume _ _ _)
  have first := opened.bind (acts_forInitializer (acts_phrase depth) _) fun ts stream _ =>
    finds_forInitializer (by
      have := left_of_append stream
      omega)
  unfold forStatement
  dsimp only
  generalize forInitializer (phrase depth) _ = c₂ at first ⊢
  have second := first.bind (acts_forCondition (acts_phrase depth) c₂) fun ts stream _ =>
    finds_forCondition (by
      have := left_of_append stream
      omega)
  generalize forCondition (phrase depth) c₂ = tested at second ⊢
  have third := second.bind (acts_forIncrement (acts_phrase depth) c₂.here tested.2)
    fun ts stream _ => finds_forIncrement _ (by
      have := left_of_append stream
      omega)
  generalize forIncrement (phrase depth) c₂.here tested.2 = increment at third ⊢
  have body := (third.still (acts_beginLoop _ increment.1) fun _ _ => id).bind
    (acts_phrase depth .statement _) fun ts stream _ => ih.statement (by
      have := left_of_append stream
      omega)
  -- the rest only writes code, and reads nothing
  unfold substatement
  generalize phrase depth .statement (increment.2.beginLoop increment.1) = c₃ at body ⊢
  refine body.still ((acts_emitLoop _ increment.1).trans (Relation.ReflTransGen.trans ?_
    ((acts_endLoop _).trans (acts_endScope _)))) ?_
  · split
    · exact (acts_patchJump _ _).trans (acts_emit _ _)
    · exact .refl
  rintro same _ ⟨_, ws, rfl, ⟨_, _, rfl, ⟨_, _, rfl, ⟨_, is, rfl, ⟨l, rfl, opened⟩, init, first⟩,
    test, us, m, rfl, second, middle⟩, step, vs, r, rfl, third, closed⟩, ends, s, body, apart⟩
  refine ⟨_, _, by simpa using .forLoop word opened first second middle third closed body, ?_⟩
  rw [same]
  exact apart

/-! ## Blocks and functions -/

/-- Declarations and statements up to a brace or the end of the source. -/
theorem finds_sequence {bound : Nat} (more : Compiler → Bool) (room : c.left ≤ bound)
    (fuel : 2 * c.left + 2 < depth) :
    Finds c (repeatWhile more (phrase depth .declaration) bound c) fun ts =>
      (∃ ends s, StatementWritten .sequence ends s ts) ∧
        more (repeatWhile more (phrase depth .declaration) bound c) = false := by
  induction bound generalizing c with
  | zero => simp [left, Compiler.stream] at room
  | succ bound rest =>
      cases goes : more c with
      | false =>
          simp only [repeatWhile, goes, Bool.false_eq_true, if_false]
          refine (finds_nothing .refl).map ?_
          rintro _ rfl
          exact ⟨⟨_, _, .done⟩, trivial⟩
      | true =>
          simp only [repeatWhile, goes, if_true]
          have whole := (ih.declaration fuel).bind
            (acts_repeatWhile (acts_phrase depth .declaration) bound _)
            fun ts stream first => by
              have some : 0 < ts.length := by
                obtain ⟨ends, s, written, -⟩ := first
                obtain ⟨t, us, rfl, -⟩ := written.head (by simp)
                simp
              have := left_of_append stream
              exact rest (c := phrase depth .declaration c) (by omega) (by omega)
          refine whole.map ?_
          rintro _ ⟨us, vs, rfl, ⟨_, _, first, -⟩, ⟨_, _, others⟩, stop⟩
          exact ⟨⟨_, _, .next first others⟩, stop⟩

theorem finds_block {bound : Nat} (room : c.left ≤ bound) (fuel : 2 * c.left + 2 < depth) :
    Finds c (c.block (phrase depth) bound) fun ts => ∃ ends s us r, ts = us ++ [r] ∧
      StatementWritten .sequence ends s us ∧ r.kind = .rightBrace := by
  have sequence := finds_sequence ih (fun c => !c.check .rightBrace && !c.check .eof) room fuel
  refine (sequence.bind (acts_consume _ .rightBrace (.expectedMark "\x7d" "after block"))
    fun _ _ _ => finds_consume _ (by decide) _).map ?_
  rintro _ ⟨us, _, rfl, ⟨⟨ends, s, written⟩, -⟩, r, rfl, closed⟩
  exact ⟨ends, s, us, r, rfl, written, closed⟩

theorem finds_blockStatement {bound : Nat} (room : c.left ≤ bound)
    (fuel : 2 * c.left + 2 < depth) {k : Token} (word : k.kind = .leftBrace) :
    let c' := c.blockStatement (phrase depth) bound
    Finds c c' fun ts => Stands .statement c'.current (k :: ts) := by
  have scope : Acts false c c.beginScope := acts_beginScope c
  have inner : Finds c.beginScope (c.beginScope.block (phrase depth) bound) _ := finds_block ih
    (by rw [left, scope.stream]; exact room) (by rw [left, scope.stream]; exact fuel)
  refine (Finds.after scope (fun _ => inner)
    (acts_block (acts_phrase depth) bound _)).still (acts_endScope _) ?_
  rintro - _ ⟨ends, s, us, r, rfl, written, closed⟩
  exact ⟨_, _, .block word written closed, by simp⟩

omit ih in
theorem finds_parameter : Finds c c.parameter fun ts => ∃ n, ts = [n] ∧ n.kind = .identifier := by
  let c₁ := c.mapBody fun body => { body with arity := body.arity + 1 }
  have counted : Acts false c c₁ := acts_aside _ rfl rfl rfl
  have checked : Acts false c₁
      (if maxArity < c₁.body.arity then c₁.reportCurrent .tooManyParameters else c₁) := by
    split
    · exact (Act.report _ (.inr rfl) rfl).acts
    · exact .refl
  exact (Finds.after (counted.trans checked) (fun _ => finds_parseVariable "parameter")
    (acts_parseVariable _ _)).still (acts_defineVariable _ _ _) fun _ _ => id

omit ih in
theorem finds_parameters {bound : Nat} (room : c.left ≤ bound) :
    Finds c (c.parameters bound) fun ts => ∃ names, ParametersWritten names ts := by
  -- what follows the first parameter: each turn reads a comma and a name
  have more : ∀ {bound : Nat} {c : Compiler}, c.left ≤ bound →
      Finds c (repeatWhile (·.check .comma) (fun c => c.advance.parameter) bound c) fun ts =>
        ts = [] ∨ ∃ m names us, ts = m :: us ∧ m.kind = .comma ∧ NamesWritten names us := by
    intro bound
    induction bound with
    | zero => intro c room; simp [left, Compiler.stream] at room
    | succ bound rest =>
        intro c room
        unfold repeatWhile
        split
        · rename_i comma
          have read := (finds_check comma (by decide)).bind (acts_parameter _)
            fun _ _ _ => finds_parameter
          refine (read.bind (acts_repeatWhile (fun c => (acts_advance c).trans (acts_parameter _))
            bound _) fun ts stream same => rest ?_).map ?_
          · obtain ⟨_, us, rfl, ⟨k, rfl, -⟩, -⟩ := same
            have := left_of_append stream
            simp only [List.length_append, List.length_singleton] at this
            omega
          · rintro _ ⟨_, vs, rfl, ⟨_, _, rfl, ⟨k, rfl, comma⟩, n, rfl, name⟩, others⟩
            rcases others with rfl | ⟨m, names, us, rfl, comma', others⟩
            · exact .inr ⟨_, _, [n], by simp, comma, .single name⟩
            · exact .inr ⟨_, _, n :: m :: us, by simp, comma, .cons name comma' others⟩
        · exact (finds_nothing .refl).map fun _ => .inl
  unfold parameters
  split
  · refine (finds_nothing .refl).map ?_
    rintro _ rfl
    exact ⟨_, .none⟩
  · refine (finds_parameter.bind (acts_repeatWhile (fun c => (acts_advance c).trans
      (acts_parameter _)) bound _) fun ts stream _ => more (by
        have := left_of_append stream
        omega)).map ?_
    rintro _ ⟨_, vs, rfl, ⟨n, rfl, name⟩, rfl | ⟨m, names, us, rfl, comma, others⟩⟩
    · exact ⟨_, .some (.single name)⟩
    · exact ⟨_, .some (.cons name comma others)⟩

theorem finds_routine {bound : Nat} (room : c.left ≤ bound) (fuel : 2 * c.left + 2 < depth) :
    Finds c (c.routine (phrase depth) bound) fun ts => ∃ l names ps r b ends s us d,
      ts = l :: (ps ++ r :: b :: (us ++ [d])) ∧ l.kind = .leftParen ∧
      ParametersWritten names ps ∧ r.kind = .rightParen ∧ b.kind = .leftBrace ∧
      StatementWritten .sequence ends s us ∧ d.kind = .rightBrace := by
  let c₁ := ((c.intern c.previous.lexeme).2.beginRoutine
    (some (c.intern c.previous.lexeme).1)).beginScope
  let c₂ := c₁.consume .leftParen (.expectedMark "(" "after function name")
  let c₃ := c₂.parameters bound
  let c₄ := c₃.consume .rightParen (.expectedMark ")" "after parameters")
  let c₅ := c₄.consume .leftBrace (.expectedMark "\x7b" "before function body")
  have begun : Acts false c c₁ :=
    (acts_intern _ _).trans ((acts_beginRoutine _ _).trans (acts_beginScope _))
  have opened : Finds c c₂ fun ts => ∃ l, ts = [l] ∧ l.kind = .leftParen :=
    Finds.after begun (fun _ => finds_consume _ (by decide) _) (acts_consume _ _ _)
  have header := ((opened.bind (acts_parameters bound c₂) fun ts stream _ =>
    finds_parameters (by
      have := left_of_append stream
      omega)).bind (acts_consume c₃ .rightParen (.expectedMark ")" "after parameters"))
        fun _ _ _ => finds_consume _ (by decide) _).bind
          (acts_consume c₄ .leftBrace (.expectedMark "\x7b" "before function body"))
            fun _ _ _ => finds_consume _ (by decide) _
  refine (header.bind (acts_block (acts_phrase depth) bound c₅) fun ts stream _ =>
    finds_block ih (by
      have := left_of_append stream
      omega) (by
      have := left_of_append stream
      omega)).still ((acts_endRoutine _).trans (acts_emitConstant _ (made_endRoutine _))) ?_
  rintro - _ ⟨_, _, rfl, ⟨_, _, rfl, ⟨_, _, rfl, ⟨_, ps, rfl, ⟨l, rfl, opened⟩, names, list⟩, r,
    rfl, closed⟩, b, rfl, begun⟩, ends, s, us, d, rfl, body, ended⟩
  exact ⟨l, names, ps, r, b, ends, s, us, d, by simp, opened, list, closed, begun, body, ended⟩

theorem finds_functionDeclaration {bound : Nat} (room : c.left ≤ bound)
    (fuel : 2 * c.left + 2 < depth) {k : Token} (word : k.kind = .fn) :
    let c' := c.functionDeclaration (phrase depth) bound
    Finds c c' fun ts => Stands .declaration c'.current (k :: ts) := by
  have named := (finds_parseVariable (c := c) "function").still (acts_markInitialized _)
    fun _ _ => id
  refine (named.bind (acts_routine (acts_phrase depth) bound _) fun ts stream _ =>
    finds_routine ih (by
      have := left_of_append stream
      omega) (by
      have := left_of_append stream
      omega)).still (acts_defineVariable _ _ _) ?_
  rintro - _ ⟨_, _, rfl, ⟨n, rfl, name⟩, l, names, ps, r, b, ends, s, us, d, rfl, opened, list,
    closed, begun, body, ended⟩
  exact ⟨false, _, by simpa using .define word name opened list closed begun body ended,
    by simp⟩

/-! ## Any statement, any declaration -/

omit ih in
/-- A word announces what follows. -/
theorem finds_word {c' : Compiler} {k : Category} (more : c.current.kind ≠ .eof)
    (acts : Acts true c.advance c')
    (rest : c.advance.left < c.left →
      Finds c.advance c' fun ts => Stands k c'.current (c.current :: ts)) :
    Finds c c' (Stands k c'.current) := by
  refine ((finds_advance c more).bind acts fun ts stream same => rest ?_).map ?_
  · have := left_of_append stream
    rw [same, List.length_singleton] at this
    omega
  · rintro _ ⟨_, us, rfl, rfl, stands⟩
    exact stands

theorem finds_statement (fuel : 2 * c.left < depth) :
    let c' := c.statement (phrase depth) depth
    Finds c c' (Stands .statement c'.current) := by
  have acts := acts_phrase depth
  unfold statement
  dsimp only
  split
  · rename_i word
    exact finds_word (by rw [word]; decide) (acts_printStatement acts _) fun read =>
      finds_printStatement (by omega) word
  · rename_i word
    exact finds_word (by rw [word]; decide) (acts_ifStatement acts _) fun read =>
      finds_ifStatement ih (by omega) word
  · rename_i word
    exact finds_word (by rw [word]; decide) (acts_whileStatement acts _) fun read =>
      finds_whileStatement ih (by omega) word
  · rename_i word
    exact finds_word (by rw [word]; decide) (acts_forStatement acts _) fun read =>
      finds_forStatement ih (by omega) word
  · rename_i word
    exact finds_word (by rw [word]; decide) (acts_returnStatement acts _) fun read =>
      finds_returnStatement (by omega) word
  · rename_i word
    exact finds_word (by rw [word]; decide) (acts_breakStatement _) fun read =>
      finds_breakStatement word
  · rename_i word
    exact finds_word (by rw [word]; decide) (acts_continueStatement _) fun read =>
      finds_continueStatement word
  · rename_i word
    exact finds_word (by rw [word]; decide) (acts_blockStatement acts depth _) fun read =>
      finds_blockStatement ih (by omega) (by omega) word
  · refine (finds_expressionStatement fuel).map ?_
    rintro _ ⟨p, e, us, m, rfl, written, closed⟩
    exact ⟨_, _, .expression written closed, by simp⟩

theorem finds_declaration (fuel : 2 * c.left + 1 < depth) :
    let c' := c.declaration (phrase depth) depth
    Finds c c' (Stands .declaration c'.current) := by
  have acts := acts_phrase depth
  have bound (assignable : Bool) (word : c.current.kind = if assignable then .var else .const) :
      Finds c (c.advance.variableDeclaration (phrase depth) assignable) (Stands .declaration
        (c.advance.variableDeclaration (phrase depth) assignable).current) := by
    refine finds_word (by rw [word]; cases assignable <;> decide)
      (acts_variableDeclaration acts _ _) fun read => ?_
    refine (finds_variableDeclaration assignable (by omega) word).map ?_
    rintro us ⟨s, written⟩
    exact ⟨false, _, .declare written, by simp⟩
  unfold declaration
  extract_lets c₁ c'
  have found : Finds c c₁ (Stands .declaration c₁.current) := by
    unfold c₁
    split
    · rename_i word
      exact finds_word (by rw [word]; decide) (acts_functionDeclaration acts depth _) fun read =>
        finds_functionDeclaration ih (by omega) (by omega) word
    · rename_i word
      exact bound true word
    · rename_i word
      exact bound false word
    · exact finds_report (acts_advance c)
    · refine (ih.statement fuel).map ?_
      rintro us ⟨ends, s, written, apart⟩
      exact ⟨ends, s, .statement written, apart⟩
  have follow : Acts true c₁ c' := by
    unfold c'
    split
    · exact acts_synchronize _
    · exact .refl
  -- Without a report there is no panic to recover from.
  refine ⟨found.acts.trans follow, fun quiet ended => ?_⟩
  have calm := quiet.split found.acts follow
  have same : c' = c₁ := if_neg (by rw [calm.2.1]; decide)
  rw [same]
  exact found.finds calm.1 ended

end

/-- Statements and declarations are read as they are written, however deeply they nest. -/
theorem recognizes_all (depth : Nat) : RecognizesAll depth := by
  induction depth with
  | zero => exact ⟨fun _ fuel => absurd fuel (Nat.not_lt_zero _), fun _ fuel =>
      absurd fuel (Nat.not_lt_zero _)⟩
  | succ depth ih =>
      exact ⟨fun c fuel => finds_statement ih (by omega), fun c fuel =>
        finds_declaration ih (by omega)⟩

end Compiler
end StackScript
